/-
Where the file of rules is found. It should be in the input's directory or in the nearest
directory above that has one (`nearestRules`). The search goes up the path as it is
written, and so back on the way that leads to the input: it finds the file of the last
directory on the way that has one (`lastRules`), and that is the nearest exactly if it is
the input's directory or above it (`nearestConfig_resolves`).

A path without a step up comes through such directories only. One with a step up may come
through others, and their files of rules are found too (`nearestConfig_resolves_up`).
-/
import MemberAudit.Proofs.Audit.Rules
import MemberAudit.Proofs.FileTree.Ways

namespace MemberAudit

open FileTree (names)

/-- The directory of a location: itself, or the one that it stands in. -/
def Node.directoryOf (root : Node) (l : Location) : Location :=
  if root.kindAt l = some true then l else l.dropLast

theorem Node.directoryOf_above (root : Node) (l : Location) : root.directoryOf l <+: l := by
  unfold Node.directoryOf
  split
  · exact List.prefix_refl l
  · exact List.dropLast_prefix l

/-- A directory that leads to a location leads to the directory of the location. -/
theorem Node.prefix_directoryOf {root : Node} {m l : Location} (h : m <+: l)
    (hdir : root.kindAt m = some true) : m <+: root.directoryOf l := by
  unfold Node.directoryOf
  split
  · exact h
  · rename_i hfile
    obtain ⟨rest, rfl⟩ := h
    have hrest : rest ≠ [] := by
      rintro rfl
      exact hfile (by rwa [List.append_nil])
    rw [List.dropLast_append_of_ne_nil hrest]
    exact List.prefix_append _ _

/-- Only a directory has a file. -/
theorem Node.kindAt_of_holds {root : Node} {name : String} {l : Location}
    (h : root.holds name l = true) : root.kindAt l = some true := by
  obtain ⟨content, hcontent⟩ := Option.isSome_iff_exists.mp h
  exact Node.kindAt_above (List.prefix_append l [name]) (by simp) (Node.isSome_kindAt_of_fileAt hcontent)

namespace Audit

/-- A location and those above it, not higher than `top`, the nearest first. -/
def upward (top l : Location) : List Location :=
  l.inits.reverse.filter fun m => top <+: m

/-- The nearest directory with a file of rules, from a directory up to `top`. -/
def nearestRules (root : Node) (top directory : Location) : Option Location :=
  (upward top directory).find? (root.holds configName)

/-- The last directory with a file of rules on the way to an input. -/
def lastRules (tree : FileTree) (input : String) : Option Location :=
  (tree.root.wayBack (tree.start input) (names input)).find? (tree.root.holds configName)

variable {tree : FileTree} {input : String} {top directory l m : Location}

theorem nearestRules_eq_some {root : Node} :
    nearestRules root top directory = some m ↔
      top <+: m ∧ m <+: directory ∧ root.holds configName m = true ∧
        ∀ n, top <+: n → n <+: directory → m.length < n.length → root.holds configName n = false := by
  rw [nearestRules, upward, List.find?_filter, find?_reverse_inits]
  simp only [decide_eq_true_eq, decide_eq_false_iff_not, not_and, Bool.not_eq_true]
  constructor
  · intro h
    obtain ⟨hm, ⟨htop, hholds⟩, hnearest⟩ := h
    exact ⟨htop, hm, hholds, fun n hn hle hlt => hnearest n hle hlt hn⟩
  · intro h
    obtain ⟨htop, hm, hholds, hnearest⟩ := h
    exact ⟨hm, ⟨htop, hholds⟩, fun n hle hlt hn => hnearest n hn hle hlt⟩

theorem nearestRules_eq_none {root : Node} :
    nearestRules root top directory = none ↔
      ∀ n, top <+: n → n <+: directory → root.holds configName n = false := by
  simp only [nearestRules, upward, List.find?_eq_none, List.mem_filter, List.mem_reverse, List.mem_inits,
    decide_eq_true_eq, Bool.not_eq_true]
  exact ⟨fun h n hn hle => h n ⟨hle, hn⟩, fun h n hn => h n hn.2 hn.1⟩

/-- The search goes back on the way to the input. -/
theorem map_resolve_nearestConfig (hresolve : tree.resolve input = .ok l)
    (hthere : (tree.root.kindAt l).isSome) :
    (nearestConfig tree input).map tree.resolve =
      (lastRules tree input).map fun m => .ok (m ++ [configName]) := by
  obtain ⟨hne, -, hwalk⟩ := FileTree.resolve_eq_ok.mp hresolve
  by_cases hdir : tree.root.kindAt l = some true
  · have hhas : tree.hasDirectory input = true := FileTree.hasDirectory_iff.mpr ⟨l, hresolve, hdir⟩
    have hfirst : nearestConfig tree input = tree.firstFile configName (Path.ancestors input) := by
      rw [nearestConfig, hhas]
      rfl
    rw [hfirst]
    exact FileTree.firstFile_ancestors plainName_configName
      ((FileTree.opens_iff_resolve hne).mpr ⟨hresolve, hdir⟩)
  · have hhas : ¬tree.hasDirectory input = true := by
      rw [FileTree.hasDirectory_iff]
      rintro ⟨m, hm, hkind⟩
      obtain rfl := Except.ok.inj (hresolve.symm.trans hm)
      exact hdir hkind
    cases hparent : Path.parent? input with
    | none =>
      obtain ⟨rfl, -⟩ := FileTree.find?_wayBack_of_no_parent (P := fun _ => true) hparent hwalk
      exact absurd (FileTree.kindAt_start_of_resolve hresolve) hdir
    | some parent =>
      obtain ⟨above, habove⟩ := FileTree.opens_parent hresolve hparent
      have hfirst : nearestConfig tree input = tree.firstFile configName (Path.ancestors parent) := by
        rw [nearestConfig, if_neg hhas, hparent]
        rfl
      have hfile : tree.root.holds configName l = false :=
        Bool.eq_false_iff.mpr (mt Node.kindAt_of_holds hdir)
      rw [hfirst, FileTree.firstFile_ancestors plainName_configName habove, lastRules,
        FileTree.find?_wayBack_parent? hparent hwalk, List.find?_cons, hfile]

/-- On the way to an input are its directory and all those above it from where the way
starts, and nearer ones come later. -/
theorem lastRules_eq_nearestRules (hresolve : tree.resolve input = .ok l)
    (hbetween : ∀ m ∈ lastRules tree input, tree.start input <+: m ∧ m <+: tree.root.directoryOf l) :
    lastRules tree input = nearestRules tree.root (tree.start input) (tree.root.directoryOf l) := by
  have hwalk := (FileTree.resolve_eq_ok.mp hresolve).2.2
  have hbelow := tree.root.directoryOf_above l
  cases hlast : lastRules tree input with
  | none =>
    refine (nearestRules_eq_none.mpr fun n htop hn => ?_).symm
    have hway := Node.mem_wayBack_of_walk hwalk (hn.trans hbelow) fun hle => List.IsPrefix.eq_of_length hle
      (Nat.le_antisymm hle.length_le htop.length_le)
    simpa using List.find?_eq_none.mp hlast n hway
  | some m =>
    obtain ⟨htop, hm⟩ := hbetween m hlast
    refine (nearestRules_eq_some.mpr ⟨htop, hm, List.find?_some hlast, fun n _ hn hlt => ?_⟩).symm
    obtain ⟨front, after, hnames, hfront, hlater⟩ := Node.find?_wayBack_eq_some hlast
    rw [hnames, Node.walk_append_eq_ok] at hwalk
    obtain ⟨m', hm', hafter⟩ := hwalk
    obtain rfl := Except.ok.inj (hfront.symm.trans hm')
    have hway : n ∈ tree.root.wayBack m after := Node.mem_wayBack_of_walk hafter (hn.trans hbelow)
      fun hle => absurd hle.length_le (Nat.not_le_of_lt hlt)
    refine Bool.eq_false_iff.mpr fun hholds => ?_
    rw [hlater n hway hholds] at hlt
    exact Nat.lt_irrefl _ hlt

/-- A path without a step up comes only through directories from where it starts down to
the input. -/
theorem between_of_up_not_mem (hup : ".." ∉ names input) (hresolve : tree.resolve input = .ok l) :
    ∀ m ∈ lastRules tree input, tree.start input <+: m ∧ m <+: tree.root.directoryOf l := by
  intro m hlast
  have hwalk := (FileTree.resolve_eq_ok.mp hresolve).2.2
  obtain ⟨htop, hm⟩ := Node.between_of_mem_wayBack hup hwalk (List.mem_of_find?_eq_some hlast)
  exact ⟨htop, Node.prefix_directoryOf hm (Node.kindAt_of_holds (List.find?_some hlast))⟩

theorem nearestRules_between {root : Node} (h : nearestRules root top directory = some m) :
    top <+: m ∧ m <+: directory := by
  obtain ⟨htop, hm, -⟩ := nearestRules_eq_some.mp h
  exact ⟨htop, hm⟩

/-- **The file of rules that is found** for an input that is there stands in the last
directory with such a file on the way to the input, and none is found if there is no such
directory. It is the file of the nearest directory, from the input's own up to where the
path starts, exactly if it stands in one of these, as it does for a path without a step
up, however that is spelled. -/
theorem nearestConfig_resolves (hresolve : tree.resolve input = .ok l)
    (hthere : (tree.root.kindAt l).isSome) :
    (nearestConfig tree input).map tree.resolve =
        (lastRules tree input).map (fun m => .ok (m ++ [configName])) ∧
      ((nearestConfig tree input).map tree.resolve =
          (nearestRules tree.root (tree.start input) (tree.root.directoryOf l)).map
            (fun m => .ok (m ++ [configName])) ↔
        ∀ m ∈ lastRules tree input, tree.start input <+: m ∧ m <+: tree.root.directoryOf l) ∧
      (".." ∉ names input →
        (nearestConfig tree input).map tree.resolve =
          (nearestRules tree.root (tree.start input) (tree.root.directoryOf l)).map
            (fun m => .ok (m ++ [configName]))) := by
  have hlast := map_resolve_nearestConfig hresolve hthere
  have hnearest : (∀ m ∈ lastRules tree input,
      tree.start input <+: m ∧ m <+: tree.root.directoryOf l) →
      (nearestConfig tree input).map tree.resolve =
        (nearestRules tree.root (tree.start input) (tree.root.directoryOf l)).map
          (fun m => .ok (m ++ [configName])) := by
    intro hbetween
    rw [hlast, lastRules_eq_nearestRules hresolve hbetween]
  refine ⟨hlast, ⟨fun heq m hm => ?_, hnearest⟩, fun hup => hnearest (between_of_up_not_mem hup hresolve)⟩
  rw [hlast, hm, Option.map_some, eq_comm, Option.map_eq_some_iff] at heq
  obtain ⟨m', hm', hfile⟩ := heq
  obtain rfl : m' = m := List.append_cancel_right (Except.ok.inj hfile)
  exact nearestRules_between hm'

/-! A project with rules, and a part of it with rules of its own beside one without. -/

def partsTree : FileTree :=
  ⟨.directory [("work", .directory [
    (configName, .file ⟨#[]⟩),
    ("app", .directory [
      (configName, .file ⟨#[]⟩),
      ("classes", .directory [("Main.class", .file ⟨#[]⟩)])]),
    ("docs", .directory [])])], ["work"]⟩

/-- A class has the rules of its part, also on a way through another part; the part
without rules has those of the project. -/
theorem nearestConfig_resolves_parts :
    (nearestConfig partsTree "app//classes/./Main.class").map partsTree.resolve =
        some (.ok ["work", "app", configName]) ∧
      (nearestConfig partsTree "docs/../app/classes/Main.class").map partsTree.resolve =
        some (.ok ["work", "app", configName]) ∧
      (nearestConfig partsTree "docs/.").map partsTree.resolve = some (.ok ["work", configName]) := by
  have hclass : ∀ input, partsTree.start input = ["work"] →
      nearestRules partsTree.root (partsTree.start input)
        (partsTree.root.directoryOf ["work", "app", "classes", "Main.class"]) = some ["work", "app"] := by
    intro input hstart
    rw [hstart]
    decide +kernel
  refine ⟨?_, ?_, ?_⟩
  · have hresolve := Report.eq_ok_of_toOption
      (by decide +kernel : (partsTree.resolve "app//classes/./Main.class").toOption =
        some ["work", "app", "classes", "Main.class"])
    rw [(nearestConfig_resolves hresolve (by decide +kernel)).2.2 (by decide +kernel),
      hclass _ (by decide +kernel)]
    rfl
  · have hresolve := Report.eq_ok_of_toOption
      (by decide +kernel : (partsTree.resolve "docs/../app/classes/Main.class").toOption =
        some ["work", "app", "classes", "Main.class"])
    have hlast : lastRules partsTree "docs/../app/classes/Main.class" = some ["work", "app"] := by
      decide +kernel
    rw [(nearestConfig_resolves hresolve (by decide +kernel)).2.1.mpr ?_,
      hclass _ (by decide +kernel)]
    · rfl
    · rw [hlast]
      rintro m ⟨⟩
      decide +kernel
  · have hresolve := Report.eq_ok_of_toOption
      (by decide +kernel : (partsTree.resolve "docs/.").toOption = some ["work", "docs"])
    have hdocs : nearestRules partsTree.root (partsTree.start "docs/.")
        (partsTree.root.directoryOf ["work", "docs"]) = some ["work"] := by
      decide +kernel
    rw [(nearestConfig_resolves hresolve (by decide +kernel)).2.2 (by decide +kernel), hdocs]
    rfl

/-- A project without rules, one part of which has them. -/
def partRulesTree : FileTree :=
  ⟨.directory [("work", .directory [("a", .directory [(configName, .file ⟨#[]⟩)])])], ["work"]⟩

/-- The way to the project through its part finds the rules of the part for the whole
project, for which no directory has any, and which has none if the path is a dot. -/
theorem nearestConfig_resolves_up :
    (partRulesTree.resolve "a/..").toOption = some ["work"] ∧
      nearestRules partRulesTree.root partRulesTree.home (partRulesTree.root.directoryOf ["work"]) = none ∧
      nearestConfig partRulesTree "a/.." = some "a/collector_config.json" ∧
      (partRulesTree.resolve ".").toOption = some ["work"] ∧
      nearestConfig partRulesTree "." = none := by
  decide +kernel

end Audit
end MemberAudit
