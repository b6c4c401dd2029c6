/-
The rules of a run later on. Between a tree and a later one directories may be
made and the files of a report directory changed (`Carried`); what is elsewhere is
then read as before, and the rules of a run, whether given or found by itself, are found
again (`rules_of_carried`).
-/
import MemberAudit.Audit
import MemberAudit.Proofs.Report.OwnFiles

namespace MemberAudit

open FileTree (locationOf names)
open Report (isOwn)

/-! ## Trees that differ in a report directory -/

/-- A tree and a later one in which directories were made and no file was changed
but those of a report directory, where only files of the program's own are new. -/
structure Carried (directory : String) (before after : FileTree) : Prop where
  home : after.home = before.home
  grown : ∃ made : Node, Grown before.root made ∧
    SameBut (fun _ => true) (locationOf before.home directory) made after.root
  noNewFile : ∀ m content,
    (∀ name, isOwn name = true → m ≠ locationOf before.home directory ++ [name]) →
      after.root.fileAt m = some content → before.root.fileAt m = some content

namespace Carried

variable {directory path : String} {before after : FileTree}

/-- What is there, and not in the report directory, is still there. -/
theorem kindAt (h : Carried directory before after) {m : Location} {kind : Bool}
    (hm : ∀ name, m ≠ locationOf before.home directory ++ [name])
    (hkind : before.root.kindAt m = some kind) : after.root.kindAt m = some kind := by
  obtain ⟨made, hgrown, hsame⟩ := h.grown
  rw [← hsame.kindAt_eq fun name _ => hm name]
  exact hgrown.kindAt m kind hkind

theorem resolve (h : Carried directory before after) {m : Location} (hup : ".." ∉ names path)
    (hm : ∀ name, m ≠ locationOf before.home directory ++ [name])
    (hresolve : before.resolve path = .ok m) (hthere : (before.root.kindAt m).isSome) :
    after.resolve path = .ok m := by
  obtain ⟨kind, hkind⟩ := Option.isSome_iff_exists.mp hthere
  refine FileTree.resolve_congr hup h.home (fun l hl => ?_) hresolve
  rw [← FileTree.eq_locationOf_of_resolve hup hresolve] at hl
  obtain ⟨made, hgrown, hsame⟩ := h.grown
  by_cases heq : l = m
  · rw [heq, hkind, h.kindAt hm hkind]
  · have hdir := Node.kindAt_above hl heq hthere
    rw [hdir, hsame.kindAt_eq_true.mp (hgrown.kindAt l true hdir)]

/-- A path to something keeps leading to a directory, or to none. -/
theorem hasPath_hasDirectory (h : Carried directory before after) (hup : ".." ∉ names path)
    (hm : ∀ name, locationOf before.home path ≠ locationOf before.home directory ++ [name])
    (hpath : before.hasPath path = true) :
    after.hasPath path = true ∧ after.hasDirectory path = before.hasDirectory path := by
  obtain ⟨m, hresolve, hthere⟩ := FileTree.hasPath_iff.mp hpath
  obtain rfl := FileTree.eq_locationOf_of_resolve hup hresolve
  have hresolve' := h.resolve hup hm hresolve hthere
  obtain ⟨kind, hkind⟩ := Option.isSome_iff_exists.mp hthere
  have hkind' := h.kindAt hm hkind
  refine ⟨FileTree.hasPath_iff.mpr ⟨_, hresolve', by rw [hkind']; rfl⟩, ?_⟩
  rw [Bool.eq_iff_iff, FileTree.hasDirectory_iff, FileTree.hasDirectory_iff]
  simp only [hresolve, hresolve', Except.ok.injEq, exists_eq_left', hkind, hkind']

/-- A file that is read later was there before, unless it is one of the program's own. -/
theorem read?_before (h : Carried directory before after) (hup : ".." ∉ names path)
    (hm : ∀ name, isOwn name = true →
      locationOf before.home path ≠ locationOf before.home directory ++ [name])
    {content : ByteArray} (hread : after.read? path = some content) :
    before.read? path = some content := by
  refine FileTree.read?_congr hup h.home.symm (h.noNewFile _ content ?_ ?_) hread
  · rw [h.home]
    exact hm
  · exact FileTree.fileAt_of_read? hup hread

/-- A file outside the report directory is the same. -/
theorem read?_eq (h : Carried directory before after) (hup : ".." ∉ names path)
    (hm : ∀ name, locationOf before.home path ≠ locationOf before.home directory ++ [name]) :
    after.read? path = before.read? path := by
  refine Option.ext fun content => ⟨h.read?_before hup fun name _ => hm name, fun hread => ?_⟩
  refine FileTree.read?_congr hup h.home ?_ hread
  obtain ⟨made, hgrown, hsame⟩ := h.grown
  rw [← hsame.fileAt_eq fun name _ => hm name, hgrown.fileAt]
  exact FileTree.fileAt_of_read? hup hread

end Carried

namespace Audit

/-! ## The rules -/

theorem plainName_configName : FileTree.PlainName configName := by
  constructor <;> decide

theorem isOwn_configName : isOwn configName = false := by decide

/-- The file of rules is looked for in directories without a step up. -/
theorem mem_candidates {first input path : String} {tree : FileTree} (hup : ".." ∉ names input)
    (hfirst : (if tree.hasDirectory input then some input else Path.parent? input) = some first)
    (hpath : path ∈ (Path.ancestors first).map fun directory => Path.child directory configName) :
    ∃ directory, ".." ∉ names directory ∧ path = Path.child directory configName := by
  obtain ⟨directory, hmem, rfl⟩ := List.mem_map.mp hpath
  have hfirstUp : ".." ∉ names first := by
    split at hfirst
    · cases hfirst
      exact hup
    · exact FileTree.up_not_mem_parent hup hfirst
  exact ⟨directory, FileTree.up_not_mem_ancestors hfirstUp directory hmem, rfl⟩

theorem up_not_mem_nearestConfig {tree : FileTree} {input config : String} (hup : ".." ∉ names input)
    (h : nearestConfig tree input = some config) : ".." ∉ names config := by
  obtain ⟨first, hfirst, hfind⟩ := Option.bind_eq_some_iff.mp h
  obtain ⟨directory, hdirectory, rfl⟩ := mem_candidates hup hfirst (List.mem_of_find?_eq_some hfind)
  exact FileTree.up_not_mem_child hdirectory plainName_configName

/-- The file of rules that is found by itself is found again: no nearer one is new. -/
theorem nearestConfig_of_carried {directory input config : String} {before after : FileTree}
    (h : Carried directory before after) (hup : ".." ∉ names input)
    (hdirectory : after.hasDirectory input = before.hasDirectory input)
    (hm : ∀ name, locationOf before.home config ≠ locationOf before.home directory ++ [name])
    (hconfig : nearestConfig before input = some config) :
    nearestConfig after input = some config := by
  have hconfigUp := up_not_mem_nearestConfig hup hconfig
  obtain ⟨first, hfirst, hfind⟩ := Option.bind_eq_some_iff.mp hconfig
  obtain ⟨hfile, nearer, farther, hsplit, hnearer⟩ := List.find?_eq_some_iff_append.mp hfind
  refine Option.bind_eq_some_iff.mpr ⟨first, hdirectory ▸ hfirst, ?_⟩
  refine List.find?_eq_some_iff_append.mpr ⟨?_, nearer, farther, hsplit, fun path hpath => ?_⟩
  · obtain ⟨content, hcontent⟩ := FileTree.hasFile_iff.mp hfile
    exact FileTree.hasFile_iff.mpr ⟨content, (h.read?_eq hconfigUp hm).trans hcontent⟩
  · have hmem : path ∈ (Path.ancestors first).map fun directory => Path.child directory configName := by
      rw [hsplit]
      exact List.mem_append_left _ hpath
    obtain ⟨above, habove, rfl⟩ := mem_candidates hup hfirst hmem
    have hnone := hnearer _ hpath
    cases hafter : after.hasFile (Path.child above configName) with
    | false => rfl
    | true =>
      obtain ⟨content, hcontent⟩ := FileTree.hasFile_iff.mp hafter
      have hbefore := h.read?_before (FileTree.up_not_mem_child habove plainName_configName)
        (fun name hown heq => ?_) hcontent
      · simp [FileTree.hasFile_iff.mpr ⟨content, hbefore⟩] at hnone
      · obtain ⟨l, hl⟩ := FileTree.exists_locationOf_child before.home above plainName_configName
        obtain ⟨-, hname⟩ := List.append_inj' (hl.symm.trans heq) rfl
        rw [← List.singleton_inj.mp hname, isOwn_configName] at hown
        cases hown

/-- The input is still there, and the same rules are found and read again. -/
theorem rules_of_carried {directory config : String} {before after : FileTree} {a : Arguments}
    (h : Carried directory before after) (hinputUp : ".." ∉ names a.input)
    (hconfigUp : ∀ path ∈ a.config, ".." ∉ names path)
    (hinput : ∀ name, locationOf before.home a.input ≠ locationOf before.home directory ++ [name])
    (hm : ∀ name, locationOf before.home config ≠ locationOf before.home directory ++ [name])
    (hpath : before.hasPath a.input = true)
    (hconfig : (a.config <|> nearestConfig before a.input) = some config) :
    after.hasPath a.input = true ∧ (a.config <|> nearestConfig after a.input) = some config ∧
      loadRules after a.input (some config) = loadRules before a.input (some config) := by
  obtain ⟨hpath', hdirectory⟩ := h.hasPath_hasDirectory hinputUp hinput hpath
  have hfound : ".." ∉ names config ∧ (a.config <|> nearestConfig after a.input) = some config := by
    cases hgiven : a.config with
    | some path =>
      rw [hgiven] at hconfig
      obtain rfl : path = config := Option.some.inj hconfig
      exact ⟨hconfigUp path hgiven, rfl⟩
    | none =>
      rw [hgiven] at hconfig
      have hnearest : nearestConfig before a.input = some config := hconfig
      exact ⟨up_not_mem_nearestConfig hinputUp hnearest,
        nearestConfig_of_carried h hinputUp hdirectory hm hnearest⟩
  refine ⟨hpath', hfound.2, ?_⟩
  rw [loadRules, loadRules, h.read?_eq hfound.1 hm]

end Audit

end MemberAudit
