/-
What a run leaves alone. One without rules makes nothing but its log; one with rules
prepares its report directory, and then writes to the paths of its reports and its
log (`WritesTo`). So a place outside the report directory holds after the run what
it held before, unless a file is made there under one of these paths (`run_later`).

The baseline is spared when the report directory is cleared (`run_keeps_baseline`),
but nothing keeps a report from being written over it (`run_overwrites_baseline`).
-/
import MemberAudit.Proofs.Audit.Stages
import MemberAudit.Proofs.Report.KeptFiles

namespace MemberAudit.Audit

open FileTree (AgreeOn Later agreeOn_of_write?)

variable {call : List String} {tree : FileTree} {a : Arguments} {config path : String} {m : Location}
  {content : ByteArray}

/-! ## What a run writes to -/

/-- The file of rules that a run uses. -/
def configOf (tree : FileTree) (a : Arguments) : Option String :=
  a.config <|> nearestConfig tree a.input

/-- The tree that a run scans. If there are rules, its report directory is prepared. -/
def preparedOf (tree : FileTree) (a : Arguments) : FileTree :=
  (prepareReports tree (configOf tree a).isSome (reportDirOf a) (baselinePathOf a)).1

theorem preparedOf_none (h : configOf tree a = none) : preparedOf tree a = tree := by
  rw [preparedOf, h]
  rfl

theorem preparedOf_some (h : configOf tree a = some config) : preparedOf tree a = scanned tree a := by
  rw [preparedOf, h]
  exact prepareReports_true ..

/-- The violations that a run logs: those that it reports, if it has rules. -/
def loggedOf (tree : FileTree) (a : Arguments) (inventory : Inventory) : List Violation :=
  match configOf tree a with
  | some config => resultsOf tree a config inventory
  | none => []

/-- The log of a run in its text. -/
def logText (call : List String) (tree : FileTree) (a : Arguments) (inventory : Inventory) : String :=
  Report.document (Sarif.log call inventory.artifacts (loggedOf tree a inventory))

/-- The paths that a run writes to: those of its reports, if there are rules, and
that of its log. -/
inductive WritesTo (tree : FileTree) (a : Arguments) : String → Prop where
  | report {config : String} {inventory : Inventory} {format : Report.Format} {file : String × String} :
      configOf tree a = some config →
      (Inventory.take (scanned tree a) a.input).2 = .ok inventory →
      file ∈ Report.files format (loadRules tree a.input (some config)).2.grain
        (a.projectName.getD (projectOf (scanned tree a) a.input)) (leftOf tree a config inventory) →
      WritesTo tree a (Path.child (reportDirOf a) file.1)
  | log {path : String} : a.output = some path → isStandardOutput path = false → WritesTo tree a path

/-- In the report directory a run over all owners writes to two paths only. -/
theorem WritesTo.of_single (h : WritesTo tree a path) (hconfig : configOf tree a = some config)
    (hgrain : (loadRules tree a.input (some config)).2.grain = .single) :
    path = Path.child (reportDirOf a) "all.json" ∨ path = Path.child (reportDirOf a) "all.html" ∨
      a.output = some path := by
  cases h with
  | log houtput _ => exact .inr (.inr houtput)
  | report hfound htake hmem =>
    obtain rfl := Option.some.inj (hfound.symm.trans hconfig)
    rw [hgrain] at hmem
    rcases Report.name_of_mem_files hmem with hname | hname
    · exact .inl (by rw [hname])
    · exact .inr (.inl (by rw [hname]))

/-- The tree with the reports of a run, from the one that it scans. -/
inductive Reported (tree : FileTree) (a : Arguments) : FileTree → Prop where
  | none : configOf tree a = none → Reported tree a tree
  | written {config : String} {inventory : Inventory} : configOf tree a = some config →
      (Inventory.take (scanned tree a) a.input).2 = .ok inventory →
      Reported tree a (writtenOf tree a config inventory).tree

/-- How far a run gets: no input, no inventory, or a log of what it reports. -/
inductive Ends (call : List String) (tree : FileTree) (a : Arguments) (result : Run) : Prop where
  | noInput : tree.hasPath a.input = false → result.tree = tree →
      result.outcome = .error (.inputNotFound a.input) → Ends call tree a result
  | noInventory {fault : ScanFault} : tree.hasPath a.input = true →
      (Inventory.take (preparedOf tree a) a.input).2 = .error fault →
      result.tree = preparedOf tree a → result.outcome = .error (.scan fault) → Ends call tree a result
  | log {inventory : Inventory} {reports : FileTree} : tree.hasPath a.input = true →
      (Inventory.take (preparedOf tree a) a.input).2 = .ok inventory → Reported tree a reports →
      result.tree = (emit reports a.output (logText call tree a inventory)).1 →
      result.outcome = ((emit reports a.output (logText call tree a inventory)).2.map fun text =>
        (text, ⟨inventory.classCount, inventory.artifacts.length, (loggedOf tree a inventory).length⟩)) →
      Ends call tree a result

theorem run_ends (call : List String) (tree : FileTree) (a : Arguments) :
    Ends call tree a (run call tree a) := by
  cases hpath : tree.hasPath a.input with
  | false => exact .noInput hpath (by simp [run, runWith, hpath]) (by simp [run, runWith, hpath])
  | true =>
    cases hconfig : configOf tree a with
    | none =>
      have hprepared := preparedOf_none hconfig
      cases htake : (Inventory.take tree a.input).2 with
      | error fault =>
        obtain ⟨htree, houtcome⟩ : (run call tree a).tree = tree ∧
            (run call tree a).outcome = .error (.scan fault) := by
          unfold run runWith
          rw [configOf] at hconfig
          simp only [hpath, hconfig, Option.isSome_none, prepareReports, Bool.false_eq_true, ite_false,
            htake]
          exact ⟨rfl, rfl⟩
        exact .noInventory hpath (by rwa [hprepared]) (htree.trans hprepared.symm) houtcome
      | ok inventory =>
        have hlogged : loggedOf tree a inventory = [] := by rw [loggedOf, hconfig]
        obtain ⟨htree, houtcome⟩ := run_without_rules call hconfig hpath htake
        exact .log hpath (hprepared ▸ htake) (.none hconfig) (by rw [logText, hlogged, htree])
          (by rw [logText, hlogged, houtcome]; rfl)
    | some config =>
      have hprepared := preparedOf_some hconfig
      cases htake : (Inventory.take (scanned tree a) a.input).2 with
      | error fault =>
        obtain ⟨htree, houtcome⟩ : (run call tree a).tree = scanned tree a ∧
            (run call tree a).outcome = .error (.scan fault) := by
          unfold run runWith
          rw [configOf] at hconfig
          simp only [hpath, hconfig, Option.isSome_some, prepareReports_true, scanned_eq, htake]
          exact ⟨rfl, rfl⟩
        exact .noInventory hpath (by rwa [hprepared]) (htree.trans hprepared.symm) houtcome
      | ok inventory =>
        have hlogged : loggedOf tree a inventory = resultsOf tree a config inventory := by
          rw [loggedOf, hconfig]
        have hrun := run_of_take call hconfig hpath htake
        exact .log hpath (hprepared ▸ htake) (.written hconfig htake)
          (by rw [logText, hlogged, hrun]; rfl) (by rw [logText, hlogged, hrun]; rfl)

theorem run_tree (call : List String) (tree : FileTree) (a : Arguments) :
    (run call tree a).tree = tree ∨ (run call tree a).tree = preparedOf tree a ∨
      ∃ reports log, Reported tree a reports ∧
        (run call tree a).tree = (emit reports a.output log).1 := by
  cases run_ends call tree a with
  | noInput _ htree _ => exact .inl htree
  | noInventory _ _ htree _ => exact .inr (.inl htree)
  | log _ _ hreports htree _ => exact .inr (.inr ⟨_, _, hreports, htree⟩)

/-! ## What a run keeps -/

/-- Whether a place is directly in the report directory of a run with rules. -/
structure InReportDir (tree : FileTree) (a : Arguments) (m : Location) : Prop where
  rules : configOf tree a ≠ none
  child : ∃ l name, (preparedOf tree a).Opens (reportDirOf a) l ∧ m = l ++ [name]

/-- Whether a run leaves what is at a place: it is not cleared away with the files of
the report directory, and no file is made there. -/
structure Untouched (tree : FileTree) (a : Arguments) (m : Location) : Prop where
  spared : ¬InReportDir tree a m ∨ tree.resolve (baselinePathOf a) = .ok m
  unwritten : ∀ path, WritesTo tree a path → ¬(preparedOf tree a).Makes path m

theorem preparedOf_spec (hwf : tree.root.WellFormed) (a : Arguments) :
    Later (fun m => ¬InReportDir tree a m ∨ tree.resolve (baselinePathOf a) = .ok m) tree
        (preparedOf tree a) ∧
      ∀ m content, (preparedOf tree a).root.fileAt m = some content →
        tree.root.fileAt m = some content := by
  cases hconfig : configOf tree a with
  | none =>
    rw [preparedOf_none hconfig]
    exact ⟨.refl hwf, fun _ _ hfile => hfile⟩
  | some config =>
    have hprepared := preparedOf_some hconfig
    obtain ⟨hlater, hold⟩ := Report.prepare_spec hwf (reportDirOf a) (baselinePathOf a)
    rw [hprepared]
    refine ⟨hlater.mono fun m hm => hm.imp ?_ id, hold⟩
    intro hout l name hopens heq
    exact hout ⟨by simp [hconfig], l, name, hprepared ▸ hopens, heq⟩

/-- The reports change no place at which none of them is made. -/
theorem Reported.agreeOn {reports : FileTree} (h : Reported tree a reports) (hwf : tree.root.WellFormed) :
    AgreeOn (Untouched tree a) (preparedOf tree a) reports := by
  have hprepared := (preparedOf_spec hwf a).1.wellFormed
  cases h with
  | none hconfig =>
    rw [preparedOf_none hconfig]
    exact .refl hwf
  | written hconfig htake =>
    rw [preparedOf_some hconfig] at hprepared ⊢
    refine Report.agreeOn_write hprepared ?_
    intro format file hmem m hm
    exact preparedOf_some hconfig ▸ hm.unwritten _ (.report hconfig htake hmem)

/-- The log changes no place at which it is not made. -/
theorem agreeOn_emit {places : Location → Prop} {log : String} (hwf : tree.root.WellFormed)
    (houtput : ∀ path, a.output = some path → isStandardOutput path = false →
      ∀ m, places m → ¬tree.Makes path m) :
    AgreeOn places tree (emit tree a.output log).1 := by
  cases hpath : a.output with
  | none => exact .refl hwf
  | some path =>
    rw [emit]
    split
    · exact .refl hwf
    · rename_i hstandard
      split
      · rename_i written hwrite
        exact agreeOn_of_write? hwf (houtput path hpath (by simpa using hstandard)) hwrite
      · exact .refl hwf

/-- From the tree that it scans on, a run changes files only where it makes them. -/
theorem run_agreeOn (call : List String) (hwf : tree.root.WellFormed) (a : Arguments) :
    (run call tree a).tree = tree ∨
      AgreeOn (Untouched tree a) (preparedOf tree a) (run call tree a).tree := by
  rcases run_tree call tree a with hrun | hrun | hrun
  · exact .inl hrun
  · right
    rw [hrun]
    exact .refl (preparedOf_spec hwf a).1.wellFormed
  · right
    obtain ⟨reports, log, hreports, hrun⟩ := hrun
    rw [hrun]
    have hagree := hreports.agreeOn hwf
    refine hagree.trans (agreeOn_emit hagree.right ?_)
    intro path hpath hstandard m hm hmakes
    exact hm.unwritten path (.log hpath hstandard) (hagree.makes.mpr hmakes)

/-- **What a run does to a tree:** it makes directories, and changes files only where
it clears them away or makes them. -/
theorem run_later (call : List String) (hwf : tree.root.WellFormed) (a : Arguments) :
    Later (Untouched tree a) tree (run call tree a).tree := by
  rcases run_agreeOn call hwf a with hrun | hagree
  · rw [hrun]
    exact .refl hwf
  · exact ((preparedOf_spec hwf a).1.mono fun m hm => hm.spared).trans_agreeOn hagree

/-- A file that is what it was, also for the paths that led to it. -/
structure Stays (m : Location) (content : ByteArray) (before after : FileTree) : Prop where
  file : after.root.fileAt m = some content
  read : ∀ path, before.resolve path = .ok m → after.read? path = some content

theorem Untouched.stays (h : Untouched tree a m) (call : List String) (hwf : tree.root.WellFormed)
    (hfile : tree.root.fileAt m = some content) : Stays m content tree (run call tree a).tree where
  file := ((run_later call hwf a).fileAt h).trans hfile
  read _ hresolve := (run_later call hwf a).read? h hfile hresolve

/-! ## The baseline -/

/-- **A run keeps its baseline** if no file is made in its place. -/
theorem run_keeps_baseline (call : List String) (hwf : tree.root.WellFormed)
    (hbaseline : tree.resolve (baselinePathOf a) = .ok m) (hfile : tree.root.fileAt m = some content)
    (hwrites : ∀ path, WritesTo tree a path → ¬(preparedOf tree a).Makes path m) :
    Stays m content tree (run call tree a).tree :=
  Untouched.stays ⟨.inr hbaseline, hwrites⟩ call hwf hfile

/-! An input without classes, and a report directory with one file. -/

def reviewTree (name : String) (content : ByteArray) : FileTree :=
  ⟨.directory [("work", .directory
    [("classes", .directory []), (configName, .file "\x7b\x7d".toUTF8),
      ("reports", .directory [(name, .file content)])])], ["work"]⟩

def reviewArguments (baseline : Option String) : Arguments :=
  { input := "classes", reportDir := some "reports", baseline }

theorem wellFormed_reviewTree (name : String) (content : ByteArray) :
    (reviewTree name content).root.WellFormed := by
  have hnames : "classes" ≠ configName ∧ configName ≠ "reports" := by decide
  simp [reviewTree, Node.wellFormed_directory, Node.WellFormed.file, hnames]

/-- The baseline at its usual place is not the name of a report over all owners. -/
theorem run_keeps_baseline_usual :
    let tree := reviewTree Baseline.fileName "[]".toUTF8
    Stays ["work", "reports", Baseline.fileName] "[]".toUTF8 tree
      (run [] tree (reviewArguments none)).tree := by
  intro tree
  have hbaseline : tree.resolve (baselinePathOf (reviewArguments none)) =
      .ok ["work", "reports", Baseline.fileName] :=
    Report.eq_ok_of_toOption (by decide +kernel)
  have hconfig : configOf tree (reviewArguments none) = some configName := by decide +kernel
  refine run_keeps_baseline [] (wellFormed_reviewTree _ _) hbaseline (by decide +kernel) ?_
  have hname : ∀ name, '/' ∉ name.toList →
      (preparedOf tree (reviewArguments none)).Makes (Path.child "reports" name)
        (["work", "reports"] ++ [Baseline.fileName]) → Baseline.fileName = name := by
    intro name hslash hmakes
    obtain ⟨l, -, hm⟩ := FileTree.opens_of_makes_child hslash hmakes
    exact List.singleton_inj.mp (List.append_inj' hm rfl).2
  intro path hwrites hmakes
  rcases hwrites.of_single hconfig (by decide +kernel) with rfl | rfl | houtput
  · exact absurd (hname _ (by decide) hmakes) (by decide)
  · exact absurd (hname _ (by decide) hmakes) (by decide)
  · cases houtput

/-- A baseline that is the report over all owners of a run before: what it accepts is
lost, for the run writes the report anew. -/
theorem run_overwrites_baseline :
    let accepted := "[[\x7b\"ownerClassName\":\"Store\",\"ownerClassMethodName\":\"void put()\"\x7d]]".toUTF8
    let tree := reviewTree "all.json" accepted
    let a := reviewArguments (some "reports/all.json")
    tree.read? (baselinePathOf a) = some accepted ∧ a.output = none ∧
      (run [] tree a).outcome.isOk = true ∧
      (run [] tree a).tree.read? (baselinePathOf a) = some "[]\n".toUTF8 := by
  decide +kernel

end MemberAudit.Audit
