/-
A run over all owners that is started again (`run_again`). The first run leaves a tree in
which the input and the rules are what they were (`carried_of_writes`), and in which the
report directory is prepared to be the same as before. So the second run scans the same
tree, and all that follows depends on that tree and on the order in which the classes
add their uses only: the second run may come to whatever the first might have come to.

It ends as the first did, with the same log. Whether it leaves the same reports is up to
the classes: it does if they agree on the kinds of what is reported, and else some second
run does not (`run_again_otherwise`).
-/
import MemberAudit.Proofs.Arguments.Values
import MemberAudit.Proofs.Audit.Rerun
import MemberAudit.Proofs.Audit.Schedules
import MemberAudit.Proofs.Inventory.Tally
import MemberAudit.Proofs.Report.Repeat

namespace MemberAudit.Audit

open ClassFile (ofBytes_oneMethod)
open FileTree (AgreeOn AlikeOn WritesSome locationOf names)
open Report (ChildOf isOwn prepare_repeat)

variable {call : List String} {tree after : FileTree} {a : Arguments} {config : String}
  {first second : Run}

/-- The names of the reports over all owners. -/
def IsSingleReport (name : String) : Prop :=
  name = "all.json" ∨ name = "all.html"

/-- A run over all owners with its log on standard output. No path goes up, neither the
input nor the file of rules is an entry of the report directory, and the baseline is not
where a report is written. -/
structure Repeatable (tree : FileTree) (a : Arguments) : Prop where
  wellFormed : tree.root.WellFormed
  output : ∀ path ∈ a.output, isStandardOutput path = true
  grain : ∀ config, configOf tree a = some config →
    (loadRules tree a.input (some config)).2.grain = .single
  inputUp : ".." ∉ names a.input
  directoryUp : ∀ path ∈ a.reportDir, ".." ∉ names path
  configUp : ∀ path ∈ a.config, ".." ∉ names path
  baselineUp : ∀ path ∈ a.baseline, ".." ∉ names path
  inputApart : ∀ name, locationOf tree.home a.input ≠ locationOf tree.home (reportDirOf a) ++ [name]
  configApart : ∀ config, configOf tree a = some config → ∀ name,
    locationOf tree.home config ≠ locationOf tree.home (reportDirOf a) ++ [name]
  baselineApart : ∀ name, IsSingleReport name →
    locationOf tree.home (baselinePathOf a) ≠ locationOf tree.home (reportDirOf a) ++ [name]

theorem IsSingleReport.isOwn {name : String} (h : IsSingleReport name) : isOwn name = true :=
  Report.isOwn_iff.mpr (h.imp id .inl)

theorem IsSingleReport.oneName {name : String} (h : IsSingleReport name) : '/' ∉ name.toList :=
  (Report.plainName_of_isOwn h.isOwn).oneName

theorem reportDirOf_up (h : ∀ path ∈ a.reportDir, ".." ∉ names path) : ".." ∉ names (reportDirOf a) := by
  unfold reportDirOf
  cases hgiven : a.reportDir with
  | none => decide
  | some path => exact h path hgiven

theorem baselinePathOf_up (hdirectory : ".." ∉ names (reportDirOf a))
    (h : ∀ path ∈ a.baseline, ".." ∉ names path) : ".." ∉ names (baselinePathOf a) := by
  unfold baselinePathOf
  cases hgiven : a.baseline with
  | none => exact FileTree.up_not_mem_child hdirectory (Report.plainName_of_isOwn Report.isOwn_baseline)
  | some path => exact h path hgiven

/-- What a run over all owners leaves: the tree as it was, or the scanned one with reports. -/
theorem Repeatable.writes (h : Repeatable tree a) (hfirst : MayEnd call tree a first) :
    first.tree = tree ∨ tree.hasPath a.input = true ∧ ∃ config, configOf tree a = some config ∧
      WritesSome (ChildOf (reportDirOf a) IsSingleReport) (scanned tree a) first.tree := by
  by_cases hscans : ∃ config inventory, Scans tree a config inventory
  · obtain ⟨config, inventory, hscans⟩ := hscans
    obtain ⟨found, -, rfl⟩ := hscans.mayEnd_iff.mp hfirst
    refine .inr ⟨hscans.path, config, hscans.config, ?_⟩
    simp only [endWith, emit_of_standardOutput h.output]
    refine (Report.write_writesSome ..).mono ?_
    intro path hreport
    obtain ⟨format, file, hmem, rfl⟩ := hreport
    rw [h.grain _ hscans.config] at hmem
    exact ⟨file.1, Report.name_of_mem_files hmem, rfl⟩
  · obtain rfl := (mayEnd_iff_eq_run hscans).mp hfirst
    cases run_ends call tree a with
    | noInput _ htree _ => exact .inl htree
    | noInventory hpath _ htree _ =>
      rw [htree]
      cases hconfig : configOf tree a with
      | none => exact .inl (preparedOf_none hconfig)
      | some config =>
        rw [preparedOf_some hconfig]
        exact .inr ⟨hpath, config, rfl, .refl⟩
    | log hpath _ hreports htree _ =>
      cases hreports with
      | none _ =>
        rw [htree, emit_of_standardOutput h.output]
        exact .inl rfl
      | written hconfig htake => exact absurd ⟨_, _, hconfig, hpath, htake⟩ hscans

/-- Preparing makes directories, and changes the files of the report directory only. -/
theorem exists_grown_scanned (hwf : tree.root.WellFormed) (hup : ".." ∉ names (reportDirOf a)) :
    ∃ made, Grown tree.root made ∧
      SameBut (fun _ => true) (locationOf tree.home (reportDirOf a)) made (scanned tree a).root := by
  obtain ⟨hgrown, hhome, -⟩ := FileTree.createAll_madeUnder tree (reportDirOf a)
  have hmade := hgrown.wellFormed hwf
  refine ⟨_, hgrown, ?_⟩
  unfold scanned
  rcases Report.prepare_cases tree (reportDirOf a) (baselinePathOf a) with hfault | hcleared
  · obtain ⟨-, fault, hprepare⟩ := hfault
    rw [hprepare]
    exact .refl hmade
  · obtain ⟨l, hresolve, -, hprepare⟩ := hcleared
    obtain rfl := FileTree.eq_locationOf_of_resolve hup hresolve
    rw [hprepare, hhome]
    exact Report.sameBut_cleared hmade _ _

/-- After preparing and writing, all is as it was but for the report directory. -/
theorem carried_of_writes (hwf : tree.root.WellFormed) (hup : ".." ∉ names (reportDirOf a))
    (hwrites : WritesSome (ChildOf (reportDirOf a) IsSingleReport) (scanned tree a) after) :
    Carried (reportDirOf a) tree after := by
  obtain ⟨hlater, hold⟩ := Report.prepare_spec hwf (reportDirOf a) (baselinePathOf a)
  obtain ⟨made, hgrown, hcleared⟩ := exists_grown_scanned hwf hup
  have hscanned : (scanned tree a).home = tree.home := hlater.home
  have hwritten := Report.sameBut_of_writes hwrites hlater.wellFormed (fun _ hname => hname.oneName) hup
  have hagree : AgreeOn (fun m => ∀ name, isOwn name = true →
      m ≠ locationOf tree.home (reportDirOf a) ++ [name]) (scanned tree a) after := by
    refine hwrites.agreeOn hlater.wellFormed ?_
    intro path hpath m hm hmakes
    obtain ⟨name, hname, rfl⟩ := hpath
    obtain ⟨l, hopens, heq⟩ := FileTree.opens_of_makes_child hname.oneName hmakes
    obtain rfl := FileTree.locationOf_of_opens hup hopens
    rw [hscanned] at heq
    exact hm name hname.isOwn heq
  rw [hscanned] at hwritten
  refine ⟨hagree.home.symm.trans hscanned, ⟨made, hgrown, hcleared.trans hwritten⟩, ?_⟩
  intro m content hm hfile
  exact hold m content ((hagree.files m hm).trans hfile)

/-- A run depends on its rules, on the tree that it scans and on the order of additions
only. -/
theorem runWith_congr (collect : Policy → List PlacedClass → UseSet) (call : List String)
    (hconfig : configOf tree a = some config)
    (hconfig' : configOf after a = some config) (hpath : tree.hasPath a.input = true)
    (hpath' : after.hasPath a.input = true)
    (hrules : loadRules after a.input (some config) = loadRules tree a.input (some config))
    (hprepare : Report.prepare after (reportDirOf a) (baselinePathOf a) =
      Report.prepare tree (reportDirOf a) (baselinePathOf a)) :
    runWith collect call after a = runWith collect call tree a := by
  have hreports : prepareReports after true (reportDirOf a) (baselinePathOf a) =
      prepareReports tree true (reportDirOf a) (baselinePathOf a) := by
    unfold prepareReports
    rw [hprepare]
    rfl
  rw [configOf] at hconfig hconfig'
  simp only [baselinePathOf, reportDirOf] at hreports
  unfold runWith
  simp only [hpath, hpath', hconfig, hconfig', hrules, Option.isSome_some, hreports, Bool.not_true,
    Bool.false_eq_true, ite_false]

/-- A run over all owners may come to the same ends on a tree that it left. -/
theorem Repeatable.mayEnd_again (h : Repeatable tree a) (hne : reportDirOf a ≠ "")
    (hfirst : MayEnd call tree a first) :
    MayEnd call first.tree a second ↔ MayEnd call tree a second := by
  rcases h.writes hfirst with htree | ⟨hpath, config, hconfig, hwrites⟩
  · rw [htree]
  · have hup := reportDirOf_up h.directoryUp
    have hcarried := carried_of_writes h.wellFormed hup hwrites
    obtain ⟨hpath', hconfig', hrules⟩ := rules_of_carried hcarried h.inputUp h.configUp
      h.inputApart (h.configApart config hconfig) hpath hconfig
    have hprepare := prepare_repeat h.wellFormed hne hup (baselinePathOf_up hup h.baselineUp)
      (fun _ hname => hname.oneName) h.baselineApart hwrites
    refine exists_congr fun collect => and_congr_right fun _ => ?_
    rw [runWith_congr collect call hconfig hconfig' hpath hpath' hrules hprepare]

/-- A place that is not one of the two reports. -/
def Elsewhere (tree : FileTree) (a : Arguments) (m : Location) : Prop :=
  ∀ name, IsSingleReport name → m ≠ locationOf tree.home (reportDirOf a) ++ [name]

theorem Repeatable.unreported (h : Repeatable tree a) {m : Location} (hm : Elsewhere tree a m) :
    Unreported tree a m := by
  intro config inventory hscans path hreport hmakes
  obtain ⟨format, file, hmem, rfl⟩ := hreport
  rw [h.grain config hscans.config] at hmem
  obtain ⟨l, hopens, rfl⟩ := Report.opens_of_makes_report hmem hmakes
  obtain rfl := FileTree.locationOf_of_opens (reportDirOf_up h.directoryUp) hopens
  have hhome : (scanned tree a).home = tree.home :=
    (Report.prepare_spec h.wellFormed (reportDirOf a) (baselinePathOf a)).1.home
  exact hm file.1 (Report.name_of_mem_files hmem) (by rw [hhome])

/-- The words of a command line name a report directory, or the usual one is used. -/
theorem reportDirOf_ne_empty {words : List String} (hparse : Arguments.parse words = .ok a) :
    reportDirOf a ≠ "" := by
  unfold reportDirOf
  cases hgiven : a.reportDir with
  | none => decide
  | some path => exact (Arguments.parse_filled hparse).2 path (.inr (.inl hgiven))

/-- **What a second run does.** Started again on what the first run left, a run over all
owners may come to the same ends as before. Each of them has the result, the log and the
warnings of the first, and the same tree but for what its two reports hold. They hold the
same for sure if the classes agree on kinds; if not, they may differ. -/
theorem run_again {words : List String} (hparse : Arguments.parse words = .ok a)
    (h : Repeatable tree a) (hfirst : MayEnd call tree a first) :
    (∀ second, MayEnd call first.tree a second ↔ MayEnd call tree a second) ∧
    (∀ second, MayEnd call first.tree a second → EndsAlike (Elsewhere tree a) first second) ∧
    (Settled tree a → ∀ second, MayEnd call first.tree a second → second = first) ∧
    (.reportNotWritten "json" ∉ first.warnings → ¬Settled tree a →
      ∃ second, MayEnd call first.tree a second ∧
        second.tree.read? (Path.child (reportDirOf a) "all.json") ≠
          first.tree.read? (Path.child (reportDirOf a) "all.json")) := by
  have hagain : ∀ second, MayEnd call first.tree a second ↔ MayEnd call tree a second :=
    fun second => h.mayEnd_again (reportDirOf_ne_empty hparse) hfirst
  simp only [hagain, implies_true, true_and]
  refine ⟨?_, ?_, ?_⟩
  · intro second hsecond
    exact (hfirst.alike h.wellFormed hsecond).mono fun m hm => h.unreported hm
  · intro hsettled second hsecond
    exact hfirst.eq_of_settled hsecond hsettled
  · intro hwritten hnot
    exact hfirst.exists_other_listing h.wellFormed h.output h.grain hwritten hnot

/-- A run in a directory that has the rules, with its reports next to them. -/
theorem repeatable_of_reports {input : String} (hwf : tree.root.WellFormed) (hhome : tree.home = ["work"])
    (hconfig : configOf tree { input, reportDir := some "reports" } = some configName)
    (hgrain : (loadRules tree input (some configName)).2.grain = .single) (hup : ".." ∉ names input)
    (hinput : ∀ name, locationOf ["work"] input ≠ ["work", "reports", name]) :
    Repeatable tree { input, reportDir := some "reports" } := by
  have hdirectoryUp : ".." ∉ names "reports" := by decide
  have hdirectory : locationOf ["work"] "reports" = ["work", "reports"] := by decide +kernel
  have hrules : locationOf ["work"] configName = ["work", configName] := by decide +kernel
  have hbaseline : locationOf ["work"] (Path.child "reports" Baseline.fileName) =
      ["work", "reports", Baseline.fileName] := by decide +kernel
  refine
    { wellFormed := hwf
      output := by simp
      grain := ?_
      inputUp := hup
      directoryUp := fun path hpath => Option.mem_some_iff.mp hpath ▸ hdirectoryUp
      configUp := by simp
      baselineUp := by simp
      inputApart := ?_
      configApart := ?_
      baselineApart := ?_ }
  · intro config hfound
    obtain rfl := Option.some.inj (hfound.symm.trans hconfig)
    exact hgrain
  all_goals
    simp only [hhome, reportDirOf, baselinePathOf, Option.getD_some, Option.getD_none, hdirectory, hbaseline]
  · exact hinput
  · intro config hfound name
    obtain rfl := Option.some.inj (hfound.symm.trans hconfig)
    simp [hrules]
  · intro name hname heq
    obtain rfl : Baseline.fileName = name := by simpa using heq
    exact absurd hname (by unfold IsSingleReport; decide)

/-- The one call is settled: the first run makes the report directory and writes both
reports, and a second run leaves them as they are. -/
theorem run_again_call :
    let first := run [] callTree callArguments
    Arguments.parse ["--input=Main.class", "--report-dir=reports"] = .ok callArguments ∧
      Repeatable callTree callArguments ∧ MayEnd [] callTree callArguments first ∧
      callTree.hasFile "reports/all.json" = false ∧ first.tree.hasFile "reports/all.json" = true ∧
      Settled callTree callArguments ∧
      EndsAlike (Elsewhere callTree callArguments) first (run [] first.tree callArguments) ∧
      ∀ second, MayEnd [] first.tree callArguments second → second = first := by
  intro first
  have hparse : Arguments.parse ["--input=Main.class", "--report-dir=reports"] = .ok callArguments := by
    decide +kernel
  have hconfig : configOf callTree callArguments = some configName := by decide +kernel
  have hrun := run_of_take [] hconfig (by decide +kernel) (congrArg Prod.snd take_callTree)
  have hinput : locationOf ["work"] "Main.class" = ["work", "Main.class"] := by decide +kernel
  have hrepeatable : Repeatable callTree callArguments :=
    repeatable_of_reports wellFormed_callTree rfl hconfig (by decide +kernel) (by decide) (by simp [hinput])
  have hsettled : Settled callTree callArguments := by
    intro config inventory hscans
    have htake := hscans.take
    rw [take_callTree] at htake
    obtain rfl := Except.ok.inj htake
    exact (Violation.kindsAgree_of_names (by simp [callInventory])).since
  have hfirst := mayEnd_run [] callTree callArguments
  obtain ⟨-, halike, hsame, -⟩ := run_again hparse hrepeatable hfirst
  refine ⟨hparse, hrepeatable, hfirst, by decide +kernel, ?_, hsettled,
    halike _ (mayEnd_run _ _ _), hsame hsettled⟩
  simp only [first, hrun]
  decide +kernel

/-! Two files of one class `Main`: in one it calls the method `put` of `Store`, in the other it
reads a field that is named `put()`. -/

def mainFile (tag opcode : UInt8) (name descriptor : List UInt8) : ByteArray :=
  ⟨([0xCA, 0xFE, 0xBA, 0xBE, 0, 0, 0, 52, 0, 12,
    1, 0, 4, 77, 97, 105, 110, 7, 0, 1, 1, 0, 5, 83, 116, 111, 114, 101, 7, 0, 3,
    1, 0, UInt8.ofNat name.length] ++ name ++ [1, 0, UInt8.ofNat descriptor.length] ++ descriptor ++
    [12, 0, 5, 0, 6, tag, 0, 4, 0, 7,
    1, 0, 3, 114, 117, 110, 1, 0, 3, 40, 41, 86, 1, 0, 4, 67, 111, 100, 101,
    0, 33, 0, 2, 0, 0, 0, 0, 0, 0, 0, 1, 0, 9, 0, 9, 0, 10, 0, 1,
    0, 11, 0, 0, 0, 17, 0, 0, 0, 0, 0, 0, 0, 5, opcode, 0, 8, 0x57, 0xB1, 0, 0, 0, 0, 0, 0]).toArray⟩

def callsMethod : ByteArray :=
  mainFile 10 0xB8 [112, 117, 116] [40, 41, 73]

def readsField : ByteArray :=
  mainFile 9 0xB2 [112, 117, 116, 40, 41] [73]

def mainsDirectory : List (String × Node) :=
  [("a", .directory [("Main.class", .file callsMethod)]),
    ("b", .directory [("Main.class", .file readsField)])]

def mainsTree : FileTree :=
  ⟨.directory [("work", .directory
    [("classes", .directory mainsDirectory),
     (configName, .file ("\x7b\"methods\":[\x7b\"owner\":\"Store\",\"message\":\"no\"\x7d],"
        ++ "\"fields\":[\x7b\"owner\":\"Store\",\"message\":\"no\"\x7d]\x7d").toUTF8)])],
    ["work"]⟩

def mainsArguments : Arguments :=
  { input := "classes", reportDir := some "reports" }

def mainsInventory : Inventory :=
  ⟨[⟨"classes/a/Main.class", callsMethod.size, false⟩, ⟨"classes/b/Main.class", readsField.size, false⟩],
    Violation.twoMains, 2⟩

theorem take_mainsTree :
    Inventory.take (scanned mainsTree mainsArguments) mainsArguments.input = ([], .ok mainsInventory) := by
  have hcalls : JvmClass.ofBytes callsMethod.data.toList =
      .ok (Violation.mainClass .invokestatic "put" "()I" 0).toJvmClass :=
    ofBytes_oneMethod rfl (by decide +kernel) (by decide +kernel) (by decide +kernel) (by decide +kernel)
  have hreads : JvmClass.ofBytes readsField.data.toList =
      .ok (Violation.mainClass .getstatic "put()" "I" 1).toJvmClass :=
    ofBytes_oneMethod rfl (by decide +kernel) (by decide +kernel) (by decide +kernel) (by decide +kernel)
  have hnode : (scanned mainsTree mainsArguments).node? mainsArguments.input =
      some (.directory mainsDirectory) := by rfl
  have hfiles : Inventory.filesAt mainsArguments.input (.directory mainsDirectory) =
      [("classes/a/Main.class", callsMethod), ("classes/b/Main.class", readsField)] := by
    rw [Inventory.filesAt_of_ascending (by decide)]
    simp only [mainsDirectory, List.flatMap_cons, List.flatMap_nil]
    rw [Inventory.filesAt_of_ascending (by simp), Inventory.filesAt_of_ascending (by simp)]
    rfl
  have hkinds : Inventory.fileKind "classes/a/Main.class" = .classFile ∧
      Inventory.fileKind "classes/b/Main.class" = .classFile := by decide
  simp only [Inventory.take, Inventory.visits, hnode, hfiles, List.map_cons, List.map_nil,
    Inventory.examine, hkinds, Inventory.examineClass, hcalls, hreads, Inventory.collect]
  rfl

theorem scans_mainsTree : Scans mainsTree mainsArguments configName mainsInventory :=
  ⟨by decide +kernel, by decide +kernel, congrArg Prod.snd take_mainsTree⟩

/-- The files add their uses under one key, one as of a method and one as of a field. -/
theorem not_settled_mainsTree : ¬Settled mainsTree mainsArguments := by
  intro hsettled
  have hrules : rulesOf mainsTree mainsArguments configName = Violation.storeRules := by decide +kernel
  have hbaseline : (baselineOf mainsTree mainsArguments).2 = [] := by decide +kernel
  have hagree := hsettled _ _ scans_mainsTree
  rw [hrules, hbaseline] at hagree
  have hcalls : AddedFirst (Violation.usesOf Violation.storeRules
      (Violation.mainClass .invokestatic "put" "()I" 0))
        ⟨"Store", "int put()", .method, "Main", "run()", -1⟩ :=
    addedFirst_iff_find?.mpr (by decide +kernel)
  have hreads : AddedFirst (Violation.usesOf Violation.storeRules
      (Violation.mainClass .getstatic "put()" "I" 1))
        ⟨"Store", "int put()", .field, "Main", "run()", -1⟩ :=
    addedFirst_iff_find?.mpr (by decide +kernel)
  have hkind := hagree _ (by simp [mainsInventory, Violation.twoMains]) _
    (by simp [mainsInventory, Violation.twoMains]) _ _ hcalls hreads rfl (by simp [Baseline.Accepts])
  cases hkind

theorem wellFormed_mainsTree : mainsTree.root.WellFormed := by
  have hnames : "classes" ≠ configName := by decide
  simp [mainsTree, mainsDirectory, Node.wellFormed_directory, hnames, Node.WellFormed.file]

theorem repeatable_mainsTree : Repeatable mainsTree mainsArguments := by
  have hinput : locationOf ["work"] "classes" = ["work", "classes"] := by decide +kernel
  exact repeatable_of_reports wellFormed_mainsTree rfl scans_mainsTree.config (by decide +kernel) (by decide)
    (by simp [hinput])

/-- **A second run may leave another report.** With two classes of one name that do not agree
on kinds, the second run may list as a field what the first one listed as a method. -/
theorem run_again_otherwise :
    Arguments.parse ["--input=classes", "--report-dir=reports"] = .ok mainsArguments ∧
      Repeatable mainsTree mainsArguments ∧
      ∃ first second, MayEnd [] mainsTree mainsArguments first ∧
        MayEnd [] first.tree mainsArguments second ∧ first.outcome.isOk = true ∧
        second.tree.read? "reports/all.json" ≠ first.tree.read? "reports/all.json" := by
  have hfirst := mayEnd_run [] mainsTree mainsArguments
  have hrun := run_of_take [] scans_mainsTree.config scans_mainsTree.path scans_mainsTree.take
  rw [emitted_of_standardOutput repeatable_mainsTree.output, take_mainsTree] at hrun
  have hwarnings : (run [] mainsTree mainsArguments).warnings = [] := by
    rw [hrun]
    decide +kernel
  obtain ⟨second, hsecond, hother⟩ := hfirst.exists_other_listing repeatable_mainsTree.wellFormed
    repeatable_mainsTree.output repeatable_mainsTree.grain (by simp [hwarnings]) not_settled_mainsTree
  refine ⟨by decide +kernel, repeatable_mainsTree, _, second, hfirst,
    (repeatable_mainsTree.mayEnd_again (by decide) hfirst).mpr hsecond, by rw [hrun]; rfl, ?_⟩
  exact hother

end MemberAudit.Audit
