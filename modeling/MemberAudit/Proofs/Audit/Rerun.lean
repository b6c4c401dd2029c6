/-
A report that is accepted as the baseline silences the same run (`run_accepted`).
The run that wrote it left files of the program's own in the report directory
(`Staged`), so the next one scans the same classes under the same rules; and since
a report accepts all that it lists, nothing is left to report.
-/
import MemberAudit.Proofs.Audit.Rules
import MemberAudit.Proofs.Audit.Stages
import MemberAudit.Proofs.ClassFile.LineTables
import MemberAudit.Proofs.Violation.Agreement

namespace MemberAudit.Audit

open ClassFile (ofBytes_oneMethod)
open FileTree (locationOf names)
open Report (isOwn isOwn_json isOwn_html isOwn_baseline plainName_of_isOwn Prepared)

variable {call : List String} {tree : FileTree} {a : Arguments} {config : String}

/-! ## An accepted report -/

/-- The tree with the JSON report over all owners copied to the usual place of the
baseline. -/
def accept? (tree : FileTree) (directory : String) : Option FileTree :=
  (tree.read? (Path.child directory "all.json")).bind
    (tree.write? (Path.child directory Baseline.fileName))

/-- A run over all owners that had no baseline and wrote its reports, one of which
was then accepted. No path goes up, and neither the input nor the file of rules is
an entry of the report directory. -/
structure Accepted (call : List String) (tree : FileTree) (a : Arguments) (config : String)
    (accepted : FileTree) : Prop where
  wellFormed : tree.root.WellFormed
  usualBaseline : a.baseline = none
  output : ∀ path ∈ a.output, isStandardOutput path = true
  configFound : (a.config <|> nearestConfig tree a.input) = some config
  inputUp : ".." ∉ names a.input
  directoryUp : ".." ∉ names (reportDirOf a)
  configUp : ∀ path ∈ a.config, ".." ∉ names path
  inputApart : ∀ name, locationOf tree.home a.input ≠ locationOf tree.home (reportDirOf a) ++ [name]
  configApart : ∀ name, locationOf tree.home config ≠ locationOf tree.home (reportDirOf a) ++ [name]
  grain : (loadRules tree a.input (some config)).2.grain = .single
  noBaseline : tree.hasFile (baselinePathOf a) = false
  succeeded : ∃ result, (run call tree a).outcome = .ok result
  reported : ∀ format, .reportNotWritten format ∉ (run call tree a).warnings
  accepted : accept? (run call tree a).tree (reportDirOf a) = some accepted

/-- What an accepted report leaves: the files of the program's own beside those
that were scanned, and as the baseline the uses that were found. -/
structure Staged (tree : FileTree) (a : Arguments) (config : String) (inventory : Inventory)
    (accepted : FileTree) : Prop where
  prepared : Prepared (reportDirOf a) tree (scanned tree a)
  opens : (scanned tree a).Opens (reportDirOf a) (locationOf tree.home (reportDirOf a))
  json : (scanned tree a).root.kindAt (locationOf tree.home (reportDirOf a) ++ ["all.json"]) ≠ some true
  html : (scanned tree a).root.kindAt (locationOf tree.home (reportDirOf a) ++ ["all.html"]) ≠ some true
  home : accepted.home = tree.home
  sameBut : SameBut isOwn (locationOf tree.home (reportDirOf a)) (scanned tree a).root accepted.root
  baseline : accepted.root.fileAt (locationOf tree.home (reportDirOf a) ++ [Baseline.fileName]) =
    some (Report.listing (scanOf tree a config inventory).2).toUTF8

theorem baselinePathOf_usual (h : a.baseline = none) :
    baselinePathOf a = Path.child (reportDirOf a) Baseline.fileName := by
  rw [baselinePathOf, h]
  rfl

theorem scanned_usual (h : a.baseline = none) (tree : FileTree) :
    scanned tree a =
      (Report.prepare tree (reportDirOf a) (Path.child (reportDirOf a) Baseline.fileName)).1 := by
  rw [scanned, baselinePathOf_usual h]

/-- Without a baseline all uses are reported. -/
theorem leftOf_of_noBaseline {inventory : Inventory} (husual : a.baseline = none)
    (hup : ".." ∉ names (reportDirOf a))
    (hprepared : Prepared (reportDirOf a) tree (scanned tree a))
    (h : tree.hasFile (baselinePathOf a) = false) :
    leftOf tree a config inventory = (scanOf tree a config inventory).2 := by
  have hname : FileTree.PlainName Baseline.fileName := plainName_of_isOwn isOwn_baseline
  have hbaselineUp : ".." ∉ names (baselinePathOf a) := by
    rw [baselinePathOf_usual husual]
    exact FileTree.up_not_mem_child hup hname
  have hread : (scanned tree a).read? (baselinePathOf a) = none := by
    cases hread : (scanned tree a).read? (baselinePathOf a) with
    | none => rfl
    | some content =>
      have hfile := FileTree.fileAt_of_read? hbaselineUp hread
      have hbefore := FileTree.read?_congr hbaselineUp hprepared.home.symm
        (hprepared.noNewFile _ _ hfile) hread
      rw [FileTree.hasFile_iff.mpr ⟨content, hbefore⟩] at h
      cases h
  rw [leftOf, baselineOf, hread]
  exact UseSet.newSince_nil _

theorem staged_of_accepted {accepted : FileTree} (h : Accepted call tree a config accepted) :
    ∃ inventory, tree.hasPath a.input = true ∧
      (Inventory.take (scanned tree a) a.input).2 = .ok inventory ∧
      Staged tree a config inventory accepted := by
  obtain ⟨result, hok⟩ := h.succeeded
  obtain ⟨hpath, inventory, htake⟩ := take_of_run h.configFound hok
  have hrun := run_of_take call h.configFound hpath htake
  rw [emitted_of_standardOutput h.output] at hrun
  have hwritten : ∀ format, .reportNotWritten format ∉ (writtenOf tree a config inventory).warnings :=
    fun format hmem => h.reported format (by rw [hrun]; exact List.mem_append_right _ hmem)
  have haccept := h.accepted
  rw [hrun] at haccept
  simp only at haccept
  rw [writtenOf, h.grain] at hwritten haccept
  obtain ⟨listed, hjson, hhtml⟩ := Report.write_single.mp ⟨hwritten, rfl⟩
  generalize (Report.write (scanned tree a) .single _ _ (reportDirOf a)).tree = reports at hhtml haccept
  obtain ⟨l, hopens, -, -⟩ :=
    (FileTree.write?_child_eq_some (plainName_of_isOwn isOwn_json)).mp hjson
  rw [scanned_usual h.usualBaseline] at hopens
  have hprepared := Report.prepare_prepared h.wellFormed h.directoryUp hopens
  rw [← scanned_usual h.usualBaseline] at hprepared
  have hhome : (scanned tree a).home = tree.home := hprepared.home
  obtain ⟨made, -, hscanned⟩ := hprepared.grown
  have hwroteJson := Report.write?_own hscanned.right h.directoryUp isOwn_json hjson
  have hwroteHtml := Report.write?_own hwroteJson.sameBut.right h.directoryUp isOwn_html hhtml
  obtain ⟨content, hread, hcopy⟩ := Option.bind_eq_some_iff.mp haccept
  have hwroteCopy := Report.write?_own hwroteHtml.sameBut.right h.directoryUp isOwn_baseline hcopy
  rw [hwroteHtml.home] at hwroteCopy
  rw [hwroteJson.home] at hwroteHtml hwroteCopy
  rw [hprepared.home] at hwroteJson hwroteHtml hwroteCopy
  obtain rfl : content = (Report.listing (leftOf tree a config inventory)).toUTF8 := by
    rw [hwroteHtml.stillOpens.read?_child (plainName_of_isOwn isOwn_json),
      hwroteHtml.others _ (by decide), hwroteJson.written] at hread
    exact (Option.some.inj hread).symm
  refine ⟨inventory, hpath, htake, ?_⟩
  exact
    { prepared := hprepared
      opens := hwroteJson.opens
      json := hwroteJson.noDirectory
      html := fun hdir => hwroteHtml.noDirectory (hwroteJson.sameBut.kindAt_eq_true.mp hdir)
      home := hwroteCopy.home.trans (hwroteHtml.home.trans (hwroteJson.home.trans hprepared.home))
      sameBut := (hwroteJson.sameBut.trans hwroteHtml.sameBut).trans hwroteCopy.sameBut
      baseline := by
        rw [← leftOf_of_noBaseline h.usualBaseline h.directoryUp hprepared h.noBaseline]
        exact hwroteCopy.written }

theorem Staged.carried {inventory : Inventory} {accepted : FileTree}
    (h : Staged tree a config inventory accepted) : Carried (reportDirOf a) tree accepted := by
  obtain ⟨made, hgrown, hcleared⟩ := h.prepared.grown
  refine ⟨h.home, ⟨made, hgrown, hcleared.trans (h.sameBut.weaken fun _ _ => rfl)⟩, ?_⟩
  intro m content hm hfile
  rw [← h.sameBut.fileAt_eq hm] at hfile
  exact h.prepared.noNewFile m content hfile

/-- The same rules are found again. -/
theorem Accepted.rules_again {inventory : Inventory} {accepted : FileTree}
    (h : Accepted call tree a config accepted) (hstaged : Staged tree a config inventory accepted)
    (hpath : tree.hasPath a.input = true) :
    (a.config <|> nearestConfig accepted a.input) = some config ∧
      loadRules accepted a.input (some config) = loadRules tree a.input (some config) := by
  exact (rules_of_carried hstaged.carried h.inputUp h.configUp h.inputApart h.configApart hpath
    h.configFound).2

/-- When the report directory is prepared again, the tree that is scanned is the
same but for files of the program's own. -/
theorem Staged.scanned_again {inventory : Inventory} {accepted : FileTree}
    (h : Staged tree a config inventory accepted) (husual : a.baseline = none)
    (hup : ".." ∉ names (reportDirOf a)) :
    (scanned accepted a).home = tree.home ∧
      SameBut isOwn (locationOf tree.home (reportDirOf a)) (scanned tree a).root
        (scanned accepted a).root ∧
      (scanned accepted a).Opens (reportDirOf a) (locationOf tree.home (reportDirOf a)) ∧
      (scanned accepted a).read? (baselinePathOf a) =
        some (Report.listing (scanOf tree a config inventory).2).toUTF8 := by
  have hhome : accepted.home = (scanned tree a).home := h.home.trans h.prepared.home.symm
  have hlocation : locationOf (scanned tree a).home (reportDirOf a) =
      locationOf tree.home (reportDirOf a) := by rw [h.prepared.home]
  have hopens : accepted.Opens (reportDirOf a) (locationOf tree.home (reportDirOf a)) :=
    hlocation ▸ Report.opens_of_sameBut_self (hlocation ▸ h.sameBut) hhome hup (hlocation ▸ h.opens)
  have hown : reportDirOf a = "" ∨ ∀ name content,
      accepted.root.fileAt (locationOf tree.home (reportDirOf a) ++ [name]) = some content →
        isOwn name = true := by
    refine h.prepared.cleared.imp id ?_
    intro hcleared name content hfile
    by_contra hnot
    rw [← h.sameBut.fileAt_eq] at hfile
    · rw [hcleared name content hfile] at hnot
      exact hnot isOwn_baseline
    · intro other hother heq
      obtain ⟨-, hname⟩ := List.append_inj' heq rfl
      exact hnot (List.singleton_inj.mp hname ▸ hother)
  have hbaseline := h.baseline
  rw [← h.home] at hopens hown hbaseline
  obtain ⟨hsameHome, hsame, hkept⟩ :=
    Report.prepare_again h.sameBut.right hup hopens hbaseline hown
  rw [← scanned_usual husual] at hsameHome hsame hkept
  have hopens' := Report.opens_of_sameBut_self hsame hsameHome hup hopens
  rw [h.home] at hsame hkept hopens'
  refine ⟨hsameHome.trans h.home, h.sameBut.trans hsame, hopens', ?_⟩
  rw [baselinePathOf_usual husual]
  exact (hopens'.read?_child (plainName_of_isOwn isOwn_baseline)).trans hkept

/-- A run that finds nothing new: its log has no results, and both reports over
all owners are written and empty. -/
structure Silent (run : Run) (directory : String) : Prop where
  log : ∃ text summary, run.outcome = .ok (text, summary) ∧ summary.results = 0 ∧
    Sarif.results? (Json.Document.read text).1 = some []
  listing : run.tree.read? (Path.child directory "all.json") = some "[]\n".toUTF8
  page : ∃ page : String, run.tree.read? (Path.child directory "all.html") = some page.toUTF8 ∧
    Report.headingTotal? page = some "0" ∧ Report.ownerSections page = 0

theorem eq_empty_of_uses {set : UseSet} (h : set.uses = []) : set = .empty := by
  cases set with
  | mk uses ascending =>
    subst h
    rfl

/-- A report accepts all that it lists. -/
theorem newSince_listing (path : String) (found : UseSet) :
    found.newSince (Baseline.load path (some (Report.listing found).toUTF8)).2 = .empty := by
  refine eq_empty_of_uses ?_
  rw [(Baseline.acceptsExactly_listing path found).left, List.filter_eq_nil_iff]
  intro use huse
  have hsame : found.uses.any use.same = true := List.any_eq_true.mpr ⟨use, huse, use.same_self⟩
  simp [hsame]

theorem reported_empty (violations : List Violation) : Violation.reported .empty violations = [] := by
  rw [Violation.reported_eq_filter]
  simp

/-- What a run writes and logs that reports nothing. -/
theorem silent_of_leftOf {inventory : Inventory}
    (hconfig : (a.config <|> nearestConfig tree a.input) = some config)
    (houtput : ∀ path ∈ a.output, isStandardOutput path = true)
    (hwf : (scanned tree a).root.WellFormed) (hup : ".." ∉ names (reportDirOf a))
    (hgrain : (loadRules tree a.input (some config)).2.grain = .single)
    (hpath : tree.hasPath a.input = true)
    (htake : (Inventory.take (scanned tree a) a.input).2 = .ok inventory)
    (hopens : (scanned tree a).Opens (reportDirOf a)
      (locationOf (scanned tree a).home (reportDirOf a)))
    (hjson : (scanned tree a).root.kindAt
      (locationOf (scanned tree a).home (reportDirOf a) ++ ["all.json"]) ≠ some true)
    (hhtml : (scanned tree a).root.kindAt
      (locationOf (scanned tree a).home (reportDirOf a) ++ ["all.html"]) ≠ some true)
    (hleft : leftOf tree a config inventory = .empty) :
    Silent (run call tree a) (reportDirOf a) := by
  obtain ⟨listed, hlisted, hwroteJson⟩ := Report.exists_write?_own hwf hup isOwn_json hopens
    hjson (Report.listing .empty).toUTF8
  have hhtml' : listed.root.kindAt
      (locationOf listed.home (reportDirOf a) ++ ["all.html"]) ≠ some true := by
    rw [hwroteJson.home]
    exact fun hdir => hhtml (hwroteJson.sameBut.kindAt_eq_true.mpr hdir)
  obtain ⟨paged, hpaged, hwroteHtml⟩ := Report.exists_write?_own hwroteJson.sameBut.right hup
    isOwn_html (hwroteJson.home ▸ hwroteJson.stillOpens) hhtml'
    (Report.page (a.projectName.getD (projectOf (scanned tree a) a.input)) .empty).toUTF8
  have hrun := run_of_take call hconfig hpath htake
  rw [emitted_of_standardOutput houtput] at hrun
  have hwritten : (writtenOf tree a config inventory).tree = paged := by
    rw [writtenOf, hgrain, hleft]
    exact (Report.write_single.mpr ⟨listed, hlisted, hpaged⟩).2
  have hresults : resultsOf tree a config inventory = [] := by
    rw [resultsOf, hleft]
    exact reported_empty _
  rw [hwroteJson.home] at hwroteHtml
  rw [hrun, hwritten, hresults]
  refine ⟨⟨_, _, rfl, rfl, ?_⟩, ?_, ⟨_, hwroteHtml.read? isOwn_html, ?_, ?_⟩⟩
  · rw [Json.Document.read_document, Sarif.results?_ofValue_log]
    rfl
  · rw [hwroteHtml.stillOpens.read?_child (plainName_of_isOwn isOwn_json),
      hwroteHtml.others _ (by decide), hwroteJson.written]
    rfl
  · rw [Report.headingTotal?_page]
    rfl
  · rw [Report.ownerSections_page]
    rfl

/-- **An accepted report silences the next run.** -/
theorem run_accepted {accepted : FileTree} (h : Accepted call tree a config accepted) :
    Silent (run call accepted a) (reportDirOf a) := by
  obtain ⟨inventory, hpath, htake, hstaged⟩ := staged_of_accepted h
  obtain ⟨hconfig, hrules⟩ := h.rules_again hstaged hpath
  obtain ⟨hhome, hsame, hopens, hbaseline⟩ := hstaged.scanned_again h.usualBaseline h.directoryUp
  have hpath' := (hstaged.carried.hasPath_hasDirectory h.inputUp h.inputApart hpath).1
  have hthere := Inventory.node?_isSome_of_take (Prod.ext rfl htake)
  have htake' : (Inventory.take (scanned accepted a) a.input).2 = .ok inventory := by
    rw [(FileTree.take_of_sameBut hsame (hhome.trans hstaged.prepared.home.symm)
      Report.fileKind_of_isOwn h.inputUp ?_ hthere).2, htake]
    rw [hstaged.prepared.home]
    exact fun name _ => h.inputApart name
  have hleft : leftOf accepted a config inventory = .empty := by
    rw [leftOf, baselineOf, hbaseline, scanOf, hrules]
    exact newSince_listing _ _
  have hgrain : (loadRules accepted a.input (some config)).2.grain = .single := by
    rw [hrules, h.grain]
  refine silent_of_leftOf hconfig h.output hsame.right h.directoryUp hgrain hpath' htake' ?_ ?_ ?_ hleft
  all_goals rw [hhome]
  · exact hopens
  · exact fun hdir => hstaged.json (hsame.kindAt_eq_true.mpr hdir)
  · exact fun hdir => hstaged.html (hsame.kindAt_eq_true.mpr hdir)

/-! A class `Main` whose method `run` calls `Store.put`, which a rule flags. -/

def callClass : ByteArray :=
  ⟨#[0xCA, 0xFE, 0xBA, 0xBE, 0, 0, 0, 52, 0, 11,
    1, 0, 4, 77, 97, 105, 110, 7, 0, 1, 1, 0, 5, 83, 116, 111, 114, 101, 7, 0, 3,
    1, 0, 3, 112, 117, 116, 1, 0, 3, 40, 41, 86, 12, 0, 5, 0, 6, 10, 0, 4, 0, 7,
    1, 0, 3, 114, 117, 110, 1, 0, 4, 67, 111, 100, 101,
    0, 33, 0, 2, 0, 0, 0, 0, 0, 0, 0, 1, 0, 9, 0, 9, 0, 6, 0, 1,
    0, 10, 0, 0, 0, 16, 0, 0, 0, 0, 0, 0, 0, 4, 0xB8, 0, 8, 0xB1, 0, 0, 0, 0, 0, 0]⟩

def callInventory : Inventory :=
  ⟨[⟨"Main.class", 110, true⟩],
    [⟨⟨"Main", [⟨"run", "()V", [], [⟨"Store", "put", "()V", .invokestatic, 0⟩]⟩]⟩, 0⟩], 1⟩

def callTree : FileTree :=
  ⟨.directory [("work", .directory
    [("Main.class", .file callClass),
     (configName, .file "\x7b\"methods\":[\x7b\"owner\":\"Store\",\"message\":\"no\"\x7d]\x7d".toUTF8)])],
    ["work"]⟩

def callArguments : Arguments :=
  { input := "Main.class", reportDir := some "reports" }

/-- The tree after the run, its report accepted. -/
def callAccepted : FileTree :=
  (accept? (run [] callTree callArguments).tree "reports").getD callTree

theorem take_callTree :
    Inventory.take (scanned callTree callArguments) callArguments.input = ([], .ok callInventory) := by
  have hclass : JvmClass.ofBytes callClass.data.toList =
      .ok ⟨"Main", [⟨"run", "()V", [], [⟨"Store", "put", "()V", .invokestatic, 0⟩]⟩]⟩ :=
    ofBytes_oneMethod rfl (by decide +kernel) (by decide +kernel) (by decide +kernel) (by decide +kernel)
  exact Inventory.take_classFile (by decide +kernel) (by decide +kernel) hclass

theorem wellFormed_callTree : callTree.root.WellFormed := by
  have hnames : "Main.class" ≠ configName := by decide
  simp [callTree, Node.wellFormed_directory, hnames, Node.WellFormed.file]

theorem locations_callTree :
    locationOf callTree.home callArguments.input = ["work", "Main.class"] ∧
      locationOf callTree.home (reportDirOf callArguments) = ["work", "reports"] ∧
      locationOf callTree.home configName = ["work", configName] := by
  decide +kernel

theorem accepted_callTree : Accepted [] callTree callArguments configName callAccepted := by
  have hconfig : (callArguments.config <|> nearestConfig callTree callArguments.input) =
      some configName := by decide +kernel
  have hrun := run_of_take [] hconfig (by decide +kernel) (congrArg Prod.snd take_callTree)
  rw [emitted_of_standardOutput (by simp [callArguments]), take_callTree] at hrun
  have hwarnings : (run [] callTree callArguments).warnings = [] := by
    rw [hrun]
    decide +kernel
  have haccept : (accept? (run [] callTree callArguments).tree "reports").isSome := by
    rw [hrun]
    decide +kernel
  obtain ⟨hlocation, hdirectory, hrules⟩ := locations_callTree
  exact
    { wellFormed := wellFormed_callTree
      usualBaseline := rfl
      output := by simp [callArguments]
      configFound := hconfig
      inputUp := by decide
      directoryUp := by decide
      configUp := by simp [callArguments]
      inputApart := by simp [hlocation, hdirectory]
      configApart := by simp [hrules, hdirectory]
      grain := by decide +kernel
      noBaseline := by decide +kernel
      succeeded := ⟨_, by rw [hrun]; rfl⟩
      reported := by simp [hwarnings]
      accepted := by
        obtain ⟨accepted, haccepted⟩ := Option.isSome_iff_exists.mp haccept
        rw [callAccepted, haccepted]
        exact haccepted }

/-- The run finds the call, and once its report is accepted it is silent. -/
theorem run_accepted_call :
    (scanOf callTree callArguments configName callInventory).2.size = 1 ∧
      Accepted [] callTree callArguments configName callAccepted ∧
      Silent (run [] callAccepted callArguments) (reportDirOf callArguments) :=
  ⟨by decide +kernel, accepted_callTree, run_accepted accepted_callTree⟩

end MemberAudit.Audit
