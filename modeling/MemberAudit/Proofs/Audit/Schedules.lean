/-
What a run may come to when its classes are examined at the same time (`MayEnd`): it
works with one of the sets of uses that their additions leave in some order. How the
classes take turns changes neither how the run ends, nor its log and its warnings, nor
which files there are; only what the reports hold may differ (`MayEnd.alike`). They do
not differ if the classes agree on the kinds of what is reported (`Settled`), and if
they do not agree, another order leaves another JSON report
(`exists_other_listing`).
-/
import MemberAudit.Proofs.Audit.KeptFiles
import MemberAudit.Proofs.Report.Writes
import MemberAudit.Proofs.Violation.Interleaving

namespace MemberAudit

open FileTree (AgreeOn AlikeOn)

/-! ## Sets with the same keys -/

namespace UseSet

variable {found other : UseSet}

theorem contains_of_keys (h : found.keys = other.keys) (use : MemberUse) :
    found.contains use = other.contains use := by
  rw [Bool.eq_iff_iff, ← mem_keys, ← mem_keys, h]

theorem keys_newSince (h : found.keys = other.keys) (baseline : Baseline) :
    (found.newSince baseline).keys = (other.newSince baseline).keys := by
  refine keys_congr fun use => ?_
  rw [newSince_eq_without, newSince_eq_without, contains_without, contains_without,
    contains_of_keys h]

end UseSet

/-- Which violations are reported is told by the keys of the uses left. -/
theorem Violation.reported_of_keys {found other : UseSet} (h : found.keys = other.keys)
    (violations : List Violation) : reported found violations = reported other violations := by
  rw [reported_eq_filter, reported_eq_filter]
  refine List.filter_congr ?_
  intro violation _
  exact UseSet.contains_of_keys h violation.use

namespace Audit

open Violation (Leaves KindsAgreeSince leaves_record kindsAgreeSince_of_mem)

variable {call : List String} {tree : FileTree} {a : Arguments} {config : String}
  {inventory : Inventory} {found other : UseSet} {first second : Run}

/-- What a run may come to: its classes have added their uses in some order. -/
def MayEnd (call : List String) (tree : FileTree) (a : Arguments) (result : Run) : Prop :=
  ∃ collect : Policy → List PlacedClass → UseSet,
    (∀ rules classes, Leaves .empty rules classes (collect rules classes)) ∧
      runWith collect call tree a = result

/-- One class after another is one of the orders. -/
theorem mayEnd_run (call : List String) (tree : FileTree) (a : Arguments) :
    MayEnd call tree a (run call tree a) :=
  ⟨collectInTurn, leaves_record .empty, rfl⟩

/-! ## Runs that find uses -/

/-- The rules that references are looked up in. -/
def rulesOf (tree : FileTree) (a : Arguments) (config : String) : Policy :=
  (loadRules tree a.input (some config)).2.dotForm

/-- A run that has rules and takes an inventory. -/
structure Scans (tree : FileTree) (a : Arguments) (config : String) (inventory : Inventory) :
    Prop where
  config : configOf tree a = some config
  path : tree.hasPath a.input = true
  take : (Inventory.take (scanned tree a) a.input).2 = .ok inventory

theorem Scans.runWith_eq (h : Scans tree a config inventory)
    (collect : Policy → List PlacedClass → UseSet) (call : List String) :
    runWith collect call tree a =
      endWith call tree a config inventory (collect (rulesOf tree a config) inventory.classes) :=
  runWith_of_take collect call h.config h.path h.take

/-- A run without rules, or without an inventory, does not come to its uses. -/
theorem runWith_eq_run (hnone : ¬∃ config inventory, Scans tree a config inventory)
    (collect : Policy → List PlacedClass → UseSet) (call : List String) :
    runWith collect call tree a = run call tree a := by
  cases hpath : tree.hasPath a.input with
  | false => simp [run, runWith, hpath]
  | true =>
    cases hconfig : configOf tree a with
    | none =>
      rw [configOf] at hconfig
      unfold run runWith
      simp only [hpath, hconfig, Option.isSome_none, loadRules, all_without_rules, Violation.reported,
        Violation.reportedFrom, Bool.not_true, Bool.false_eq_true, ite_false]
    | some config =>
      cases htake : (Inventory.take (scanned tree a) a.input).2 with
      | ok inventory => exact absurd ⟨config, inventory, hconfig, hpath, htake⟩ hnone
      | error fault =>
        rw [configOf] at hconfig
        unfold run runWith
        simp only [hpath, hconfig, Option.isSome_some, prepareReports_true, scanned_eq, htake]

/-- The ends of a run are told by the sets that its classes may leave. -/
theorem Scans.mayEnd_iff (h : Scans tree a config inventory) :
    MayEnd call tree a first ↔ ∃ found,
      Leaves .empty (rulesOf tree a config) inventory.classes found ∧
        endWith call tree a config inventory found = first := by
  constructor
  · intro hfirst
    obtain ⟨collect, hcollect, rfl⟩ := hfirst
    exact ⟨_, hcollect _ _, (h.runWith_eq collect call).symm⟩
  · intro hfirst
    obtain ⟨found, hfound, rfl⟩ := hfirst
    classical
    refine ⟨fun rules classes => if rules = rulesOf tree a config ∧ classes = inventory.classes
      then found else collectInTurn rules classes, ?_, ?_⟩
    · intro rules classes
      dsimp only
      split
      · rename_i heq
        rw [heq.1, heq.2]
        exact hfound
      · exact leaves_record .empty rules classes
    · rw [h.runWith_eq, if_pos ⟨rfl, rfl⟩]

theorem mayEnd_iff_eq_run (hnone : ¬∃ config inventory, Scans tree a config inventory) :
    MayEnd call tree a first ↔ first = run call tree a := by
  constructor
  · intro hfirst
    obtain ⟨collect, -, rfl⟩ := hfirst
    exact runWith_eq_run hnone collect call
  · intro hfirst
    rw [hfirst]
    exact mayEnd_run call tree a

/-! ## What all orders share -/

/-- The log goes to both of two trees or to none. -/
theorem emit_alike {places : Location → Prop} {t t' : FileTree} (h : AlikeOn places t t')
    (output : Option String) (log : String) :
    (emit t output log).2 = (emit t' output log).2 ∧
      AlikeOn places (emit t output log).1 (emit t' output log).1 := by
  cases output with
  | none => exact ⟨rfl, h⟩
  | some path =>
    rw [emit, emit]
    split
    · exact ⟨rfl, h⟩
    · rcases h.write? log.toUTF8 log.toUTF8 fun _ _ _ => rfl with hnone | hsome
      · rw [hnone.1, hnone.2]
        exact ⟨rfl, h⟩
      · obtain ⟨written, written', hwrite, hwrite', halike⟩ := hsome
        rw [hwrite, hwrite']
        exact ⟨rfl, halike⟩

/-- A place at which the run makes no report. -/
def Unreported (tree : FileTree) (a : Arguments) (m : Location) : Prop :=
  ∀ config inventory, Scans tree a config inventory → ∀ path,
    Report.IsReport (loadRules tree a.input (some config)).2.grain
      (a.projectName.getD (projectOf (scanned tree a) a.input)) (leftOf tree a config inventory)
      (reportDirOf a) path → ¬(scanned tree a).Makes path m

/-- Ends with the same result, the same warnings, and files at the same places, which
hold the same where a condition holds. -/
structure EndsAlike (places : Location → Prop) (first second : Run) : Prop where
  outcome : second.outcome = first.outcome
  warnings : second.warnings = first.warnings
  tree : AlikeOn places first.tree second.tree

theorem EndsAlike.refl {places : Location → Prop} (h : first.tree.root.WellFormed) :
    EndsAlike places first first :=
  ⟨rfl, rfl, .refl h⟩

theorem EndsAlike.mono {places more : Location → Prop} (h : EndsAlike more first second)
    (hplaces : ∀ m, places m → more m) : EndsAlike places first second :=
  ⟨h.outcome, h.warnings, h.tree.mono hplaces⟩

theorem Scans.endWith_alike (h : Scans tree a config inventory) (hwf : tree.root.WellFormed)
    (hkeys : (scanOf tree a config inventory).2.keys = found.keys) (hkeys' : found.keys = other.keys) :
    EndsAlike (Unreported tree a) (endWith call tree a config inventory found)
      (endWith call tree a config inventory other) := by
  have hleft := UseSet.keys_newSince hkeys' (baselineOf tree a).2
  have hprepared := (preparedOf_spec hwf a).1.wellFormed
  rw [preparedOf_some h.config] at hprepared
  have hplaces : ∀ path, Report.IsReport (loadRules tree a.input (some config)).2.grain
      (a.projectName.getD (projectOf (scanned tree a) a.input)) (found.newSince (baselineOf tree a).2)
      (reportDirOf a) path → ∀ m, Unreported tree a m → ¬(scanned tree a).Makes path m := by
    intro path hreport m hm
    refine hm config inventory h path (hreport.of_keys ?_)
    exact UseSet.keys_newSince hkeys.symm (baselineOf tree a).2
  obtain ⟨hwarnings, hreports⟩ := Report.write_alike hleft (AlikeOn.refl hprepared) hplaces
  have hresults := Violation.reported_of_keys hleft (scanOf tree a config inventory).1
  obtain ⟨houtput, hlogged⟩ := emit_alike hreports a.output (Report.document (Sarif.log call
    inventory.artifacts (Violation.reported (found.newSince (baselineOf tree a).2)
      (scanOf tree a config inventory).1)))
  refine ⟨?_, ?_, ?_⟩
  · simp only [endWith, ← hresults, houtput]
  · simp only [endWith, hwarnings]
  · simp only [endWith, ← hresults]
    exact hlogged

/-- **The order of additions shows in the reports only.** -/
theorem MayEnd.alike (hwf : tree.root.WellFormed) (h : MayEnd call tree a first)
    (h' : MayEnd call tree a second) : EndsAlike (Unreported tree a) first second := by
  by_cases hscans : ∃ config inventory, Scans tree a config inventory
  · obtain ⟨config, inventory, hscans⟩ := hscans
    obtain ⟨found, hfound, rfl⟩ := hscans.mayEnd_iff.mp h
    obtain ⟨other, hother, rfl⟩ := hscans.mayEnd_iff.mp h'
    have hinTurn : Leaves .empty (rulesOf tree a config) inventory.classes
        (scanOf tree a config inventory).2 := leaves_record ..
    exact hscans.endWith_alike hwf (hinTurn.keys_eq hfound) (hfound.keys_eq hother)
  · rw [mayEnd_iff_eq_run hscans] at h h'
    rw [h, h']
    exact .refl (run_later call hwf a).wellFormed

/-! ## What the reports hold -/

/-- The classes agree on the kinds of what is reported. -/
def Settled (tree : FileTree) (a : Arguments) : Prop :=
  ∀ config inventory, Scans tree a config inventory →
    KindsAgreeSince (baselineOf tree a).2 (rulesOf tree a config) inventory.classes

/-- **If classes agree on kinds, a run can come to one end only.** -/
theorem MayEnd.eq_of_settled (h : MayEnd call tree a first) (h' : MayEnd call tree a second)
    (hsettled : Settled tree a) : second = first := by
  by_cases hscans : ∃ config inventory, Scans tree a config inventory
  · obtain ⟨config, inventory, hscans⟩ := hscans
    obtain ⟨found, hfound, rfl⟩ := hscans.mayEnd_iff.mp h
    obtain ⟨other, hother, rfl⟩ := hscans.mayEnd_iff.mp h'
    have hleft := (hsettled config inventory hscans).eq hother hfound
    simp only [endWith, hleft]
  · rw [mayEnd_iff_eq_run hscans] at h h'
    rw [h, h']

theorem Scans.read?_endWith (h : Scans tree a config inventory) (hwf : tree.root.WellFormed)
    (houtput : ∀ path ∈ a.output, isStandardOutput path = true)
    (hgrain : (loadRules tree a.input (some config)).2.grain = .single)
    (hwritten : .reportNotWritten "json" ∉ (endWith call tree a config inventory found).warnings) :
    (endWith call tree a config inventory found).tree.read? (Path.child (reportDirOf a) "all.json") =
      some (Report.listing (found.newSince (baselineOf tree a).2)).toUTF8 := by
  have hprepared := (preparedOf_spec hwf a).1.wellFormed
  rw [preparedOf_some h.config] at hprepared
  simp only [endWith, hgrain, emit_of_standardOutput houtput] at hwritten ⊢
  exact Report.read?_listing_of_write hprepared fun hmem => hwritten (List.mem_append_right _ hmem)

/-- **If they do not agree, another order leaves another report.** -/
theorem MayEnd.exists_other_listing (h : MayEnd call tree a first) (hwf : tree.root.WellFormed)
    (houtput : ∀ path ∈ a.output, isStandardOutput path = true)
    (hgrain : ∀ config, configOf tree a = some config →
      (loadRules tree a.input (some config)).2.grain = .single)
    (hwritten : .reportNotWritten "json" ∉ first.warnings) (hnot : ¬Settled tree a) :
    ∃ second, MayEnd call tree a second ∧
      second.tree.read? (Path.child (reportDirOf a) "all.json") ≠
        first.tree.read? (Path.child (reportDirOf a) "all.json") := by
  by_contra hnone
  have hall : ∀ second, MayEnd call tree a second →
      second.tree.read? (Path.child (reportDirOf a) "all.json") =
        first.tree.read? (Path.child (reportDirOf a) "all.json") := by
    intro second hsecond
    by_contra hne
    exact hnone ⟨second, hsecond, hne⟩
  refine hnot ?_
  intro config inventory hscans
  have hsingle := hgrain config hscans.config
  obtain ⟨found, hfound, rfl⟩ := hscans.mayEnd_iff.mp h
  -- all that any order leaves is in the one listing
  refine kindsAgreeSince_of_mem .empty (found.newSince (baselineOf tree a).2) ?_
  intro other hother use huse
  have hsecond : MayEnd call tree a (endWith call tree a config inventory other) :=
    hscans.mayEnd_iff.mpr ⟨other, hother, rfl⟩
  have hread := hall _ hsecond
  have hwritten' : .reportNotWritten "json" ∉ (endWith call tree a config inventory other).warnings := by
    rwa [(h.alike hwf hsecond).warnings]
  rw [hscans.read?_endWith hwf houtput hsingle hwritten,
    hscans.read?_endWith hwf houtput hsingle hwritten'] at hread
  have hlisting := congrArg (Option.bind · String.fromUTF8?) hread
  simp only [Option.bind_some, Text.fromUTF8?_toUTF8, Option.some.injEq] at hlisting
  exact hother.mem_of_listing_eq hfound hlisting huse

end Audit

end MemberAudit
