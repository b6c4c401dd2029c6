/-
What makes a run fail: an input that is not there, an input without an inventory, or
a log that cannot be made (`Fails`). Each is told before anything is reported: the
first from the tree as it is, the others from the tree that is scanned, and none of
them from what the files of rules and of the baseline hold. All else that goes wrong
gives warnings (`run_fails_iff`).
-/
import MemberAudit.Proofs.Audit.KeptFiles
import MemberAudit.Proofs.Report.Writes
import MemberAudit.Proofs.Results

namespace MemberAudit.Audit

variable {call : List String} {tree reports : FileTree} {a : Arguments}

/-- The causes of a run that fails, with the fault that it gives. -/
inductive Fails (tree : FileTree) (a : Arguments) : RunFault → Prop where
  | noInput : tree.hasPath a.input = false → Fails tree a (.inputNotFound a.input)
  | noInventory {fault : ScanFault} : tree.hasPath a.input = true →
      (Inventory.take (preparedOf tree a) a.input).2 = .error fault → Fails tree a (.scan fault)
  | noLog {inventory : Inventory} {path : String} : tree.hasPath a.input = true →
      (Inventory.take (preparedOf tree a) a.input).2 = .ok inventory →
      a.output = some path → isStandardOutput path = false →
      ¬(preparedOf tree a).Writable path → Fails tree a (.outputNotOpened path)

/-- The reports do not count for the file of the log. -/
theorem Reported.writable_iff (h : Reported tree a reports) (hwf : tree.root.WellFormed) (path : String) :
    reports.Writable path ↔ (preparedOf tree a).Writable path := by
  cases h with
  | none hconfig => rw [preparedOf_none hconfig]
  | written hconfig _ =>
    have hprepared := (preparedOf_spec hwf a).1.wellFormed
    rw [preparedOf_some hconfig] at hprepared ⊢
    exact ((Report.write_writesSome ..).writable_iff hprepared).2 path

/-- The log fails only where its file cannot be made. -/
theorem emit_error_iff {output : Option String} {log : String} {fault : RunFault} :
    (emit tree output log).2 = .error fault ↔
      ∃ path, output = some path ∧ isStandardOutput path = false ∧ ¬tree.Writable path ∧
        fault = .outputNotOpened path := by
  constructor
  · intro h
    cases output with
    | none => cases h
    | some path =>
      rw [emit] at h
      split at h
      · cases h
      · rename_i hstandard
        split at h
        · cases h
        · rename_i hwrite
          cases h
          exact ⟨path, rfl, by simpa using hstandard, FileTree.write?_eq_none_iff.mp hwrite, rfl⟩
  · intro h
    obtain ⟨path, rfl, hstandard, hwritable, rfl⟩ := h
    rw [emit, hstandard, FileTree.write?_eq_none_iff.mpr hwritable]
    rfl

theorem fails_of_ends {result : Run} {fault : RunFault} (hwf : tree.root.WellFormed)
    (hends : Ends call tree a result) : result.outcome = .error fault ↔ Fails tree a fault := by
  cases hends with
  | noInput hpath _ houtcome =>
    rw [houtcome, Except.error.injEq]
    constructor
    · rintro rfl
      exact .noInput hpath
    · intro hfails
      cases hfails with
      | noInput _ => rfl
      | noInventory hthere _ | noLog hthere _ _ _ _ => simp [hpath] at hthere
  | noInventory hpath htake _ houtcome =>
    rw [houtcome, Except.error.injEq]
    constructor
    · rintro rfl
      exact .noInventory hpath htake
    · intro hfails
      cases hfails with
      | noInput hmissing => simp [hpath] at hmissing
      | noInventory _ htake' => simpa [htake] using htake'
      | noLog _ htake' _ _ _ => simp [htake] at htake'
  | log hpath htake hreports _ houtcome =>
    rw [houtcome, map_eq_error_iff, emit_error_iff]
    constructor
    · intro hopened
      obtain ⟨path, houtput, hstandard, hwritable, rfl⟩ := hopened
      exact .noLog hpath htake houtput hstandard fun h => hwritable ((hreports.writable_iff hwf path).mpr h)
    · intro hfails
      cases hfails with
      | noInput hmissing => simp [hpath] at hmissing
      | noInventory _ htake' => simp [htake] at htake'
      | noLog _ _ houtput hstandard hwritable =>
        exact ⟨_, houtput, hstandard, fun h => hwritable ((hreports.writable_iff hwf _).mp h), rfl⟩

/-- **What makes a run fail**, and what it leaves then: all as it was if there is no input;
and no file that is new or changed if there is no inventory. -/
theorem run_fails_iff (call : List String) (hwf : tree.root.WellFormed) (a : Arguments) :
    (∀ fault, (run call tree a).outcome = .error fault ↔ Fails tree a fault) ∧
    (tree.hasPath a.input = false → (run call tree a).tree = tree) ∧
    ∀ fault, (run call tree a).outcome = .error (.scan fault) →
      (run call tree a).tree = preparedOf tree a ∧
      ∀ m content, (run call tree a).tree.root.fileAt m = some content →
        tree.root.fileAt m = some content := by
  have hends := run_ends call tree a
  refine ⟨fun fault => fails_of_ends hwf hends, ?_, ?_⟩
  · intro hmissing
    cases hends with
    | noInput _ htree _ => exact htree
    | noInventory hpath | log hpath => simp [hmissing] at hpath
  · intro fault hfault
    have htree : (run call tree a).tree = preparedOf tree a := by
      cases hends with
      | noInput _ _ houtcome => simp [houtcome] at hfault
      | noInventory _ _ htree _ => exact htree
      | log _ _ _ _ houtcome =>
        rw [houtcome, map_eq_error_iff, emit_error_iff] at hfault
        simp at hfault
    refine ⟨htree, ?_⟩
    rw [htree]
    exact (preparedOf_spec hwf a).2

/-- An input that is not there, one of no known kind, and a log in the place of a
directory; and a run that succeeds with rules and a baseline that cannot be read, and
with a file in the place of its report directory. -/
theorem run_fails_iff_review :
    let tree := reviewTree "old.json" "\x7b".toUTF8
    let missing : Arguments := { input := "missing" }
    let unsupported : Arguments := { input := configName, reportDir := some "reports" }
    let unopened : Arguments := { input := "classes", output := some "classes" }
    let broken : Arguments :=
      { input := "classes", config := some "reports/old.json", baseline := some "reports/old.json",
        reportDir := some configName }
    tree.root.WellFormed ∧
      ((run [] tree missing).outcome = .error (.inputNotFound "missing") ∧
        (run [] tree missing).tree = tree) ∧
      (∃ fault, (run [] tree unsupported).outcome = .error (.scan fault) ∧
        (run [] tree unsupported).tree = preparedOf tree unsupported) ∧
      (run [] tree unopened).outcome = .error (.outputNotOpened "classes") ∧
      ((run [] tree broken).warnings.length = 5 ∧ ∀ fault, (run [] tree broken).outcome ≠ .error fault) := by
  intro tree missing unsupported unopened broken
  have hwf : tree.root.WellFormed := wellFormed_reviewTree _ _
  have hnone : tree.hasPath "missing" = false := by decide +kernel
  have hinput := run_fails_iff [] hwf missing
  have hscan := run_fails_iff [] hwf unsupported
  have hlog := run_fails_iff [] hwf unopened
  have hbroken := run_fails_iff [] hwf broken
  refine ⟨hwf, ⟨(hinput.1 _).mpr (.noInput hnone), hinput.2.1 hnone⟩, ?_, ?_, by decide +kernel, ?_⟩
  · cases htake : (Inventory.take (preparedOf tree unsupported) unsupported.input).2 with
    | ok inventory =>
      have hfails : (Inventory.take (preparedOf tree unsupported) unsupported.input).2.isOk = false := by
        decide +kernel
      rw [htake] at hfails
      cases hfails
    | error fault =>
      have hfault := (hscan.1 _).mpr (.noInventory (by decide +kernel) htake)
      exact ⟨fault, hfault, (hscan.2.2 fault hfault).1⟩
  · have htake : (Inventory.take (preparedOf tree unopened) unopened.input).2 = .ok ⟨[], [], 0⟩ :=
      Report.eq_ok_of_toOption (by decide +kernel)
    have hnone : (preparedOf tree unopened).write? "classes" .empty = none :=
      Option.isNone_iff_eq_none.mp (by decide +kernel)
    exact (hlog.1 _).mpr (.noLog (by decide +kernel) htake rfl (by decide +kernel)
      (FileTree.write?_eq_none_iff.mp hnone))
  · intro fault hfault
    have htake : (Inventory.take (preparedOf tree broken) broken.input).2.isOk = true := by
      decide +kernel
    cases (hbroken.1 fault).mp hfault with
    | noInput hpath => exact absurd hpath (by decide +kernel)
    | noInventory _ hfails =>
      rw [hfails] at htake
      cases htake
    | noLog _ _ houtput => cases houtput

end MemberAudit.Audit
