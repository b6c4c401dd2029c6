/-
What the log of a run says of files. It lists the artifacts of the inventory and gives
each result the number of one of them, and the caller that the result is about is in a
class that was read from that file (`run_log_resolves`). The log is read back from its
text, on standard output or in its file.

The numbers are those of the inventory (`Inventory.take_consistent`). They stay with the
violations of each class, of which some are left out but none is changed on the way to
the log.
-/
import MemberAudit.Proofs.Audit.KeptFiles
import MemberAudit.Proofs.Audit.Rerun
import MemberAudit.Proofs.Inventory.Bookkeeping
import MemberAudit.Proofs.Violation.Agreement
import MemberAudit.Proofs.Violation.Sites

namespace MemberAudit

open Json (Document)

/-! ## Logs of an inventory -/

namespace Sarif

/-- A log whose artifacts are those of an inventory, and each of whose results has the
number of the one from which the caller was read. -/
structure Resolves (inventory : Inventory) (log : Document) : Prop where
  files : (artifacts log).map (fun artifact => (uri? artifact, roles artifact)) =
    inventory.artifacts.map fun file =>
      (some file.path, if file.isInput then ["analysisTarget"] else [])
  results : ∃ results, results? log = some results ∧ ∀ result ∈ results,
    ∃ (number : Nat) (file : Document) (artifact : Artifact) (cls : JvmClass) (method : Method),
      index? result = some (number : Int) ∧ (artifacts log)[number]? = some file ∧
      inventory.artifacts[number]? = some artifact ∧ uri? file = some artifact.path ∧
      cls ∈ inventory.classesFrom number ∧ method ∈ cls.methods ∧
      caller? result = some (Signature.className cls.name ++ "." ++
        Signature.caller method.name method.descriptor)

variable {inventory : Inventory} {holds : Artifact → List JvmClass → Prop} {violations : List Violation}

theorem resolves_log (call : List String) (h : Inventory.Numbered holds inventory)
    (hviolations : ∀ violation ∈ violations, ∃ rules, violation ∈ Violation.all rules inventory.classes) :
    Resolves inventory (.ofValue (log call inventory.artifacts violations)) where
  files := by
    rw [artifacts_ofValue_log, List.map_map]
    refine List.map_congr_left ?_
    intro file _
    rw [Function.comp_apply, uri?_artifact, roles_artifact]
  results := by
    refine ⟨_, results?_ofValue_log _ _ _, ?_⟩
    intro result hresult
    obtain ⟨violation, hviolation, rfl⟩ := List.mem_map.mp hresult
    obtain ⟨rules, hall⟩ := hviolations violation hviolation
    obtain ⟨site, hsite, hflags⟩ := Violation.mem_all.mp hall
    simp only [sites, List.mem_flatMap, List.mem_map] at hsite
    obtain ⟨cls, hcls, method, hmethod, reference, -, rfl⟩ := hsite
    obtain ⟨number, hlt, hnumber⟩ := h.placed cls hcls
    refine ⟨number, .ofValue (artifact inventory.artifacts[number]), inventory.artifacts[number],
      cls.toJvmClass, method, ?_, ?_, List.getElem?_eq_getElem hlt, rfl, ?_, hmethod, ?_⟩
    · rw [index?_result, hflags.artifact, hnumber]
    · rw [artifacts_ofValue_log, List.getElem?_map, List.getElem?_eq_getElem hlt, Option.map_some]
    · exact List.mem_map_of_mem (List.mem_filter.mpr ⟨hcls, by simpa using hnumber⟩)
    · rw [caller?_result, hflags.shows.callerClass, hflags.shows.callerMember]

end Sarif

/-! ## The log of a run -/

namespace Audit

variable {call : List String} {tree : FileTree} {a : Arguments} {text log : String} {summary : Summary}

/-- The log that a run has left, from its text on standard output or in its file. -/
def logOf (tree : FileTree) (output : Option String) (text : String) : Option String :=
  match output with
  | none => some text
  | some path =>
    if isStandardOutput path then some text else (tree.read? path).bind String.fromUTF8?

theorem logOf_emit {output : Option String} (hwf : tree.root.WellFormed)
    (h : (emit tree output log).2 = .ok text) : logOf (emit tree output log).1 output text = some log := by
  cases output with
  | none =>
    cases h
    rfl
  | some path =>
    rw [emit] at h ⊢
    rw [logOf]
    split
    · rename_i hstandard
      rw [if_pos hstandard] at h
      cases h
      rfl
    · rename_i hfile
      rw [if_neg hfile] at h
      cases hwrite : tree.write? path log.toUTF8 with
      | none =>
        rw [hwrite] at h
        cases h
      | some written =>
        simp only
        rw [FileTree.read?_of_write? hwf hwrite, Option.bind_some, Text.fromUTF8?_toUTF8]

theorem of_map_eq_ok {output : Except RunFault String} {counts : Summary}
    (h : output.map (fun text => (text, counts)) = .ok (text, summary)) :
    output = .ok text ∧ summary = counts := by
  cases output with
  | error fault => cases h
  | ok text =>
    cases h
    exact ⟨rfl, rfl⟩

theorem mem_all_of_mem_loggedOf {inventory : Inventory} {violation : Violation}
    (h : violation ∈ loggedOf tree a inventory) :
    ∃ rules, violation ∈ Violation.all rules inventory.classes := by
  unfold loggedOf at h
  cases hconfig : configOf tree a with
  | none =>
    rw [hconfig] at h
    cases h
  | some config =>
    rw [hconfig] at h
    exact ⟨_, Violation.mem_of_mem_reported h⟩

/-- A run that succeeds has taken an inventory, and has logged what it reports. -/
theorem logged_of_run (h : (run call tree a).outcome = .ok (text, summary)) :
    ∃ inventory reports,
      (Inventory.take (preparedOf tree a) a.input).2 = .ok inventory ∧ Reported tree a reports ∧
      summary = ⟨inventory.classCount, inventory.artifacts.length, (loggedOf tree a inventory).length⟩ ∧
      (run call tree a).tree = (emit reports a.output (logText call tree a inventory)).1 ∧
      (emit reports a.output (logText call tree a inventory)).2 = .ok text := by
  cases run_ends call tree a with
  | noInput _ _ houtcome | noInventory _ _ _ houtcome =>
    rw [houtcome] at h
    cases h
  | log _ htake hreports htree houtcome =>
    rw [houtcome] at h
    obtain ⟨htext, hsummary⟩ := of_map_eq_ok h
    exact ⟨_, _, htake, hreports, hsummary, htree, htext⟩

/-- **Files and numbers are consistent, from the scan to the log.** The inventory of any
input is; and a run that succeeds counts the classes of its inventory, and its log
lists the artifacts of it and has with each result the number of the one in which
the caller is. The results are those of the violations that the run reports. -/
theorem run_log_resolves (hwf : tree.root.WellFormed) :
    (∀ input inventory, (Inventory.take tree input).2 = .ok inventory →
      inventory.Consistent tree input) ∧
    ∀ call a text summary, (run call tree a).outcome = .ok (text, summary) →
      ∃ inventory log, (Inventory.take (preparedOf tree a) a.input).2 = .ok inventory ∧
        inventory.Consistent (preparedOf tree a) a.input ∧
        summary.classes = inventory.classes.length ∧
        summary.artifacts = inventory.artifacts.length ∧
        summary.results = (loggedOf tree a inventory).length ∧
        logOf (run call tree a).tree a.output text = some log ∧
        Sarif.Resolves inventory (Document.read log).1 ∧
        ∃ results, Sarif.results? (Document.read log).1 = some results ∧
          List.Forall₂ Sarif.Tells results (loggedOf tree a inventory) := by
  refine ⟨fun input inventory => Inventory.take_consistent hwf, ?_⟩
  intro call a text summary h
  obtain ⟨inventory, reports, htake, hreports, hsummary, htree, houtput⟩ := logged_of_run h
  have hconsistent := Inventory.take_consistent (preparedOf_spec hwf a).1.wellFormed htake
  refine ⟨inventory, logText call tree a inventory, htake, hconsistent,
    by rw [hsummary, hconsistent.numbered.counted], by rw [hsummary], by rw [hsummary], ?_, ?_⟩
  · rw [htree]
    exact logOf_emit (hreports.agreeOn hwf).right houtput
  · rw [logText, Document.read_document]
    exact ⟨Sarif.resolves_log call hconsistent.numbered fun _ => mem_all_of_mem_loggedOf,
      Sarif.tells_log call inventory.artifacts (loggedOf tree a inventory)⟩

/-- The log of the one call has one result, and it leads to the class file. -/
theorem run_log_resolves_call :
    callTree.root.WellFormed ∧
    ∃ text summary, (run [] callTree callArguments).outcome = .ok (text, summary) ∧
      summary.results = 1 ∧
      ∃ inventory log,
        (Inventory.take (preparedOf callTree callArguments) callArguments.input).2 = .ok inventory ∧
        inventory.Consistent (preparedOf callTree callArguments) callArguments.input ∧
        summary.classes = inventory.classes.length ∧
        summary.artifacts = inventory.artifacts.length ∧
        summary.results = (loggedOf callTree callArguments inventory).length ∧
        logOf (run [] callTree callArguments).tree callArguments.output text = some log ∧
        Sarif.Resolves inventory (Document.read log).1 ∧
        ∃ results, Sarif.results? (Document.read log).1 = some results ∧
          List.Forall₂ Sarif.Tells results (loggedOf callTree callArguments inventory) := by
  have hrun := run_of_take [] (by decide +kernel : configOf callTree callArguments = some configName)
    (by decide +kernel) (congrArg Prod.snd take_callTree)
  rw [emitted_of_standardOutput (by simp [callArguments])] at hrun
  have hok := congrArg Run.outcome hrun
  exact ⟨wellFormed_callTree, _, _, hok, by decide +kernel,
    (run_log_resolves wellFormed_callTree).2 _ _ _ _ hok⟩

end Audit

end MemberAudit
