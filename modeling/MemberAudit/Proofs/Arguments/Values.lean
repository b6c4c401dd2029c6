/-
The values of arguments. No value that a command line gives is empty, except for the
name of the project (`parse_filled`): each word adds at most one setting, and what it adds
is looked at first (`State.set`).
-/
import MemberAudit.Arguments
import MemberAudit.Proofs.Results

namespace MemberAudit.Arguments

/-- No setting but the name of the project is empty. -/
def Filled (settings : List (Setting × String)) : Prop :=
  ∀ setting value, (setting, value) ∈ settings → setting ≠ .projectName → value ≠ ""

variable {state next : State}

theorem filled_of_set {setting : Setting} {value : String} (h : Filled state.settings)
    (hset : state.set setting value = .ok next) : Filled next.settings := by
  unfold State.set at hset
  split at hset
  · cases hset
  · split at hset
    · cases hset
    · rename_i hvalue
      cases hset
      intro other text hmem hother
      rcases List.mem_append.mp hmem with hmem | hmem
      · exact h other text hmem hother
      · cases List.mem_singleton.mp hmem
        simpa [hother] using hvalue

theorem filled_of_settle (h : Filled state.settings) (hsettle : state.settle = .ok next) :
    Filled next.settings := by
  unfold State.settle at hsettle
  split at hsettle
  · cases hsettle
    exact h
  · cases hsettle
  · have hsettled : Filled ({ state with pending := none } : State).settings := h
    exact filled_of_set hsettled hsettle

theorem filled_of_option {name : String} {value? : Option String} (h : Filled state.settings)
    (hoption : state.option name value? = .ok next) : Filled next.settings := by
  unfold State.option at hoption
  split at hoption
  · cases hoption
  · obtain ⟨settled, hsettle, hset⟩ := bind_eq_ok.mp hoption
    exact filled_of_set (filled_of_settle h hsettle) hset
  · obtain ⟨settled, hsettle, hset⟩ := bind_eq_ok.mp hoption
    have hsettled := filled_of_settle h hsettle
    cases hset
    exact hsettled
  · cases hoption
  · obtain ⟨settled, hsettle, hset⟩ := bind_eq_ok.mp hoption
    have hsettled := filled_of_settle h hsettle
    split at hset
    · cases hset
    · cases hset
      exact hsettled
  · cases hoption
  · obtain ⟨settled, -, hset⟩ := bind_eq_ok.mp hoption
    cases hset

theorem filled_of_step {word : Word} (h : Filled state.settings) (hstep : state.step word = .ok next) :
    Filled next.settings := by
  cases word with
  | terminator =>
    cases hstep
    exact h
  | long name value? => exact filled_of_option h hstep
  | short letter =>
    rw [State.step] at hstep
    split at hstep
    · cases hstep
    · obtain ⟨settled, -, hstop⟩ := bind_eq_ok.mp hstep
      cases hstop
  | plain text =>
    rw [State.step] at hstep
    split at hstep
    · cases hstep
      exact h
    · cases hstep

/-- What is read word by word. -/
theorem filled_of_read {words : List Word} (h : Filled state.settings)
    (hread : state.read words = .ok next) : Filled next.settings := by
  induction words generalizing state with
  | nil => exact filled_of_settle h hread
  | cons word rest ih =>
    unfold State.read at hread
    split at hread
    · rename_i heq
      cases heq
    · exact filled_of_settle h hread
    · cases hread
    · rename_i heq
      cases heq
      obtain ⟨stepped, hstep, hrest⟩ := bind_eq_ok.mp hread
      exact ih (filled_of_step h hstep) hrest

theorem mem_of_lookup {setting : Setting} {value : String} {settings : List (Setting × String)}
    (h : settings.lookup setting = some value) : (setting, value) ∈ settings := by
  obtain ⟨before, after, rfl, -⟩ := List.lookup_eq_some_iff.mp h
  simp

/-- **No path on the command line is empty.** -/
theorem parse_filled {words : List String} {a : Arguments} (h : parse words = .ok a) :
    a.input ≠ "" ∧ ∀ path, path ∈ a.config ∨ path ∈ a.reportDir ∨ path ∈ a.baseline ∨ path ∈ a.output →
      path ≠ "" := by
  obtain ⟨state, hread, hstate⟩ := bind_eq_ok.mp h
  have hfilled : Filled state.settings :=
    filled_of_read (fun _ _ hmem => by cases hmem) hread
  unfold ofState at hstate
  split at hstate
  · cases hstate
  · rename_i input hinput
    cases hstate
    refine ⟨hfilled _ _ (mem_of_lookup hinput) (by simp), ?_⟩
    intro path hpath
    rcases hpath with hpath | hpath | hpath | hpath
    all_goals exact hfilled _ _ (mem_of_lookup hpath) (by simp)

end MemberAudit.Arguments
