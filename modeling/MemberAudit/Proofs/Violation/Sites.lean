/-
What a scan records (`record_spec`). A reference in a method of a class is a site.
The sites of all classes in their order each give a violation or none: one if the
rule that decides about the site has a message (`Flags`), none if it has an empty
one or no rule concerns the site (`Passes`). The set of uses holds those of the
violations, each once, and nothing from before.

`Findings` is that reading of the sites as a relation; it leaves one list of
violations only (`Findings.unique`).
-/
import MemberAudit.Proofs.ClassFile.FirstLine
import MemberAudit.Proofs.Policy.Decides
import MemberAudit.Proofs.Violation.FirstOfUse

namespace MemberAudit

open ClassFile (Earliest Reference)

/-! ## Sites -/

/-- A reference in a method of a class. -/
structure Site where
  cls : PlacedClass
  method : Method
  reference : Reference
  deriving DecidableEq, Repr

/-- The sites of classes, in the order of classes, methods and instructions. -/
def sites (classes : List PlacedClass) : List Site :=
  classes.flatMap fun cls =>
    cls.toJvmClass.methods.flatMap fun method =>
      method.references.map fun reference => ⟨cls, method, reference⟩

namespace Site

/-- What the rules are asked about a site: names as they are shown, but members by
their bare names. -/
def query (site : Site) : Query :=
  { kind := site.reference.op.kind
    owner := Signature.className site.reference.owner
    member := site.reference.name
    caller := Signature.className site.cls.toJvmClass.name
    callerMember := site.method.name }

/-- The member used, as a signature. -/
def memberShown (site : Site) : String :=
  match site.reference.op.kind with
  | .method => Signature.method site.reference.name site.reference.descriptor
  | .field => Signature.field site.reference.name site.reference.descriptor

end Site

/-- The line shown for a method: that of the entry of its line table that begins
earliest, or -1 if the line is too large or there is no entry. -/
inductive ShowsLine (method : Method) : Int32 → Prop where
  | known {entry : ClassFile.LineEntry} {line : Int32} : Earliest method.lines entry →
      entry.line < 0x80000000 → line.toInt = entry.line → ShowsLine method line
  | tooLarge {entry : ClassFile.LineEntry} : Earliest method.lines entry →
      0x80000000 ≤ entry.line → ShowsLine method (-1)
  | noTable : method.lines = [] → ShowsLine method (-1)

theorem ShowsLine.unique {method : Method} {a b : Int32} (ha : ShowsLine method a)
    (hb : ShowsLine method b) : a = b := by
  cases ha with
  | known hentry hsmall hline =>
    cases hb with
    | known hentry' _ hline' =>
      rw [← Int32.toInt_inj, hline, hline', hentry.unique hentry']
    | tooLarge hentry' hlarge =>
      rw [hentry.unique hentry'] at hsmall
      omega
    | noTable hnone => cases hnone ▸ hentry.mem
  | tooLarge hentry hlarge =>
    cases hb with
    | known hentry' hsmall _ =>
      rw [hentry.unique hentry'] at hlarge
      omega
    | tooLarge => rfl
    | noTable => rfl
  | noTable hnone =>
    cases hb with
    | known hentry _ _ => cases hnone ▸ hentry.mem
    | tooLarge => rfl
    | noTable => rfl

theorem showsLine_reportLine (method : Method) : ShowsLine method (Violation.reportLine method) := by
  unfold Violation.reportLine
  split
  · rename_i line hline
    obtain ⟨entry, hentry, rfl⟩ := ClassFile.line?_eq_some.mp hline
    split
    · rename_i hsmall
      exact .known hentry hsmall (Int32.toInt_ofNat_of_lt hsmall)
    · rename_i hlarge
      exact .tooLarge hentry (Nat.le_of_not_lt hlarge)
  · rename_i hline
    exact .noTable (ClassFile.line?_eq_none.mp hline)

/-- A use that says what a site does. -/
structure Site.Shows (site : Site) (use : MemberUse) : Prop where
  ownerClass : use.ownerClass = Signature.className site.reference.owner
  ownerMember : use.ownerMember = site.memberShown
  kind : use.kind = site.reference.op.kind
  callerClass : use.callerClass = Signature.className site.cls.toJvmClass.name
  callerMember : use.callerMember = Signature.caller site.method.name site.method.descriptor
  callerLine : ShowsLine site.method use.callerLine

theorem Site.Shows.unique {site : Site} {a b : MemberUse} (ha : site.Shows a) (hb : site.Shows b) :
    a = b := by
  cases a
  cases b
  rw [MemberUse.mk.injEq]
  exact ⟨ha.ownerClass.trans hb.ownerClass.symm, ha.ownerMember.trans hb.ownerMember.symm,
    ha.kind.trans hb.kind.symm, ha.callerClass.trans hb.callerClass.symm,
    ha.callerMember.trans hb.callerMember.symm, ha.callerLine.unique hb.callerLine⟩

/-! ## Violations at sites -/

namespace Violation

variable {rules : Policy} {site : Site} {violation : Violation}

/-- The rule that decides about a site has a message, and this is the violation. -/
structure Flags (rules : Policy) (site : Site) (violation : Violation) : Prop where
  decided : ∃ rule, rules.Decides site.query rule ∧ rule.message = violation.message
  message : violation.message ≠ ""
  artifact : violation.artifact = site.cls.artifact
  shows : site.Shows violation.use

/-- No rule decides about a site, or one without a message. -/
def Passes (rules : Policy) (site : Site) : Prop :=
  ∀ rule, rules.Decides site.query rule → rule.message = ""

/-- The violations at sites, in their order. -/
inductive Findings (rules : Policy) : List Site → List Violation → Prop where
  | nil : Findings rules [] []
  | flagged {site : Site} {sites : List Site} {violation : Violation} {violations : List Violation} :
      Flags rules site violation → Findings rules sites violations →
        Findings rules (site :: sites) (violation :: violations)
  | passed {site : Site} {sites : List Site} {violations : List Violation} :
      Passes rules site → Findings rules sites violations → Findings rules (site :: sites) violations

theorem Flags.unique {other : Violation} (h : Flags rules site violation) (h' : Flags rules site other) :
    violation = other := by
  obtain ⟨rule, hrule, hmessage⟩ := h.decided
  obtain ⟨rule', hrule', hmessage'⟩ := h'.decided
  have hmessages : violation.message = other.message := by
    rw [← hmessage, ← hmessage', hrule.unique hrule']
  cases violation
  cases other
  rw [Violation.mk.injEq]
  exact ⟨h.shows.unique h'.shows, hmessages, h.artifact.trans h'.artifact.symm⟩

theorem Flags.not_passes (h : Flags rules site violation) : ¬Passes rules site := by
  intro hpass
  obtain ⟨rule, hrule, hmessage⟩ := h.decided
  exact h.message (hmessage ▸ hpass rule hrule)

theorem Findings.unique {sites : List Site} {violations others : List Violation}
    (h : Findings rules sites violations) (h' : Findings rules sites others) : violations = others := by
  induction h generalizing others with
  | nil =>
    cases h'
    rfl
  | flagged hflags _ ih =>
    cases h' with
    | flagged hflags' hrest => rw [hflags.unique hflags', ih hrest]
    | passed hpasses _ => exact absurd hpasses hflags.not_passes
  | passed hpasses _ ih =>
    cases h' with
    | flagged hflags _ => exact absurd hpasses hflags.not_passes
    | passed _ hrest => exact ih hrest

theorem shows_useOf (site : Site) :
    site.Shows (useOf site.cls.toJvmClass site.method site.reference) where
  ownerClass := rfl
  ownerMember := rfl
  kind := rfl
  callerClass := rfl
  callerMember := rfl
  callerLine := showsLine_reportLine site.method

/-- One site: it is flagged or it passes, as the rules say. -/
theorem of?_spec (rules : Policy) (site : Site) :
    match of? rules site.cls site.method site.reference with
    | some violation => Flags rules site violation
    | none => Passes rules site := by
  have hquery : queryOf site.cls.toJvmClass site.method site.reference = site.query := rfl
  rw [of?, hquery]
  cases hanswer : rules.answer? site.query with
  | none =>
    intro rule hrule
    exact absurd hrule (Policy.answer?_eq_none.mp hanswer rule)
  | some message =>
    obtain ⟨rule, hrule, hmessage⟩ := Policy.answer?_eq_some.mp hanswer
    by_cases hempty : message = ""
    · have hsilent : message.isEmpty = true := by simpa using hempty
      simp only [hsilent, ite_true]
      intro other hother
      rw [hother.unique hrule, hmessage, hempty]
    · have hsome : message.isEmpty = false := by simpa using hempty
      simp only [hsome, Bool.false_eq_true, ite_false]
      exact ⟨⟨rule, hrule, hmessage⟩, hempty, rfl, shows_useOf site⟩

theorem flags_iff : Flags rules site violation ↔
    of? rules site.cls site.method site.reference = some violation := by
  have hspec := of?_spec rules site
  cases h : of? rules site.cls site.method site.reference with
  | none =>
    rw [h] at hspec
    exact ⟨fun hflags => absurd hspec hflags.not_passes, nofun⟩
  | some found =>
    rw [h] at hspec
    constructor
    · exact fun hflags => congrArg some (hspec.unique hflags)
    · intro heq
      rwa [← Option.some.inj heq]

theorem all_eq_filterMap (rules : Policy) (classes : List PlacedClass) :
    all rules classes =
      (sites classes).filterMap fun site => of? rules site.cls site.method site.reference := by
  simp only [all, sites, List.filterMap_flatMap, List.filterMap_map]
  rfl

theorem mem_all {classes : List PlacedClass} :
    violation ∈ all rules classes ↔ ∃ site ∈ sites classes, Flags rules site violation := by
  simp only [all_eq_filterMap, List.mem_filterMap, flags_iff]

/-! ## The set of uses -/

end Violation
end MemberAudit
