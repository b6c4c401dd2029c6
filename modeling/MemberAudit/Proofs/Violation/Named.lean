/-
A rule for all members of one owner. If it names the owner as reports do, each
reference to a member of the owner is reported, and so it is if it names a class as
class files do (`record_named`).

An array is not named so. Class files name it by its descriptor and reports by the type
in words, while a rule has only its slashes replaced: the descriptor never begins the
words, so a rule that has it is silent (`record_named_cloneArray`).
-/
import MemberAudit.Proofs.Policy.Exemptions
import MemberAudit.Proofs.Violation.Identity

namespace MemberAudit

open Signature (Holdable JavaType Primitive className)

/-! ## Names of owners -/

/-- The name of an owner as a reference has it: that of a class, or the descriptor of an
array. -/
inductive CarriedName : String → Prop where
  | ofClass {name : String} : name.toList.head? ≠ some '[' → CarriedName name
  | ofArray {component : JavaType} : (∀ name ∈ component.className?, Holdable name) →
      CarriedName (String.ofList (JavaType.descriptor (.array component)))

namespace Signature

theorem className_of_head? {name : String} (h : name.toList.head? ≠ some '[') :
    className name = withDots name := by
  unfold className
  split
  · rename_i rest heq
    exact absurd (congrArg List.head? heq) h
  · rfl

theorem slash_not_mem_withDots (name : String) : '/' ∉ (withDots name).toList := by
  rw [withDots, String.toList_map]
  intro hmem
  obtain ⟨c, -, hc⟩ := List.mem_map.mp hmem
  split at hc
  · exact absurd hc (by decide)
  · rename_i hne
    exact hne hc

theorem withDots_withDots (name : String) : withDots (withDots name) = withDots name :=
  withDots_eq_self (slash_not_mem_withDots name)

theorem slash_not_mem_shown (type : JavaType) : '/' ∉ type.shown.toList := by
  induction type with
  | primitive type => cases type <;> decide
  | object name => exact slash_not_mem_withDots name
  | array component ih =>
    rw [JavaType.shown, String.toList_append, List.mem_append, not_or]
    exact ⟨ih, by decide⟩

/-- The words for a type do not show the mark at the end of its descriptor. -/
theorem end_not_mem_shown {type : JavaType} (h : ∀ name ∈ type.className?, Holdable name) :
    ';' ∉ type.shown.toList := by
  induction type with
  | primitive type => cases type <;> decide
  | object name =>
    intro hmem
    rcases mem_withDots hmem with heq | hmem
    · exact absurd heq (by decide)
    · exact (h name rfl).endless hmem
  | array component ih =>
    rw [JavaType.shown, String.toList_append, List.mem_append, not_or]
    exact ⟨ih h, by decide⟩

theorem end_mem_descriptor {type : JavaType} (h : type.className? ≠ none) : ';' ∈ type.descriptor := by
  induction type with
  | primitive type => exact absurd rfl h
  | object name => simp [JavaType.descriptor]
  | array component ih => exact List.mem_cons_of_mem _ (ih h)

/-- The words for an array of primitives begin with a letter. -/
theorem head?_shown {type : JavaType} (h : type.className? = none) :
    ∃ c, type.shown.toList.head? = some c ∧ c ≠ '[' := by
  induction type with
  | primitive type => cases type <;> exact ⟨_, rfl, by decide⟩
  | object name => cases h
  | array component ih =>
    obtain ⟨c, hhead, hne⟩ := ih h
    exact ⟨c, by rw [JavaType.shown, String.toList_append, List.head?_append, hhead]; rfl, hne⟩

/-- The name of an array in class files does not begin its name in reports. -/
theorem not_prefix_className_array {component : JavaType}
    (h : ∀ name ∈ component.className?, Holdable name) :
    ¬(withDots (String.ofList (JavaType.descriptor (.array component)))).toList <+:
      (className (String.ofList (JavaType.descriptor (.array component)))).toList := by
  rw [className_array h, withDots, String.toList_map, String.toList_ofList]
  intro hbegins
  have harray : ∀ name ∈ (JavaType.array component).className?, Holdable name := h
  by_cases hclass : (JavaType.array component).className? = none
  · obtain ⟨c, hhead, hne⟩ := head?_shown hclass
    obtain ⟨rest, hrest⟩ := hbegins
    rw [← hrest] at hhead
    exact hne (Option.some.inj hhead).symm
  · exact end_not_mem_shown harray
      (hbegins.subset (List.mem_map.mpr ⟨';', end_mem_descriptor hclass, rfl⟩))

theorem withDots_className {name : String} (h : CarriedName name) :
    withDots (className name) = className name := by
  cases h with
  | ofClass hclass => rw [className_of_head? hclass, withDots_withDots]
  | ofArray harray =>
    rw [className_array harray]
    exact withDots_eq_self (slash_not_mem_shown _)

/-- The name of an owner in class files begins its name in reports unless it is an array's. -/
theorem prefix_className_iff {name : String} (h : CarriedName name) :
    (withDots name).toList <+: (className name).toList ↔ name.toList.head? ≠ some '[' := by
  cases h with
  | ofClass hclass => simp [className_of_head? hclass, hclass]
  | @ofArray component harray =>
    have hbracket : (String.ofList (JavaType.descriptor (.array component))).toList.head? =
        some '[' := by rw [String.toList_ofList]; rfl
    simp only [not_prefix_className_array harray, hbracket, ne_eq, not_true_eq_false]

end Signature

/-! ## Rules that name an owner -/

/-- A rule for all members of one owner, whoever uses them. -/
structure Rule.Names (rule : Rule) (owner : String) : Prop where
  owner : rule.owner = owner
  member : rule.member = ""
  scope : rule.scope = .member
  message : rule.message ≠ ""
  exempt : rule.exempt = []

theorem Rule.Names.concerns_iff {rule : Rule} {owner : String} {q : Query} (h : rule.Names owner) :
    rule.ConcernsAsWritten q ↔ (withDots owner).toList <+: q.owner.toList := by
  constructor
  · intro hconcerns
    exact h.owner ▸ hconcerns.owner
  · intro hbegins
    exact ⟨h.owner.symm ▸ hbegins, fun _ => .inl h.member, by simp [h.exempt]⟩

/-- A rule of a list that no rule without a message comes before. -/
def HeardIn (list : List Rule) (rule : Rule) : Prop :=
  ∃ earlier later, list = earlier ++ rule :: later ∧ ∀ r ∈ earlier, r.message ≠ ""

theorem Policy.exists_answer?_of_heardIn {rules : Policy} {rule : Rule} {q : Query}
    (hheard : HeardIn (rules.rulesFor q.kind) rule) (hconcerns : rule.ConcernsAsWritten q)
    (hmessage : rule.message ≠ "") :
    ∃ message, rules.dotForm.answer? q = some message ∧ message ≠ "" := by
  obtain ⟨earlier, later, hsplit, hearlier⟩ := hheard
  rw [answer?_of_split hsplit]
  cases hfind : earlier.find? (·.dotForm.appliesTo q) with
  | some r => exact ⟨r.message, rfl, hearlier r (List.mem_of_find?_eq_some hfind)⟩
  | none => exact ⟨rule.message, by rw [Rule.appliesTo_dotForm.mpr hconcerns]; rfl, hmessage⟩

namespace Violation

variable {set : UseSet} {rules : Policy} {classes : List PlacedClass} {site : Site} {rule : Rule}

/-- A site of a scan that has a violation, the use of which is in the set. -/
def ReportedAt (set : UseSet) (rules : Policy) (classes : List PlacedClass) (site : Site) : Prop :=
  ∃ violation, FoundAt set rules classes site violation ∧
    (record set rules classes).2.contains violation.use = true

theorem contains_record (set : UseSet) {violation : Violation} (h : violation ∈ (record set rules classes).1) :
    (record set rules classes).2.contains violation.use = true := by
  have hany : ((all rules classes).map use).any violation.use.same = true :=
    List.any_eq_true.mpr ⟨_, List.mem_map_of_mem h, violation.use.same_self⟩
  rw [record, UseSet.clear, UseSet.contains_addAll, hany, Bool.or_true]

theorem reportedAt_of_answer? {message : String} (hsite : site ∈ sites classes)
    (hanswer : rules.answer? site.query = some message) (hmessage : message ≠ "") :
    ReportedAt set rules classes site := by
  obtain ⟨rule, hdecides, hrule⟩ := Policy.answer?_eq_some.mp hanswer
  have hflags : Flags rules site ⟨useOf site.cls.toJvmClass site.method site.reference, message,
      site.cls.artifact⟩ := ⟨⟨rule, hdecides, hrule⟩, hmessage, rfl, shows_useOf site⟩
  have hfound := mem_all.mpr ⟨site, hsite, hflags⟩
  exact ⟨_, ⟨hsite, hfound, hflags⟩, contains_record set hfound⟩

/-- A rule that is heard and concerns a site has it reported. -/
theorem reportedAt_of_heardIn (hsite : site ∈ sites classes)
    (hheard : HeardIn (rules.rulesFor site.reference.op.kind) rule) (hmessage : rule.message ≠ "")
    (hconcerns : rule.ConcernsAsWritten site.query) : ReportedAt set rules.dotForm classes site := by
  obtain ⟨message, hanswer, hne⟩ := Policy.exists_answer?_of_heardIn hheard hconcerns hmessage
  exact reportedAt_of_answer? hsite hanswer hne

/-- What is reported concerns some rule of the list. -/
theorem exists_concerns_of_reportedAt (h : ReportedAt set rules.dotForm classes site) :
    ∃ r ∈ rules.rulesFor site.reference.op.kind, r.ConcernsAsWritten site.query := by
  obtain ⟨violation, hfound, -⟩ := h
  obtain ⟨decided, hdecides, -⟩ := hfound.flags.decided
  have hanswer := Policy.answer?_eq_some.mpr ⟨decided, hdecides, rfl⟩
  rw [Policy.answer?_dotForm, Option.map_eq_some_iff] at hanswer
  obtain ⟨r, hr, -⟩ := hanswer
  obtain ⟨i, hfirst⟩ := Policy.find?_eq_some_iff_firstAt.mp hr
  exact ⟨r, List.mem_of_find?_eq_some hr, hfirst.concerns⟩

/-- **A rule that names an owner.** By its name in reports every owner can be named, and a
class also by its name in class files: its references are reported, unless a rule
without a message comes before. The rule alone is silent if it names an array as class
files do. -/
theorem record_named (set : UseSet) (rules : Policy) (hsite : site ∈ sites classes)
    (howner : CarriedName site.reference.owner) (rule : Rule) :
    (rule.Names (className site.reference.owner) →
      HeardIn (rules.rulesFor site.reference.op.kind) rule → ReportedAt set rules.dotForm classes site) ∧
    (rule.Names site.reference.owner → site.reference.owner.toList.head? ≠ some '[' →
      HeardIn (rules.rulesFor site.reference.op.kind) rule → ReportedAt set rules.dotForm classes site) ∧
    (rule.Names site.reference.owner → rules.rulesFor site.reference.op.kind = [rule] →
      (ReportedAt set rules.dotForm classes site ↔ site.reference.owner.toList.head? ≠ some '[')) := by
  have hclass : rule.Names site.reference.owner →
      (rule.ConcernsAsWritten site.query ↔ site.reference.owner.toList.head? ≠ some '[') :=
    fun hnames => hnames.concerns_iff.trans (Signature.prefix_className_iff howner)
  refine ⟨?_, ?_, ?_⟩
  · intro hnames hheard
    refine reportedAt_of_heardIn hsite hheard hnames.message (hnames.concerns_iff.mpr ?_)
    rw [Signature.withDots_className howner]
    exact List.prefix_refl _
  · intro hnames hhead hheard
    exact reportedAt_of_heardIn hsite hheard hnames.message ((hclass hnames).mpr hhead)
  · intro hnames halone
    constructor
    · intro hreported
      obtain ⟨r, hr, hconcerns⟩ := exists_concerns_of_reportedAt hreported
      rw [halone, List.mem_singleton] at hr
      exact (hclass hnames).mp (hr ▸ hconcerns)
    · intro hhead
      exact reportedAt_of_heardIn hsite ⟨[], [], halone, by simp⟩ hnames.message
        ((hclass hnames).mpr hhead)

/-! A class that copies an array and puts it into a store. -/

def cloneArray : ClassFile.Reference :=
  ⟨"[Ljava/lang/String;", "clone", "()Ljava/lang/Object;", .invokevirtual, 3⟩

def putArray : ClassFile.Reference :=
  ⟨"app/Store", "put", "([Ljava/lang/String;)V", .invokestatic, 6⟩

def savingMethod : Method := ⟨"save", "()V", [], [cloneArray, putArray]⟩

def savingClass : PlacedClass := ⟨⟨"app/Main", [savingMethod]⟩, 0⟩

def namingRule (owner : String) : Rule := { owner, message := "no" }

def namingPolicy (owner : String) : Policy := { methods := [namingRule owner] }

theorem names_namingRule (owner : String) : (namingRule owner).Names owner :=
  ⟨rfl, rfl, rfl, by simp [namingRule], rfl⟩

theorem heardIn_namingPolicy (owner : String) :
    HeardIn ((namingPolicy owner).rulesFor .method) (namingRule owner) :=
  ⟨[], [], rfl, by simp⟩

theorem carriedName_cloneArray : CarriedName "[Ljava/lang/String;" :=
  @CarriedName.ofArray (.object "java/lang/String") (by
    rintro _ ⟨⟩
    exact ⟨by decide, by decide⟩)

/-- The array is reported under its name in words, the class under either of its names. -/
theorem record_named_saving :
    ReportedAt .empty (namingPolicy "java.lang.String[]").dotForm [savingClass]
        ⟨savingClass, savingMethod, cloneArray⟩ ∧
      ReportedAt .empty (namingPolicy "app/Store").dotForm [savingClass]
        ⟨savingClass, savingMethod, putArray⟩ ∧
      ¬ReportedAt .empty (namingPolicy "[Ljava/lang/String;").dotForm [savingClass]
        ⟨savingClass, savingMethod, cloneArray⟩ := by
  have hclone := record_named .empty (namingPolicy "java.lang.String[]")
    (by decide : ⟨savingClass, savingMethod, cloneArray⟩ ∈ sites [savingClass]) carriedName_cloneArray
    (namingRule "java.lang.String[]")
  have hput := record_named .empty (namingPolicy "app/Store")
    (by decide : ⟨savingClass, savingMethod, putArray⟩ ∈ sites [savingClass])
    (.ofClass (by decide)) (namingRule "app/Store")
  have hsilent := record_named .empty (namingPolicy "[Ljava/lang/String;")
    (by decide : ⟨savingClass, savingMethod, cloneArray⟩ ∈ sites [savingClass]) carriedName_cloneArray
    (namingRule "[Ljava/lang/String;")
  refine ⟨hclone.1 ?_ (heardIn_namingPolicy _), hput.2.1 (names_namingRule _) (by decide)
    (heardIn_namingPolicy _), ?_⟩
  · have hname : className "[Ljava/lang/String;" = "java.lang.String[]" := by decide +kernel
    exact hname ▸ names_namingRule _
  · intro hreported
    exact (hsilent.2.2 (names_namingRule _) rfl).mp hreported (by decide)

/-- A rule that names an array as class files do reports no use of it. -/
theorem record_named_cloneArray :
    (⟨savingClass, savingMethod, cloneArray⟩ : Site) ∈ sites [savingClass] ∧
      (namingRule "[Ljava/lang/String;").Names cloneArray.owner ∧
      (record .empty (namingPolicy "[Ljava/lang/String;").dotForm [savingClass]).1 = [] ∧
      (record .empty (namingPolicy "[Ljava/lang/String;").dotForm [savingClass]).2.uses = [] :=
  ⟨by decide, names_namingRule _, by decide +kernel, by decide +kernel⟩

end Violation
end MemberAudit
