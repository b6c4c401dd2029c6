/-
Different names are shown differently. A report shows names without the marks that
keep them apart in a class file, and puts marks of its own between them. So long as
names hold none of either (`ClassName`, `MemberName`), the words tell what they were
made from: a type (`shown_inj`), an owner (`className_inj`), a caller without its
result (`caller_inj`), and a member with its descriptor (`method_inj`, `field_inj`);
and no method reads as a field (`method_ne_field`).
-/
import MemberAudit.Proofs.Signature.Descriptors

namespace MemberAudit

/-! ## Text between marks -/

namespace Text

/-- A text is cut in one way only at the first of its marks. -/
theorem cut_inj {mark : Char} {a b rest rest' : List Char} (ha : mark ∉ a) (hb : mark ∉ b)
    (h : a ++ mark :: rest = b ++ mark :: rest') : a = b ∧ rest = rest' := by
  induction a generalizing b with
  | nil =>
    cases b with
    | nil => exact ⟨rfl, (List.cons.inj h).2⟩
    | cons c b => exact absurd ((List.cons.inj h).1 ▸ List.mem_cons_self) hb
  | cons c a ih =>
    cases b with
    | nil => exact absurd ((List.cons.inj h).1 ▸ List.mem_cons_self) ha
    | cons c' b =>
      obtain ⟨rfl, htail⟩ := List.cons.inj h
      obtain ⟨rfl, hrest⟩ := ih (fun hmem => ha (List.mem_cons_of_mem _ hmem))
        (fun hmem => hb (List.mem_cons_of_mem _ hmem)) htail
      exact ⟨rfl, hrest⟩

/-- Whether a text holds none of some marks. -/
def free (marks s : List Char) : Bool :=
  s.all fun c => !marks.contains c

theorem free_iff {marks s : List Char} : free marks s = true ↔ ∀ c ∈ s, c ∉ marks := by
  simp [free]

theorem mem_split {sep c : Char} {s : List Char} (h : c ∈ s) :
    c = sep ∨ ∃ piece ∈ split sep s, c ∈ piece := by
  induction s with
  | nil => cases h
  | cons first s ih =>
    obtain ⟨piece, pieces, hpieces⟩ := List.exists_cons_of_ne_nil (split_ne_nil sep s)
    rw [hpieces] at ih
    by_cases hsep : first = sep
    · rw [hsep, split_cons_sep, hpieces]
      rcases List.mem_cons.mp h with rfl | h
      · exact .inl hsep
      · refine (ih h).imp id ?_
        intro hex
        obtain ⟨found, hfound, hc⟩ := hex
        exact ⟨found, List.mem_cons_of_mem _ hfound, hc⟩
    · rw [split, hpieces]
      simp only [if_neg hsep]
      rcases List.mem_cons.mp h with rfl | h
      · exact .inr ⟨c :: piece, List.mem_cons_self, List.mem_cons_self⟩
      · refine (ih h).imp id ?_
        intro hex
        obtain ⟨found, hfound, hc⟩ := hex
        rcases List.mem_cons.mp hfound with rfl | hfound
        · exact ⟨first :: found, List.mem_cons_self, List.mem_cons_of_mem _ hc⟩
        · exact ⟨found, List.mem_cons_of_mem _ hfound, hc⟩

end Text

namespace Signature

/-! ## Lists of items -/

theorem split_intercalate {item : String} {items : List String} (hitem : ',' ∉ item.toList)
    (hitems : ∀ s ∈ items, ',' ∉ s.toList) :
    Text.split ',' (", ".intercalate (item :: items)).toList =
      item.toList :: items.map fun s => ' ' :: s.toList := by
  induction items generalizing item with
  | nil => simp [Text.split_of_not_mem hitem]
  | cons next items ih =>
    have hrest := ih (hitems next List.mem_cons_self) fun s hs => hitems s (List.mem_cons_of_mem _ hs)
    have htext : (", ".intercalate (item :: next :: items)).toList =
        item.toList ++ ',' :: ([' '] ++ (", ".intercalate (next :: items)).toList) := by
      simp [String.intercalate_cons_cons]
    rw [htext, Text.split_append_sep, Text.split_of_not_mem hitem,
      Text.split_append_of_not_mem (by decide) hrest]
    rfl

/-- Items that are not empty and hold no comma are told from the text that lists them. -/
theorem intercalate_inj {items others : List String} (hitems : ∀ s ∈ items, s ≠ "" ∧ ',' ∉ s.toList)
    (hothers : ∀ s ∈ others, s ≠ "" ∧ ',' ∉ s.toList)
    (h : ", ".intercalate items = ", ".intercalate others) : items = others := by
  have hempty : ∀ s : String, ∀ rest, s ≠ "" → ", ".intercalate (s :: rest) ≠ "" := by
    intro s rest hs
    cases rest <;> simp [String.intercalate_cons_cons, hs]
  cases items with
  | nil =>
    cases others with
    | nil => rfl
    | cons s others => exact absurd h.symm (hempty s others (hothers s List.mem_cons_self).1)
  | cons s items =>
    cases others with
    | nil => exact absurd h (hempty s items (hitems s List.mem_cons_self).1)
    | cons t others =>
      obtain ⟨hs, hitems⟩ := List.forall_mem_cons.mp hitems
      obtain ⟨ht, hothers⟩ := List.forall_mem_cons.mp hothers
      have hsplit := congrArg (fun text => Text.split ',' text.toList) h
      simp only [split_intercalate hs.2 fun r hr => (hitems r hr).2,
        split_intercalate ht.2 fun r hr => (hothers r hr).2] at hsplit
      obtain ⟨hhead, htail⟩ := List.cons.inj hsplit
      have hinj : ∀ r r' : String, ' ' :: r.toList = ' ' :: r'.toList → r = r' := by
        intro r r' hr
        exact String.toList_inj.mp (List.cons.inj hr).2
      rw [String.toList_inj.mp hhead, (List.map_inj_right hinj).mp htail]

/-! ## Names -/

/-- What stands between names, in class files or in reports. -/
def marks : List Char := ['.', ';', '[', '(', ')', ',', ' ']

/-- What a report puts between the parts of a signature. -/
def shownMarks : List Char := ['(', ')', ',', ' ']

def words : List String :=
  ["byte", "short", "boolean", "char", "int", "long", "float", "double", "void"]

/-- The name of a class in class files: parts between slashes, which are not empty
and hold no marks. It is no word for a type that is not a class. -/
structure ClassName (name : String) : Prop where
  parts : ∀ part ∈ Text.split '/' name.toList, part ≠ [] ∧ ∀ c ∈ part, c ∉ marks
  notWord : name ∉ words

/-- The name of a method or a field. -/
structure MemberName (name : String) : Prop where
  nonempty : name ≠ ""
  plain : ∀ c ∈ name.toList, c ≠ '/' ∧ c ∉ marks

instance : DecidablePred ClassName := fun name =>
  decidable_of_iff ((∀ part ∈ Text.split '/' name.toList, part ≠ [] ∧ Text.free marks part = true) ∧
    name ∉ words) <| by
    simp only [Text.free_iff]
    exact ⟨fun h => ⟨h.1, h.2⟩, fun h => ⟨h.parts, h.notWord⟩⟩

instance : DecidablePred MemberName := fun name =>
  decidable_of_iff (name ≠ "" ∧ '/' ∉ name.toList ∧ Text.free marks name.toList = true) <| by
    rw [Text.free_iff]
    constructor
    · intro h
      exact ⟨h.1, fun c hc => ⟨fun hslash => h.2.1 (hslash ▸ hc), h.2.2 c hc⟩⟩
    · intro h
      exact ⟨h.nonempty, fun hmem => (h.plain '/' hmem).1 rfl, fun c hc => (h.plain c hc).2⟩

namespace ClassName

variable {name : String}

theorem nonempty (h : ClassName name) : name ≠ "" := by
  rintro rfl
  exact (h.parts [] (by decide)).1 rfl

theorem plain (h : ClassName name) {c : Char} (hc : c ∈ name.toList) : c ∉ marks := by
  have hpart : c = '/' ∨ ∃ part ∈ Text.split '/' name.toList, c ∈ part := Text.mem_split hc
  rcases hpart with rfl | hex
  · decide
  · obtain ⟨part, hpart, hmem⟩ := hex
    exact (h.parts part hpart).2 c hmem

theorem not_mem (h : ClassName name) {mark : Char} (hmark : mark ∈ marks) : mark ∉ name.toList :=
  fun hmem => h.plain hmem hmark

theorem holdable (h : ClassName name) : Holdable name :=
  ⟨h.nonempty, h.not_mem (by decide)⟩

end ClassName

theorem MemberName.not_mem {name : String} (h : MemberName name) {mark : Char} (hmark : mark ∈ marks) :
    mark ∉ name.toList :=
  fun hmem => (h.plain mark hmem).2 hmark

/-! ## Classes in dots -/

theorem mem_withDots {name : String} {c : Char} (h : c ∈ (withDots name).toList) :
    c = '.' ∨ c ∈ name.toList := by
  rw [withDots, String.toList_map] at h
  obtain ⟨d, hd, rfl⟩ := List.mem_map.mp h
  split
  · exact .inl rfl
  · exact .inr hd

/-- A text without dots is got back from its form with dots. -/
theorem withDots_cancel {name : String} (h : '.' ∉ name.toList) :
    ((withDots name).toList.map fun c => if c = '.' then '/' else c) = name.toList := by
  have hback : ∀ c ∈ name.toList,
      ((fun c => if c = '.' then '/' else c) ∘ fun c => if c = '/' then '.' else c) c = id c := by
    intro c hc
    by_cases hslash : c = '/'
    · simp [hslash]
    · have hdot : c ≠ '.' := fun heq => h (heq ▸ hc)
      simp [hslash, hdot]
  rw [withDots, String.toList_map, List.map_map, List.map_congr_left hback, List.map_id]

theorem withDots_inj {a b : String} (ha : '.' ∉ a.toList) (hb : '.' ∉ b.toList)
    (h : withDots a = withDots b) : a = b := by
  rw [← String.toList_inj, ← withDots_cancel ha, ← withDots_cancel hb, h]

theorem withDots_eq_self {name : String} (h : '/' ∉ name.toList) : withDots name = name := by
  have hkept : ∀ c ∈ name.toList, (if c = '/' then '.' else c) = id c := by
    intro c hc
    have hslash : c ≠ '/' := fun heq => h (heq ▸ hc)
    exact if_neg hslash
  rw [← String.toList_inj, withDots, String.toList_map, List.map_congr_left hkept, List.map_id]

/-- A text without dots that is the dotted form of a name is the name. -/
theorem eq_of_withDots {name word : String} (hword : '.' ∉ word.toList) (h : withDots name = word) :
    name = word := by
  have hslash : '/' ∉ name.toList := by
    intro hmem
    refine hword (h ▸ ?_)
    rw [withDots, String.toList_map]
    exact List.mem_map.mpr ⟨'/', hmem, rfl⟩
  rw [← withDots_eq_self hslash, h]

/-! ## Types -/

/-- A type whose class, if it has one, is named as classes are. -/
def JavaType.Named (type : JavaType) : Prop :=
  ∀ name ∈ type.className?, ClassName name

instance : DecidablePred JavaType.Named := fun type =>
  inferInstanceAs (Decidable (∀ name ∈ type.className?, ClassName name))

theorem word_mem_words (type : Primitive) : type.word ∈ words := by
  cases type <;> decide

theorem word_inj {p q : Primitive} (h : p.word = q.word) : p = q := by
  cases p <;> cases q <;> first | rfl | exact absurd h (by decide)

theorem dot_not_mem_words {word : String} (h : word ∈ words) : '.' ∉ word.toList := by
  revert word
  decide

theorem bracket_not_mem_words {word : String} (h : word ∈ words) : '[' ∉ word.toList := by
  revert word
  decide

theorem bracket_mem_shown_array (component : JavaType) :
    '[' ∈ (JavaType.shown (.array component)).toList := by
  simp [JavaType.shown]

theorem shown_array_ne_withDots (component : JavaType) {name : String} (h : ClassName name) :
    JavaType.shown (.array component) ≠ withDots name := by
  intro heq
  have hmem := bracket_mem_shown_array component
  rw [heq] at hmem
  rcases mem_withDots hmem with hdot | hmem
  · cases hdot
  · exact h.not_mem (by decide) hmem

/-- Only a primitive type is shown as a word for one. -/
theorem eq_primitive_of_shown {type : JavaType} (h : type.Named) {word : String} (hword : word ∈ words)
    (hshown : type.shown = word) : ∃ p, type = .primitive p := by
  cases type with
  | primitive p => exact ⟨p, rfl⟩
  | object name =>
    have heq := eq_of_withDots (dot_not_mem_words hword) hshown
    exact absurd (heq ▸ hword) (h name rfl).notWord
  | array component =>
    exact absurd (hshown ▸ bracket_mem_shown_array component) (bracket_not_mem_words hword)

/-- **Types are told apart by how they are shown.** -/
theorem shown_inj {s t : JavaType} (hs : s.Named) (ht : t.Named) (h : s.shown = t.shown) : s = t := by
  induction s generalizing t with
  | primitive p =>
    obtain ⟨q, rfl⟩ := eq_primitive_of_shown ht (word_mem_words p) h.symm
    rw [word_inj h]
  | object name =>
    cases t with
    | primitive q =>
      obtain ⟨p, hp⟩ := eq_primitive_of_shown hs (word_mem_words q) h
      cases hp
    | object other =>
      rw [withDots_inj ((hs name rfl).not_mem (by decide)) ((ht other rfl).not_mem (by decide)) h]
    | array component =>
      exact absurd h.symm (shown_array_ne_withDots component (hs name rfl))
  | array component ih =>
    cases t with
    | primitive q =>
      obtain ⟨p, hp⟩ := eq_primitive_of_shown hs (word_mem_words q) h
      cases hp
    | object other =>
      exact absurd h (shown_array_ne_withDots component (ht other rfl))
    | array other =>
      have hcomponents : component.shown ++ "[]" = other.shown ++ "[]" := h
      have hother : other.Named := ht
      rw [ih hs hother ((String.append_left_inj "[]").mp hcomponents)]

/-- What is shown of a type holds none of the marks around it in a signature. -/
theorem shown_plain {type : JavaType} (h : type.Named) :
    ∀ c ∈ type.shown.toList, c ∉ shownMarks := by
  induction type with
  | primitive p =>
    have hword : Text.free shownMarks p.word.toList = true := by cases p <;> decide
    exact Text.free_iff.mp hword
  | object name =>
    intro c hc hmark
    rcases mem_withDots hc with rfl | hc
    · exact absurd hmark (by decide)
    · have hmarks : shownMarks ⊆ marks := by simp [shownMarks, marks]
      exact (h name rfl).plain hc (hmarks hmark)
  | array component ih =>
    intro c hc
    rw [JavaType.shown, String.toList_append, List.mem_append] at hc
    rcases hc with hc | hc
    · exact ih h c hc
    · have hbrackets : c = '[' ∨ c = ']' := by simpa using hc
      rcases hbrackets with rfl | rfl <;> decide

theorem shown_ne_empty {type : JavaType} (h : type.Named) : type.shown ≠ "" := by
  cases type with
  | primitive p => cases p <;> decide
  | object name =>
    have hname := (h name rfl).nonempty
    simpa [JavaType.shown, withDots] using hname
  | array component => simp [JavaType.shown]

/-! ## Signatures -/

/-- A method whose classes are named as classes are. -/
structure MethodType.Named (type : MethodType) : Prop where
  parameters : ∀ parameter ∈ type.parameters, parameter.Named
  result : ∀ result ∈ type.result, result.Named

instance : DecidablePred MethodType.Named := fun type =>
  decidable_of_iff ((∀ parameter ∈ type.parameters, parameter.Named) ∧
    ∀ result ∈ type.result, result.Named) ⟨fun h => ⟨h.1, h.2⟩, fun h => ⟨h.parameters, h.result⟩⟩

theorem MethodType.Named.readable {type : MethodType} (h : type.Named) : type.Readable where
  parameters parameter hparameter name hname :=
    have hclass := h.parameters parameter hparameter name hname
    ⟨hclass.holdable, hclass.not_mem (by decide)⟩
  result result hresult name hname := (h.result result hresult name hname).holdable

theorem JavaType.Named.holdable {type : JavaType} (h : type.Named) :
    ∀ name ∈ type.className?, Holdable name :=
  fun name hname => (h name hname).holdable

theorem shown_list_inj {types others : List JavaType} (h : ∀ type ∈ types, type.Named)
    (h' : ∀ type ∈ others, type.Named)
    (hshown : types.map JavaType.shown = others.map JavaType.shown) : types = others := by
  induction types generalizing others with
  | nil => exact (List.map_eq_nil_iff.mp hshown.symm).symm
  | cons type types ih =>
    cases others with
    | nil => cases hshown
    | cons other others =>
      obtain ⟨hhead, htail⟩ := List.cons.inj hshown
      obtain ⟨htype, htypes⟩ := List.forall_mem_cons.mp h
      obtain ⟨hother, hothers⟩ := List.forall_mem_cons.mp h'
      rw [shown_inj htype hother hhead, ih htypes hothers htail]

theorem parametersShown_inj {s t : MethodType} (hs : s.Named) (ht : t.Named)
    (h : s.parametersShown = t.parametersShown) : s.parameters = t.parameters := by
  have hitems : ∀ {type : MethodType}, type.Named →
      ∀ item ∈ type.parameters.map JavaType.shown, item ≠ "" ∧ ',' ∉ item.toList := by
    intro type htype item hitem
    obtain ⟨parameter, hparameter, rfl⟩ := List.mem_map.mp hitem
    have hnamed := htype.parameters parameter hparameter
    exact ⟨shown_ne_empty hnamed, fun hmem => shown_plain hnamed ',' hmem (by decide)⟩
  exact shown_list_inj hs.parameters ht.parameters (intercalate_inj (hitems hs) (hitems ht) h)

theorem resultShown_inj {s t : MethodType} (hs : s.Named) (ht : t.Named)
    (h : MethodType.resultShown s.result = MethodType.resultShown t.result) : s.result = t.result := by
  have hvoid : ∀ {type : JavaType}, type.Named → type.shown ≠ "void" := by
    intro type htype heq
    obtain ⟨p, rfl⟩ := eq_primitive_of_shown htype (by decide) heq
    cases p <;> exact absurd heq (by decide)
  cases hresult : s.result with
  | none =>
    cases hresult' : t.result with
    | none => rfl
    | some type =>
      rw [hresult, hresult'] at h
      exact absurd h.symm (hvoid (ht.result type hresult'))
  | some type =>
    cases hresult' : t.result with
    | none =>
      rw [hresult, hresult'] at h
      exact absurd h (hvoid (hs.result type hresult))
    | some other =>
      rw [hresult, hresult'] at h
      rw [shown_inj (hs.result type hresult) (ht.result other hresult') h]

theorem blank_not_mem_resultShown {type : MethodType} (h : type.Named) :
    ' ' ∉ (MethodType.resultShown type.result).toList := by
  cases hresult : type.result with
  | none => decide
  | some result => exact fun hmem => shown_plain (h.result result hresult) ' ' hmem (by decide)

/-- What is shown of a caller, cut at its opening parenthesis. -/
theorem callerText_inj {a b params params' : String} (ha : MemberName a) (hb : MemberName b)
    (h : a ++ "(" ++ params ++ ")" = b ++ "(" ++ params' ++ ")") : a = b ∧ params = params' := by
  have hchars : a.toList ++ '(' :: params.toList = b.toList ++ '(' :: params'.toList := by
    have hopen := congrArg String.toList ((String.append_left_inj ")").mp h)
    simpa using hopen
  obtain ⟨hname, hparams⟩ := Text.cut_inj (ha.not_mem (by decide)) (hb.not_mem (by decide)) hchars
  exact ⟨String.toList_inj.mp hname, String.toList_inj.mp hparams⟩

/-- **A caller is told apart by its name and parameters.** What it gives back is
not shown. -/
theorem caller_inj {a b : String} {s t : MethodType} (ha : MemberName a) (hb : MemberName b)
    (hs : s.Named) (ht : t.Named) :
    caller a s.descriptor = caller b t.descriptor ↔ a = b ∧ s.parameters = t.parameters := by
  rw [caller_descriptor hs.readable, caller_descriptor ht.readable]
  constructor
  · intro h
    obtain ⟨hname, hparams⟩ := callerText_inj ha hb h
    exact ⟨hname, parametersShown_inj hs ht hparams⟩
  · intro h
    obtain ⟨rfl, hparams⟩ := h
    rw [MethodType.parametersShown, MethodType.parametersShown, hparams]

/-- **A method is told apart by its name and type.** -/
theorem method_inj {a b : String} {s t : MethodType} (ha : MemberName a) (hb : MemberName b)
    (hs : s.Named) (ht : t.Named) (h : method a s.descriptor = method b t.descriptor) :
    a = b ∧ s = t := by
  rw [method_descriptor hs.readable, method_descriptor ht.readable] at h
  have hchars := congrArg String.toList h
  simp only [String.toList_append, List.append_assoc] at hchars
  obtain ⟨hresult, hrest⟩ :=
    Text.cut_inj (blank_not_mem_resultShown hs) (blank_not_mem_resultShown ht) hchars
  have hcaller : a ++ "(" ++ s.parametersShown ++ ")" = b ++ "(" ++ t.parametersShown ++ ")" := by
    rw [← String.toList_inj]
    simpa using hrest
  obtain ⟨hname, hparams⟩ := callerText_inj ha hb hcaller
  refine ⟨hname, ?_⟩
  have hparameters := parametersShown_inj hs ht hparams
  have hresults := resultShown_inj hs ht (String.toList_inj.mp hresult)
  cases s
  cases t
  rw [MethodType.mk.injEq]
  exact ⟨hparameters, hresults⟩

/-- **A field is told apart by its name and type.** -/
theorem field_inj {a b : String} {s t : JavaType} (hs : s.Named) (ht : t.Named)
    (h : field a (String.ofList s.descriptor) = field b (String.ofList t.descriptor)) :
    a = b ∧ s = t := by
  rw [field_descriptor hs.holdable, field_descriptor ht.holdable] at h
  have hchars : s.shown.toList ++ ' ' :: a.toList = t.shown.toList ++ ' ' :: b.toList := by
    simpa using congrArg String.toList h
  have hblank : ∀ {type : JavaType}, type.Named → ' ' ∉ type.shown.toList :=
    fun htype hmem => shown_plain htype ' ' hmem (by decide)
  obtain ⟨htype, hname⟩ := Text.cut_inj (hblank hs) (hblank ht) hchars
  exact ⟨String.toList_inj.mp hname, shown_inj hs ht (String.toList_inj.mp htype)⟩

/-- **No method reads as a field:** it has a parenthesis. -/
theorem method_ne_field {a b : String} {s : MethodType} {t : JavaType} (hb : MemberName b)
    (hs : s.Named) (ht : t.Named) :
    method a s.descriptor ≠ field b (String.ofList t.descriptor) := by
  rw [method_descriptor hs.readable, field_descriptor ht.holdable]
  intro h
  have hmem : '(' ∈ (t.shown ++ " " ++ b).toList := by
    rw [← h]
    simp
  simp only [String.toList_append, List.mem_append] at hmem
  rcases hmem with (hmem | hmem) | hmem
  · exact shown_plain ht '(' hmem (by decide)
  · exact absurd hmem (by decide)
  · exact hb.not_mem (by decide) hmem

/-! ## Owners -/

/-- The name of an owner in class files: a class, or the descriptor of an array. -/
inductive OwnerName : String → Prop where
  | ofClass {name : String} : ClassName name → OwnerName name
  | ofArray {component : JavaType} : component.Named →
      OwnerName (String.ofList (JavaType.descriptor (.array component)))

theorem className_of_class {name : String} (h : ClassName name) : className name = withDots name := by
  unfold className
  split
  · rename_i rest heq
    have hbracket : '[' ∈ name.toList := heq ▸ List.mem_cons_self
    exact absurd hbracket (h.not_mem (by decide))
  · rfl

theorem className_array {component : JavaType} (h : ∀ name ∈ component.className?, Holdable name) :
    className (String.ofList (JavaType.descriptor (.array component))) =
      JavaType.shown (.array component) := by
  have harray : ∀ name ∈ (JavaType.array component).className?, Holdable name := h
  rw [← type_descriptor harray, className, String.toList_ofList]
  rfl

theorem className_of_array {component : JavaType} (h : component.Named) :
    className (String.ofList (JavaType.descriptor (.array component))) =
      JavaType.shown (.array component) :=
  className_array h.holdable

/-- **An owner is told apart by its name.** -/
theorem className_inj {a b : String} (ha : OwnerName a) (hb : OwnerName b) :
    className a = className b ↔ a = b := by
  refine ⟨fun h => ?_, congrArg className⟩
  cases ha with
  | ofClass ha =>
    rw [className_of_class ha] at h
    cases hb with
    | ofClass hb =>
      rw [className_of_class hb] at h
      exact withDots_inj (ha.not_mem (by decide)) (hb.not_mem (by decide)) h
    | ofArray hb =>
      rw [className_of_array hb] at h
      exact absurd h.symm (shown_array_ne_withDots _ ha)
  | @ofArray component ha =>
    rw [className_of_array ha] at h
    cases hb with
    | ofClass hb =>
      rw [className_of_class hb] at h
      exact absurd h (shown_array_ne_withDots _ hb)
    | @ofArray other hb =>
      rw [className_of_array hb] at h
      have harray : (JavaType.array component).Named := ha
      have harray' : (JavaType.array other).Named := hb
      rw [shown_inj harray harray' h]

end Signature
end MemberAudit
