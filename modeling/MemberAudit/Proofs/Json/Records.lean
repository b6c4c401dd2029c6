/-
Records and their documents. One record has many: an object with the fields in any order and
under any of their names, without those at their defaults, and with other keys between them,
or an array with the fields in their order. `Fills` says which, by a slot for each field, and
`Aligned.asRecord_eq` that all of them are read as the record.

`Faulty` says of a document that a field comes twice in it, or has a value of the wrong kind,
at any depth. No reader of its shape gives a result for it (`refuses_asRecord`).
-/
import Mathlib.Data.List.Forall2
import MemberAudit.Json.Record

namespace MemberAudit.Json

variable {ν ρ α : Type}

/-- The values that stand under the names of a field. -/
def valuesOf (names : List String) (members : List (Option String × Document)) : List Document :=
  (members.filter fun member => member.1.any names.contains).map Prod.snd

/-! ## Documents of a record -/

/-- What may be written of one field: its names, the documents of its value, and whether it
may be left out. -/
structure Slot where
  names : List String
  value : Document → Prop
  omissible : Prop

/-- Members that have the field once, or not at all where it may be left out. -/
def Slot.FilledBy (slot : Slot) (members : List (Option String × Document)) : Prop :=
  (valuesOf slot.names members = [] ∧ slot.omissible) ∨
    ∃ value, valuesOf slot.names members = [value] ∧ slot.value value

/-- Items for the fields in their order, of which the last may be left out. -/
inductive FilledInOrder : List Slot → List Document → Prop
  | done {slots : List Slot} (h : ∀ slot ∈ slots, slot.omissible) : FilledInOrder slots []
  | next {slot : Slot} {slots : List Slot} {item : Document} {items : List Document}
      (h : slot.value item) (later : FilledInOrder slots items) :
      FilledInOrder (slot :: slots) (item :: items)

/-- The documents of a record. A member of an object whose key names no field says nothing. -/
inductive Fills (slots : List Slot) : Document → Prop
  | object {members : List (Option String × Document)}
      (keys : ∀ member ∈ members, member.1.isSome = true)
      (h : ∀ slot ∈ slots, slot.FilledBy members) : Fills slots (.object members)
  | array {items : List Document} (h : FilledInOrder slots items) : Fills slots (.array items)

/-- An array with a document for each of the values. -/
def ArrayOf (documents : α → Document → Prop) (values : List α) (d : Document) : Prop :=
  ∃ items, d = .array items ∧ List.Forall₂ documents values items

/-! ## Documents with a fault -/

/-- The kinds of documents that readers expect. The fields of a record come with their names. -/
inductive Shape where
  | text
  | list (items : Shape)
  | record (fields : List (List String × Shape))

/-- A document of another kind, or with such a value under it, or with a field that comes twice.
What stands under keys that name no field is no fault. -/
inductive Faulty : Shape → Document → Prop
  | noText {d : Document} (h : ∀ s, d ≠ .text s) : Faulty .text d
  | noList {shape : Shape} {d : Document} (h : ∀ items, d ≠ .array items) : Faulty (.list shape) d
  | item {shape : Shape} {items : List Document} {item : Document} (mem : item ∈ items)
      (h : Faulty shape item) : Faulty (.list shape) (.array items)
  | noRecord {fields : List (List String × Shape)} {d : Document}
      (object : ∀ members, d ≠ .object members) (array : ∀ items, d ≠ .array items) :
      Faulty (.record fields) d
  | twice {fields : List (List String × Shape)} {names : List String} {shape : Shape}
      {members : List (Option String × Document)} (mem : (names, shape) ∈ fields)
      (h : 2 ≤ (valuesOf names members).length) : Faulty (.record fields) (.object members)
  | field {fields : List (List String × Shape)} {names : List String} {shape : Shape}
      {members : List (Option String × Document)} {value : Document} (mem : (names, shape) ∈ fields)
      (under : value ∈ valuesOf names members) (h : Faulty shape value) :
      Faulty (.record fields) (.object members)
  | position {fields : List (List String × Shape)} {names : List String} {shape : Shape}
      {items : List Document} {item : Document} {i : Nat} (mem : fields[i]? = some (names, shape))
      (here : items[i]? = some item) (h : Faulty shape item) : Faulty (.record fields) (.array items)

/-! ## Keys and fields -/

theorem valuesOf_cons_of_mem {names : List String} {key : String} (h : key ∈ names) (value : Document)
    (members : List (Option String × Document)) :
    valuesOf names ((some key, value) :: members) = value :: valuesOf names members := by
  simp [valuesOf, h]

theorem valuesOf_cons_of_not_mem {names : List String} {key : String} (h : key ∉ names) (value : Document)
    (members : List (Option String × Document)) :
    valuesOf names ((some key, value) :: members) = valuesOf names members := by
  simp [valuesOf, h]

/-- All the names of a field. -/
def Field.names (field : Field ν ρ) : List String :=
  field.name :: field.aliases

@[simp] theorem Field.name_of (name : String) (aliases : List String) (read : Document → Noted ν α)
    (set : α → ρ → ρ) : (Field.of name aliases read set).name = name := rfl

@[simp] theorem Field.names_of (name : String) (aliases : List String) (read : Document → Noted ν α)
    (set : α → ρ → ρ) : (Field.of name aliases read set).names = name :: aliases := rfl

theorem Field.answersTo_iff {field : Field ν ρ} {key : String} :
    field.answersTo key = true ↔ key ∈ field.names := by
  simp [Field.answersTo, Field.names]

/-- Fields of which no two have a name in common. -/
def Apart (fields : List (Field ν ρ)) : Prop :=
  fields.Pairwise fun f g => ∀ key ∈ f.names, key ∉ g.names

theorem find?_answersTo {fields : List (Field ν ρ)} (h : Apart fields) {field : Field ν ρ}
    (hfield : field ∈ fields) {key : String} (hkey : key ∈ field.names) :
    fields.find? (·.answersTo key) = some field := by
  induction fields with
  | nil => cases hfield
  | cons first fields ih =>
    obtain ⟨hfirst, hfields⟩ := List.pairwise_cons.mp h
    rcases List.mem_cons.mp hfield with rfl | hfield
    · exact List.find?_cons_of_pos (Field.answersTo_iff.mpr hkey)
    · have hnot : first.answersTo key = false := Bool.eq_false_iff.mpr fun hanswers =>
        hfirst field hfield key (Field.answersTo_iff.mp hanswers) hkey
      rw [List.find?_cons, hnot]
      exact ih hfields hfield

theorem Apart.eq_of_mem {fields : List (Field ν ρ)} (h : Apart fields) {f g : Field ν ρ} (hf : f ∈ fields)
    (hg : g ∈ fields) {key : String} (hkey : key ∈ f.names) (hkey' : key ∈ g.names) : f = g :=
  Option.some.inj ((find?_answersTo h hf hkey).symm.trans (find?_answersTo h hg hkey'))

theorem Field.put_of {read : Document → Noted ν α} {d : Document} {a : α} (h : read d = pure a)
    (name : String) (aliases : List String) (set : α → ρ → ρ) (record : ρ) :
    (Field.of name aliases read set).put d record = pure (set a record) := by
  simp only [Field.of, h]
  rfl

namespace Document

/-! ## Reading a list -/

theorem eachItem_eq {documents : α → Document → Prop} {read : Document → Noted ν α}
    (h : ∀ a d, documents a d → d.intact = true → read d = pure a) {values : List α} {items : List Document}
    (hitems : List.Forall₂ documents values items) (hintact : intactItems items = true) :
    eachItem read items = pure values := by
  induction hitems with
  | nil => rfl
  | cons hfirst _ ih =>
    simp only [intactItems, Bool.and_eq_true] at hintact
    simp only [eachItem, h _ _ hfirst hintact.1, ih hintact.2]
    rfl

theorem asList_eq {documents : α → Document → Prop} {read : Document → Noted ν α}
    (h : ∀ a d, documents a d → d.intact = true → read d = pure a) {values : List α} {d : Document}
    (hd : ArrayOf documents values d) (hintact : d.intact = true) : asList read d = pure values := by
  obtain ⟨items, rfl, hitems⟩ := hd
  exact eachItem_eq h hitems hintact

/-! ## Reading a record -/

/-- Fields that read what is written in their slots. `upTo seen` is the record after the fields
in `seen`; it is all of the record if only fields that may be left out are missing. -/
structure Aligned (pairs : List (Slot × Field ν ρ)) (upTo : List String → ρ) (record : ρ) : Prop where
  names : ∀ p ∈ pairs, p.1.names = p.2.names
  apart : Apart (pairs.map Prod.snd)
  put : ∀ p ∈ pairs, ∀ d, p.1.value d → d.intact = true →
    ∀ seen, p.2.put d (upTo seen) = pure (upTo (p.2.name :: seen))
  complete : ∀ seen, (∀ p ∈ pairs, p.2.name ∈ seen ∨ p.1.omissible) → upTo seen = record

/-- The value of a field of which nothing is known before its name is in `seen`. -/
def known (seen : List String) (name : String) (value blank : α) : α :=
  if name ∈ seen then value else blank

@[simp] theorem known_nil (name : String) (value blank : α) : known [] name value blank = blank :=
  if_neg List.not_mem_nil

@[simp] theorem known_self (seen : List String) (name : String) (value blank : α) :
    known (name :: seen) name value blank = value :=
  if_pos List.mem_cons_self

@[simp] theorem known_other {seen : List String} {name other : String} (h : name ≠ other) (value blank : α) :
    known (other :: seen) name value blank = known seen name value blank := by
  simp [known, h]

theorem known_eq {seen : List String} {name : String} {value blank : α} (h : name ∈ seen ∨ value = blank) :
    known seen name value blank = value := by
  rw [known]
  split
  · rfl
  · exact (h.resolve_left ‹_›).symm

variable {pairs : List (Slot × Field ν ρ)} {upTo : List String → ρ} {record : ρ}

/-- Members that have what is still to come of a field, when those in `seen` have come. -/
structure Holds (members : List (Option String × Document)) (seen : List String)
    (p : Slot × Field ν ρ) : Prop where
  known : p.2.name ∈ seen → valuesOf p.1.names members = []
  new : p.2.name ∉ seen → p.1.FilledBy members

/-- A member whose key does not name the field is no part of it. -/
theorem Holds.pass {key : String} {value : Document} {members : List (Option String × Document)}
    {seen : List String} {p : Slot × Field ν ρ} (h : Holds ((some key, value) :: members) seen p)
    (hkey : key ∉ p.1.names) : Holds members seen p := by
  obtain ⟨hseen, hnew⟩ := h
  rw [Slot.FilledBy, valuesOf_cons_of_not_mem hkey] at hnew
  rw [valuesOf_cons_of_not_mem hkey] at hseen
  exact ⟨hseen, hnew⟩

/-- A member whose key names the field is all of it. -/
theorem Holds.take {key : String} {value : Document} {members : List (Option String × Document)}
    {seen : List String} {p : Slot × Field ν ρ} (h : Holds ((some key, value) :: members) seen p)
    (hkey : key ∈ p.1.names) :
    p.2.name ∉ seen ∧ p.1.value value ∧ valuesOf p.1.names members = [] := by
  obtain ⟨hseen, hnew⟩ := h
  rw [Slot.FilledBy, valuesOf_cons_of_mem hkey] at hnew
  rw [valuesOf_cons_of_mem hkey] at hseen
  have hname : p.2.name ∉ seen := fun hname => List.cons_ne_nil _ _ (hseen hname)
  obtain ⟨hnil, -⟩ | ⟨v, hv, hslot⟩ := hnew hname
  · cases hnil
  · obtain ⟨rfl, hrest⟩ := List.cons.inj hv
    exact ⟨hname, hslot, hrest⟩

/-- Once a field is read, members have what is still to come of each field. -/
theorem Aligned.holds (h : Aligned pairs upTo record) {key : String} {value : Document}
    {members : List (Option String × Document)} {seen : List String} {p q : Slot × Field ν ρ}
    (hp : p ∈ pairs) (hq : q ∈ pairs) (hkey : key ∈ p.2.names) (hrest : valuesOf p.1.names members = [])
    (hholds : Holds ((some key, value) :: members) seen q) : Holds members (p.2.name :: seen) q := by
  have heq {k : String} (hk : k ∈ p.2.names) (hk' : k ∈ q.1.names) : q.2 = p.2 := by
    rw [h.names q hq] at hk'
    exact h.apart.eq_of_mem (List.mem_map_of_mem hq) (List.mem_map_of_mem hp) hk' hk
  by_cases hkey' : key ∈ q.1.names
  · refine ⟨fun _ => ?_, fun hnot => absurd (by simp [heq hkey hkey']) hnot⟩
    rw [h.names q hq, heq hkey hkey', ← h.names p hp, hrest]
  · have hne : q.2.name ≠ p.2.name := by
      intro hname
      have hsame : q.2 = p.2 := by
        refine heq (k := p.2.name) List.mem_cons_self ?_
        rw [h.names q hq, ← hname]
        exact List.mem_cons_self
      rw [h.names q hq, hsame] at hkey'
      exact hkey' hkey
    obtain ⟨hknown, hnew⟩ := hholds.pass hkey'
    constructor
    · intro hname
      exact hknown ((List.mem_cons.mp hname).resolve_left hne)
    · intro hname
      exact hnew fun hseen => hname (List.mem_cons_of_mem _ hseen)

/-- The members of an object, of which `Holds` is what each step keeps. -/
theorem Aligned.putMembers_eq (h : Aligned pairs upTo record) {members : List (Option String × Document)}
    {seen : List String} (hkeys : ∀ member ∈ members, member.1.isSome = true)
    (hintact : intactMembers members = true) (hholds : ∀ p ∈ pairs, Holds members seen p) :
    putMembers (pairs.map Prod.snd) seen members (upTo seen) = pure record := by
  induction members generalizing seen with
  | nil =>
    rw [putMembers, h.complete seen]
    intro p hp
    by_cases hname : p.2.name ∈ seen
    · exact .inl hname
    · obtain ⟨-, homissible⟩ | ⟨_, hvalue, -⟩ := (hholds p hp).new hname
      · exact .inr homissible
      · cases hvalue
  | cons member members ih =>
    obtain ⟨key?, value⟩ := member
    obtain ⟨hsome, hlater⟩ := List.forall_mem_cons.mp hkeys
    obtain ⟨key, rfl⟩ := Option.isSome_iff_exists.mp hsome
    simp only [intactMembers, Bool.and_eq_true] at hintact
    obtain ⟨hvalue, hintact⟩ := hintact
    rw [putMembers]
    split
    · -- a key that names no field
      rename_i hnone
      rw [if_pos hvalue]
      refine ih hlater hintact fun p hp => (hholds p hp).pass fun hkey => ?_
      rw [h.names p hp] at hkey
      rw [find?_answersTo h.apart (List.mem_map_of_mem hp) hkey] at hnone
      cases hnone
    · rename_i field hfind
      obtain ⟨p, hp, rfl⟩ := List.mem_map.mp (List.mem_of_find?_eq_some hfind)
      have hanswers := List.find?_some hfind
      have hkey : key ∈ p.2.names := Field.answersTo_iff.mp hanswers
      obtain ⟨hname, hslot, hrest⟩ := (hholds p hp).take (by rwa [h.names p hp])
      rw [if_neg (by simpa using hname), h.put p hp _ hslot hvalue]
      exact ih hlater hintact fun q hq => h.holds hp hq hkey hrest (hholds q hq)

/-- The items of an array, which stand for the fields in their order. -/
theorem Aligned.putItems_eq (h : Aligned pairs upTo record) {slots : List Slot} {items : List Document}
    (hfilled : FilledInOrder slots items) {rest : List (Slot × Field ν ρ)} {seen : List String}
    (hslots : rest.map Prod.fst = slots) (hintact : intactItems items = true) (hrest : ∀ p ∈ rest, p ∈ pairs)
    (hpairs : ∀ p ∈ pairs, p.2.name ∈ seen ∨ p ∈ rest) :
    putItems (rest.map Prod.snd) items (upTo seen) = pure record := by
  induction hfilled generalizing rest seen with
  | done homissible =>
    subst hslots
    rw [putItems, h.complete seen]
    intro p hp
    exact (hpairs p hp).imp id fun hp => homissible _ (List.mem_map_of_mem hp)
  | next hitem _ ih =>
    obtain ⟨p, rest, rfl, rfl, hlater⟩ := List.map_eq_cons_iff.mp hslots
    obtain ⟨hp, hrest⟩ := List.forall_mem_cons.mp hrest
    simp only [intactItems, Bool.and_eq_true] at hintact
    rw [List.map_cons, putItems, h.put p hp _ hitem hintact.1]
    refine ih hlater hintact.2 hrest fun q hq => ?_
    rcases hpairs q hq with hname | hq
    · exact .inl (List.mem_cons_of_mem _ hname)
    · exact (List.mem_cons.mp hq).imp (fun heq => by simp [heq]) id

/-- **All documents of a record are read as the record.** -/
theorem Aligned.asRecord_eq (h : Aligned pairs upTo record) {d : Document}
    (hfills : Fills (pairs.map Prod.fst) d) (hintact : d.intact = true) :
    asRecord (pairs.map Prod.snd) (upTo []) d = pure record := by
  cases hfills with
  | object keys hfilled =>
    refine h.putMembers_eq keys hintact fun p hp => ⟨fun hname => (List.not_mem_nil hname).elim, fun _ => ?_⟩
    exact hfilled p.1 (List.mem_map_of_mem hp)
  | array hfilled => exact h.putItems_eq hfilled rfl hintact (fun _ => id) fun _ => .inr

/-! ## Refusing a fault -/

/-- A reader that gives no result for a document with a fault. -/
def Refuses (shape : Shape) (read : Document → Noted ν α) : Prop :=
  ∀ d, Faulty shape d → (read d).result? = none

theorem refuses_asText : Refuses (ν := ν) .text asText := by
  rintro d ⟨h⟩
  cases d <;> first | rfl | exact absurd rfl (h _)

/-- What is made of a result changes nothing if there is none. -/
theorem Refuses.bind {shape : Shape} {read : Document → Noted ν α} (h : Refuses shape read) {β : Type}
    (f : α → Noted ν β) : Refuses shape fun d => read d >>= f := by
  intro d hd
  rw [Noted.result?_bind, h d hd, Option.bind_none]

/-- A field whose value is read by such a reader. -/
theorem Refuses.put_of {shape : Shape} {read : Document → Noted ν α} (h : Refuses shape read) (name : String)
    (aliases : List String) (set : α → ρ → ρ) (record : ρ) :
    Refuses shape fun d => (Field.of name aliases read set).put d record :=
  h.bind _

theorem result?_eachItem {read : Document → Noted ν α} {items : List Document} {results : List α}
    (h : (eachItem read items).result? = some results) :
    ∀ item ∈ items, ∃ result, (read item).result? = some result := by
  induction items generalizing results with
  | nil => simp
  | cons first items ih =>
    simp only [eachItem, Noted.result?_bind, Option.bind_eq_some_iff] at h
    obtain ⟨result, hfirst, others, hothers, -⟩ := h
    exact List.forall_mem_cons.mpr ⟨⟨result, hfirst⟩, ih hothers⟩

theorem Refuses.asList {shape : Shape} {read : Document → Noted ν α} (h : Refuses shape read) :
    Refuses (.list shape) (asList read) := by
  intro d hd
  cases hd with
  | noList hnot => cases d <;> first | rfl | exact absurd rfl (hnot _)
  | item hmem hfault =>
    rw [Option.eq_none_iff_forall_ne_some]
    intro results hresults
    obtain ⟨result, hitem⟩ := result?_eachItem hresults _ hmem
    rw [h _ hfault] at hitem
    cases hitem

/-- A record that is read from members has each field once at most, and each value was read. -/
theorem result?_putMembers {fields : List (Field ν ρ)} (hapart : Apart fields)
    {members : List (Option String × Document)} {seen : List String} {record result : ρ}
    (h : (putMembers fields seen members record).result? = some result) {field : Field ν ρ}
    (hfield : field ∈ fields) :
    (field.name ∈ seen → valuesOf field.names members = []) ∧
      (valuesOf field.names members).length ≤ 1 ∧
      ∀ value ∈ valuesOf field.names members, ∃ before after,
        (field.put value before).result? = some after := by
  induction members generalizing seen record with
  | nil => simp [valuesOf]
  | cons member members ih =>
    obtain ⟨key?, value⟩ := member
    cases key? with
    | none => cases h
    | some key =>
      by_cases hkey : key ∈ field.names
      · rw [putMembers, find?_answersTo hapart hfield hkey] at h
        simp only at h
        split at h
        · cases h
        · rename_i hname
          rw [Noted.result?_bind, Option.bind_eq_some_iff] at h
          obtain ⟨after, hput, h⟩ := h
          -- the name is now among those that have come, so that none of the values is left
          have hrest := (ih h).1 List.mem_cons_self
          rw [valuesOf_cons_of_mem hkey, hrest]
          refine ⟨fun hmem => absurd (by simpa using hmem) hname, Nat.le_refl _, ?_⟩
          rintro _ ⟨⟩
          · exact ⟨record, after, hput⟩
          · contradiction
      · rw [valuesOf_cons_of_not_mem hkey]
        rw [putMembers] at h
        split at h
        · split at h
          · exact ih h
          · cases h
        · split at h
          · cases h
          · rw [Noted.result?_bind, Option.bind_eq_some_iff] at h
            obtain ⟨_, -, h⟩ := h
            obtain ⟨hknown, hlater⟩ := ih h
            exact ⟨fun hname => hknown (List.mem_cons_of_mem _ hname), hlater⟩

theorem result?_putItems {fields : List (Field ν ρ)} {items : List Document} {record result : ρ}
    (h : (putItems fields items record).result? = some result) {i : Nat} {field : Field ν ρ} {item : Document}
    (hfield : fields[i]? = some field) (hitem : items[i]? = some item) :
    ∃ before after, (field.put item before).result? = some after := by
  induction items generalizing fields i record with
  | nil => simp at hitem
  | cons first items ih =>
    cases fields with
    | nil => simp at hfield
    | cons firstField fields =>
      simp only [putItems, Noted.result?_bind, Option.bind_eq_some_iff] at h
      obtain ⟨after, hput, h⟩ := h
      cases i with
      | zero =>
        obtain rfl : firstField = field := by simpa using hfield
        obtain rfl : first = item := by simpa using hitem
        exact ⟨record, after, hput⟩
      | succ i => exact ih h (by simpa using hfield) (by simpa using hitem)

/-- **No document with a fault is read as a record**, whatever else is in it. -/
theorem refuses_asRecord (pairs : List ((List String × Shape) × Field ν ρ))
    (names : ∀ p ∈ pairs, p.1.1 = p.2.names) (apart : Apart (pairs.map Prod.snd))
    (put : ∀ p ∈ pairs, ∀ record, Refuses p.1.2 fun d => p.2.put d record) (blank : ρ) :
    Refuses (.record (pairs.map Prod.fst)) (asRecord (pairs.map Prod.snd) blank) := by
  intro d hd
  rw [Option.eq_none_iff_forall_ne_some]
  intro result hresult
  have hput : ∀ p ∈ pairs, ∀ value, Faulty p.1.2 value → ∀ before after,
      (p.2.put value before).result? ≠ some after := by
    intro p hp value hfault before after hafter
    rw [put p hp before value hfault] at hafter
    cases hafter
  cases hd with
  | noRecord hobject harray =>
    cases d with
    | object members => exact hobject members rfl
    | array items => exact harray items rfl
    | null | bool | number | text | cut => cases hresult
  | twice hmem htwo =>
    obtain ⟨p, hp, heq⟩ := List.mem_map.mp hmem
    obtain ⟨-, hone, -⟩ := result?_putMembers apart hresult (List.mem_map_of_mem hp)
    simp only [← names p hp, heq] at hone
    omega
  | field hmem hunder hfault =>
    obtain ⟨p, hp, heq⟩ := List.mem_map.mp hmem
    obtain ⟨-, -, hvalues⟩ := result?_putMembers apart hresult (List.mem_map_of_mem hp)
    rw [← names p hp, heq] at hvalues
    obtain ⟨before, after, hafter⟩ := hvalues _ hunder
    exact hput p hp _ (by rwa [heq]) before after hafter
  | @position _ _ _ _ _ i hmem hitem hfault =>
    rw [List.getElem?_map, Option.map_eq_some_iff] at hmem
    obtain ⟨p, hp, heq⟩ := hmem
    have hfield : (pairs.map Prod.snd)[i]? = some p.2 := by rw [List.getElem?_map, hp, Option.map_some]
    obtain ⟨before, after, hafter⟩ := result?_putItems hresult hfield hitem
    exact hput p (List.mem_of_getElem? hp) _ (by rwa [heq]) before after hafter

end Document
end MemberAudit.Json
