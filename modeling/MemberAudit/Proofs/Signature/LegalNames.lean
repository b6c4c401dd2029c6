/-
Names with parentheses. A class file may name a class as it likes, as long as no part of the
name is empty or holds a `.`, a `;` or a `[` (`LegalName`). Such a name may hold a `)`, and the
decoder takes the first `)` of a descriptor for the end of the parameters.

So a descriptor is decoded in the words for its types exactly if no class among its parameters
holds a `)` (`decodes_legal`). If one does, the parameters before it are found, then what stands
of it before its `)`, and none after it (`heard`); the rest is taken for the result.
-/
import MemberAudit.Proofs.Signature.Distinct
import Mathlib.Algebra.Ring.Nat
import Mathlib.Data.List.TakeWhile

namespace MemberAudit.Signature

/-! ## Legal descriptors -/

/-- A name that a class file may give to a class. -/
structure LegalName (name : String) : Prop where
  parts : ∀ part ∈ Text.split '/' name.toList, part ≠ [] ∧ ∀ c ∈ part, c ∉ ['.', ';', '[']

instance : DecidablePred LegalName := fun name =>
  decidable_of_iff
    (∀ part ∈ Text.split '/' name.toList, part ≠ [] ∧ Text.free ['.', ';', '['] part = true) <| by
      simp only [Text.free_iff]
      exact ⟨fun h => ⟨h⟩, fun h => h.parts⟩

structure MethodType.Legal (type : MethodType) : Prop where
  parameters : ∀ parameter ∈ type.parameters, ∀ name ∈ parameter.className?, LegalName name
  result : ∀ result ∈ type.result, ∀ name ∈ result.className?, LegalName name

theorem LegalName.holdable {name : String} (h : LegalName name) : Holdable name where
  nonempty := by
    rintro rfl
    exact (h.parts [] (by decide)).1 rfl
  endless := by
    intro hmem
    obtain ⟨part, hpart, hmark⟩ := Or.resolve_left (Text.mem_split hmem) (show ';' ≠ '/' by decide)
    exact (h.parts part hpart).2 ';' hmark (by decide)

/-! ## Closing parentheses -/

/-- The class of a type, or of its elements, has a closing parenthesis in its name. -/
def JavaType.HoldsClose (type : JavaType) : Prop :=
  ∃ name ∈ type.className?, ')' ∈ name.toList

theorem JavaType.holdsClose_iff {type : JavaType} : type.HoldsClose ↔ ')' ∈ type.descriptor := by
  induction type with
  | primitive type => cases type <;> simp [HoldsClose, className?, descriptor, Primitive.code]
  | object name => simp [HoldsClose, className?, descriptor]
  | array component ih => simpa [HoldsClose, className?, descriptor] using ih

instance : DecidablePred JavaType.HoldsClose := fun _ => decidable_of_iff _ JavaType.holdsClose_iff.symm

/-- The closing parenthesis after the parameters is the first one of the descriptor. -/
def MethodType.ClosedOnce (type : MethodType) : Prop :=
  ∀ parameter ∈ type.parameters, ¬ parameter.HoldsClose

theorem MethodType.Legal.readable {type : MethodType} (h : type.Legal) (hclosed : type.ClosedOnce) :
    type.Readable where
  parameters parameter hparameter name hname :=
    ⟨(h.parameters parameter hparameter name hname).holdable,
      fun hmem => hclosed parameter hparameter ⟨name, hname, hmem⟩⟩
  result result hresult name hname := (h.result result hresult name hname).holdable

/-- What stands of a descriptor before its first closing parenthesis. -/
def JavaType.opened (type : JavaType) : List Char :=
  type.descriptor.takeWhile (· ≠ ')')

/-- What is found of the parameters of a method, up to the first closing parenthesis. -/
def heard : List JavaType → List String
  | [] => []
  | type :: types => if type.HoldsClose then [typeOfChars type.opened] else type.shown :: heard types

/-! ## The first closing parenthesis -/

theorem takeWhile_mark {mark : Char} {before : List Char} (h : mark ∉ before) (after : List Char) :
    (before ++ mark :: after).takeWhile (· ≠ mark) = before := by
  have hall : ∀ c ∈ before, decide (c ≠ mark) = true := by
    intro c hc
    exact decide_eq_true fun heq => h (heq ▸ hc)
  rw [List.takeWhile_append_of_pos hall, List.takeWhile_cons_of_neg (by simp), List.append_nil]

/-- A type that is cut in two at a closing parenthesis within the name of its class. What
stands before the cut is one token still. -/
structure JavaType.Cut (type : JavaType) (before after : List Char) : Prop where
  descriptor : type.descriptor = before ++ ')' :: (after ++ [';'])
  first : ')' ∉ before
  token : ∀ depth, tokensAfter depth before = [List.replicate depth '[' ++ before]
  endless : ';' ∉ before ++ after

theorem JavaType.HoldsClose.exists_cut {type : JavaType} (h : type.HoldsClose)
    (hnames : ∀ name ∈ type.className?, Holdable name) : ∃ before after, type.Cut before after := by
  obtain ⟨name, hname, hclose⟩ := h
  induction type with
  | primitive type => cases hname
  | object own =>
    cases hname
    obtain ⟨before, after, hcut, hfirst⟩ := List.eq_append_cons_of_mem hclose
    have hendless := (hnames name rfl).endless
    rw [hcut] at hendless
    refine ⟨'L' :: before, after, ?_, ?_, ?_, ?_⟩
    · simp [JavaType.descriptor, hcut]
    · simpa using hfirst
    · exact fun _ => rfl
    · simpa using hendless
  | array component ih =>
    obtain ⟨before, after, hcut⟩ := ih hnames hname
    refine ⟨'[' :: before, after, ?_, ?_, ?_, ?_⟩
    · rw [JavaType.descriptor, hcut.descriptor]
      rfl
    · simpa using hcut.first
    · intro depth
      rw [tokensAfter, hcut.token, replicate_append_cons]
    · simpa using hcut.endless

namespace JavaType.Cut

variable {type : JavaType} {before after : List Char}

theorem opened_eq (h : type.Cut before after) : type.opened = before := by
  rw [opened, h.descriptor, takeWhile_mark h.first]

theorem parameters_eq (h : type.Cut before after) : parameters before = [typeOfChars type.opened] := by
  have hendless : ';' ∉ before := fun hmem => h.endless (List.mem_append_left _ hmem)
  rw [parameters, parameterTokens, Text.split_of_not_mem hendless, h.opened_eq]
  simp [h.token]

end JavaType.Cut

theorem parameters_append_descriptor {type : JavaType} (h : ∀ name ∈ type.className?, Holdable name)
    (rest : List Char) : parameters (type.descriptor ++ rest) = type.shown :: parameters rest := by
  rw [parameters, parameterTokens_append h, List.map_cons, (typeOfChars_descriptor_token h).2, parameters]

/-- Parameters that are cut in two at the first closing parenthesis: what is found before it,
and the next mark after it. -/
structure CutParameters (types : List JavaType) (block later rest : List Char) : Prop where
  descriptors : types.flatMap JavaType.descriptor = block ++ ')' :: (later ++ ';' :: rest)
  first : ')' ∉ block
  endless : ';' ∉ later
  found : parameters block = heard types

theorem exists_cutParameters {types : List JavaType}
    (h : ∀ type ∈ types, ∀ name ∈ type.className?, Holdable name)
    (hclose : ∃ type ∈ types, type.HoldsClose) : ∃ block later rest, CutParameters types block later rest := by
  induction types with
  | nil => simp at hclose
  | cons type types ih =>
    obtain ⟨htype, htypes⟩ := List.forall_mem_cons.mp h
    by_cases hfirst : type.HoldsClose
    · obtain ⟨before, after, hcut⟩ := hfirst.exists_cut htype
      refine ⟨before, after, types.flatMap JavaType.descriptor, ?_, hcut.first, ?_, ?_⟩
      · simp [hcut.descriptor]
      · exact fun hmem => hcut.endless (List.mem_append_right _ hmem)
      · rw [hcut.parameters_eq, heard, if_pos hfirst]
    · have hlater : ∃ type ∈ types, type.HoldsClose := by simpa [hfirst] using hclose
      obtain ⟨block, later, rest, hcut⟩ := ih htypes hlater
      refine ⟨type.descriptor ++ block, later, rest, ?_, ?_, hcut.endless, ?_⟩
      · rw [List.flatMap_cons, hcut.descriptors, List.append_assoc]
      · rw [List.mem_append, not_or]
        exact ⟨fun hmem => hfirst (JavaType.holdsClose_iff.mpr hmem), hcut.first⟩
      · rw [parameters_append_descriptor htype, hcut.found, heard, if_neg hfirst]

theorem CutParameters.methodParts_eq {type : MethodType} {block later rest : List Char}
    (h : CutParameters type.parameters block later rest) :
    methodParts type.descriptor.toList =
      (block, later ++ ';' :: (rest ++ ')' :: MethodType.resultDescriptor type.result)) := by
  rw [← methodParts_cut h.first, MethodType.descriptor, String.toList_ofList, List.cons_append,
    h.descriptors]
  simp

/-! ## What is found of the parameters -/

theorem heard_of_none {types : List JavaType} (h : ∀ type ∈ types, ¬ type.HoldsClose) :
    heard types = types.map JavaType.shown := by
  induction types with
  | nil => rfl
  | cons type types ih =>
    obtain ⟨htype, htypes⟩ := List.forall_mem_cons.mp h
    rw [heard, if_neg htype, ih htypes, List.map_cons]

/-- No parameter is lost exactly if none but the last one holds a closing parenthesis. -/
theorem length_heard_iff (types : List JavaType) :
    (heard types).length = types.length ↔ ∀ type ∈ types.dropLast, ¬ type.HoldsClose := by
  fun_induction heard types with
  | case1 => simp
  | case2 type types hclose => cases types <;> simp [hclose]
  | case3 type types hclose ih =>
    rw [List.length_cons, List.length_cons, Nat.add_right_cancel_iff, ih]
    cases types <;> simp [hclose]

/-! ## Counting closing parentheses -/

/-- How many closing parentheses a text holds. -/
def closes (text : String) : Nat :=
  text.toList.count ')'

theorem closes_append (a b : String) : closes (a ++ b) = closes a + closes b := by
  rw [closes, String.toList_append, List.count_append, closes, closes]

theorem closes_withDots (name : String) : closes (withDots name) = closes name := by
  have hclose : ∀ c ∈ name.toList,
      ((· == ')') ∘ fun c => if c = '/' then '.' else c) c = true ↔ (c == ')') = true := by
    intro c _
    by_cases hc : c = '/'
    · simp [hc]
    · simp [hc]
  rw [closes, withDots, String.toList_map, List.count, List.countP_map, List.countP_congr hclose]
  rfl

theorem closes_shown (type : JavaType) : closes type.shown = type.descriptor.count ')' := by
  induction type with
  | primitive type => cases type <;> decide
  | object name =>
    rw [JavaType.shown, closes_withDots, JavaType.descriptor]
    simp [closes]
  | array component ih =>
    rw [JavaType.shown, closes_append, ih, JavaType.descriptor]
    simp [closes]

theorem closes_intercalate (words : List String) :
    closes (", ".intercalate words) = (words.map closes).sum := by
  induction words with
  | nil => rfl
  | cons word words ih =>
    cases words with
    | nil => simp
    | cons next words =>
      have hcomma : closes ", " = 0 := by decide
      rw [String.intercalate_cons_cons, closes_append, closes_append, ih, hcomma, Nat.add_zero,
        ← List.sum_cons, ← List.map_cons]

theorem closes_parametersShown (type : MethodType) :
    closes type.parametersShown = (type.parameters.flatMap JavaType.descriptor).count ')' := by
  rw [MethodType.parametersShown, closes_intercalate, List.map_map, List.count_flatMap]
  refine congrArg List.sum (List.map_congr_left ?_)
  exact fun parameter _ => closes_shown parameter

/-- In words a type holds no more of them than its token does up to the mark that ends it. -/
theorem closes_typeOfChars_le (token : List Char) :
    closes (typeOfChars token) ≤ (token.takeWhile (· ≠ ';')).count ')' := by
  fun_induction typeOfChars token with
  | case1 code =>
    by_cases hmark : code = ';'
    · rw [hmark]
      decide
    · unfold primitive?
      split <;> simp [closes, hmark]
  | case2 component _ ih =>
    rw [closes_append, List.takeWhile_cons_of_pos (by decide), List.count_cons_of_ne (by decide)]
    exact ih
  | case3 body _ =>
    rw [objectName, closes_withDots, closes, String.toList_ofList, List.takeWhile_cons_of_pos (by decide),
      List.count_cons_of_ne (by decide)]
  | case4 body =>
    rw [objectName, closes_withDots, closes, String.toList_ofList]

theorem closes_heard (types : List JavaType) : closes (", ".intercalate (heard types)) = 0 := by
  rw [closes_intercalate]
  fun_induction heard types with
  | case1 => rfl
  | case2 type types _ =>
    have hopened : ((type.opened.takeWhile (· ≠ ';')).count ')') = 0 := by
      rw [List.count_eq_zero]
      intro hmem
      have hclose := List.mem_takeWhile_imp ((List.takeWhile_prefix _).mem hmem)
      simp at hclose
    have hle := closes_typeOfChars_le type.opened
    simp only [List.map_cons, List.map_nil, List.sum_cons, List.sum_nil]
    omega
  | case3 type types hclose ih =>
    have hnone : type.descriptor.count ')' = 0 :=
      List.count_eq_zero.mpr fun hmem => hclose (JavaType.holdsClose_iff.mpr hmem)
    rw [List.map_cons, List.sum_cons, closes_shown, hnone, ih]

/-! ## Legal descriptors in words -/

theorem closes_call (name : String) (words : List String) :
    closes (name ++ "(" ++ ", ".intercalate words ++ ")") =
      closes name + closes (", ".intercalate words) + 1 := by
  have hopen : closes "(" = 0 := by decide
  have hclose : closes ")" = 1 := by decide
  rw [closes_append, closes_append, closes_append, hopen, hclose]
  omega

namespace CutParameters

variable {type : MethodType} {block later rest : List Char}

theorem count_later_lt (h : CutParameters type.parameters block later rest) :
    later.count ')' < closes type.parametersShown := by
  rw [closes_parametersShown, h.descriptors, List.count_append, List.count_cons_self, List.count_append]
  omega

/-- What is taken for the result is shown up to the mark that ends the class that is cut. -/
theorem closes_result (h : CutParameters type.parameters block later rest) :
    closes (typeOfChars (methodParts type.descriptor.toList).2) ≤ later.count ')' := by
  have hle := closes_typeOfChars_le (methodParts type.descriptor.toList).2
  rw [h.methodParts_eq, takeWhile_mark h.endless] at hle
  rwa [h.methodParts_eq]

theorem closes_caller (h : CutParameters type.parameters block later rest) (name : String) :
    closes (caller name type.descriptor) = closes name + 1 := by
  rw [caller, h.methodParts_eq, h.found, closes_call, closes_heard, Nat.add_zero]

theorem result_ne (h : CutParameters type.parameters block later rest) :
    (methodParts type.descriptor.toList).2 ≠ MethodType.resultDescriptor type.result := by
  intro heq
  have hlength := congrArg List.length heq
  rw [h.methodParts_eq] at hlength
  simp only [List.length_append, List.length_cons] at hlength
  omega

theorem caller_ne (h : CutParameters type.parameters block later rest) (name : String) :
    caller name type.descriptor ≠ name ++ "(" ++ type.parametersShown ++ ")" := by
  intro heq
  have hcount := congrArg closes heq
  have hmore := h.count_later_lt
  rw [h.closes_caller, MethodType.parametersShown, closes_call, ← MethodType.parametersShown] at hcount
  omega

theorem method_ne (h : CutParameters type.parameters block later rest) (name : String) :
    method name type.descriptor ≠
      MethodType.resultShown type.result ++ " " ++ (name ++ "(" ++ type.parametersShown ++ ")") := by
  intro heq
  have hcount := congrArg closes heq
  have hmore := h.count_later_lt
  have hresult := h.closes_result
  rw [method, closes_append, closes_append, h.closes_caller, closes_append, closes_append,
    MethodType.parametersShown, closes_call, ← MethodType.parametersShown] at hcount
  omega

end CutParameters

/-- **What is decoded of a legal descriptor.** The parameters are those that stand before the
first closing parenthesis. None is lost exactly if no class but that of the last one holds a
closing parenthesis in its name. Exactly if no class of a parameter does, what is taken for the
result is the result, a called method is shown in the words for its types, and so is a
calling one. -/
theorem decodes_legal {type : MethodType} (h : type.Legal) (name : String) :
    parameters (methodParts type.descriptor.toList).1 = heard type.parameters ∧
    ((parameters (methodParts type.descriptor.toList).1).length = type.parameters.length ↔
      ∀ parameter ∈ type.parameters.dropLast, ¬ parameter.HoldsClose) ∧
    ((methodParts type.descriptor.toList).2 = MethodType.resultDescriptor type.result ↔ type.ClosedOnce) ∧
    (method name type.descriptor =
        MethodType.resultShown type.result ++ " " ++ (name ++ "(" ++ type.parametersShown ++ ")") ↔
      type.ClosedOnce) ∧
    (caller name type.descriptor = name ++ "(" ++ type.parametersShown ++ ")" ↔ type.ClosedOnce) := by
  have hnames : ∀ parameter ∈ type.parameters, ∀ name ∈ parameter.className?, Holdable name :=
    fun parameter hparameter name hname => (h.parameters parameter hparameter name hname).holdable
  by_cases hclosed : type.ClosedOnce
  · have hreadable := h.readable hclosed
    have hparts := methodParts_descriptor hreadable
    have hfound : parameters (methodParts type.descriptor.toList).1 = heard type.parameters := by
      rw [hparts, parameters_descriptors hnames, heard_of_none hclosed]
    refine ⟨hfound, hfound ▸ length_heard_iff _, ?_, ?_, ?_⟩
    · exact iff_of_true (by rw [hparts]) hclosed
    · exact iff_of_true (method_descriptor hreadable name) hclosed
    · exact iff_of_true (caller_descriptor hreadable name) hclosed
  · have hclose : ∃ parameter ∈ type.parameters, parameter.HoldsClose := by
      simpa [MethodType.ClosedOnce] using hclosed
    obtain ⟨block, later, rest, hcut⟩ := exists_cutParameters hnames hclose
    have hfound : parameters (methodParts type.descriptor.toList).1 = heard type.parameters := by
      rw [hcut.methodParts_eq, hcut.found]
    refine ⟨hfound, hfound ▸ length_heard_iff _, ?_, ?_, ?_⟩
    · exact iff_of_false hcut.result_ne hclosed
    · exact iff_of_false (hcut.method_ne name) hclosed
    · exact iff_of_false (hcut.caller_ne name) hclosed

/-- A class with a parenthesis in its name as the last parameter, after an array. -/
def lastHoldsClose : MethodType where
  parameters := [.array (.primitive .int), .object "a/b)c"]
  result := some (.object "d")

theorem decodes_legal_lastHoldsClose :
    lastHoldsClose.Legal ∧ lastHoldsClose.descriptor = "([ILa/b)c;)Ld;" ∧
      heard lastHoldsClose.parameters = ["int[]", "a.b"] ∧
      parameters (methodParts lastHoldsClose.descriptor.toList).1 = ["int[]", "a.b"] ∧
      caller "m" lastHoldsClose.descriptor ≠ "m(int[], a.b)c)" := by
  have hlegal : lastHoldsClose.Legal := ⟨by decide, by decide⟩
  have hheard : heard lastHoldsClose.parameters = ["int[]", "a.b"] := by decide +kernel
  obtain ⟨hparameters, -, -, -, hcaller⟩ := decodes_legal hlegal "m"
  refine ⟨hlegal, by decide +kernel, hheard, hparameters.trans hheard, ?_⟩
  intro heq
  have hclosed : lastHoldsClose.ClosedOnce := hcaller.mp (heq.trans (by decide +kernel))
  exact hclosed (.object "a/b)c") (by decide) (by decide)

/-- A class with a parenthesis in its name before another parameter. -/
def firstHoldsClose : MethodType where
  parameters := [.object "a)b", .primitive .int]
  result := none

/-- One of two parameters is lost, and the rest of the name is shown as the result. -/
theorem firstHoldsClose_decoded :
    firstHoldsClose.Legal ∧ firstHoldsClose.descriptor = "(La)b;I)V" ∧
      (parameters (methodParts firstHoldsClose.descriptor.toList).1).length ≠
        firstHoldsClose.parameters.length ∧
      caller "m" firstHoldsClose.descriptor = "m(a)" ∧
      method "m" firstHoldsClose.descriptor = "b m(a)" ∧
      typeOfChars (methodParts firstHoldsClose.descriptor.toList).2 ≠
        MethodType.resultShown firstHoldsClose.result :=
  ⟨⟨by decide, by decide⟩, by decide +kernel, by decide +kernel, by decide +kernel,
    by decide +kernel, by decide +kernel⟩

end MemberAudit.Signature
