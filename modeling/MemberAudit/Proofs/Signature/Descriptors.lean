/-
What descriptors mean. A type is a primitive one, a class or an array
(`JavaType`), and a method has parameters and perhaps a result (`MethodType`).
A class file writes them as descriptors, reports show them in words, and decoding
what a class file writes gives what reports show (`decodes_descriptors`), as long as
no name of a class holds the mark that ends it.

The decoder does not read the grammar: it cuts a parameter block at each `;` and
walks the fragments. What it finds of a type is its token, the descriptor without
the `;` (`parameterTokens_append`), so that types are told apart one by one.
-/
import MemberAudit.Signature

namespace MemberAudit.Signature

/-! ## Types -/

inductive Primitive where
  | byte
  | short
  | boolean
  | char
  | int
  | long
  | float
  | double
  deriving DecidableEq, Repr

namespace Primitive

def code : Primitive → Char
  | byte => 'B'
  | short => 'S'
  | boolean => 'Z'
  | char => 'C'
  | int => 'I'
  | long => 'J'
  | float => 'F'
  | double => 'D'

def word : Primitive → String
  | byte => "byte"
  | short => "short"
  | boolean => "boolean"
  | char => "char"
  | int => "int"
  | long => "long"
  | float => "float"
  | double => "double"

end Primitive

inductive JavaType where
  | primitive (type : Primitive)
  /-- A class by its name in class files. -/
  | object (name : String)
  | array (component : JavaType)
  deriving DecidableEq, Repr

namespace JavaType

def descriptor : JavaType → List Char
  | primitive type => [type.code]
  | object name => 'L' :: name.toList ++ [';']
  | array component => '[' :: component.descriptor

/-- The type in words. -/
def shown : JavaType → String
  | primitive type => type.word
  | object name => withDots name
  | array component => component.shown ++ "[]"

/-- The class of a type or of its elements. -/
def className? : JavaType → Option String
  | primitive _ => none
  | object name => some name
  | array component => component.className?

/-- What the decoder finds of a type in a parameter block. -/
def token : JavaType → List Char
  | primitive type => [type.code]
  | object name => 'L' :: name.toList
  | array component => '[' :: component.token

end JavaType

structure MethodType where
  parameters : List JavaType
  /-- None for a method that gives nothing back. -/
  result : Option JavaType
  deriving DecidableEq, Repr

namespace MethodType

def resultDescriptor : Option JavaType → List Char
  | none => ['V']
  | some type => type.descriptor

def resultShown : Option JavaType → String
  | none => "void"
  | some type => type.shown

def descriptor (type : MethodType) : String :=
  String.ofList
    ('(' :: type.parameters.flatMap JavaType.descriptor ++ ')' :: resultDescriptor type.result)

/-- The parameters in words, with a comma and a blank between them. -/
def parametersShown (type : MethodType) : String :=
  ", ".intercalate (type.parameters.map JavaType.shown)

end MethodType

/-! ## Single types -/

/-- A name of a class that a descriptor can hold: it does not end early. -/
structure Holdable (name : String) : Prop where
  nonempty : name ≠ ""
  endless : ';' ∉ name.toList

theorem typeOfChars_code (type : Primitive) : typeOfChars [type.code] = type.word := by
  cases type <;> rfl

theorem typeOfChars_array {component : List Char} (h : component ≠ []) :
    typeOfChars ('[' :: component) = typeOfChars component ++ "[]" := by
  cases component with
  | nil => exact absurd rfl h
  | cons c rest => rfl

theorem typeOfChars_object {body : List Char} (h : body ≠ []) :
    typeOfChars ('L' :: body) = objectName body := by
  cases body with
  | nil => exact absurd rfl h
  | cons c rest => rfl

/-- A name ends where its text does, or at the mark. -/
theorem objectName_append {name : String} (h : ';' ∉ name.toList) {rest : List Char}
    (hrest : ∀ c ∈ rest.head?, c = ';') : objectName (name.toList ++ rest) = withDots name := by
  have hall : ∀ c ∈ name.toList, decide (c ≠ ';') = true := by
    intro c hc
    exact decide_eq_true fun heq => h (heq ▸ hc)
  have hend : rest.takeWhile (· ≠ ';') = [] := by
    cases rest with
    | nil => rfl
    | cons c rest => simp [hrest c rfl]
  rw [objectName, List.takeWhile_append_of_pos hall, hend, List.append_nil, String.ofList_toList]

theorem JavaType.descriptor_ne_nil (type : JavaType) : type.descriptor ≠ [] := by
  cases type <;> simp [descriptor]

theorem JavaType.token_ne_nil (type : JavaType) : type.token ≠ [] := by
  cases type <;> simp [token]

/-- A type is decoded in words, with or without the mark at its end. -/
theorem typeOfChars_descriptor_token {type : JavaType} (h : ∀ name ∈ type.className?, Holdable name) :
    typeOfChars type.descriptor = type.shown ∧ typeOfChars type.token = type.shown := by
  induction type with
  | primitive type => exact ⟨typeOfChars_code type, typeOfChars_code type⟩
  | object name =>
    obtain ⟨hne, hend⟩ := h name rfl
    have hchars : name.toList ≠ [] := by simpa using hne
    constructor
    · exact (typeOfChars_object (by simp)).trans (objectName_append hend (by simp))
    · rw [JavaType.token, typeOfChars_object hchars, ← List.append_nil name.toList]
      exact objectName_append hend (by simp)
  | array component ih =>
    obtain ⟨hdescriptor, htoken⟩ := ih h
    constructor
    · rw [JavaType.descriptor, typeOfChars_array component.descriptor_ne_nil, hdescriptor]
      rfl
    · rw [JavaType.token, typeOfChars_array component.token_ne_nil, htoken]
      rfl

theorem type_descriptor {type : JavaType} (h : ∀ name ∈ type.className?, Holdable name) :
    Signature.type (String.ofList type.descriptor) = type.shown := by
  rw [Signature.type, String.toList_ofList]
  exact (typeOfChars_descriptor_token h).1

/-! ## Parameter blocks -/

/-- The code of a primitive type is neither a bracket nor an `L`. -/
theorem tokensAfter_code (depth : Nat) (type : Primitive) (rest : List Char) :
    tokensAfter depth (type.code :: rest) =
      (List.replicate depth '[' ++ [type.code]) :: tokensAfter 0 rest := by
  cases type <;> rfl

theorem code_ne_mark (type : Primitive) : type.code ≠ ';' := by
  cases type <;> decide

theorem replicate_append_cons (depth : Nat) (rest : List Char) :
    List.replicate (depth + 1) '[' ++ rest = List.replicate depth '[' ++ '[' :: rest := by
  rw [List.replicate_succ', List.append_assoc]
  rfl

/-- The tokens of a block that begins with a type, after brackets. -/
theorem tokensAfter_descriptor {type : JavaType} (h : ∀ name ∈ type.className?, Holdable name)
    {depth : Nat} {rest first : List Char} {others : List (List Char)}
    (hsplit : Text.split ';' (type.descriptor ++ rest) = first :: others) :
    tokensAfter depth first ++ others.flatMap (tokensAfter 0) =
      (List.replicate depth '[' ++ type.token) :: parameterTokens rest := by
  induction type generalizing depth first others with
  | primitive type =>
    obtain ⟨piece, pieces, hrest⟩ := List.exists_cons_of_ne_nil (Text.split_ne_nil ';' rest)
    have hcode : ';' ∉ [type.code] := by simpa using (code_ne_mark type).symm
    rw [JavaType.descriptor, Text.split_append_of_not_mem hcode hrest] at hsplit
    cases hsplit
    rw [parameterTokens, hrest, List.singleton_append, tokensAfter_code]
    rfl
  | object name =>
    have hend := (h name rfl).endless
    have hname : Text.split ';' ('L' :: name.toList) = ['L' :: name.toList] :=
      Text.split_of_not_mem (by simpa using hend)
    have hcut : JavaType.descriptor (.object name) ++ rest = ('L' :: name.toList) ++ ';' :: rest := by
      simp [JavaType.descriptor]
    rw [hcut, Text.split_append_sep, hname] at hsplit
    cases hsplit
    rfl
  | array component ih =>
    obtain ⟨piece, pieces, hpieces⟩ :=
      List.exists_cons_of_ne_nil (Text.split_ne_nil ';' (component.descriptor ++ rest))
    have hcut : JavaType.descriptor (.array component) ++ rest =
        ['['] ++ (component.descriptor ++ rest) := rfl
    rw [hcut, Text.split_append_of_not_mem (by decide) hpieces] at hsplit
    cases hsplit
    rw [JavaType.token, ← replicate_append_cons]
    exact ih h hpieces

theorem parameterTokens_append {type : JavaType} (h : ∀ name ∈ type.className?, Holdable name)
    (rest : List Char) :
    parameterTokens (type.descriptor ++ rest) = type.token :: parameterTokens rest := by
  obtain ⟨first, others, hsplit⟩ :=
    List.exists_cons_of_ne_nil (Text.split_ne_nil ';' (type.descriptor ++ rest))
  rw [parameterTokens, hsplit, List.flatMap_cons]
  exact tokensAfter_descriptor h hsplit

theorem parameters_descriptors {types : List JavaType}
    (h : ∀ type ∈ types, ∀ name ∈ type.className?, Holdable name) :
    parameters (types.flatMap JavaType.descriptor) = types.map JavaType.shown := by
  have htokens : parameterTokens (types.flatMap JavaType.descriptor) = types.map JavaType.token := by
    induction types with
    | nil => rfl
    | cons type types ih =>
      rw [List.flatMap_cons, parameterTokens_append (h type List.mem_cons_self),
        ih fun other hother => h other (List.mem_cons_of_mem _ hother)]
      rfl
  rw [parameters, htokens, List.map_map]
  refine List.map_congr_left ?_
  intro type htype
  exact (typeOfChars_descriptor_token (h type htype)).2

/-! ## Methods -/

/-- A method whose descriptor can be taken apart: the names of its classes do not
end early, and no name in its parameters ends the block of parameters. -/
structure MethodType.Readable (type : MethodType) : Prop where
  parameters : ∀ parameter ∈ type.parameters, ∀ name ∈ parameter.className?,
    Holdable name ∧ ')' ∉ name.toList
  result : ∀ result ∈ type.result, ∀ name ∈ result.className?, Holdable name

theorem close_not_mem_descriptor {type : JavaType} (h : ∀ name ∈ type.className?, ')' ∉ name.toList) :
    ')' ∉ type.descriptor := by
  induction type with
  | primitive type => cases type <;> decide
  | object name => simpa [JavaType.descriptor] using h name rfl
  | array component ih => simpa [JavaType.descriptor] using ih h

/-- A descriptor is cut at the end of its parameters. -/
theorem methodParts_cut {block : List Char} (h : ')' ∉ block) (result : List Char) :
    methodParts ('(' :: block ++ ')' :: result) = (block, result) := by
  have hall : ∀ c ∈ '(' :: block, decide (c ≠ ')') = true := by
    intro c hc
    rcases List.mem_cons.mp hc with rfl | hc
    · decide
    · exact decide_eq_true fun heq => h (heq ▸ hc)
  rw [methodParts, List.dropWhile_append_of_pos hall, List.takeWhile_append_of_pos hall]
  simp [afterOpening]

theorem methodParts_descriptor {type : MethodType} (h : type.Readable) :
    methodParts type.descriptor.toList =
      (type.parameters.flatMap JavaType.descriptor, MethodType.resultDescriptor type.result) := by
  rw [MethodType.descriptor, String.toList_ofList]
  refine methodParts_cut ?_ _
  intro hmem
  obtain ⟨parameter, hparameter, hclose⟩ := List.mem_flatMap.mp hmem
  have hnames := h.parameters parameter hparameter
  exact close_not_mem_descriptor (fun name hname => (hnames name hname).2) hclose

theorem typeOfChars_result {result : Option JavaType}
    (h : ∀ type ∈ result, ∀ name ∈ type.className?, Holdable name) :
    typeOfChars (MethodType.resultDescriptor result) = MethodType.resultShown result := by
  cases result with
  | none => rfl
  | some type => exact (typeOfChars_descriptor_token (h type rfl)).1

theorem caller_descriptor {type : MethodType} (h : type.Readable) (name : String) :
    caller name type.descriptor = name ++ "(" ++ type.parametersShown ++ ")" := by
  rw [caller, methodParts_descriptor h, parameters_descriptors]
  · rfl
  · exact fun parameter hparameter name hname => (h.parameters parameter hparameter name hname).1

theorem method_descriptor {type : MethodType} (h : type.Readable) (name : String) :
    method name type.descriptor =
      MethodType.resultShown type.result ++ " " ++ (name ++ "(" ++ type.parametersShown ++ ")") := by
  rw [method, methodParts_descriptor h, typeOfChars_result h.result, caller_descriptor h]

theorem field_descriptor {type : JavaType} (h : ∀ name ∈ type.className?, Holdable name)
    (name : String) :
    field name (String.ofList type.descriptor) = type.shown ++ " " ++ name := by
  rw [field, type_descriptor h]

/-- **Decoding a descriptor gives the words for its types**, in signatures of methods that
are called, of methods that call, and of fields. -/
theorem decodes_descriptors (name : String) :
    (∀ type : MethodType, type.Readable →
      method name type.descriptor =
          MethodType.resultShown type.result ++ " " ++ (name ++ "(" ++ type.parametersShown ++ ")") ∧
        caller name type.descriptor = name ++ "(" ++ type.parametersShown ++ ")") ∧
    ∀ type : JavaType, (∀ className ∈ type.className?, Holdable className) →
      field name (String.ofList type.descriptor) = type.shown ++ " " ++ name := by
  constructor
  · intro type h
    exact ⟨method_descriptor h name, caller_descriptor h name⟩
  · intro type h
    exact field_descriptor h name

/-- Types that share fragments of a parameter block: a primitive type and an array before a
class, a class whose name begins with a bracket, and a class as result that has the mark
of the end of parameters in its name. -/
def mixedType : MethodType where
  parameters := [.primitive .long, .array (.array (.primitive .int)), .array (.object "java/util/List"),
    .object "(a", .array (.primitive .byte)]
  result := some (.array (.object "b/c)d"))

theorem decodes_descriptors_mixed :
    mixedType.Readable ∧ mixedType.descriptor = "(J[[I[Ljava/util/List;L(a;[B)[Lb/c)d;" ∧
      method "m" mixedType.descriptor = "b.c)d[] m(long, int[][], java.util.List[], (a, byte[])" ∧
      caller "m" mixedType.descriptor = "m(long, int[][], java.util.List[], (a, byte[])" ∧
      field "f" "[Lb/c)d;" = "b.c)d[] f" := by
  have hlist : Holdable "java/util/List" := ⟨by decide, by decide⟩
  have hname : Holdable "(a" := ⟨by decide, by decide⟩
  have hresult : Holdable "b/c)d" := ⟨by decide, by decide⟩
  have hreadable : mixedType.Readable := by
    constructor
    · simp [mixedType, JavaType.className?, hlist, hname]
    · simp [mixedType, JavaType.className?, hresult]
  obtain ⟨hmethod, hcaller⟩ := (decodes_descriptors "m").1 mixedType hreadable
  have hfield := (decodes_descriptors "f").2 (.array (.object "b/c)d"))
    (by simp [JavaType.className?, hresult])
  exact ⟨hreadable, by decide +kernel, hmethod.trans (by decide +kernel), hcaller.trans (by decide +kernel),
    hfield.trans (by decide +kernel)⟩

end MemberAudit.Signature
