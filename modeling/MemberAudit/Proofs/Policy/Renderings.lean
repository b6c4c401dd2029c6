/-
The documents of a policy. They differ in the order of the keys, in which of two names a field
has, in the fields at their defaults that are left out, and in what stands under other keys; the
texts of each differ in their blanks and in how strings are escaped. All of them are read as the
policy, with no warning.

A document with a fault in one of these fields gives no policy at all, and not one without the
part at fault (`parse_renderings`).
-/
import MemberAudit.Proofs.Json.Records
import MemberAudit.Proofs.Json.RoundTrip
import MemberAudit.Policy.Document
import MemberAudit.Text.Utf8

namespace MemberAudit

open Json Json.Document

/-! ## Documents of a policy -/

/-- A text that is one of some words. -/
def OneOf (words : List String) (d : Document) : Prop :=
  ∃ word ∈ words, d = .text (some word)

def Scope.words : Scope → List String
  | .member => ["class", ""]
  | .package => ["package"]

def Grain.words : Grain → List String
  | .single => ["single"]
  | .perOwner => ["multi"]

def Grain.slots (grain : Grain) : List Slot :=
  [⟨["type"], OneOf grain.words, grain = .single⟩]

def Exemption.slots (e : Exemption) : List Slot :=
  [⟨["caller"], OneOf [e.caller], e.caller = ""⟩,
   ⟨["name", "member"], OneOf [e.member], e.member = ""⟩]

def Rule.slots (r : Rule) : List Slot :=
  [⟨["owner"], OneOf [r.owner], r.owner = ""⟩,
   ⟨["name", "member"], OneOf [r.member], r.member = ""⟩,
   ⟨["match", "matchMode"], OneOf r.scope.words, r.scope = .member⟩,
   ⟨["message"], OneOf [r.message], r.message = ""⟩,
   ⟨["excludes"], ArrayOf (fun e => Fills e.slots) r.exempt, r.exempt = []⟩]

def Policy.slots (rules : Policy) : List Slot :=
  [⟨["methods"], ArrayOf (fun r => Fills r.slots) rules.methods, rules.methods = []⟩,
   ⟨["fields"], ArrayOf (fun r => Fills r.slots) rules.fields, rules.fields = []⟩,
   ⟨["output"], Fills rules.grain.slots, rules.grain = .single⟩]

/-- A document of the policy. -/
def Policy.Renders (rules : Policy) (d : Document) : Prop :=
  Fills rules.slots d

/-! ## Documents with a fault -/

def Grain.shapes : List (List String × Shape) :=
  [(["type"], .text)]

def Exemption.shapes : List (List String × Shape) :=
  [(["caller"], .text), (["name", "member"], .text)]

def Rule.shapes : List (List String × Shape) :=
  [(["owner"], .text), (["name", "member"], .text), (["match", "matchMode"], .text),
    (["message"], .text), (["excludes"], .list (.record Exemption.shapes))]

def Policy.shapes : List (List String × Shape) :=
  [(["methods"], .list (.record Rule.shapes)), (["fields"], .list (.record Rule.shapes)),
    (["output"], .record Grain.shapes)]

/-- A document in which some field comes twice or has a value of the wrong kind. -/
def Policy.FaultyDocument (d : Document) : Prop :=
  Faulty (.record shapes) d

/-! ## Reading the documents of a policy -/

theorem asText_oneOf {ν : Type} {s : String} {d : Document} (h : OneOf [s] d) :
    (asText d : Noted ν String) = pure s := by
  obtain ⟨word, hword, rfl⟩ := h
  rw [List.mem_singleton.mp hword]
  rfl

theorem Scope.ofDocument_oneOf {scope : Scope} {d : Document} (h : OneOf scope.words d) :
    ofDocument d = pure scope := by
  obtain ⟨word, hword, rfl⟩ := h
  cases scope <;> simp only [words, List.mem_cons, List.not_mem_nil, or_false] at hword
  · rcases hword with rfl | rfl <;> rfl
  · subst hword
    rfl

namespace Grain

theorem ofDocument_oneOf {grain : Grain} {d : Document} (h : OneOf grain.words d) :
    ofDocument d = pure grain := by
  obtain ⟨word, hword, rfl⟩ := h
  cases grain <;> rw [List.mem_singleton.mp hword] <;> rfl

/-- The setting after the fields in `seen`. -/
def upTo (grain : Grain) (seen : List String) : Grain :=
  known seen "type" grain .single

theorem ofSettings_eq (grain : Grain) {d : Document} (h : Fills grain.slots d) (hintact : d.intact = true) :
    ofSettings d = pure grain := by
  have haligned :
      Aligned (grain.slots.zip [.of "type" [] ofDocument fun grain _ => grain]) grain.upTo grain := by
    constructor
    · simp [slots]
    · simp [slots, Apart]
    · simp only [slots, List.zip_cons_cons, List.zip_nil_right, List.mem_singleton]
      rintro p rfl d hd - seen
      rw [Field.put_of (ofDocument_oneOf hd)]
      simp [upTo]
    · simp only [slots, List.zip_cons_cons, List.zip_nil_right, List.forall_mem_cons]
      rintro seen ⟨htype, -⟩
      exact known_eq htype
  exact haligned.asRecord_eq h hintact

end Grain

namespace Exemption

/-- The exemption after the fields in `seen`. -/
def upTo (e : Exemption) (seen : List String) : Exemption where
  caller := known seen "caller" e.caller ""
  member := known seen "name" e.member ""

theorem aligned (e : Exemption) : Aligned (e.slots.zip fields) e.upTo e where
  names := by simp [slots, fields]
  apart := by simp [slots, fields, Apart]
  put := by
    simp only [slots, fields, List.zip_cons_cons, List.zip_nil_right, List.forall_mem_cons]
    refine ⟨fun d hd _ seen => ?_, fun d hd _ seen => ?_, by simp⟩
    · rw [Field.put_of (asText_oneOf hd)]
      simp [upTo]
    · rw [Field.put_of (asText_oneOf hd)]
      simp [upTo]
  complete := by
    simp only [slots, fields, List.zip_cons_cons, List.zip_nil_right, List.forall_mem_cons, Field.name_of]
    rintro seen ⟨hcaller, hmember, -⟩
    rw [upTo, known_eq hcaller, known_eq hmember]

theorem ofDocument_eq (e : Exemption) (d : Document) (h : Fills e.slots d) (hintact : d.intact = true) :
    ofDocument d = pure e :=
  e.aligned.asRecord_eq h hintact

end Exemption

namespace Rule

/-- The rule after the fields in `seen`. -/
def upTo (r : Rule) (seen : List String) : Rule where
  owner := known seen "owner" r.owner ""
  member := known seen "name" r.member ""
  scope := known seen "match" r.scope .member
  message := known seen "message" r.message ""
  exempt := known seen "excludes" r.exempt []

theorem aligned (r : Rule) : Aligned (r.slots.zip fields) r.upTo r where
  names := by simp [slots, fields]
  apart := by simp [slots, fields, Apart]
  put := by
    simp only [slots, fields, List.zip_cons_cons, List.zip_nil_right, List.forall_mem_cons]
    refine ⟨fun d hd _ seen => ?_, fun d hd _ seen => ?_, fun d hd _ seen => ?_, fun d hd _ seen => ?_,
      fun d hd hintact seen => ?_, by simp⟩
    · rw [Field.put_of (asText_oneOf hd)]
      simp [upTo]
    · rw [Field.put_of (asText_oneOf hd)]
      simp [upTo]
    · rw [Field.put_of (Scope.ofDocument_oneOf hd)]
      simp [upTo]
    · rw [Field.put_of (asText_oneOf hd)]
      simp [upTo]
    · rw [Field.put_of (asList_eq Exemption.ofDocument_eq hd hintact)]
      simp [upTo]
  complete := by
    simp only [slots, fields, List.zip_cons_cons, List.zip_nil_right, List.forall_mem_cons, Field.name_of]
    rintro seen ⟨howner, hmember, hscope, hmessage, hexempt, -⟩
    rw [upTo, known_eq howner, known_eq hmember, known_eq hscope, known_eq hmessage, known_eq hexempt]

theorem ofDocument_eq (r : Rule) (d : Document) (h : Fills r.slots d) (hintact : d.intact = true) :
    ofDocument d = pure r :=
  r.aligned.asRecord_eq h hintact

end Rule

namespace Policy

/-- The policy after the fields in `seen`. -/
def upTo (rules : Policy) (seen : List String) : Policy where
  methods := known seen "methods" rules.methods []
  fields := known seen "fields" rules.fields []
  grain := known seen "output" rules.grain .single

theorem aligned (rules : Policy) : Aligned (rules.slots.zip fieldsOfDocument) rules.upTo rules where
  names := by simp [slots, fieldsOfDocument]
  apart := by simp [slots, fieldsOfDocument, Apart]
  put := by
    simp only [slots, fieldsOfDocument, List.zip_cons_cons, List.zip_nil_right, List.forall_mem_cons]
    refine ⟨fun d hd hintact seen => ?_, fun d hd hintact seen => ?_, fun d hd hintact seen => ?_, by simp⟩
    · rw [Field.put_of (asList_eq Rule.ofDocument_eq hd hintact)]
      simp [upTo]
    · rw [Field.put_of (asList_eq Rule.ofDocument_eq hd hintact)]
      simp [upTo]
    · rw [Field.put_of (Grain.ofSettings_eq _ hd hintact)]
      simp [upTo]
  complete := by
    simp only [slots, fieldsOfDocument, List.zip_cons_cons, List.zip_nil_right, List.forall_mem_cons,
      Field.name_of]
    rintro seen ⟨hmethods, hfields, hgrain, -⟩
    rw [upTo, known_eq hmethods, known_eq hfields, known_eq hgrain]

theorem ofDocument_eq (rules : Policy) (d : Document) (h : rules.Renders d) (hintact : d.intact = true) :
    ofDocument d = pure rules :=
  rules.aligned.asRecord_eq h hintact

end Policy

/-! ## Refusing a document with a fault -/

theorem Scope.refuses_ofDocument : Refuses .text ofDocument :=
  refuses_asText.bind _

theorem Grain.refuses_ofDocument : Refuses .text ofDocument :=
  refuses_asText.bind _

theorem Grain.refuses_ofSettings : Refuses (.record shapes) ofSettings := by
  refine refuses_asRecord (shapes.zip [.of "type" [] ofDocument fun grain _ => grain]) ?_ ?_ ?_ _
  · simp [shapes]
  · simp [shapes, Apart]
  · simp only [shapes, List.zip_cons_cons, List.zip_nil_right, List.forall_mem_cons]
    exact ⟨refuses_ofDocument.put_of _ _ _, by simp⟩

theorem Exemption.refuses_ofDocument : Refuses (.record shapes) ofDocument := by
  refine refuses_asRecord (shapes.zip fields) ?_ ?_ ?_ _
  · simp [shapes, fields]
  · simp [shapes, fields, Apart]
  · simp only [shapes, fields, List.zip_cons_cons, List.zip_nil_right, List.forall_mem_cons]
    exact ⟨refuses_asText.put_of _ _ _, refuses_asText.put_of _ _ _, by simp⟩

theorem Rule.refuses_ofDocument : Refuses (.record shapes) ofDocument := by
  refine refuses_asRecord (shapes.zip fields) ?_ ?_ ?_ _
  · simp [shapes, fields]
  · simp [shapes, fields, Apart]
  · simp only [shapes, fields, List.zip_cons_cons, List.zip_nil_right, List.forall_mem_cons]
    exact ⟨refuses_asText.put_of _ _ _, refuses_asText.put_of _ _ _, Scope.refuses_ofDocument.put_of _ _ _,
      refuses_asText.put_of _ _ _, Exemption.refuses_ofDocument.asList.put_of _ _ _, by simp⟩

namespace Policy

theorem refuses_ofDocument : Refuses (.record shapes) ofDocument := by
  refine refuses_asRecord (shapes.zip fieldsOfDocument) ?_ ?_ ?_ _
  · simp [shapes, fieldsOfDocument]
  · simp [shapes, fieldsOfDocument, Apart]
  · simp only [shapes, fieldsOfDocument, List.zip_cons_cons, List.zip_nil_right, List.forall_mem_cons]
    exact ⟨Rule.refuses_ofDocument.asList.put_of _ _ _, Rule.refuses_ofDocument.asList.put_of _ _ _,
      Grain.refuses_ofSettings.put_of _ _ _, by simp⟩

/-! ## Texts of a policy -/

theorem parse_of_isTextOf {text : String} {d : Document} (h : IsTextOf text d) :
    (parse text).result? = (ofDocument d).result? := by
  simp [parse, (read_of_isTextOf h).1]

theorem load_of_result?_eq_none {text : String} (h : (parse text).result? = none) (path : String) :
    ∃ notes, load path (some text.toUTF8) = (notes ++ [.ruleSetUnavailable path], {}) := by
  simp only [load, Option.bind_some, Text.fromUTF8?_toUTF8]
  split
  · rename_i rules hrules
    rw [Noted.result?_bind] at hrules
    exact absurd (h.symm.trans hrules) nofun
  · exact ⟨_, rfl⟩

/-- **A policy is read from each of its texts; a text with a fault gives no policy.** -/
theorem parse_renderings :
    (∀ rules d text, Renders rules d → IsTextOf text d → parse text = pure rules) ∧
      ∀ d text, FaultyDocument d → IsTextOf text d → (parse text).result? = none ∧
        ∀ path, ∃ notes, load path (some text.toUTF8) = (notes ++ [.ruleSetUnavailable path], {}) := by
  constructor
  · intro rules d text hrenders htext
    obtain ⟨hread, hintact⟩ := read_of_isTextOf htext
    rw [parse, hread]
    simp only [ofDocument_eq rules d hrenders hintact]
    rfl
  · intro d text hfault htext
    have hnone : (parse text).result? = none := by
      rw [parse_of_isTextOf htext, refuses_ofDocument d hfault]
    exact ⟨hnone, load_of_result?_eq_none hnone⟩

/-- A rule with its keys in another order and under their second names, and with one that says
nothing. -/
def loggerRule : Value :=
  .object [
    ("excludes", .array [.object [("member", .text "run"), ("caller", .text "com.app.log")]]),
    ("since", .array [.int 2, .object []]), ("matchMode", .text "package"), ("member", .text "debug"),
    ("owner", .text "com.app.Logger")]

/-- The policy of this rule is read; with a rule after it that names its member twice, nothing is. -/
theorem parse_loggerRule :
    parse (Value.print (.object [("output", .object [("type", .text "multi")]),
        ("methods", .array [loggerRule])])) =
        pure ⟨[⟨"com.app.Logger", "debug", .package, "", [⟨"com.app.log", "run"⟩]⟩], [], .perOwner⟩ ∧
      (parse (Value.print (.object [("methods", .array [loggerRule,
        .object [("name", .text "debug"), ("member", .text "debug")]])]))).result? = none := by
  constructor
  · refine parse_renderings.1 _ _ _ ?_ (isTextOf_print _)
    have hexempt : Fills (Exemption.slots ⟨"com.app.log", "run"⟩)
        (.object [(some "member", .text "run"), (some "caller", .text "com.app.log")]) := by
      refine .object (by simp) ?_
      simp [Exemption.slots, Slot.FilledBy, valuesOf, OneOf]
    have hrule : Fills (Rule.slots ⟨"com.app.Logger", "debug", .package, "", [⟨"com.app.log", "run"⟩]⟩)
        (ofValue loggerRule) := by
      simp only [loggerRule, ofValue, ofMembers, ofItems]
      refine .object (by simp) ?_
      simp [Rule.slots, Slot.FilledBy, valuesOf, OneOf, Scope.words, ArrayOf, hexempt]
    have hgrain : Fills (Grain.slots .perOwner) (.object [(some "type", .text "multi")]) := by
      refine .object (by simp) ?_
      simp [Grain.slots, Slot.FilledBy, valuesOf, OneOf, Grain.words]
    simp only [ofValue, ofMembers, ofItems]
    refine .object (by simp) ?_
    simp [slots, Slot.FilledBy, valuesOf, ArrayOf, hrule, hgrain]
  · refine (parse_renderings.2 _ _ ?_ (isTextOf_print _)).1
    simp only [ofValue, ofMembers, ofItems]
    have hmem : ∀ d, d ∈ valuesOf ["methods"] [(some "methods", d)] := by simp [valuesOf]
    refine .field List.mem_cons_self (hmem _) (.item (List.mem_cons_of_mem _ List.mem_cons_self) ?_)
    exact .twice (List.mem_cons_of_mem _ List.mem_cons_self) (by simp [valuesOf])

end Policy

end MemberAudit
