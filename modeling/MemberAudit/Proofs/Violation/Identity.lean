/-
When two violations count as one (`same_use_iff`). Uses are compared as they are
shown, in words; but so long as the names in class files are regular
(`Site.Regular`), two sites show the same use exactly if they use the same member,
in the same way, in callers that differ in what they give back at most. The rules
then say the same about both.
-/
import MemberAudit.Proofs.Signature.Distinct
import MemberAudit.Proofs.Violation.Sites

namespace MemberAudit

open Signature (ClassName JavaType MemberName MethodType OwnerName)

/-! ## Members and lines -/

/-- The descriptor of a member of a kind. -/
inductive MemberDescriptor : MemberSort → String → Prop where
  | method {type : MethodType} : type.Named → MemberDescriptor .method type.descriptor
  | field {type : JavaType} : type.Named →
      MemberDescriptor .field (String.ofList type.descriptor)

/-- **A member is told apart by its kind, name and descriptor.** -/
theorem memberShown_inj {s t : Site} (hs : MemberName s.reference.name) (ht : MemberName t.reference.name)
    (hs' : MemberDescriptor s.reference.op.kind s.reference.descriptor)
    (ht' : MemberDescriptor t.reference.op.kind t.reference.descriptor) :
    s.memberShown = t.memberShown ↔ s.reference.op.kind = t.reference.op.kind ∧
      s.reference.name = t.reference.name ∧ s.reference.descriptor = t.reference.descriptor := by
  unfold Site.memberShown
  generalize s.reference.op.kind = kind, s.reference.descriptor = descriptor,
    t.reference.op.kind = kind', t.reference.descriptor = descriptor' at hs' ht' ⊢
  constructor
  · intro h
    cases hs' with
    | method hs' =>
      cases ht' with
      | method ht' =>
        obtain ⟨hname, htype⟩ := Signature.method_inj hs ht hs' ht' h
        exact ⟨rfl, hname, congrArg MethodType.descriptor htype⟩
      | field ht' => exact absurd h (Signature.method_ne_field ht hs' ht')
    | field hs' =>
      cases ht' with
      | method ht' => exact absurd h.symm (Signature.method_ne_field hs ht' hs')
      | field ht' =>
        obtain ⟨hname, htype⟩ := Signature.field_inj hs' ht' h
        rw [htype]
        exact ⟨rfl, hname, rfl⟩
  · intro h
    obtain ⟨hkind, hname, hdescriptor⟩ := h
    rw [hkind, hname, hdescriptor]

/-- The first line of a method, if it is known and can be shown. -/
def Method.shownLine? (method : Method) : Option Nat :=
  method.line?.filter (· < 0x80000000)

theorem lt_of_shownLine? {method : Method} {line : Nat} (h : method.shownLine? = some line) :
    line < 0x80000000 := by
  simpa using (Option.filter_eq_some_iff.mp h).2

theorem reportLine_eq (method : Method) :
    Violation.reportLine method = method.shownLine?.elim (-1) Int32.ofNat := by
  unfold Violation.reportLine Method.shownLine?
  cases method.line? with
  | none => rfl
  | some line =>
    rw [Option.filter_some]
    by_cases hline : line < 0x80000000
    · rw [if_pos (decide_eq_true hline)]
      exact if_pos hline
    · rw [if_neg (by simpa using hline)]
      exact if_neg hline

/-- A line that is shown is not negative. -/
theorem toInt_reportLine {method : Method} {line : Nat} (h : method.shownLine? = some line) :
    (Violation.reportLine method).toInt = line := by
  rw [reportLine_eq, h]
  exact Int32.toInt_ofNat_of_lt (lt_of_shownLine? h)

theorem toInt_reportLine_none {method : Method} (h : method.shownLine? = none) :
    (Violation.reportLine method).toInt = -1 := by
  rw [reportLine_eq, h]
  rfl

/-- A line that is shown is not taken for one that is not known. -/
theorem reportLine_inj {a b : Method} :
    Violation.reportLine a = Violation.reportLine b ↔ a.shownLine? = b.shownLine? := by
  refine ⟨fun h => ?_, fun h => by rw [reportLine_eq, reportLine_eq, h]⟩
  have htoInt := congrArg Int32.toInt h
  cases ha : a.shownLine? with
  | none =>
    cases hb : b.shownLine? with
    | none => rfl
    | some line =>
      rw [toInt_reportLine_none ha, toInt_reportLine hb] at htoInt
      omega
  | some line =>
    cases hb : b.shownLine? with
    | none =>
      rw [toInt_reportLine ha, toInt_reportLine_none hb] at htoInt
      omega
    | some other =>
      rw [toInt_reportLine ha, toInt_reportLine hb] at htoInt
      exact congrArg some (by omega)

/-! ## Sites -/

/-- A site at which all names are regular, in a caller of the given type. -/
structure Site.Regular (site : Site) (caller : MethodType) : Prop where
  owner : OwnerName site.reference.owner
  member : MemberName site.reference.name
  descriptor : MemberDescriptor site.reference.op.kind site.reference.descriptor
  callerClass : ClassName site.cls.toJvmClass.name
  callerName : MemberName site.method.name
  callerNamed : caller.Named
  callerDescriptor : site.method.descriptor = caller.descriptor

/-- Sites that do the same: they use one member, as a method or as a field, in
callers of one class, name, parameters and line. -/
structure Site.Alike (s t : Site) (caller caller' : MethodType) : Prop where
  kind : s.reference.op.kind = t.reference.op.kind
  owner : s.reference.owner = t.reference.owner
  member : s.reference.name = t.reference.name
  descriptor : s.reference.descriptor = t.reference.descriptor
  callerClass : s.cls.toJvmClass.name = t.cls.toJvmClass.name
  callerName : s.method.name = t.method.name
  callerParameters : caller.parameters = caller'.parameters
  callerLine : s.method.shownLine? = t.method.shownLine?

theorem Site.Alike.query {s t : Site} {caller caller' : MethodType} (h : s.Alike t caller caller') :
    s.query = t.query := by
  rw [Site.query, Site.query, h.kind, h.owner, h.member, h.callerClass, h.callerName]

theorem Site.Shows.callerLine_eq {site : Site} {use : MemberUse} (h : site.Shows use) :
    use.callerLine = Violation.reportLine site.method :=
  h.callerLine.unique (showsLine_reportLine site.method)

/-- Uses shown at regular sites are the same exactly if the sites are alike. -/
theorem Site.Regular.same_iff {s t : Site} {caller caller' : MethodType} {a b : MemberUse}
    (hs : s.Regular caller) (ht : t.Regular caller') (ha : s.Shows a) (hb : t.Shows b) :
    a.same b = true ↔ s.Alike t caller caller' := by
  rw [MemberUse.same_iff, ha.ownerClass, hb.ownerClass, ha.ownerMember, hb.ownerMember,
    ha.callerClass, hb.callerClass, ha.callerMember, hb.callerMember, ha.callerLine_eq,
    hb.callerLine_eq, hs.callerDescriptor, ht.callerDescriptor,
    Signature.className_inj hs.owner ht.owner,
    memberShown_inj hs.member ht.member hs.descriptor ht.descriptor,
    Signature.className_inj (.ofClass hs.callerClass) (.ofClass ht.callerClass),
    Signature.caller_inj hs.callerName ht.callerName hs.callerNamed ht.callerNamed, reportLine_inj]
  constructor
  · intro h
    obtain ⟨howner, ⟨hkind, hmember, hdescriptor⟩, hclass, ⟨hname, hparameters⟩, hline⟩ := h
    exact ⟨hkind, howner, hmember, hdescriptor, hclass, hname, hparameters, hline⟩
  · intro h
    exact ⟨h.owner, ⟨h.kind, h.member, h.descriptor⟩, h.callerClass,
      ⟨h.callerName, h.callerParameters⟩, h.callerLine⟩

namespace Violation

/-- A violation that a scan of classes finds, at a site of it. -/
structure FoundAt (set : UseSet) (rules : Policy) (classes : List PlacedClass) (site : Site)
    (violation : Violation) : Prop where
  present : site ∈ sites classes
  found : violation ∈ (record set rules classes).1
  flags : Flags rules site violation

/-- Every violation of a scan is found at a site. -/
theorem exists_foundAt {set : UseSet} {rules : Policy} {classes : List PlacedClass}
    {violation : Violation} (h : violation ∈ (record set rules classes).1) :
    ∃ site, FoundAt set rules classes site violation := by
  obtain ⟨site, hsite, hflags⟩ := mem_all.mp h
  exact ⟨site, hsite, h, hflags⟩

/-- **Two violations are one use exactly if their sites are alike,** and have then
one message. -/
theorem same_use_iff {set : UseSet} {rules : Policy} {classes : List PlacedClass} {s t : Site}
    {v w : Violation} {caller caller' : MethodType} (hv : FoundAt set rules classes s v)
    (hw : FoundAt set rules classes t w) (hs : s.Regular caller) (ht : t.Regular caller') :
    (v.use.same w.use = true ↔ s.Alike t caller caller') ∧
      (v.use.same w.use = true → v.message = w.message) := by
  have hiff := hs.same_iff ht hv.flags.shows hw.flags.shows
  refine ⟨hiff, fun hsame => ?_⟩
  obtain ⟨rule, hrule, hmessage⟩ := hv.flags.decided
  obtain ⟨rule', hrule', hmessage'⟩ := hw.flags.decided
  rw [(hiff.mp hsame).query] at hrule
  rw [← hmessage, ← hmessage', hrule.unique hrule']

/-! A method and its bridge, which gives back another type. Both copy an array. -/

def copyCall (op : ClassFile.MemberOp) (offset : Nat) : ClassFile.Reference :=
  ⟨"[Lapp/Node;", "clone", "()Ljava/lang/Object;", op, offset⟩

def copyMethod (result : String) (lines : List ClassFile.LineEntry) (call : ClassFile.Reference) :
    Method :=
  ⟨"run", MethodType.descriptor ⟨[.primitive .int], some (.object result)⟩, lines, [call]⟩

def copyClass : PlacedClass :=
  ⟨⟨"app/Main", [copyMethod "app/Node" [⟨0, 7⟩, ⟨4, 9⟩] (copyCall .invokevirtual 3),
    copyMethod "java/lang/Object" [⟨0, 7⟩] (copyCall .invokespecial 8)]⟩, 0⟩

def copySite (result : String) (lines : List ClassFile.LineEntry) (call : ClassFile.Reference) : Site :=
  ⟨copyClass, copyMethod result lines call, call⟩

def copyRules : Policy :=
  { methods := [{ owner := "app.Node", message := "copied" }] }

def copyAt (site : Site) : Violation :=
  ⟨useOf site.cls.toJvmClass site.method site.reference, "copied", site.cls.artifact⟩

theorem regular_copySite {result : String} {op : ClassFile.MemberOp} (lines : List ClassFile.LineEntry)
    (offset : Nat) (hresult : ClassName result) (hop : op.kind = .method) :
    (copySite result lines (copyCall op offset)).Regular ⟨[.primitive .int], some (.object result)⟩ where
  owner := .ofArray (by decide : (JavaType.object "app/Node").Named)
  member := (by decide : MemberName "clone")
  descriptor := by
    show MemberDescriptor op.kind _
    rw [hop]
    exact .method (by decide : (⟨[], some (.object "java/lang/Object")⟩ : MethodType).Named)
  callerClass := (by decide : ClassName "app/Main")
  callerName := (by decide : MemberName "run")
  callerNamed :=
    ⟨(by decide : ∀ parameter ∈ [JavaType.primitive .int], parameter.Named), by
      rintro _ ⟨⟩ _ ⟨⟩
      exact hresult⟩
  callerDescriptor := rfl

/-- The copies in the method and in its bridge are one violation, with one message. -/
theorem same_use_bridge :
    let method := copySite "app/Node" [⟨0, 7⟩, ⟨4, 9⟩] (copyCall .invokevirtual 3)
    let bridge := copySite "java/lang/Object" [⟨0, 7⟩] (copyCall .invokespecial 8)
    (record .empty copyRules [copyClass]).1 = [copyAt method, copyAt bridge] ∧
      (copyAt method).use.same (copyAt bridge).use = true ∧
      (copyAt method).message = (copyAt bridge).message := by
  intro method bridge
  have hfound : (record .empty copyRules [copyClass]).1 = [copyAt method, copyAt bridge] := by
    decide +kernel
  have hmethod : FoundAt .empty copyRules [copyClass] method (copyAt method) :=
    ⟨by decide, by simp [hfound], flags_iff.mpr (by decide +kernel)⟩
  have hbridge : FoundAt .empty copyRules [copyClass] bridge (copyAt bridge) :=
    ⟨by decide, by simp [hfound], flags_iff.mpr (by decide +kernel)⟩
  have hiff := same_use_iff hmethod hbridge (regular_copySite _ 3 (by decide) rfl)
    (regular_copySite _ 8 (by decide) rfl)
  have hsame : (copyAt method).use.same (copyAt bridge).use = true :=
    hiff.1.mpr ⟨rfl, rfl, rfl, rfl, rfl, rfl, rfl, rfl⟩
  exact ⟨hfound, hsame, hiff.2 hsame⟩

end Violation
end MemberAudit
