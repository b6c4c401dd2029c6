/-
Assembled class files, read again. Each part of a class is read from the bytes written for
it, up to the class itself (`read?_bytes`); so the class file is read as what it was
assembled from, exactly if the code can be read with the pool (`ofBytes_assembled`).
-/
import MemberAudit.ClassFile.Class
import MemberAudit.Proofs.ClassFile.Assembly

namespace MemberAudit.ClassFile

/-! ## The pool -/

theorem textOf_toUTF8 (text : String) : textOf text.toUTF8.data.toList = some text := by
  have hbytes : (⟨text.toUTF8.data.toList.toArray⟩ : ByteArray) = text.toUTF8 := by rw [Array.toArray_toList]
  simp only [textOf, hbytes, Text.fromUTF8?_toUTF8]

theorem reads_utf8 {text : String} (h : text.utf8ByteSize < 65536) :
    Reads (do
      let bytes ← Reader.take (← Reader.u2)
      match textOf bytes with
      | some text => return (Entry.utf8 text, false)
      | none => failure)
      (twoBytes text.utf8ByteSize ++ (text.toUTF8.data.toList ++ [])) (.utf8 text, false) := by
  have hlength : text.toUTF8.data.toList.length = text.utf8ByteSize := rfl
  refine (Reads.u2 h).bind ((Reads.take hlength).bind ?_)
  rw [textOf_toUTF8]
  exact .pure _

theorem reads_entry {bound : Nat} {e : Entry} (h : e.Fits bound) (hbound : bound < 65536) :
    Reads Pool.entry e.bytes (e, false) := by
  have hpair {m n : Nat} (f : Nat → Nat → Entry) (h : m ≤ bound ∧ n ≤ bound) :
      Reads (do return (f (← Reader.u2) (← Reader.u2), false)) (twoBytes m ++ twoBytes n) (f m n, false) :=
    .pair (Nat.lt_of_le_of_lt h.1 hbound) (Nat.lt_of_le_of_lt h.2 hbound)
  cases e with
  | utf8 text =>
    have htext := reads_utf8 h
    rw [List.append_nil] at htext
    exact htext.cons fun _ => rfl
  | classInfo name =>
    have hname : Reads (do return (Entry.classInfo (← Reader.u2), false)) (twoBytes name)
        (.classInfo name, false) := (Reads.u2 (Nat.lt_of_le_of_lt h hbound)).bind_pure
    exact hname.cons fun _ => rfl
  | fieldref => exact (hpair .fieldref h).cons fun _ => rfl
  | methodref => exact (hpair .methodref h).cons fun _ => rfl
  | interfaceMethodref => exact (hpair .interfaceMethodref h).cons fun _ => rfl
  | nameAndType => exact (hpair .nameAndType h).cons fun _ => rfl
  | empty | other => exact h.elim

theorem reads_entries {bound : Nat} {es : List Entry} (h : ∀ e ∈ es, e.Fits bound)
    (hbound : bound < 65536) : Reads (Pool.entries es.length) (es.flatMap Entry.bytes) es := by
  induction es with
  | nil => exact .pure []
  | cons e es ih =>
    obtain ⟨he, hes⟩ := List.forall_mem_cons.mp h
    have hentry := reads_entry he hbound
    cases es with
    | nil =>
      have hone : Reads (do return [(← Pool.entry).1]) e.bytes [e] := hentry.bind_pure
      simpa [Pool.entries] using hone
    | cons e' es =>
      have hmore : Reads (do return e :: (← Pool.entries (e' :: es).length))
          ((e' :: es).flatMap Entry.bytes) (e :: e' :: es) := (ih hes).bind_pure
      exact hentry.bind hmore

theorem reads_pool {es : List Entry} (h : ∀ e ∈ es, e.Fits es.length) (hlength : es.length < 65535) :
    Reads Pool.read (twoBytes (es.length + 1) ++ es.flatMap Entry.bytes) (poolOf es) := by
  have hentries : Reads (do return (.empty :: (← Pool.entries es.length)).toArray)
      (es.flatMap Entry.bytes) (poolOf es) := (reads_entries h (by omega)).bind_pure
  exact (Reads.u2 (by omega)).bind hentries

/-! ## Attributes, members and classes -/

theorem reads_skipTable (width : Nat) : Reads (Attribute.skipTable width) (twoBytes 0) () := by
  have hskip : Reads (Reader.skip (0 * width)) [] () := Reads.skip (by simp)
  exact (Reads.u2 (by decide)).bind hskip

/-- A line of a method as it is read. -/
def lineOf (line : UInt16 × UInt16) : LineEntry :=
  ⟨line.1.toNat, line.2.toNat⟩

theorem reads_lines {lines : List (UInt16 × UInt16)} (h : lines.length < 65536) :
    Reads (do return Attribute.lineNumbers (← Reader.times Attribute.lineEntry (← Reader.u2)))
      (lineBytes lines) (.lineNumbers (lines.map lineOf)) := by
  have hline : ∀ e ∈ lines.map lineOf,
      Reads Attribute.lineEntry (twoBytes e.startPc ++ twoBytes e.line) e := by
    intro e he
    obtain ⟨line, -, rfl⟩ := List.mem_map.mp he
    exact .pair line.1.toNat_lt line.2.toNat_lt
  have htable := Reads.times hline
  rw [List.length_map, List.flatMap_map] at htable
  exact (Reads.u2 h).bind htable.bind_pure

section Attributes

variable {pool : Pool} {depth name : Nat} {body : Bytes} {content : Attribute}
  {inner : Reader (List Attribute)}

theorem reads_singleton (h : Reads (Attribute.one pool depth (Attribute.list pool depth)) body content) :
    Reads (Attribute.list pool (depth + 1)) (twoBytes 1 ++ body) [content] := by
  have hnone : Reads (Reader.times (Attribute.one pool depth (Attribute.list pool depth)) 0) [] [] :=
    .pure []
  have hone : Reads (Reader.times (Attribute.one pool depth (Attribute.list pool depth)) 1) (body ++ [])
      [content] := h.bind hnone.bind_pure
  rw [List.append_nil] at hone
  rw [Attribute.list]
  exact (Reads.u2 (by decide)).bind hone

theorem reads_no_attributes : Reads (Attribute.list pool (depth + 1)) (twoBytes 0) [] := by
  have hnone : Reads (Reader.times (Attribute.one pool depth (Attribute.list pool depth)) 0) [] [] :=
    .pure []
  rw [Attribute.list]
  exact (Reads.u2 (by decide)).bind hnone

theorem length_lineBytes (lines : List (UInt16 × UInt16)) :
    (lineBytes lines).length = 4 * lines.length + 2 := by
  have hrow (line : UInt16 × UInt16) : (twoBytes line.1.toNat ++ twoBytes line.2.toNat).length = 4 := rfl
  rw [lineBytes, List.length_append, List.length_flatMap, length_twoBytes]
  simp only [hrow, List.map_const', List.sum_replicate_nat]
  omega

theorem reads_lineNumbers {lines : List (UInt16 × UInt16)} (hname : name < 65536)
    (hpool : pool.utf8 name = .ok "LineNumberTable") (h : lines.length < 65536) :
    Reads (Attribute.one pool depth inner) (attributeBytes name (lineBytes lines))
      (.lineNumbers (lines.map lineOf)) := by
  have hlength : (lineBytes lines).length < 4294967296 := by rw [length_lineBytes]; omega
  unfold Attribute.one
  refine (Reads.u2 hname).bind ?_
  rw [hpool]
  exact (Reads.u4 hlength).bind (reads_lines h)

theorem reads_code {code : Bytes} {lines : List (UInt16 × UInt16)} {linesName : Nat}
    (hname : name < 65536) (hpool : pool.utf8 name = .ok "Code") (hcode : code.length < 65536)
    (hlinesName : linesName < 65536) (hlinesPool : pool.utf8 linesName = .ok "LineNumberTable")
    (hlines : lines.length < 65536) :
    Reads (Attribute.one pool (depth + 1) (Attribute.list pool (depth + 1)))
      (attributeBytes name (codeBytes linesName code lines))
      (.code code [.lineNumbers (lines.map lineOf)]) := by
  have hlength : (codeBytes linesName code lines).length < 4294967296 := by
    simp only [codeBytes, attributeBytes, List.length_append, length_twoBytes, length_fourBytes,
      length_lineBytes]
    omega
  have hstack : Reads (Reader.skip 4) (twoBytes 1 ++ twoBytes 1) () := .skip rfl
  have hinner : Reads (Attribute.list pool (depth + 1))
      (twoBytes 1 ++ attributeBytes linesName (lineBytes lines)) [.lineNumbers (lines.map lineOf)] :=
    reads_singleton (reads_lineNumbers hlinesName hlinesPool hlines)
  unfold Attribute.one
  refine (Reads.u2 hname).bind ?_
  rw [hpool]
  refine (Reads.u4 hlength).bind ?_
  exact hstack.bind <| (Reads.u4 (by omega)).bind <| (Reads.take rfl).bind <|
    (reads_skipTable 8).bind hinner.bind_pure

end Attributes

theorem reads_member {pool : Pool} {depth name descriptor : Nat} {body : Bytes}
    {attributes : List Attribute} (hname : name < 65536) (hdescriptor : descriptor < 65536)
    (h : Reads (Attribute.list pool depth) body attributes) :
    Reads (Layout.member pool depth) (twoBytes 9 ++ (twoBytes name ++ (twoBytes descriptor ++ body)))
      ⟨name, descriptor, attributes⟩ := by
  have haccess : Reads (Reader.skip 2) (twoBytes 9) () := .skip rfl
  exact haccess.bind <| (Reads.u2 hname).bind <| (Reads.u2 hdescriptor).bind h.bind_pure

theorem reader_classBytes {es : List Entry} {depth thisClass name descriptor : Nat} (superClass : Nat)
    {method : Bytes} {content : Attribute}
    (hes : ∀ e ∈ es, e.Fits es.length) (hlength : es.length < 65535)
    (hthis : thisClass < 65536) (hname : name < 65536) (hdescriptor : descriptor < 65536)
    (h : Reads (Attribute.one (poolOf es) depth (Attribute.list (poolOf es) depth)) method content) :
    Layout.reader (depth + 1) (classBytes es thisClass superClass name descriptor method) =
      some (⟨poolOf es, thisClass, [⟨name, descriptor, [content]⟩]⟩, []) := by
  have hmagic : Reads Reader.u4 (fourBytes 0xCAFEBABE) 0xCAFEBABE := .u4 (by decide)
  have hversion : Reads (Reader.skip 4) (twoBytes 0 ++ twoBytes 52) () := .skip rfl
  have htwo (n : Nat) : Reads (Reader.skip 2) (twoBytes n) () := .skip rfl
  have hcount (n : Nat) (h : n < 65536) : Reads Reader.u2 (twoBytes n) n := .u2 h
  have hmember := reads_member hname hdescriptor (reads_singleton h)
  have hmethods : Reads (Reader.times (Layout.member (poolOf es) (depth + 1)) 1)
      (_ ++ []) [⟨name, descriptor, [content]⟩] := hmember.bind (Reads.bind_pure (.pure []))
  rw [List.append_nil] at hmethods
  have hfields : Reads (Reader.times (Layout.member (poolOf es) (depth + 1)) 0) [] [] := .pure []
  unfold Layout.reader classBytes
  refine hmagic.bind_rest ?_
  refine hversion.bind_rest ?_
  refine (reads_pool hes hlength).bind_rest ?_
  refine (htwo 0x21).bind_rest ?_
  refine (hcount thisClass hthis).bind_rest ?_
  refine (htwo superClass).bind_rest ?_
  refine (reads_skipTable 2).bind_rest ?_
  refine (hcount 0 (by decide)).bind_rest ?_
  refine hfields.bind_rest ?_
  refine (hcount 1 (by decide)).bind_rest ?_
  refine hmethods.bind_rest ?_
  rw [← List.append_nil (twoBytes 0)]
  refine reads_no_attributes.bind_rest ?_
  rfl

/-! ## Classes that were assembled -/

namespace Assembly

/-- What a class file can hold: numbers of two bytes for the entries of the pool, and
lengths of two bytes for its texts, for the code and for the lines. -/
structure Fits (a : Assembly) : Prop where
  entries : a.entries.length < 65535
  texts : ∀ r ∈ a.requests, ∀ s ∈ r.texts, s.utf8ByteSize ≤ 65535
  thisClass : a.thisClass.utf8ByteSize ≤ 65535
  name : a.name.utf8ByteSize ≤ 65535
  descriptor : a.descriptor.utf8ByteSize ≤ 65535
  code : a.code.length ≤ 65535
  lines : a.lines.length ≤ 65535

/-- A reference of the code and its instruction: the instruction holds the number that was
given to a request for the member. -/
def Resolves (a : Assembly) (place : Nat × Instruction) (r : Reference) : Prop :=
  ∃ high low more, place = (r.offset, .plain r.op.opcode (high :: low :: more)) ∧
    (.member r.op.kind r.owner r.name r.descriptor, high.toNat * 256 + low.toNat) ∈
      a.requests.zip a.numbers

namespace Fits

variable {a : Assembly}

theorem fits_entries (h : a.Fits) : ∀ e ∈ a.entries, e.Fits a.entries.length := by
  have htexts : ∀ r ∈ a.requests ++ a.ownRequests, ∀ s ∈ r.texts, s.utf8ByteSize < 65536 := by
    refine List.forall_mem_append.mpr ⟨fun r hr s hs => Nat.lt_succ_of_le (h.texts r hr s hs), ?_⟩
    simp only [ownRequests, Request.texts, List.forall_mem_cons, List.not_mem_nil, false_implies,
      implies_true, and_true]
    exact ⟨Nat.lt_succ_of_le h.thisClass, by decide, Nat.lt_succ_of_le h.name,
      Nat.lt_succ_of_le h.descriptor, by decide, by decide⟩
  have hfits := fits_entriesFrom htexts 0
  rwa [Nat.zero_add, ← entries_eq] at hfits

theorem before_le (h : a.Fits) : a.before + 8 < 65535 := by
  have hlength := h.entries
  rw [entries_eq, entriesFrom_append, List.length_append] at hlength
  exact hlength

theorem read?_bytes (h : a.Fits) :
    Layout.read? a.bytes = some ⟨a.pool, a.before + 2,
      [⟨a.before + 5, a.before + 6, [.code a.code [.lineNumbers (a.lines.map lineOf)]]⟩]⟩ := by
  have hbefore := h.before_le
  have hlength : ∃ depth, a.bytes.length = depth + 1 := by
    rw [bytes_eq]
    exact ⟨_, rfl⟩
  obtain ⟨depth, hdepth⟩ := hlength
  have hcode : Reads (Attribute.one a.pool (depth + 1) (Attribute.list a.pool (depth + 1)))
      (attributeBytes (a.before + 7) (codeBytes (a.before + 8) a.code a.lines))
      (.code a.code [.lineNumbers (a.lines.map lineOf)]) :=
    reads_code (by omega) (Pool.utf8_eq_ok.mpr (a.getElem?_own 6))
      (Nat.lt_succ_of_le h.code) (by omega) (Pool.utf8_eq_ok.mpr (a.getElem?_own 7))
      (Nat.lt_succ_of_le h.lines)
  have hread := reader_classBytes (a.before + 4) h.fits_entries h.entries
    (by omega : a.before + 2 < 65536) (by omega : a.before + 5 < 65536)
    (by omega : a.before + 6 < 65536) hcode
  rw [Layout.read?, hdepth, bytes_eq, hread]
  rfl

/-- An assembled class is read but for the references of its code. -/
theorem ofBytes_eq (h : a.Fits) :
    JvmClass.ofBytes a.bytes = (do
      let refs ← (references a.pool a.code).mapError (.code a.name a.descriptor)
      return ⟨a.thisClass, [⟨a.name, a.descriptor,
        (a.lines.map lineOf).mergeSort fun x y => x.startPc ≤ y.startPc, refs⟩]⟩) := by
  have hthis : a.pool.className (a.before + 2) = .ok a.thisClass :=
    Pool.className_eq_ok.mpr ⟨_, a.getElem?_own 1, a.getElem?_own 0⟩
  have hname : a.pool.utf8 (a.before + 5) = .ok a.name :=
    Pool.utf8_eq_ok.mpr (a.getElem?_own 4)
  have hdescriptor : a.pool.utf8 (a.before + 6) = .ok a.descriptor :=
    Pool.utf8_eq_ok.mpr (a.getElem?_own 5)
  rw [JvmClass.ofBytes, h.read?_bytes]
  simp only [JvmClass.ofLayout, methods, method?, code?, List.findSome?, hthis, hname, hdescriptor,
    Except.mapError, bind, Except.bind, pure, Except.pure, sortedLines, lineEntries]
  cases references a.pool a.code <;> simp

end Fits
end Assembly

/-- **A class file is read as what it was assembled from**, exactly if its code can be read
with its pool. The references are those of the member instructions in their order, and each
has the owner, name and descriptor that the entry of its number was asked for with. -/
theorem ofBytes_assembled (a : Assembly) (h : a.Fits) :
    (∀ cls, JvmClass.ofBytes a.bytes = .ok cls ↔
      ∃ refs, references a.pool a.code = .ok refs ∧
        cls = ⟨a.thisClass, [⟨a.name, a.descriptor,
          (a.lines.map lineOf).mergeSort fun x y => x.startPc ≤ y.startPc, refs⟩]⟩) ∧
      ∀ refs, references a.pool a.code = .ok refs ↔
        ∃ split, Splits 0 a.code split ∧
          List.Forall₂ a.Resolves (split.filter (·.2.usesMember)) refs := by
  have hrefers : Refers a.pool = a.Resolves := by
    funext place r
    simp only [Refers, Assembly.Resolves, a.names_pool_iff]
  have hcode : a.code.length < 2 ^ 32 := Nat.lt_of_le_of_lt h.code (by decide)
  refine ⟨fun cls => ?_, fun refs => ?_⟩
  · rw [h.ofBytes_eq, bind_eq_ok]
    simp only [mapError_eq_ok, pure, Except.pure, Except.ok.injEq]
    exact exists_congr fun refs => and_congr_right fun _ => eq_comm
  · rw [← hrefers]
    exact (references_iff_splits a.pool a.code hcode).1 refs

/-- A method that reads a field on line 10 and calls a method on line 12. -/
def loggerMain : Assembly where
  requests := [.member .field "android/os/Build" "SERIAL" "Ljava/lang/String;",
    .member .method "com/app/Logger" "debug" "(Ljava/lang/String;)V"]
  thisClass := "com/app/Main"
  name := "onCreate"
  descriptor := "(Landroid/os/Bundle;)V"
  code := [0xB2, 0, 6, 0xB8, 0, 12, 0xB1]
  lines := [(3, 12), (0, 10)]

theorem ofBytes_loggerMain :
    loggerMain.Fits ∧ JvmClass.ofBytes loggerMain.bytes =
      .ok ⟨"com/app/Main", [⟨"onCreate", "(Landroid/os/Bundle;)V", [⟨0, 10⟩, ⟨3, 12⟩],
        [⟨"android/os/Build", "SERIAL", "Ljava/lang/String;", .getstatic, 0⟩,
          ⟨"com/app/Logger", "debug", "(Ljava/lang/String;)V", .invokestatic, 3⟩]⟩]⟩ := by
  have hfits : loggerMain.Fits :=
    ⟨by decide, by decide, by decide, by decide, by decide, by decide, by decide⟩
  refine ⟨hfits, ((ofBytes_assembled loggerMain hfits).1 _).mpr
    ⟨[⟨"android/os/Build", "SERIAL", "Ljava/lang/String;", .getstatic, 0⟩,
      ⟨"com/app/Logger", "debug", "(Ljava/lang/String;)V", .invokestatic, 3⟩], ?_, ?_⟩⟩
  · decide +kernel
  · simp [loggerMain, lineOf, List.mergeSort]

end MemberAudit.ClassFile
