/-
Class files as an assembler writes them: the entries of the constant pool as they are asked
for, each under the next number, then one class with one method, its code and its lines.

What requests add to the pool is told by the requests alone (`run_requests`), and a number
names a member exactly if it was given to a request for this member (`names_iff`).
-/
import Mathlib.Data.List.Basic
import MemberAudit.Proofs.ClassFile.CodeSplit
import MemberAudit.Proofs.ClassFile.Reads

namespace MemberAudit.ClassFile

/-! ## Entries of the pool -/

namespace Entry

/-- An entry as it is written. -/
def bytes : Entry → Bytes
  | utf8 text => 1 :: (twoBytes text.utf8ByteSize ++ text.toUTF8.data.toList)
  | classInfo name => 7 :: twoBytes name
  | fieldref owner nameType => 9 :: (twoBytes owner ++ twoBytes nameType)
  | methodref owner nameType => 10 :: (twoBytes owner ++ twoBytes nameType)
  | interfaceMethodref owner nameType => 11 :: (twoBytes owner ++ twoBytes nameType)
  | nameAndType name descriptor => 12 :: (twoBytes name ++ twoBytes descriptor)
  | empty | other => []

/-- An entry that can be written, with no number above a bound. -/
def Fits (bound : Nat) : Entry → Prop
  | utf8 text => text.utf8ByteSize < 65536
  | classInfo name => name ≤ bound
  | fieldref a b | methodref a b | interfaceMethodref a b | nameAndType a b => a ≤ bound ∧ b ≤ bound
  | empty | other => False

theorem Fits.mono {m n : Nat} {e : Entry} (h : e.Fits m) (hle : m ≤ n) : e.Fits n := by
  cases e <;> simp only [Fits] at h ⊢ <;> omega

end Entry

/-- A pool of entries, which are numbered from one. -/
def poolOf (es : List Entry) : Pool :=
  (.empty :: es).toArray

/-! ## The assembler -/

/-- What is asked of the pool. -/
inductive Request where
  | text (text : String)
  | classInfo (name : String)
  | member (kind : MemberSort) (owner name descriptor : String)
  deriving DecidableEq, Repr

/-- The entries asked for so far. Each step adds entries to the end and gives the number
of the last one. -/
abbrev Assembler := StateM (List Entry)

namespace Assembler

def push (e : Entry) : Assembler Nat := do
  modify (· ++ [e])
  return (← get).length

def text (text : String) : Assembler Nat :=
  push (.utf8 text)

def classInfo (name : String) : Assembler Nat := do
  push (.classInfo (← text name))

def member (kind : MemberSort) (owner name descriptor : String) : Assembler Nat := do
  let owner ← classInfo owner
  let name ← text name
  let descriptor ← text descriptor
  let nameAndType ← push (.nameAndType name descriptor)
  match kind with
  | .field => push (.fieldref owner nameAndType)
  | .method => push (.methodref owner nameAndType)

def request : Request → Assembler Nat
  | .text s => text s
  | .classInfo name => classInfo name
  | .member kind owner name descriptor => member kind owner name descriptor

end Assembler

/-- The lines of a method, as a table from which they are read. -/
def lineBytes (lines : List (UInt16 × UInt16)) : Bytes :=
  twoBytes lines.length ++
    lines.flatMap fun (startPc, line) => twoBytes startPc.toNat ++ twoBytes line.toNat

/-- An attribute, with its length in front. -/
def attributeBytes (name : Nat) (body : Bytes) : Bytes :=
  twoBytes name ++ (fourBytes body.length ++ body)

/-- What a code attribute holds: the stack and the locals, the code, no handlers, and the
lines as its one attribute. -/
def codeBytes (linesName : Nat) (code : Bytes) (lines : List (UInt16 × UInt16)) : Bytes :=
  twoBytes 1 ++ twoBytes 1 ++ (fourBytes code.length ++ (code ++ (twoBytes 0 ++
    (twoBytes 1 ++ attributeBytes linesName (lineBytes lines)))))

/-- A public class without interfaces, fields and attributes, and with one public static
method, which has a code. -/
def classBytes (pool : List Entry) (thisClass superClass name descriptor : Nat) (method : Bytes) :
    Bytes :=
  fourBytes 0xCAFEBABE ++ (twoBytes 0 ++ twoBytes 52 ++
    (twoBytes (pool.length + 1) ++ pool.flatMap Entry.bytes ++ (twoBytes 0x21 ++
      (twoBytes thisClass ++ (twoBytes superClass ++ (twoBytes 0 ++ (twoBytes 0 ++ (twoBytes 1 ++
        ((twoBytes 9 ++ (twoBytes name ++ (twoBytes descriptor ++ (twoBytes 1 ++
          method)))) ++ twoBytes 0)))))))))

/-- What a class with one method is assembled from. -/
structure Assembly where
  /-- What is asked of the pool before. -/
  requests : List Request
  thisClass : String
  name : String
  descriptor : String
  code : Bytes
  /-- The first instructions of lines. -/
  lines : List (UInt16 × UInt16)

namespace Assembly

/-- The requests that the class itself makes. -/
def build (a : Assembly) : Assembler Bytes := do
  let thisClass ← Assembler.classInfo a.thisClass
  let superClass ← Assembler.classInfo "java/lang/Object"
  let name ← Assembler.text a.name
  let descriptor ← Assembler.text a.descriptor
  let codeName ← Assembler.text "Code"
  let linesName ← Assembler.text "LineNumberTable"
  return classBytes (← get) thisClass superClass name descriptor
    (attributeBytes codeName (codeBytes linesName a.code a.lines))

/-- The numbers that the requests are given. -/
def numbers (a : Assembly) : List Nat :=
  ((a.requests.mapM Assembler.request).run []).1

def entries (a : Assembly) : List Entry :=
  ((a.requests.mapM Assembler.request *> a.build).run []).2

/-- The class file. -/
def bytes (a : Assembly) : Bytes :=
  ((a.requests.mapM Assembler.request *> a.build).run []).1

end Assembly

/-! ## What the assembler adds -/

/-- The entries of a request, of which the first is numbered above `n`. -/
def Request.entries (n : Nat) : Request → List Entry
  | .text s => [.utf8 s]
  | .classInfo name => [.utf8 name, .classInfo (n + 1)]
  | .member kind owner name descriptor =>
    [.utf8 owner, .classInfo (n + 1), .utf8 name, .utf8 descriptor, .nameAndType (n + 3) (n + 4),
      match kind with
      | .field => .fieldref (n + 2) (n + 5)
      | .method => .methodref (n + 2) (n + 5)]

def entriesFrom (n : Nat) : List Request → List Entry
  | [] => []
  | r :: rs => r.entries n ++ entriesFrom (n + (r.entries n).length) rs

def numbersFrom (n : Nat) : List Request → List Nat
  | [] => []
  | r :: rs => (n + (r.entries n).length) :: numbersFrom (n + (r.entries n).length) rs

namespace Assembler

variable {α β : Type}

theorem run_bind (x : Assembler α) (f : α → Assembler β) (es : List Entry) :
    (x >>= f).run es = (f (x.run es).1).run (x.run es).2 :=
  rfl

theorem run_pure (a : α) (es : List Entry) : (pure a : Assembler α).run es = (a, es) :=
  rfl

theorem run_push (e : Entry) (es : List Entry) : (push e).run es = (es.length + 1, es ++ [e]) := by
  change ((es ++ [e]).length, es ++ [e]) = _
  rw [List.length_append, List.length_singleton]

theorem run_classInfo (name : String) (es : List Entry) :
    (classInfo name).run es =
      (es.length + 2, es ++ [.utf8 name, .classInfo (es.length + 1)]) := by
  simp only [classInfo, text, run_bind, run_push, List.append_assoc, List.length_append,
    List.length_singleton, List.singleton_append]

theorem run_request (r : Request) (es : List Entry) :
    (request r).run es = (es.length + (r.entries es.length).length, es ++ r.entries es.length) := by
  cases r with
  | text s => exact run_push (.utf8 s) es
  | classInfo name => exact run_classInfo name es
  | member kind owner name descriptor =>
    cases kind <;>
      simp [request, member, run_classInfo, text, Request.entries, run_bind, run_push, -StateT.run_bind]

theorem run_requests (rs : List Request) (es : List Entry) :
    (rs.mapM request).run es = (numbersFrom es.length rs, es ++ entriesFrom es.length rs) := by
  induction rs generalizing es with
  | nil => rw [List.mapM_nil, run_pure, numbersFrom, entriesFrom, List.append_nil]
  | cons r rs ih =>
    rw [List.mapM_cons, run_bind, run_bind, run_pure, run_request, ih, numbersFrom, entriesFrom,
      List.length_append, List.append_assoc]

end Assembler

/-- The requests of a class itself. -/
def Assembly.ownRequests (a : Assembly) : List Request :=
  [.classInfo a.thisClass, .classInfo "java/lang/Object", .text a.name, .text a.descriptor,
    .text "Code", .text "LineNumberTable"]

theorem Assembly.run_build (a : Assembly) (es : List Entry) :
    a.build.run es =
      (classBytes (es ++ entriesFrom es.length a.ownRequests) (es.length + 2) (es.length + 4)
        (es.length + 5) (es.length + 6)
        (attributeBytes (es.length + 7) (codeBytes (es.length + 8) a.code a.lines)),
        es ++ entriesFrom es.length a.ownRequests) := by
  simp [build, Assembler.run_classInfo, Assembler.text, ownRequests, entriesFrom, Request.entries,
    Assembler.run_bind, Assembler.run_push, -StateT.run_bind]
  rfl

/-! ## The pool of a class -/

/-- The texts that a request adds to the pool. -/
def Request.texts : Request → List String
  | .text s => [s]
  | .classInfo name => [name]
  | .member _ owner name descriptor => [owner, name, descriptor]

theorem Request.fits_entries {r : Request} (h : ∀ s ∈ r.texts, s.utf8ByteSize < 65536) (n : Nat) :
    ∀ e ∈ r.entries n, e.Fits (n + (r.entries n).length) := by
  cases r with
  | text s => simpa [Request.entries, Entry.Fits, Request.texts] using h
  | classInfo name => simpa [Request.entries, Entry.Fits, Request.texts] using h
  | member kind owner name descriptor =>
    cases kind <;> simpa [Request.entries, Entry.Fits, Request.texts] using h

theorem fits_entriesFrom {rs : List Request} (h : ∀ r ∈ rs, ∀ s ∈ r.texts, s.utf8ByteSize < 65536)
    (n : Nat) : ∀ e ∈ entriesFrom n rs, e.Fits (n + (entriesFrom n rs).length) := by
  induction rs generalizing n with
  | nil => nofun
  | cons r rs ih =>
    obtain ⟨hr, hrs⟩ := List.forall_mem_cons.mp h
    rw [entriesFrom, List.length_append, ← Nat.add_assoc]
    refine List.forall_mem_append.mpr ⟨fun e he => ?_, ih hrs _⟩
    exact (Request.fits_entries hr n e he).mono (Nat.le_add_right _ _)

theorem entriesFrom_append (n : Nat) (rs ss : List Request) :
    entriesFrom n (rs ++ ss) = entriesFrom n rs ++ entriesFrom (n + (entriesFrom n rs).length) ss := by
  induction rs generalizing n with
  | nil => rfl
  | cons r rs ih =>
    rw [List.cons_append, entriesFrom, entriesFrom, ih, List.append_assoc, List.length_append,
      Nat.add_assoc]

theorem numbersFrom_append (n : Nat) (rs ss : List Request) :
    numbersFrom n (rs ++ ss) = numbersFrom n rs ++ numbersFrom (n + (entriesFrom n rs).length) ss := by
  induction rs generalizing n with
  | nil => rfl
  | cons r rs ih =>
    rw [List.cons_append, numbersFrom, numbersFrom, entriesFrom, ih, List.cons_append,
      List.length_append, Nat.add_assoc]

theorem length_numbersFrom (n : Nat) (rs : List Request) : (numbersFrom n rs).length = rs.length := by
  induction rs generalizing n with
  | nil => rfl
  | cons r rs ih => rw [numbersFrom, List.length_cons, ih, List.length_cons]

theorem getElem?_poolOf (es : List Entry) (i : Nat) : (poolOf es)[i + 1]? = es[i]? := by
  simp [poolOf]

/-- A pool that begins with the entries of some requests, from one of them on. -/
theorem getElem?_request (before : List Request) (r : Request) (after : List Request) {i : Nat}
    (hi : i < (r.entries (entriesFrom 0 before).length).length) :
    (poolOf (entriesFrom 0 (before ++ r :: after)))[(entriesFrom 0 before).length + i + 1]? =
      (r.entries (entriesFrom 0 before).length)[i]? := by
  rw [getElem?_poolOf, entriesFrom_append, List.getElem?_append_right (Nat.le_add_right _ _),
    Nat.add_sub_cancel_left, entriesFrom, Nat.zero_add, List.getElem?_append_left hi]

/-- An entry is one of a request. -/
theorem exists_request {rs : List Request} {n k : Nat} {e : Entry} (h : (entriesFrom n rs)[k]? = some e) :
    ∃ before r after i, rs = before ++ r :: after ∧ k = (entriesFrom n before).length + i ∧
      (r.entries (n + (entriesFrom n before).length))[i]? = some e := by
  induction rs generalizing n k with
  | nil => cases h
  | cons r rs ih =>
    rw [entriesFrom] at h
    by_cases hk : k < (r.entries n).length
    · rw [List.getElem?_append_left hk] at h
      exact ⟨[], r, rs, k, rfl, (Nat.zero_add k).symm, h⟩
    · rw [List.getElem?_append_right (by omega)] at h
      obtain ⟨before, r', after, i, rfl, hi, he⟩ := ih h
      refine ⟨r :: before, r', after, i, rfl, ?_, ?_⟩
      · rw [entriesFrom, List.length_append]
        omega
      · rw [entriesFrom, List.length_append, ← Nat.add_assoc]
        exact he

/-- A member entry is the last one of a request for this member. -/
theorem member_of_entry {r : Request} {kind : MemberSort} {n i ownerIndex nameAndType : Nat} {e : Entry}
    (h : (r.entries n)[i]? = some e) (he : IsMemberEntry ownerIndex nameAndType kind e) :
    ∃ owner name descriptor, r = .member kind owner name descriptor ∧ i = 5 ∧ ownerIndex = n + 2 ∧
      nameAndType = n + 5 := by
  have hmem := List.mem_of_getElem? h
  cases r with
  | text s =>
    obtain rfl := List.mem_singleton.mp hmem
    cases kind <;> simp [IsMemberEntry] at he
  | classInfo name =>
    simp only [Request.entries, List.mem_cons, List.not_mem_nil, or_false] at hmem
    rcases hmem with rfl | rfl <;> cases kind <;> simp [IsMemberEntry] at he
  | member kind' owner name descriptor =>
    have hi : i = 5 := by
      rcases i with _ | _ | _ | _ | _ | _ | i <;>
        simp only [Request.entries, List.getElem?_cons_zero, List.getElem?_cons_succ, List.getElem?_nil,
          Option.some.injEq, reduceCtorEq] at h <;> first | rfl | (subst h; cases kind <;> simp [IsMemberEntry] at he)
    subst hi
    obtain rfl := Option.some.inj h
    cases kind <;> cases kind' <;> simp [IsMemberEntry] at he
    all_goals exact ⟨owner, name, descriptor, rfl, rfl, he.1.symm, he.2.symm⟩

theorem mem_zip_numbersFrom {rs : List Request} {n : Nat} {r : Request} {index : Nat} :
    (r, index) ∈ rs.zip (numbersFrom n rs) ↔
      ∃ before after, rs = before ++ r :: after ∧
        index = n + (entriesFrom n (before ++ [r])).length := by
  induction rs generalizing n with
  | nil => simp
  | cons first rs ih =>
    rw [numbersFrom, List.zip_cons_cons, List.mem_cons, ih]
    constructor
    · rintro (hfirst | ⟨before, after, rfl, rfl⟩)
      · obtain ⟨rfl, rfl⟩ := Prod.mk.inj hfirst
        exact ⟨[], rs, rfl, by simp [entriesFrom]⟩
      · exact ⟨first :: before, after, rfl, by simp [entriesFrom, Nat.add_assoc]⟩
    · rintro ⟨before, after, hrs, rfl⟩
      cases before with
      | nil =>
        obtain ⟨rfl, rfl⟩ := List.cons.inj hrs
        exact .inl (by simp [entriesFrom])
      | cons _ before =>
        obtain ⟨rfl, rfl⟩ := List.cons.inj hrs
        exact .inr ⟨before, after, rfl, by simp [entriesFrom, Nat.add_assoc]⟩

theorem names_request (before after : List Request) (kind : MemberSort) (owner name descriptor : String) :
    Names (poolOf (entriesFrom 0 (before ++ .member kind owner name descriptor :: after))) kind
      ((entriesFrom 0 before).length + 6) owner name descriptor := by
  have hpool (i : Nat) (hi : i < 6) :
      (poolOf (entriesFrom 0 (before ++ .member kind owner name descriptor :: after)))[
        (entriesFrom 0 before).length + i + 1]? =
        ((Request.member kind owner name descriptor).entries (entriesFrom 0 before).length)[i]? :=
    getElem?_request before _ after hi
  have hentry : ∃ entry, (poolOf (entriesFrom 0 (before ++ .member kind owner name descriptor :: after)))[
      (entriesFrom 0 before).length + 6]? = some entry ∧
        IsMemberEntry ((entriesFrom 0 before).length + 2) ((entriesFrom 0 before).length + 5) kind entry := by
    cases kind with
    | field => exact ⟨_, hpool 5 (by decide), rfl⟩
    | method => exact ⟨_, hpool 5 (by decide), .inl rfl⟩
  obtain ⟨entry, hentry, hmember⟩ := hentry
  exact ⟨entry, _, _, _, _, _, hentry, hmember, hpool 1 (by decide), hpool 0 (by decide),
    hpool 4 (by decide), hpool 2 (by decide), hpool 3 (by decide)⟩

theorem Names.unique {pool : Pool} {kind : MemberSort} {index : Nat} {o o' n n' d d' : String}
    (h : Names pool kind index o n d) (h' : Names pool kind index o' n' d') : o = o' ∧ n = n' ∧ d = d' := by
  obtain ⟨op, rfl⟩ : ∃ op : MemberOp, op.kind = kind := by
    cases kind with
    | field => exact ⟨.getfield, rfl⟩
    | method => exact ⟨.invokestatic, rfl⟩
  have href : pool.reference op 0 index = .ok ⟨o, n, d, op, 0⟩ :=
    Pool.reference_eq_ok.mpr ⟨o, n, d, h, rfl⟩
  rw [Pool.reference_eq_ok.mpr ⟨o', n', d', h', rfl⟩] at href
  simpa [eq_comm] using href

/-- **A number names a member exactly if it was given to a request for this member.** -/
theorem names_iff {rs : List Request} {kind : MemberSort} {index : Nat} {owner name descriptor : String} :
    Names (poolOf (entriesFrom 0 rs)) kind index owner name descriptor ↔
      (.member kind owner name descriptor, index) ∈ rs.zip (numbersFrom 0 rs) := by
  rw [mem_zip_numbersFrom]
  constructor
  · intro hnames
    obtain ⟨entry, ownerIndex, nameAndType, -, -, -, hentry, hmember, -⟩ := id hnames
    obtain ⟨k, rfl⟩ : ∃ k, index = k + 1 := by
      cases index with
      | zero =>
        simp only [poolOf, List.getElem?_toArray, List.getElem?_cons_zero, Option.some.injEq] at hentry
        subst hentry
        cases kind <;> simp [IsMemberEntry] at hmember
      | succ k => exact ⟨k, rfl⟩
    rw [getElem?_poolOf] at hentry
    obtain ⟨before, r, after, i, rfl, rfl, hi⟩ := exists_request hentry
    obtain ⟨o, n, d, rfl, rfl, -, -⟩ := member_of_entry hi hmember
    obtain ⟨rfl, rfl, rfl⟩ := hnames.unique (names_request before after kind o n d)
    exact ⟨before, after, rfl, by simp [entriesFrom_append, entriesFrom, Request.entries]⟩
  · rintro ⟨before, after, rfl, rfl⟩
    have hindex : 0 + (entriesFrom 0 (before ++ [.member kind owner name descriptor])).length =
        (entriesFrom 0 before).length + 6 := by
      simp [entriesFrom_append, entriesFrom, Request.entries]
    rw [hindex]
    exact names_request before after kind owner name descriptor

/-! ## Classes that were assembled -/

namespace Assembly

def pool (a : Assembly) : Pool :=
  poolOf a.entries

theorem numbers_eq (a : Assembly) : a.numbers = numbersFrom 0 a.requests :=
  congrArg Prod.fst (Assembler.run_requests a.requests [])

/-- The number of entries before those of the class itself. -/
def before (a : Assembly) : Nat :=
  (entriesFrom 0 a.requests).length

theorem run_eq (a : Assembly) :
    (a.requests.mapM Assembler.request *> a.build).run [] =
      a.build.run (entriesFrom 0 a.requests) := by
  have hrun := Assembler.run_requests a.requests []
  change a.build.run ((a.requests.mapM Assembler.request).run []).2 = _
  rw [hrun]
  rfl

theorem entries_eq (a : Assembly) : a.entries = entriesFrom 0 (a.requests ++ a.ownRequests) := by
  rw [entries, run_eq, run_build, entriesFrom_append, Nat.zero_add]

theorem bytes_eq (a : Assembly) :
    a.bytes = classBytes a.entries (a.before + 2) (a.before + 4) (a.before + 5) (a.before + 6)
      (attributeBytes (a.before + 7) (codeBytes (a.before + 8) a.code a.lines)) := by
  rw [bytes, entries, run_eq, run_build]
  rfl

theorem getElem?_own (a : Assembly) (i : Nat) :
    a.pool[a.before + i + 1]? = (entriesFrom a.before a.ownRequests)[i]? := by
  rw [pool, entries_eq, getElem?_poolOf, entriesFrom_append, Nat.zero_add, before,
    List.getElem?_append_right (Nat.le_add_right _ _), Nat.add_sub_cancel_left]

theorem names_pool_iff (a : Assembly) {kind : MemberSort} {index : Nat} {owner name descriptor : String} :
    Names a.pool kind index owner name descriptor ↔
      (.member kind owner name descriptor, index) ∈ a.requests.zip a.numbers := by
  rw [pool, entries_eq, names_iff, numbersFrom_append, numbers_eq,
    List.zip_append (length_numbersFrom 0 a.requests).symm, List.mem_append, or_iff_left]
  intro hown
  have hmem := (List.of_mem_zip hown).1
  simp [ownRequests] at hmem

end Assembly
end MemberAudit.ClassFile
