/-
The walk over a method's code, against the instruction set. `Splits` says that
the bytes of a code are instructions one after the other, and `Refers` which
member an instruction names through the constant pool.

`references_iff_splits`: the walk returns references exactly for a code that
splits into instructions whose members are all in the pool, and returns those of
the member instructions in their order; no code splits in two ways.

The length bound of the code is what keeps the table of a switch countable: a
`tableswitch` over 2^31 values or more would be longer than the code.
-/
import MemberAudit.Proofs.ClassFile.InstructionSet
import MemberAudit.Proofs.Results

namespace MemberAudit.ClassFile

/-- A code from an offset on as instructions, each with its offset. -/
inductive Splits : Nat → Bytes → List (Nat × Instruction) → Prop
  | nil (offset : Nat) : Splits offset [] []
  | cons {offset : Nat} {i : Instruction} {rest : Bytes} {later : List (Nat × Instruction)}
      (wellFormed : i.WellFormed offset) (splits : Splits (offset + i.bytes.length) rest later) :
      Splits offset (i.bytes ++ rest) ((offset, i) :: later)

/-- The entry of the pool that a member instruction may ask for. -/
def IsMemberEntry (owner nameAndType : Nat) : MemberSort → Entry → Prop
  | .method, entry => entry = .methodref owner nameAndType ∨
      entry = .interfaceMethodref owner nameAndType
  | .field, entry => entry = .fieldref owner nameAndType

/-- The member of a number in the pool, with its names resolved. -/
def Names (pool : Pool) (kind : MemberSort) (index : Nat) (owner name descriptor : String) : Prop :=
  ∃ entry ownerIndex nameAndType ownerName nameIndex descriptorIndex,
    pool[index]? = some entry ∧ IsMemberEntry ownerIndex nameAndType kind entry ∧
    pool[ownerIndex]? = some (.classInfo ownerName) ∧ pool[ownerName]? = some (.utf8 owner) ∧
    pool[nameAndType]? = some (.nameAndType nameIndex descriptorIndex) ∧
    pool[nameIndex]? = some (.utf8 name) ∧ pool[descriptorIndex]? = some (.utf8 descriptor)

namespace MemberOp

def opcode : MemberOp → UInt8
  | getstatic => 0xB2
  | putstatic => 0xB3
  | getfield => 0xB4
  | putfield => 0xB5
  | invokevirtual => 0xB6
  | invokespecial => 0xB7
  | invokestatic => 0xB8
  | invokeinterface => 0xB9

theorem ofOpcode?_eq_some {opcode : UInt8} {op : MemberOp} :
    ofOpcode? opcode = some op ↔ opcode = op.opcode := by
  constructor
  · intro h
    have key : ∀ opcode, ∀ op ∈ all, ofOpcode? opcode = some op → opcode = op.opcode :=
      forall_opcode (by decide +kernel)
    exact key opcode op (by cases op <;> decide) h
  · rintro rfl
    cases op <;> rfl

theorem opcode_inj {op op' : MemberOp} (h : op.opcode = op'.opcode) : op = op' := by
  have := ofOpcode?_eq_some.mpr h
  rw [ofOpcode?_eq_some.mpr rfl] at this
  exact Option.some.inj this

end MemberOp

/-- Whether an instruction uses a member. -/
def Instruction.usesMember (i : Instruction) : Bool :=
  (MemberOp.all.map MemberOp.opcode).contains i.opcode

/-- The reference of an instruction: it names, by the two bytes after the opcode,
the member that the reference has, and stands where the reference says. -/
def Refers (pool : Pool) (place : Nat × Instruction) (r : Reference) : Prop :=
  ∃ high low more, place = (r.offset, .plain r.op.opcode (high :: low :: more)) ∧
    Names pool r.op.kind (high.toNat * 256 + low.toNat) r.owner r.name r.descriptor

/-! ## Members in the pool -/

namespace Pool

theorem find_eq_ok {α : Type} {pool : Pool} {expected : Expected} {select : Entry → Option α}
    {index : Nat} {a : α} :
    pool.find expected select index = .ok a ↔
      ∃ entry, pool[index]? = some entry ∧ select entry = some a := by
  unfold find
  split
  · rename_i h; simp [h]
  · rename_i entry h
    simp only [h, Option.some.injEq, exists_eq_left']
    split
    · rename_i hs; simp [hs]
    · rename_i hs; simp [hs]

theorem utf8_eq_ok {pool : Pool} {index : Nat} {text : String} :
    pool.utf8 index = .ok text ↔ pool[index]? = some (.utf8 text) := by
  rw [utf8, find_eq_ok]
  constructor
  · intro hex
    obtain ⟨entry, he, hs⟩ := hex
    cases entry <;> simp only [Option.some.injEq, reduceCtorEq] at hs
    rw [he, hs]
  · intro h
    exact ⟨_, h, rfl⟩

theorem className_eq_ok {pool : Pool} {index : Nat} {name : String} :
    pool.className index = .ok name ↔
      ∃ n, pool[index]? = some (.classInfo n) ∧ pool[n]? = some (.utf8 name) := by
  rw [className, bind_eq_ok]
  simp only [find_eq_ok, utf8_eq_ok]
  constructor
  · intro hex
    obtain ⟨n, ⟨entry, he, hs⟩, hn⟩ := hex
    cases entry <;> simp only [Option.some.injEq, reduceCtorEq] at hs
    exact ⟨n, by rw [he, hs], hn⟩
  · intro hex
    obtain ⟨n, hc, hn⟩ := hex
    exact ⟨n, ⟨_, hc, rfl⟩, hn⟩

theorem nameAndType_eq_ok {pool : Pool} {index name descriptor : Nat} :
    pool.nameAndType index = .ok (name, descriptor) ↔
      pool[index]? = some (.nameAndType name descriptor) := by
  rw [nameAndType, find_eq_ok]
  constructor
  · intro hex
    obtain ⟨entry, he, hs⟩ := hex
    cases entry <;> simp only [Option.some.injEq, Prod.mk.injEq, reduceCtorEq] at hs
    rw [he, hs.1, hs.2]
  · intro h
    exact ⟨_, h, rfl⟩

theorem memberEntry_eq_ok {pool : Pool} {kind : MemberSort} {index owner nameAndType : Nat} :
    pool.memberEntry kind index = .ok (owner, nameAndType) ↔
      ∃ entry, pool[index]? = some entry ∧ IsMemberEntry owner nameAndType kind entry := by
  rw [memberEntry, find_eq_ok]
  cases kind with
  | method =>
    constructor
    · intro hex
      obtain ⟨entry, he, hs⟩ := hex
      cases entry <;> simp only [Option.some.injEq, Prod.mk.injEq, reduceCtorEq] at hs
      case methodref => exact ⟨_, he, .inl (by rw [hs.1, hs.2])⟩
      case interfaceMethodref => exact ⟨_, he, .inr (by rw [hs.1, hs.2])⟩
    · rintro ⟨entry, he, rfl | rfl⟩
      · exact ⟨_, he, rfl⟩
      · exact ⟨_, he, rfl⟩
  | field =>
    constructor
    · intro hex
      obtain ⟨entry, he, hs⟩ := hex
      cases entry <;> simp only [Option.some.injEq, Prod.mk.injEq, reduceCtorEq] at hs
      exact ⟨_, he, by rw [hs.1, hs.2]; rfl⟩
    · intro hex
      obtain ⟨entry, he, rfl⟩ := hex
      exact ⟨_, he, rfl⟩

theorem reference_eq_ok {pool : Pool} {op : MemberOp} {offset index : Nat} {r : Reference} :
    pool.reference op offset index = .ok r ↔
      ∃ owner name descriptor, Names pool op.kind index owner name descriptor ∧
        r = ⟨owner, name, descriptor, op, offset⟩ := by
  simp only [reference, bind_eq_ok, mapError_eq_ok, Prod.exists, memberEntry_eq_ok,
    className_eq_ok, nameAndType_eq_ok, utf8_eq_ok]
  constructor
  · rintro ⟨ownerIndex, nameAndType, ⟨entry, he, hentry⟩, owner, ⟨ownerName, ho, hn⟩, nameIndex,
      descriptorIndex, hnt, name, hname, descriptor, hdescriptor, hr⟩
    simp only [pure, Except.pure, Except.ok.injEq] at hr
    exact ⟨owner, name, descriptor, ⟨entry, ownerIndex, nameAndType, ownerName, nameIndex,
      descriptorIndex, he, hentry, ho, hn, hnt, hname, hdescriptor⟩, hr.symm⟩
  · rintro ⟨owner, name, descriptor, ⟨entry, ownerIndex, nameAndType, ownerName, nameIndex,
      descriptorIndex, he, hentry, ho, hn, hnt, hname, hdescriptor⟩, rfl⟩
    exact ⟨ownerIndex, nameAndType, ⟨entry, he, hentry⟩, owner, ⟨ownerName, ho, hn⟩, nameIndex,
      descriptorIndex, hnt, name, hname, descriptor, hdescriptor, rfl⟩

end Pool

/-! ## Lengths -/

theorem operand_append (before rest : Bytes) (n : Int32) :
    operand (before ++ (wordBytes n ++ rest)) before.length = .ok n.toInt := by
  obtain ⟨a, b, c, d, hbytes, hvalue⟩ := wordBytes_eq n
  rw [operand, List.drop_left, hbytes, ← hvalue]
  rfl

theorem length_of_operand {code : Bytes} {position : Nat} {n : Int}
    (h : operand code position = .ok n) : position + 4 ≤ code.length := by
  unfold operand at h
  split at h
  · rename_i a b c d rest hdrop
    have := congrArg List.length hdrop
    simp only [List.length_drop, List.length_cons] at this
    omega
  · cases h

/-- The second word after the padding of a switch. -/
theorem operand_second {opcode : UInt8} {padding rest : Bytes} {offset : Nat} (m n : Int32)
    (h : padding.length = switchPadding offset) :
    operand (opcode :: (padding ++ (wordBytes m ++ (wordBytes n ++ rest))))
      (1 + switchPadding offset + 4) = .ok n.toInt := by
  have := operand_append (opcode :: (padding ++ wordBytes m)) rest n
  simpa [h, Nat.add_comm, Nat.add_left_comm] using this

/-- The third word after the padding of a switch. -/
theorem operand_third {opcode : UInt8} {padding rest : Bytes} {offset : Nat} (l m n : Int32)
    (h : padding.length = switchPadding offset) :
    operand (opcode :: (padding ++ (wordBytes l ++ (wordBytes m ++ (wordBytes n ++ rest)))))
      (1 + switchPadding offset + 8) = .ok n.toInt := by
  have := operand_append (opcode :: (padding ++ (wordBytes l ++ wordBytes m))) rest n
  simpa [h, Nat.add_comm, Nat.add_left_comm] using this

/-- The length found for an instruction is that of its bytes, whatever follows. -/
theorem instructionLength_bytes {i : Instruction} {offset : Nat} (rest : Bytes)
    (h : i.WellFormed offset) (hlt : i.bytes.length < 2 ^ 32) :
    instructionLength offset i.opcode (i.bytes ++ rest) = .ok i.bytes.length := by
  unfold instructionLength
  rw [Instruction.extent_opcode h]
  cases i with
  | plain opcode operands => rfl
  | tableswitch padding default low high targets =>
    obtain ⟨hp, hp', hn⟩ := h
    have hpad := Instruction.length_padding hp hp'
    simp only [Instruction.bytes, Instruction.operandBytes, Instruction.opcode, List.length_cons,
      List.length_append, length_wordBytes, length_flatMap_wordBytes] at hlt ⊢
    simp only [List.cons_append, List.append_assoc]
    rw [operand_second default low hpad, operand_third default low high hpad]
    simp only [bind, Except.bind]
    rw [if_pos (by omega)]
    congr 1
    omega
  | lookupswitch padding default count pairs =>
    obtain ⟨hp, hp', hn⟩ := h
    have hpad := Instruction.length_padding hp hp'
    simp only [Instruction.bytes, Instruction.operandBytes, Instruction.opcode, List.length_cons,
      List.length_append, length_wordBytes, length_flatMap_wordPairs, List.cons_append,
      List.append_assoc]
    rw [operand_second default count hpad]
    simp only [bind, Except.bind]
    rw [if_neg (by omega)]
    congr 1
    omega
  | wide opcode operands =>
    simp only [Instruction.WellFormed] at h
    simp only [Instruction.bytes, Instruction.operandBytes, Instruction.opcode, List.cons_append,
      List.length_cons]
    by_cases hop : opcode = 0x84
    · subst hop; simp [h]
    · rw [if_neg hop] at h
      simp [h]

/-- A code that begins with an instruction which may stand at the offset. -/
def BeginsWithInstruction (offset : Nat) (code : Bytes) : Prop :=
  ∃ (i : Instruction) (rest : Bytes), i.WellFormed offset ∧ code = i.bytes ++ rest

theorem begins_plain {opcode : UInt8} {operands : Bytes} {offset count : Nat}
    (htakes : takesOperands opcode count = true) (hle : count ≤ operands.length) :
    BeginsWithInstruction offset (opcode :: operands) := by
  refine ⟨.plain opcode (operands.take count), operands.drop count, ?_, ?_⟩
  · simpa [Instruction.WellFormed, Nat.min_eq_left hle] using htakes
  · simp [Instruction.bytes, Instruction.opcode, Instruction.operandBytes]

/-- The operands of a switch up to the first number after its default. -/
theorem exists_switch_operands (operands : Bytes) (offset : Nat)
    (h : switchPadding offset + 8 ≤ operands.length) :
    ∃ (padding : Bytes) (default first : Int32) (rest : Bytes),
      padding.length = switchPadding offset ∧
      operands = padding ++ (wordBytes default ++ (wordBytes first ++ rest)) := by
  obtain ⟨default, s, hs⟩ := exists_word_append (operands.drop (switchPadding offset))
    (by rw [List.length_drop]; omega)
  have hlen := congrArg List.length hs
  simp only [List.length_drop, List.length_append, length_wordBytes] at hlen
  obtain ⟨first, rest, rfl⟩ := exists_word_append s (by omega)
  refine ⟨operands.take (switchPadding offset), default, first, rest, ?_, ?_⟩
  · rw [List.length_take]; omega
  · rw [← hs, List.take_append_drop]

theorem switchPadding_lt (offset : Nat) : switchPadding offset < 4 := by
  unfold switchPadding; omega

theorem switchPadding_aligns (offset : Nat) : (offset + 1 + switchPadding offset) % 4 = 0 := by
  unfold switchPadding; omega

theorem begins_tableswitch {operands : Bytes} {offset length : Nat}
    (h : instructionLength offset 0xAA (0xAA :: operands) = .ok length)
    (hle : length ≤ operands.length + 1) : BeginsWithInstruction offset (0xAA :: operands) := by
  unfold instructionLength at h
  simp only [show extent 0xAA = .tableswitch from rfl, bind_eq_ok] at h
  obtain ⟨low', hlow, high', hhigh, h⟩ := h
  have hlen := length_of_operand hhigh
  simp only [List.length_cons] at hlen
  obtain ⟨padding, default, low, s, hpad, rfl⟩ :=
    exists_switch_operands operands offset (by omega)
  simp only [List.length_append, length_wordBytes] at hle hlen
  obtain ⟨high, t, rfl⟩ := exists_word_append s (by omega)
  rw [operand_second default low hpad] at hlow
  rw [operand_third default low high hpad] at hhigh
  cases hlow
  cases hhigh
  simp only [List.length_append, length_wordBytes] at hle
  split at h
  · cases h
    obtain ⟨targets, rest, hk, rfl⟩ :=
      exists_words_append (high.toInt - low.toInt + 1).toNat t (by omega)
    refine ⟨.tableswitch padding default low high targets, rest,
      ⟨hpad ▸ switchPadding_lt offset, hpad ▸ switchPadding_aligns offset, by omega⟩, ?_⟩
    simp [Instruction.bytes, Instruction.opcode, Instruction.operandBytes]
  · cases h

theorem begins_lookupswitch {operands : Bytes} {offset length : Nat}
    (h : instructionLength offset 0xAB (0xAB :: operands) = .ok length)
    (hle : length ≤ operands.length + 1) : BeginsWithInstruction offset (0xAB :: operands) := by
  unfold instructionLength at h
  simp only [show extent 0xAB = .lookupswitch from rfl, bind_eq_ok] at h
  obtain ⟨count', hcount, h⟩ := h
  have hlen := length_of_operand hcount
  simp only [List.length_cons] at hlen
  obtain ⟨padding, default, count, s, hpad, rfl⟩ :=
    exists_switch_operands operands offset (by omega)
  rw [operand_second default count hpad] at hcount
  cases hcount
  simp only [List.length_append, length_wordBytes] at hle
  split at h
  · cases h
  · cases h
    obtain ⟨pairs, rest, hk, rfl⟩ := exists_pairs_append count.toInt.toNat s (by omega)
    refine ⟨.lookupswitch padding default count pairs, rest,
      ⟨hpad ▸ switchPadding_lt offset, hpad ▸ switchPadding_aligns offset, by omega⟩, ?_⟩
    simp [Instruction.bytes, Instruction.opcode, Instruction.operandBytes, flatMap_pairWords]

theorem begins_wide {operands : Bytes} {offset length : Nat}
    (h : instructionLength offset 0xC4 (0xC4 :: operands) = .ok length)
    (hle : length ≤ operands.length + 1) : BeginsWithInstruction offset (0xC4 :: operands) := by
  unfold instructionLength at h
  simp only [show extent 0xC4 = .wide from rfl] at h
  cases operands with
  | nil => simp at h
  | cons opcode operands =>
    simp only [List.length_cons] at hle
    have hcount : (if opcode = 0x84 then 4 else 2) ≤ operands.length := by
      by_cases hop : opcode = 0x84
      · subst hop
        simp only [Except.ok.injEq] at h
        rw [if_pos rfl]; omega
      · simp only [Except.ok.injEq] at h
        rw [if_neg hop]; omega
    refine ⟨.wide opcode (operands.take (if opcode = 0x84 then 4 else 2)),
      operands.drop (if opcode = 0x84 then 4 else 2), ?_, ?_⟩
    · rw [Instruction.WellFormed, List.length_take, Nat.min_eq_left hcount]
    · simp [Instruction.bytes, Instruction.opcode, Instruction.operandBytes]

/-- A length that fits into the code is that of an instruction. -/
theorem begins_of_instructionLength {opcode : UInt8} {operands : Bytes} {offset length : Nat}
    (h : instructionLength offset opcode (opcode :: operands) = .ok length)
    (hle : length ≤ operands.length + 1) : BeginsWithInstruction offset (opcode :: operands) := by
  rcases extent_cases opcode with ⟨count, -, hext, htakes⟩ | ⟨-, rfl⟩ | ⟨-, rfl⟩ | ⟨-, rfl⟩ | hext
  · unfold instructionLength at h
    rw [hext] at h
    cases h
    exact begins_plain htakes (by omega)
  · exact begins_tableswitch h hle
  · exact begins_lookupswitch h hle
  · exact begins_wide h hle
  · unfold instructionLength at h
    rw [hext] at h
    cases h

/-! ## The walk -/

theorem operands_of_member {op : MemberOp} {operands : Bytes} {offset : Nat}
    (h : (Instruction.plain op.opcode operands).WellFormed offset) :
    ∃ high low more, operands = high :: low :: more := by
  have hlen : operands.length = 2 ∨ operands.length = 4 := by
    have := extent_of_takesOperands h
    revert this
    cases op <;> simp only [MemberOp.opcode] <;> intro h <;>
      first
      | exact .inl (by simpa using h.symm.trans (show extent _ = .fixed 3 from rfl))
      | exact .inr (by simpa using h.symm.trans (show extent _ = .fixed 5 from rfl))
  match operands, hlen with
  | high :: low :: more, _ => exact ⟨high, low, more, rfl⟩

theorem usesMember_iff {i : Instruction} :
    i.usesMember = true ↔ ∃ op operands, i = .plain (MemberOp.opcode op) operands := by
  simp only [Instruction.usesMember, List.contains_eq_mem, decide_eq_true_eq, List.mem_map]
  constructor
  · intro hex
    obtain ⟨op, -, hop⟩ := hex
    cases i with
    | plain opcode operands => exact ⟨op, operands, by rw [hop]; rfl⟩
    | tableswitch | lookupswitch | wide => cases op <;> simp [MemberOp.opcode, Instruction.opcode] at hop
  · intro hex
    obtain ⟨op, operands, rfl⟩ := hex
    exact ⟨op, by cases op <;> decide, rfl⟩

/-- What an instruction adds to the references: one if it uses a member, else none. -/
theorem referenceAt_iff {pool : Pool} {i : Instruction} {offset : Nat} (rest : Bytes)
    (h : i.WellFormed offset) {refs : List Reference} :
    referenceAt pool offset i.opcode (i.operandBytes ++ rest) = .ok refs ↔
      List.Forall₂ (Refers pool) ([(offset, i)].filter (·.2.usesMember)) refs := by
  by_cases huse : i.usesMember = true
  · obtain ⟨op, operands, rfl⟩ := usesMember_iff.mp huse
    obtain ⟨high, low, more, rfl⟩ := operands_of_member h
    rw [List.filter_cons_of_pos (by exact huse), List.filter_nil]
    simp only [referenceAt, Instruction.opcode, Instruction.operandBytes, List.cons_append,
      MemberOp.ofOpcode?_eq_some.mpr rfl]
    constructor
    · intro href
      split at href
      · rename_i r hr
        cases href
        obtain ⟨owner, name, descriptor, hnames, rfl⟩ := Pool.reference_eq_ok.mp hr
        exact .cons ⟨high, low, more, rfl, hnames⟩ .nil
      · cases href
    · intro hrefs
      obtain ⟨r, _, ⟨high', low', more', hplace, hnames⟩, hnil, rfl⟩ :=
        List.forall₂_cons_left_iff.mp hrefs
      rw [List.forall₂_nil_left_iff.mp hnil]
      simp only [Prod.mk.injEq, Instruction.plain.injEq, List.cons.injEq] at hplace
      obtain ⟨rfl, hop, rfl, rfl, rfl⟩ := hplace
      obtain rfl := MemberOp.opcode_inj hop
      rw [Pool.reference_eq_ok.mpr ⟨_, _, _, hnames, rfl⟩]
  · rw [List.filter_cons_of_neg (by simpa using huse), List.filter_nil, List.forall₂_nil_left_iff]
    have hnone : MemberOp.ofOpcode? i.opcode = none := by
      cases hop : MemberOp.ofOpcode? i.opcode with
      | none => rfl
      | some op =>
        refine absurd ?_ huse
        simp only [Instruction.usesMember, List.contains_eq_mem, decide_eq_true_eq, List.mem_map]
        exact ⟨op, by cases op <;> decide, (MemberOp.ofOpcode?_eq_some.mp hop).symm⟩
    simp only [referenceAt, hnone, Except.ok.injEq]
    exact eq_comm

theorem referencesFrom_nil (pool : Pool) (offset : Nat) : referencesFrom pool offset [] = .ok [] := by
  rw [referencesFrom]

/-- One step of the walk. -/
theorem referencesFrom_bytes {pool : Pool} {i : Instruction} {offset : Nat} {rest : Bytes}
    (h : i.WellFormed offset) (hlt : (i.bytes ++ rest).length < 2 ^ 32) :
    referencesFrom pool offset (i.bytes ++ rest) = (do
      let here ← referenceAt pool offset i.opcode (i.operandBytes ++ rest)
      let later ← referencesFrom pool (offset + i.bytes.length) rest
      return here ++ later) := by
  rw [List.length_append] at hlt
  have hlen := instructionLength_bytes rest h (by omega)
  have hdrop : (i.bytes ++ rest).drop i.bytes.length = rest := List.drop_left
  simp only [Instruction.bytes, List.cons_append] at hlen hdrop ⊢
  rw [referencesFrom]
  split
  · rename_i fault hfault
    rw [hlen] at hfault
    cases hfault
  · rename_i length hok
    rw [hlen] at hok
    cases hok
    rw [if_neg (by simp only [List.length_append, List.length_cons]; omega), hdrop]

theorem Splits.references_iff {pool : Pool} {offset : Nat} {code : Bytes}
    {split : List (Nat × Instruction)} (h : Splits offset code split) (hlt : code.length < 2 ^ 32)
    {refs : List Reference} :
    referencesFrom pool offset code = .ok refs ↔
      List.Forall₂ (Refers pool) (split.filter (·.2.usesMember)) refs := by
  induction h generalizing refs with
  | nil offset =>
    rw [referencesFrom_nil, List.filter_nil, List.forall₂_nil_left_iff, Except.ok.injEq]
    exact eq_comm
  | @cons offset i rest later hi _ ih =>
    have hlt' : rest.length < 2 ^ 32 := by rw [List.length_append] at hlt; omega
    rw [referencesFrom_bytes hi hlt, ← List.singleton_append, List.filter_append]
    simp only [bind_eq_ok, referenceAt_iff rest hi, ih hlt', pure, Except.pure, Except.ok.injEq]
    constructor
    · intro hex
      obtain ⟨here, hhere, later, hlater, rfl⟩ := hex
      exact List.rel_append hhere hlater
    · intro hrefs
      have hhere := List.forall₂_take ([(offset, i)].filter (·.2.usesMember)).length hrefs
      have hlater := List.forall₂_drop ([(offset, i)].filter (·.2.usesMember)).length hrefs
      rw [List.take_left] at hhere
      rw [List.drop_left] at hlater
      exact ⟨_, hhere, _, hlater, List.take_append_drop _ _⟩

theorem begins_of_referencesFrom {pool : Pool} {offset : Nat} {opcode : UInt8} {operands : Bytes}
    {refs : List Reference} (h : referencesFrom pool offset (opcode :: operands) = .ok refs) :
    BeginsWithInstruction offset (opcode :: operands) := by
  rw [referencesFrom] at h
  split at h
  · cases h
  · rename_i length hlength
    split at h
    · cases h
    · exact begins_of_instructionLength hlength (by omega)

theorem exists_splits {pool : Pool} {offset : Nat} {code : Bytes} {refs : List Reference}
    (h : referencesFrom pool offset code = .ok refs) (hlt : code.length < 2 ^ 32) :
    ∃ split, Splits offset code split := by
  obtain ⟨n, hn⟩ : ∃ n, code.length ≤ n := ⟨_, Nat.le_refl _⟩
  -- on a bound of the length, for what follows an instruction is no tail of the list
  induction n generalizing offset code refs with
  | zero =>
    obtain rfl := List.eq_nil_of_length_eq_zero (Nat.le_zero.mp hn)
    exact ⟨[], .nil offset⟩
  | succ n ih =>
    cases code with
    | nil => exact ⟨[], .nil offset⟩
    | cons opcode operands =>
      obtain ⟨i, rest, hi, hcode⟩ := begins_of_referencesFrom h
      rw [hcode] at h hlt hn ⊢
      rw [referencesFrom_bytes hi hlt] at h
      obtain ⟨_, -, h⟩ := bind_eq_ok.mp h
      obtain ⟨later, hlater, -⟩ := bind_eq_ok.mp h
      have hpos := i.length_bytes_pos
      rw [List.length_append] at hn hlt
      obtain ⟨split, hsplit⟩ := ih hlater (by omega) (by omega)
      exact ⟨_, .cons hi hsplit⟩

/-- A code splits in one way at most. -/
theorem Splits.unique {offset : Nat} {code : Bytes} {s t : List (Nat × Instruction)}
    (hs : Splits offset code s) (ht : Splits offset code t) : s = t := by
  induction hs generalizing t with
  | nil offset =>
    generalize hcode : ([] : Bytes) = code at ht
    cases ht with
    | nil => rfl
    | cons => simp [Instruction.bytes] at hcode
  | @cons offset i rest later hi _ ih =>
    generalize hcode : i.bytes ++ rest = code at ht
    cases ht with
    | nil => simp [Instruction.bytes] at hcode
    | cons hj hlater =>
      obtain ⟨rfl, rfl⟩ := Instruction.bytes_inj hi hj hcode
      rw [ih hlater]

/-- **The walk accepts exactly the codes that are instructions one after the
other and whose members are in the pool**, and gives the references of the
member instructions in their order. Those instructions are the only ones the
code can be read as. -/
theorem references_iff_splits (pool : Pool) (code : Bytes) (h : code.length < 2 ^ 32) :
    (∀ refs, references pool code = .ok refs ↔
      ∃ split, Splits 0 code split ∧
        List.Forall₂ (Refers pool) (split.filter (·.2.usesMember)) refs) ∧
    ∀ s t, Splits 0 code s → Splits 0 code t → s = t := by
  refine ⟨fun refs => ⟨fun hrefs => ?_, ?_⟩, fun s t => Splits.unique⟩
  · obtain ⟨split, hsplit⟩ := exists_splits hrefs h
    exact ⟨split, hsplit, (hsplit.references_iff h).mp hrefs⟩
  · intro hex
    obtain ⟨split, hsplit, hrefs⟩ := hex
    exact (hsplit.references_iff h).mpr hrefs

/-- A pool with the static method `A.m()V` under number 6. -/
def methodPool : Pool :=
  #[.empty, .utf8 "A", .classInfo 1, .utf8 "m", .utf8 "()V", .nameAndType 3 4, .methodref 2 5]

/-- A `tableswitch` at offset 1, with two bytes of padding and one target whose
bytes look like calls, and a call after it. -/
def switchThenCall : Bytes :=
  [0x00, 0xAA, 0xB8, 0xB8, 0, 0, 0, 0x13, 0, 0, 0, 5, 0, 0, 0, 5, 0xB8, 0xB8, 0xB8, 0xB8,
   0xB8, 0, 6, 0xB1]

theorem references_switchThenCall :
    switchThenCall.length < 2 ^ 32 ∧
      ∃ split, Splits 0 switchThenCall split ∧
        List.Forall₂ (Refers methodPool) (split.filter (·.2.usesMember))
          [⟨"A", "m", "()V", .invokestatic, 20⟩] :=
  ⟨by decide, ((references_iff_splits methodPool switchThenCall (by decide)).1 _).mp
    (by decide +kernel)⟩

end MemberAudit.ClassFile
