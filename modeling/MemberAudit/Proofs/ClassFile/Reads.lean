/-
Readers on data that was written for them. `Reads read bytes value` says that a reader
takes these bytes from the front of any data and finds the value in them. Readers put
together read bytes put together (`Reads.bind`), so a layout is read from its parts.
-/
import MemberAudit.ClassFile.Layout

namespace MemberAudit.ClassFile

/-- Two bytes of a number, the higher one first. -/
def twoBytes (n : Nat) : Bytes :=
  [.ofNat (n / 256), .ofNat n]

/-- Four bytes of a number, the highest one first. -/
def fourBytes (n : Nat) : Bytes :=
  twoBytes (n / 65536) ++ twoBytes n

@[simp] theorem length_twoBytes (n : Nat) : (twoBytes n).length = 2 := rfl

@[simp] theorem length_fourBytes (n : Nat) : (fourBytes n).length = 4 := rfl

/-- A reader takes bytes from the front of any data, and gives a value. -/
def Reads {α : Type} (read : Reader α) (bytes : Bytes) (value : α) : Prop :=
  ∀ rest, read (bytes ++ rest) = some (value, rest)

namespace Reads

open Reader

variable {α β : Type} {read : Reader α} {bytes more : Bytes} {a : α} {b : β} {n : Nat}

theorem pure (a : α) : Reads (Pure.pure a) [] a :=
  fun _ => rfl

theorem bind {next : α → Reader β} (h : Reads read bytes a) (h' : Reads (next a) more b) :
    Reads (read >>= next) (bytes ++ more) b := by
  intro rest
  have hread := h (more ++ rest)
  rw [List.append_assoc]
  change (read (bytes ++ (more ++ rest))).bind _ = _
  rw [hread]
  exact h' rest

/-- A reader, and then the rest of the data. -/
theorem bind_rest {next : α → Reader β} {result : Option (β × Bytes)} (h : Reads read bytes a)
    (h' : next a more = result) : (read >>= next) (bytes ++ more) = result := by
  change (read (bytes ++ more)).bind _ = _
  rw [h more]
  exact h'

theorem bind_pure {f : α → β} (h : Reads read bytes a) :
    Reads (read >>= fun a => Pure.pure (f a)) bytes (f a) := by
  have hread : Reads (read >>= fun a => Pure.pure (f a)) (bytes ++ []) (f a) := h.bind (pure (f a))
  rwa [List.append_nil] at hread

/-- A reader that goes on as another one after its first byte. -/
theorem cons {rest : Reader α} {byte : UInt8} (h : ∀ tail, read (byte :: tail) = rest tail)
    (hrest : Reads rest bytes a) : Reads read (byte :: bytes) a :=
  fun tail => (h (bytes ++ tail)).trans (hrest tail)

theorem u1 (byte : UInt8) : Reads u1 [byte] byte.toNat :=
  fun _ => rfl

theorem u2 (h : n < 65536) : Reads u2 (twoBytes n) n := by
  intro rest
  have hvalue : (UInt8.ofNat (n / 256)).toNat * 256 + (UInt8.ofNat n).toNat = n := by
    simp only [UInt8.toNat_ofNat']
    omega
  change some (_, rest) = _
  rw [hvalue]

theorem u4 (h : n < 4294967296) : Reads u4 (fourBytes n) n := by
  intro rest
  have hvalue : (((UInt8.ofNat (n / 65536 / 256)).toNat * 256 + (UInt8.ofNat (n / 65536)).toNat) * 256
      + (UInt8.ofNat (n / 256)).toNat) * 256 + (UInt8.ofNat n).toNat = n := by
    simp only [UInt8.toNat_ofNat']
    omega
  change some (_, rest) = _
  rw [hvalue]

/-- Two numbers, one after the other. -/
theorem pair {f : Nat → Nat → β} {m : Nat} (hm : m < 65536) (hn : n < 65536) :
    Reads (do return f (← Reader.u2) (← Reader.u2)) (twoBytes m ++ twoBytes n) (f m n) :=
  (u2 hm).bind (u2 hn).bind_pure

theorem take (h : bytes.length = n) : Reads (take n) bytes bytes := by
  intro rest
  subst h
  simp [Reader.take]

theorem skip (h : bytes.length = n) : Reads (skip n) bytes () := by
  intro rest
  subst h
  simp [Reader.skip]

theorem times {pieces : List α} {write : α → Bytes} (h : ∀ a ∈ pieces, Reads read (write a) a) :
    Reads (times read pieces.length) (pieces.flatMap write) pieces := by
  induction pieces with
  | nil => exact pure []
  | cons a pieces ih =>
    obtain ⟨ha, hrest⟩ := List.forall_mem_cons.mp h
    exact ha.bind (ih hrest).bind_pure

end Reads
end MemberAudit.ClassFile
