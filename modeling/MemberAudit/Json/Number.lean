/-
Numbers as a JSON document writes them. Reading keeps the literal's parts; what
a reader may ask of them is whether they are an integer, and whether they lie in
the range of double precision (`inRange`).
-/
namespace MemberAudit.Json

/-- A number literal. The fraction holds the digits after the point and is
empty where there is no point. -/
structure Number where
  negative : Bool
  whole : Nat
  fraction : List Nat
  exponent : Option Int
  deriving DecidableEq, Repr, Inhabited

namespace Number

/-- The literal of an integer. -/
def ofInt (n : Int) : Number :=
  ⟨n < 0, n.natAbs, [], none⟩

/-- The integer a literal denotes, if it is written as one: without a point, an
exponent, or a sign before zero. -/
def toInt? (n : Number) : Option Int :=
  match n.fraction, n.exponent with
  | [], none =>
    if n.negative then (if n.whole = 0 then none else some (-(n.whole : Int)))
    else some n.whole
  | _, _ => none

/-- The 32-bit integer a literal denotes. -/
def toInt32? (n : Number) : Option Int32 :=
  n.toInt?.bind fun i =>
    if -0x80000000 ≤ i ∧ i < 0x80000000 then some (Int32.ofInt i) else none

/-- Digits taken onto `value` as long as the result has 64 bits, and how many
were taken. -/
def takeDigits (value : Nat) : List Nat → Nat × Nat
  | [] => (value, 0)
  | d :: ds =>
    if value * 10 + d < 0x10000000000000000 then
      let (result, taken) := takeDigits (value * 10 + d) ds
      (result, taken + 1)
    else (value, 0)

/-- The decimal digits of a natural number, the first one first. -/
def digits (n : Nat) : List Nat :=
  (Nat.toDigits 10 n).map fun c => c.toNat - '0'.toNat

/-- A natural number rounded to 53 significant bits, a tie to the even neighbour. -/
def roundDouble (n : Nat) : Nat :=
  if n < 0x20000000000000 then n
  else
    let unit := 1 <<< (n.log2 - 52)
    let quotient := n / unit
    let twice := 2 * (n % unit)
    if twice > unit ∨ (twice = unit ∧ quotient % 2 = 1) then (quotient + 1) * unit
    else quotient * unit

/-- Whether a literal lies in the range of double precision. It is read as a
64-bit significand times a power of ten, each rounded and then their product. -/
def inRange (n : Number) : Bool :=
  let wholeDigits := digits n.whole
  let (head, kept) := takeDigits 0 wholeDigits
  let (significand, places) := takeDigits head n.fraction
  let power : Int := (wholeDigits.length - kept : Nat) - (places : Int) + n.exponent.getD 0
  if significand = 0 ∨ power < 0 then true
  else if power > 308 then false
  else roundDouble (roundDouble significand * roundDouble (Nat.pow 10 power.toNat)) < 1 <<< 1024

theorem toInt?_ofInt (n : Int) : (ofInt n).toInt? = some n := by
  by_cases h : n < 0
  · have hn : n.natAbs ≠ 0 := by omega
    simp only [ofInt, toInt?, h, decide_true, ite_true, hn, ite_false, Option.some.injEq]
    omega
  · simp only [ofInt, toInt?, h, decide_false, Bool.false_eq_true, ite_false, Option.some.injEq]
    omega

end Number
end MemberAudit.Json
