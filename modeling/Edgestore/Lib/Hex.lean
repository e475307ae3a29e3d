import Edgestore.Lib.Bytes
import Mathlib.Tactic.IntervalCases

/-!
# Hexadecimal digits

A byte is written as two digits in lower case. A reader takes digits in either case, and a sign in front of them.

## Main definitions

* `Hex.encode`: the digits of bytes
* `Hex.parseByte`: a byte that is read from its digits
* `Hex.decode`: bytes that are read from two characters each

## Main results

* `Hex.decode_encode`: the digits of bytes are read as the bytes
-/

namespace Hex

/-- The digits of a byte, in lower case. -/
def byteDigits (b : Byte) : List Char := [Nat.digitChar (b.val / 16), Nat.digitChar (b.val % 16)]

/-- The digits of bytes. -/
def encode (bs : Bytes) : List Char := bs.flatMap byteDigits

/-- The value of a digit, in either case. -/
def digitValue (c : Char) : Option ℕ :=
  if '0' ≤ c ∧ c ≤ '9' then some (c.toNat - '0'.toNat)
  else if 'a' ≤ c ∧ c ≤ 'f' then some (c.toNat - 'a'.toNat + 10)
  else if 'A' ≤ c ∧ c ≤ 'F' then some (c.toNat - 'A'.toNat + 10)
  else none

/-- Read digits of a number below 256, behind those that are worth `n`. -/
def parseDigits : ℕ → List Char → Option ℕ
  | n, [] => some n
  | n, c :: cs => do
    let d ← digitValue c
    if n * 16 + d < 256 then parseDigits (n * 16 + d) cs else none

/-- Read a byte: at least one digit, behind a sign if there is one. -/
def parseByte : List Char → Option Byte
  | [] => none
  | '+' :: cs => if cs = [] then none else (parseDigits 0 cs).map (Fin.ofNat 256)
  | cs => (parseDigits 0 cs).map (Fin.ofNat 256)

/-- Read `n` bytes, of two characters each. -/
def decode : ℕ → List Char → Option Bytes
  | 0, _ => some []
  | n + 1, cs => do
    let b ← parseByte (cs.take 2)
    let bs ← decode n (cs.drop 2)
    return b :: bs

@[simp] theorem encode_nil : encode [] = [] := rfl

@[simp] theorem encode_cons (b : Byte) (bs : Bytes) : encode (b :: bs) = byteDigits b ++ encode bs := rfl

@[simp] theorem length_encode (bs : Bytes) : (encode bs).length = 2 * bs.length := by
  induction bs with
  | nil => rfl
  | cons b bs ih =>
    rw [encode_cons, List.length_append, ih, List.length_cons, byteDigits]
    simp only [List.length_cons, List.length_nil]
    omega

/-- A digit is read as its value. -/
theorem digitValue_digitChar {d : ℕ} (hd : d < 16) : digitValue (Nat.digitChar d) = some d := by
  interval_cases d <;> rfl

/-- The digits of a byte are digits. -/
theorem digit_of_mem_encode {bs : Bytes} {c : Char} (h : c ∈ encode bs) : (digitValue c).isSome = true := by
  obtain ⟨b, -, hc⟩ := List.mem_flatMap.mp h
  have hb : b.val < 256 := b.isLt
  rcases List.mem_pair.mp hc with rfl | rfl
  · rw [digitValue_digitChar (by omega)]
    rfl
  · rw [digitValue_digitChar (by omega)]
    rfl

theorem parseByte_byteDigits (b : Byte) : parseByte (byteDigits b) = some b := by
  have hb : b.val < 256 := b.isLt
  have hhigh := digitValue_digitChar (d := b.val / 16) (by omega)
  have hlow := digitValue_digitChar (d := b.val % 16) (by omega)
  -- no digit is a sign
  have hsign : Nat.digitChar (b.val / 16) ≠ '+' := fun heq => by
    rw [heq] at hhigh
    cases hhigh
  have hdigits : parseByte (byteDigits b) = (parseDigits 0 (byteDigits b)).map (Fin.ofNat 256) := by
    rw [byteDigits, parseByte]
    · exact fun heq => (by cases heq)
    · exact fun cs heq => hsign (List.cons.inj heq).1
  have hvalue : parseDigits 0 (byteDigits b) = some b.val := by
    simp only [byteDigits, parseDigits, hhigh, hlow, Option.bind_eq_bind, Option.bind_some]
    rw [if_pos (by omega), if_pos (by omega)]
    congr 1
    omega
  rw [hdigits, hvalue]
  exact congrArg some (Fin.ext (Nat.mod_eq_of_lt hb))

/-- **Round trip**: the digits of bytes are read as the bytes. -/
theorem decode_encode (bs : Bytes) : decode bs.length (encode bs) = some bs := by
  induction bs with
  | nil => rfl
  | cons b bs ih =>
    have htake : (encode (b :: bs)).take 2 = byteDigits b := rfl
    have hdrop : (encode (b :: bs)).drop 2 = encode bs := rfl
    rw [List.length_cons, decode, htake, hdrop, parseByte_byteDigits, ih]
    rfl

end Hex
