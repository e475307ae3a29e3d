import Edgestore.Lib.Bytes
import Mathlib.Tactic.Ring

/-!
# Self-delimiting codecs

A codec writes a value as bytes from whose front the value can be read back, whatever follows.
Codecs of records are built from the codec of natural numbers by pairing and transport.

## Main definitions

* `Codec α`: writers with a reader, and the round trip between them
* `Codec.nat`: natural numbers in base 128, with a continuation bit
* `Codec.pair`, `Codec.iso`, `Codec.list`, `Codec.int`, `Codec.bytes`, `Codec.string`

## Main results

* `Codec.length_nat_le`: a number below `128 ^ k` takes at most `k` bytes
-/

/-- A writer and a reader that inverts it in front of any bytes. -/
structure Codec (α : Type) where
  enc : α → Bytes
  dec : Bytes → Option (α × Bytes)
  dec_enc : ∀ a rest, dec (enc a ++ rest) = some (a, rest)

namespace Codec

variable {α β : Type}

/-- The base-128 digits of `n`, at most `fuel` of them. -/
def encNat : ℕ → ℕ → Bytes
  | 0, _ => []
  | fuel + 1, n =>
    if n < 128 then [Fin.ofNat 256 n]
    else Fin.ofNat 256 (n % 128 + 128) :: encNat fuel (n / 128)

/-- Read base-128 digits up to the first without a continuation bit. -/
def decNat : Bytes → Option (ℕ × Bytes)
  | [] => none
  | b :: bs =>
    if b.val < 128 then some (b.val, bs)
    else (decNat bs).map fun p => (b.val - 128 + 128 * p.1, p.2)

theorem decNat_encNat {fuel n : ℕ} (h : n < fuel) (rest : Bytes) :
    decNat (encNat fuel n ++ rest) = some (n, rest) := by
  induction fuel generalizing n with
  | zero => omega
  | succ fuel ih =>
    rw [encNat]
    split
    case isTrue hn =>
      have hval : (Fin.ofNat 256 n).val = n := Nat.mod_eq_of_lt (by omega)
      rw [List.singleton_append, decNat, hval, if_pos hn]
    case isFalse hn =>
      have hval : (Fin.ofNat 256 (n % 128 + 128)).val = n % 128 + 128 :=
        Nat.mod_eq_of_lt (by omega)
      rw [List.cons_append, decNat, hval, if_neg (by omega), ih (by omega), Option.map_some]
      congr 2
      omega

theorem length_encNat_le (fuel : ℕ) {n k : ℕ} (h : n < 128 ^ (k + 1)) :
    (encNat fuel n).length ≤ k + 1 := by
  induction fuel generalizing n k with
  | zero => simp [encNat]
  | succ fuel ih =>
    rw [encNat]
    split
    · simp
    · cases k with
      | zero => omega
      | succ k =>
        have : n / 128 < 128 ^ (k + 1) := by
          rw [pow_succ] at h
          omega
        simpa using ih this

/-- Natural numbers. -/
def nat : Codec ℕ := ⟨fun n => encNat (n + 1) n, decNat, fun n => decNat_encNat (by omega)⟩

theorem length_nat_le {n k : ℕ} (h : n < 128 ^ (k + 1)) : (nat.enc n).length ≤ k + 1 :=
  length_encNat_le _ h

/-- One value after the other. -/
def pair (c : Codec α) (d : Codec β) : Codec (α × β) where
  enc p := c.enc p.1 ++ d.enc p.2
  dec bs := (c.dec bs).bind fun p => (d.dec p.2).map fun q => ((p.1, q.1), q.2)
  dec_enc p rest := by
    rw [List.append_assoc, c.dec_enc, Option.bind_some, d.dec_enc]
    rfl

/-- Values written as others that determine them. -/
def iso (c : Codec β) (f : α → β) (g : β → α) (h : ∀ a, g (f a) = a) : Codec α where
  enc a := c.enc (f a)
  dec bs := (c.dec bs).map fun p => (g p.1, p.2)
  dec_enc a rest := by rw [c.dec_enc, Option.map_some, h]

/-- Read `n` values. -/
def decMany (c : Codec α) : ℕ → Bytes → Option (List α × Bytes)
  | 0, bs => some ([], bs)
  | n + 1, bs => (c.dec bs).bind fun p => (decMany c n p.2).map fun q => (p.1 :: q.1, q.2)

theorem decMany_flatMap (c : Codec α) (l : List α) (rest : Bytes) :
    c.decMany l.length (l.flatMap c.enc ++ rest) = some (l, rest) := by
  induction l with
  | nil => rfl
  | cons a l ih =>
    rw [List.flatMap_cons, List.append_assoc, List.length_cons, decMany, c.dec_enc,
      Option.bind_some, ih]
    rfl

/-- Lists, behind their length. -/
def list (c : Codec α) : Codec (List α) where
  enc l := nat.enc l.length ++ l.flatMap c.enc
  dec bs := (nat.dec bs).bind fun p => c.decMany p.1 p.2
  dec_enc l rest := by
    rw [List.append_assoc, nat.dec_enc, Option.bind_some, c.decMany_flatMap]

/-- Booleans. -/
def bool : Codec Bool := nat.iso (fun b => if b then 1 else 0) (fun n => n == 1) (by decide)

/-- Integers, behind their sign. -/
def int : Codec ℤ :=
  (pair bool nat).iso (fun z => (decide (0 ≤ z), z.natAbs))
    (fun p => if p.1 then p.2 else -p.2) (fun z => by
      by_cases h : 0 ≤ z
      · simp only [h, decide_true, if_true]
        omega
      · simp only [h, decide_false, Bool.false_eq_true, if_false]
        omega)

/-- Byte strings. -/
def bytes : Codec Bytes :=
  (list nat).iso (fun bs => bs.map Fin.val) (fun l => l.map (Fin.ofNat 256)) (fun bs => by
    rw [List.map_map]
    refine List.map_id'' (fun b => ?_) bs
    exact Fin.ext (Nat.mod_eq_of_lt b.isLt))

/-- Strings. -/
def string : Codec String :=
  (list nat).iso (fun s => s.toList.map Char.toNat) (fun l => String.ofList (l.map Char.ofNat))
    (fun s => by
      rw [List.map_map]
      have : s.toList.map (Char.ofNat ∘ Char.toNat) = s.toList :=
        List.map_id'' (fun c => Char.ofNat_toNat c) _
      rw [this, String.ofList_toList])

/-- Optional values, as a list of at most one. -/
def option (c : Codec α) : Codec (Option α) :=
  (list c).iso Option.toList List.head? (fun o => by cases o <;> rfl)

end Codec
