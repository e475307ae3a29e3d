import Mathlib.Order.Fin.Basic
import Mathlib.Data.List.Lex
import Mathlib.Tactic.Ring

/-!
# Bytes and fixed-width integers

Byte strings are lists of `Fin 256`, so that the lexicographic order of keys is Mathlib's order
on lists. Unsigned integers of a fixed width are written least significant byte first, and a
value that does not fit loses its high part, as a truncating cast does.

## Main definitions

* `leBytes w n`, `ofLe bs`: little-endian writing and reading
* `beBytes w n`, `ofBe bs`: the same, most significant byte first

## Main results

* `ofLe_leBytes`: reading back what was written gives the value modulo `256 ^ w`
* `prefix_of_between`: byte strings between two with a common prefix have that prefix
-/

/-- A byte. -/
abbrev Byte := Fin 256

instance instNeZeroByte : NeZero 256 := ⟨by decide⟩

theorem Byte.succ_lt {b : Byte} (h : b.val < 255) : b.val + 1 < 256 := Nat.succ_lt_succ h

/-- A byte string. Its order is lexicographic. -/
abbrev Bytes := List Byte

instance instLawfulBEqBytes : LawfulBEq Bytes := inferInstance

/-- The `w` low bytes of `n`, least significant first. -/
def leBytes : ℕ → ℕ → Bytes
  | 0, _ => []
  | w + 1, n => Fin.ofNat 256 n :: leBytes w (n / 256)

/-- The number a little-endian byte string stands for. -/
def ofLe : Bytes → ℕ
  | [] => 0
  | b :: bs => b.val + 256 * ofLe bs

/-- The `w` low bytes of `n`, most significant first. -/
def beBytes (w n : ℕ) : Bytes := (leBytes w n).reverse

/-- The number a big-endian byte string stands for. -/
def ofBe (bs : Bytes) : ℕ := ofLe bs.reverse

@[simp] theorem length_leBytes (w n : ℕ) : (leBytes w n).length = w := by
  induction w generalizing n with
  | zero => rfl
  | succ w ih => simp [leBytes, ih]

@[simp] theorem length_beBytes (w n : ℕ) : (beBytes w n).length = w := by
  simp [beBytes]

theorem ofLe_leBytes (w n : ℕ) : ofLe (leBytes w n) = n % 256 ^ w := by
  induction w generalizing n with
  | zero => simp [leBytes, ofLe, Nat.mod_one]
  | succ w ih =>
    have hval : (Fin.ofNat 256 n).val = n % 256 := rfl
    rw [leBytes, ofLe, ih, hval, pow_succ', Nat.mod_mul]

theorem ofLe_leBytes_of_lt {w n : ℕ} (h : n < 256 ^ w) : ofLe (leBytes w n) = n := by
  rw [ofLe_leBytes, Nat.mod_eq_of_lt h]

theorem ofBe_beBytes_of_lt {w n : ℕ} (h : n < 256 ^ w) : ofBe (beBytes w n) = n := by
  rw [ofBe, beBytes, List.reverse_reverse, ofLe_leBytes_of_lt h]

theorem leBytes_ofLe (bs : Bytes) : leBytes bs.length (ofLe bs) = bs := by
  induction bs with
  | nil => rfl
  | cons b bs ih =>
    have hb : b.val < 256 := b.isLt
    have hdiv : (b.val + 256 * ofLe bs) / 256 = ofLe bs := by omega
    have hmod : Fin.ofNat 256 (b.val + 256 * ofLe bs) = b := by
      apply Fin.ext
      change (b.val + 256 * ofLe bs) % 256 = b.val
      omega
    rw [List.length_cons, leBytes, ofLe, hdiv, hmod, ih]

theorem beBytes_ofBe (bs : Bytes) : beBytes bs.length (ofBe bs) = bs := by
  have h := leBytes_ofLe bs.reverse
  rw [List.length_reverse] at h
  rw [beBytes, ofBe, h, List.reverse_reverse]

theorem ofLe_lt (bs : Bytes) : ofLe bs < 256 ^ bs.length := by
  induction bs with
  | nil => exact Nat.one_pos
  | cons b bs ih =>
    have hb : b.val < 256 := b.isLt
    rw [ofLe, List.length_cons, pow_succ]
    omega

/-! ### The order of byte strings -/

theorem append_lt_append_iff {p a b : Bytes} : p ++ a < p ++ b ↔ a < b := by
  induction p with
  | nil => rfl
  | cons c p ih => rw [List.cons_append, List.cons_append, List.cons_lt_cons_self, ih]

theorem append_le_append_iff {p a b : Bytes} : p ++ a ≤ p ++ b ↔ a ≤ b := by
  rw [← not_lt, ← not_lt, append_lt_append_iff]

/-- Byte strings between two with a common prefix have that prefix. -/
theorem prefix_of_between {p a b k : Bytes} (h : p ++ a ≤ k) (h' : k < p ++ b) :
    ∃ c, k = p ++ c := by
  induction p generalizing k with
  | nil => exact ⟨k, rfl⟩
  | cons c p ih =>
    cases k with
    | nil => exact absurd h (by simp)
    | cons d k =>
      rw [List.cons_append, ← not_lt, List.cons_lt_cons_iff] at h
      rw [List.cons_append, List.cons_lt_cons_iff] at h'
      rcases h' with hlt | ⟨rfl, hlt⟩
      · exact absurd (.inl hlt) h
      · obtain ⟨e, rfl⟩ := ih (not_lt.mp fun hk => h (.inr ⟨rfl, hk⟩)) hlt
        exact ⟨e, rfl⟩
