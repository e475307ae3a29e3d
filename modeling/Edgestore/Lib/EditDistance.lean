import Mathlib.Data.List.Basic
import Mathlib.Order.Bounds.Defs
import Mathlib.Order.MinMax
import Mathlib.Order.Nat

/-!
# Edit distance

A list is edited by inserting, deleting or substituting one element at any place. The distance of two lists
is the least number of edits that lead from the one to the other. It is computed by recursion along both
lists, from their heads.

## Main definitions

* `Edit`, `Edits n`: one edit, and `n` edits one after the other
* `distance`: the recurrence

## Main results

* `isLeast_distance`: the recurrence computes the least number of edits
* `distance_reverse`: it does not matter from which end the lists are read
* `distance_comm`, `distance_triangle`: symmetry, and the triangle inequality
-/

namespace EditDistance

variable {α : Type}

/-- One element is inserted, deleted or substituted. -/
inductive Edit : List α → List α → Prop
  | insert (xs ys : List α) (a : α) : Edit (xs ++ ys) (xs ++ a :: ys)
  | delete (xs ys : List α) (a : α) : Edit (xs ++ a :: ys) (xs ++ ys)
  | substitute (xs ys : List α) (a b : α) : Edit (xs ++ a :: ys) (xs ++ b :: ys)

/-- A number of edits, one after the other. -/
inductive Edits : ℕ → List α → List α → Prop
  | refl (xs : List α) : Edits 0 xs xs
  | step {n : ℕ} {xs ys zs : List α} : Edits n xs ys → Edit ys zs → Edits (n + 1) xs zs

/-! ### Edits -/

variable {xs ys zs : List α} {n m : ℕ}

theorem Edit.symm (h : Edit xs ys) : Edit ys xs := by
  cases h with
  | insert p q a => exact .delete p q a
  | delete p q a => exact .insert p q a
  | substitute p q a b => exact .substitute p q b a

theorem Edit.cons (c : α) (h : Edit xs ys) : Edit (c :: xs) (c :: ys) := by
  cases h with
  | insert p q a => exact .insert (c :: p) q a
  | delete p q a => exact .delete (c :: p) q a
  | substitute p q a b => exact .substitute (c :: p) q a b

theorem Edit.reverse (h : Edit xs ys) : Edit xs.reverse ys.reverse := by
  cases h with
  | insert p q a =>
    rw [List.reverse_append, List.reverse_append, List.reverse_cons, List.append_assoc]
    exact .insert q.reverse p.reverse a
  | delete p q a =>
    rw [List.reverse_append, List.reverse_append, List.reverse_cons, List.append_assoc]
    exact .delete q.reverse p.reverse a
  | substitute p q a b =>
    rw [List.reverse_append, List.reverse_append, List.reverse_cons, List.reverse_cons,
      List.append_assoc, List.append_assoc]
    exact .substitute q.reverse p.reverse a b

theorem Edits.single (h : Edit xs ys) : Edits 1 xs ys := .step (.refl xs) h

theorem Edits.trans (h : Edits n xs ys) (h' : Edits m ys zs) : Edits (n + m) xs zs := by
  induction h' with
  | refl => exact h
  | step _ hedit ih => exact .step (ih h) hedit

theorem Edits.symm (h : Edits n xs ys) : Edits n ys xs := by
  induction h with
  | refl xs => exact .refl xs
  | @step n xs ys zs _ hedit ih =>
    rw [Nat.add_comm]
    exact (Edits.single hedit.symm).trans ih

theorem Edits.cons (c : α) (h : Edits n xs ys) : Edits n (c :: xs) (c :: ys) := by
  induction h with
  | refl xs => exact .refl (c :: xs)
  | step _ hedit ih => exact .step ih (hedit.cons c)

theorem Edits.reverse (h : Edits n xs ys) : Edits n xs.reverse ys.reverse := by
  induction h with
  | refl xs => exact .refl xs.reverse
  | step _ hedit ih => exact .step ih hedit.reverse

theorem edits_zero_iff : Edits 0 xs ys ↔ xs = ys := by
  constructor
  · intro h
    cases h
    rfl
  · rintro rfl
    exact .refl xs

/-- The elements of a list are inserted one by one. -/
theorem edits_nil (ys : List α) : Edits ys.length [] ys := by
  induction ys with
  | nil => exact .refl []
  | cons y ys ih => exact .step ih (.insert [] ys y)

/-! ### The recurrence -/

variable [DecidableEq α]

/-- What it costs to put one element in the place of another one. -/
def cost (x y : α) : ℕ := if x = y then 0 else 1

/-- The distance of two lists. -/
def distance : List α → List α → ℕ
  | [], ys => ys.length
  | x :: xs, [] => (x :: xs).length
  | x :: xs, y :: ys =>
    min (min (distance (x :: xs) ys + 1) (distance xs (y :: ys) + 1)) (distance xs ys + cost x y)

@[simp] theorem distance_nil_left (ys : List α) : distance [] ys = ys.length := by rw [distance]

@[simp] theorem distance_nil_right (xs : List α) : distance xs [] = xs.length := by
  cases xs with
  | nil => rw [distance_nil_left]
  | cons x xs => rw [distance]

theorem distance_cons (x y : α) (xs ys : List α) : distance (x :: xs) (y :: ys) =
    min (min (distance (x :: xs) ys + 1) (distance xs (y :: ys) + 1)) (distance xs ys + cost x y) := by
  rw [distance]

theorem cost_le_one (x y : α) : cost x y ≤ 1 := by
  unfold cost
  split <;> omega

/-- An element of the second list is inserted. -/
theorem distance_cons_right_le (y : α) (xs ys : List α) : distance xs (y :: ys) ≤ distance xs ys + 1 := by
  cases xs with
  | nil => rw [distance_nil_left, distance_nil_left, List.length_cons]
  | cons x xs =>
    rw [distance_cons]
    omega

/-- An element of the first list is deleted. -/
theorem distance_cons_left_le (x : α) (xs ys : List α) : distance (x :: xs) ys ≤ distance xs ys + 1 := by
  cases ys with
  | nil => rw [distance_nil_right, distance_nil_right, List.length_cons]
  | cons y ys =>
    rw [distance_cons]
    omega

/-- So many edits are enough. -/
theorem edits_distance (xs ys : List α) : Edits (distance xs ys) xs ys := by
  induction xs, ys using distance.induct with
  | case1 ys =>
    rw [distance_nil_left]
    exact edits_nil ys
  | case2 x xs =>
    rw [distance_nil_right]
    exact (edits_nil (x :: xs)).symm
  | case3 x xs y ys ihInsert ihDelete ihReplace =>
    have hinsert : Edits (distance (x :: xs) ys + 1) (x :: xs) (y :: ys) := .step ihInsert (.insert [] ys y)
    have hdelete : Edits (distance xs (y :: ys) + 1) (x :: xs) (y :: ys) := by
      rw [Nat.add_comm]
      exact (Edits.single (.delete [] xs x)).trans ihDelete
    have hreplace : Edits (distance xs ys + cost x y) (x :: xs) (y :: ys) := by
      unfold cost
      split
      case isTrue hxy => exact hxy ▸ ihReplace.cons x
      case isFalse => exact .step (ihReplace.cons x) (.substitute [] ys x y)
    rw [distance_cons]
    -- the least of the three is one of them
    rcases min_choice (min (distance (x :: xs) ys + 1) (distance xs (y :: ys) + 1))
      (distance xs ys + cost x y) with h | h
    · rw [h]
      rcases min_choice (distance (x :: xs) ys + 1) (distance xs (y :: ys) + 1) with h' | h'
      · rw [h']
        exact hinsert
      · rw [h']
        exact hdelete
    · rw [h]
      exact hreplace

/-! ### Fewer edits are not enough -/

/-- The second list may be replaced, at a distance of one more from any list. -/
def Close (ys zs : List α) : Prop := ∀ xs, distance xs zs ≤ distance xs ys + 1

theorem Close.cons {ys zs : List α} (c : α) (h : Close ys zs) : Close (c :: ys) (c :: zs) := by
  intro xs
  induction xs with
  | nil =>
    have hnil := h []
    rw [distance_nil_left, distance_nil_left] at hnil ⊢
    rw [List.length_cons, List.length_cons]
    omega
  | cons x xs ih =>
    have hwhole := h (x :: xs)
    have hrest := h xs
    rw [distance_cons, distance_cons]
    omega

theorem close_append {ys zs : List α} (p : List α) (h : Close ys zs) : Close (p ++ ys) (p ++ zs) := by
  induction p with
  | nil => exact h
  | cons c p ih => exact ih.cons c

theorem close_delete (a : α) (q : List α) : Close (a :: q) q := by
  intro xs
  induction xs with
  | nil =>
    rw [distance_nil_left, distance_nil_left, List.length_cons]
    omega
  | cons x xs ih =>
    have hleft := distance_cons_left_le x xs q
    rw [distance_cons]
    omega

theorem close_substitute (a b : α) (q : List α) : Close (a :: q) (b :: q) := by
  intro xs
  induction xs with
  | nil =>
    rw [distance_nil_left, distance_nil_left, List.length_cons, List.length_cons]
    omega
  | cons x xs ih =>
    have hcost := cost_le_one x b
    rw [distance_cons, distance_cons]
    omega

theorem Edit.close {ys zs : List α} (h : Edit ys zs) : Close ys zs := by
  cases h with
  | insert p q a => exact close_append p fun xs => distance_cons_right_le a xs q
  | delete p q a => exact close_append p (close_delete a q)
  | substitute p q a b => exact close_append p (close_substitute a b q)

@[simp] theorem distance_self (xs : List α) : distance xs xs = 0 := by
  induction xs with
  | nil => rw [distance_nil_left, List.length_nil]
  | cons x xs ih =>
    have hcost : cost x x = 0 := if_pos rfl
    rw [distance_cons]
    omega

theorem distance_le_of_edits {xs ys : List α} {n : ℕ} (h : Edits n xs ys) : distance xs ys ≤ n := by
  induction h with
  | refl xs => rw [distance_self]
  | @step n xs ys zs _ hedit ih => exact (hedit.close xs).trans (Nat.succ_le_succ ih)

/-- **The recurrence computes the least number of edits.** -/
theorem isLeast_distance (xs ys : List α) : IsLeast {n | Edits n xs ys} (distance xs ys) :=
  ⟨edits_distance xs ys, fun _ h => distance_le_of_edits h⟩

/-- Only equal lists have no distance. -/
theorem distance_eq_zero_iff : distance xs ys = 0 ↔ xs = ys := by
  rw [← edits_zero_iff]
  constructor
  · exact fun h => h ▸ (isLeast_distance xs ys).1
  · exact fun h => Nat.le_zero.mp ((isLeast_distance xs ys).2 h)


theorem distance_reverse (xs ys : List α) : distance xs.reverse ys.reverse = distance xs ys := by
  refine le_antisymm (distance_le_of_edits (edits_distance xs ys).reverse) ?_
  have h := (edits_distance xs.reverse ys.reverse).reverse
  rw [List.reverse_reverse, List.reverse_reverse] at h
  exact distance_le_of_edits h

theorem distance_comm (xs ys : List α) : distance xs ys = distance ys xs :=
  le_antisymm (distance_le_of_edits (edits_distance ys xs).symm)
    (distance_le_of_edits (edits_distance xs ys).symm)

theorem distance_triangle (xs ys zs : List α) : distance xs zs ≤ distance xs ys + distance ys zs :=
  distance_le_of_edits ((edits_distance xs ys).trans (edits_distance ys zs))

end EditDistance
