import Mathlib.Order.Lattice
import Mathlib.Order.Compare
import Mathlib.Data.List.Perm.Basic

/-!
# Priority queues

A priority queue, as the list of its elements. The comparison of elements is that of keys in a linear
order. Which of several greatest elements is taken out is not part of the interface of such queues; here
it is the one that was pushed last.

## Main definitions

* `Heap.pop`, `Heap.peek`: a greatest element, with the others or without
* `Heap.Keyed cmp key`: the comparison is that of the keys

## Main results

* `Heap.pop_perm`: what is taken out and what is left are the elements of the queue
* `Heap.key_le_of_pop`: what is taken out is a greatest element
-/

namespace Heap

variable {α κ : Type} (cmp : α → α → Ordering)

/-- Take out a greatest element. -/
def pop : List α → Option (α × List α)
  | [] => none
  | a :: l =>
    match pop l with
    | none => some (a, [])
    | some (b, rest) => if cmp a b = .lt then some (b, a :: rest) else some (a, l)

/-- A greatest element. -/
def peek (l : List α) : Option α := (pop cmp l).map Prod.fst

/-- A comparison of elements by their keys. -/
def Keyed [LinearOrder κ] (cmp : α → α → Ordering) (key : α → κ) : Prop :=
  ∀ a b, cmp a b = compare (key a) (key b)

variable {cmp} {l rest : List α} {a : α}

/-- What is taken out and what is left are the elements of the queue. -/
theorem pop_perm (h : pop cmp l = some (a, rest)) : (a :: rest).Perm l := by
  induction l generalizing a rest with
  | nil => cases h
  | cons b l ih =>
    rw [pop] at h
    cases hl : pop cmp l with
    | none =>
      rw [hl] at h
      cases h
      -- only the empty queue has nothing to take out
      cases l with
      | nil => exact List.Perm.refl _
      | cons c l =>
        rw [pop] at hl
        cases hr : pop cmp l with
        | none => rw [hr] at hl; cases hl
        | some p =>
          rw [hr] at hl
          simp only at hl
          split at hl <;> cases hl
    | some p =>
      rw [hl] at h
      simp only at h
      split at h
      case isTrue =>
        cases h
        exact (List.Perm.swap _ _ _).trans ((ih hl).cons b)
      case isFalse =>
        cases h
        exact List.Perm.refl _

theorem pop_eq_none : pop cmp l = none ↔ l = [] := by
  constructor
  · intro h
    cases l with
    | nil => rfl
    | cons a l =>
      rw [pop] at h
      split at h
      · cases h
      · split at h <;> cases h
  · rintro rfl
    rfl

theorem mem_of_pop (h : pop cmp l = some (a, rest)) : a ∈ l := (pop_perm h).subset List.mem_cons_self

/-- **What is taken out is a greatest element.** -/
theorem key_le_of_pop [LinearOrder κ] {key : α → κ} (hkey : Keyed cmp key)
    (h : pop cmp l = some (a, rest)) : ∀ x ∈ l, key x ≤ key a := by
  induction l generalizing a rest with
  | nil => cases h
  | cons b l ih =>
    intro x hx
    rw [pop] at h
    cases hl : pop cmp l with
    | none =>
      rw [hl] at h
      cases h
      obtain rfl := pop_eq_none.mp hl
      rw [List.mem_singleton.mp hx]
    | some p =>
      rw [hl] at h
      have hrest := ih hl
      simp only [hkey b p.1] at h
      rcases List.mem_cons.mp hx with rfl | hx
      · split at h
        case isTrue hlt =>
          cases h
          exact (compare_lt_iff_lt.mp hlt).le
        case isFalse =>
          cases h
          exact le_rfl
      · split at h
        case isTrue =>
          cases h
          exact hrest x hx
        case isFalse hge =>
          cases h
          exact (hrest x hx).trans (not_lt.mp fun hlt => hge (compare_lt_iff_lt.mpr hlt))

theorem key_le_of_peek [LinearOrder κ] {key : α → κ} (hkey : Keyed cmp key) (h : peek cmp l = some a) :
    ∀ x ∈ l, key x ≤ key a := by
  obtain ⟨p, hp, rfl⟩ := Option.map_eq_some_iff.mp h
  exact key_le_of_pop hkey hp

end Heap
