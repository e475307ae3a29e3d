import Edgestore.Lib.Heap
import Mathlib.Data.List.Induction
import Mathlib.Order.Nat

/-!
# Bounded queues

A priority queue that keeps at most `k` elements: while there is room an element is pushed, and later it takes the
place of a greatest element if a test says that it is less. The test is that of keys, but it never succeeds against an
element with the greatest key `⊤` (a number compared with NaN). The queue then keeps the `k` least elements, unless an
element with the key `⊤` is among the first `k`: from then on nothing changes any more.

## Main definitions

* `Heap.keep cmp less k heap x`: look at one more element

## Main results

* `Heap.exists_dropped`: what is kept and what is dropped are the elements
* `Heap.keeps_least_iff`: when the elements kept are the least ones
-/

namespace Heap

variable {α κ : Type} (cmp : α → α → Ordering) (less : α → α → Bool) (k : ℕ)

/-- Look at one more element. -/
def keep (heap : List α) (x : α) : List α :=
  if heap.length < k then x :: heap
  else
    match pop cmp heap with
    | some (top, rest) => if less x top then x :: rest else heap
    | none => heap

variable {cmp less k} {heap items dropped : List α} {x : α}

theorem keep_of_room (h : heap.length < k) : keep cmp less k heap x = x :: heap := if_pos h

variable (cmp less x) in
/-- A full queue has a greatest element. -/
theorem keep_of_full (hk : 1 ≤ k) (h : k ≤ heap.length) : ∃ top rest, pop cmp heap = some (top, rest) ∧
    keep cmp less k heap x = if less x top then x :: rest else heap := by
  rw [show keep cmp less k heap x = _ from if_neg (not_lt.mpr h)]
  cases hpop : pop cmp heap with
  | none =>
    rw [pop_eq_none.mp hpop] at h
    exact absurd (hk.trans h) (Nat.not_succ_le_zero 0)
  | some p => exact ⟨p.1, p.2, rfl, rfl⟩

variable (cmp less) in
/-- While there is room, everything is kept. -/
theorem foldl_keep_of_room (h : items.length ≤ k) : (items.foldl (keep cmp less k) []).Perm items := by
  induction items using List.reverseRecOn with
  | nil => exact List.Perm.refl _
  | append_singleton items x ih =>
    rw [List.length_append, List.length_singleton] at h
    have hperm := ih (by omega)
    rw [List.foldl_append, List.foldl_cons, List.foldl_nil, keep_of_room (by rw [hperm.length_eq]; omega)]
    exact (hperm.cons x).trans (List.perm_append_singleton x items).symm

variable (cmp less) in
/-- **What is kept and what is dropped** are the elements, and as many are kept as there is room for. -/
theorem exists_dropped (hk : 1 ≤ k) (items : List α) :
    ∃ dropped, (items.foldl (keep cmp less k) [] ++ dropped).Perm items ∧
      (items.foldl (keep cmp less k) []).length = min k items.length := by
  induction items using List.reverseRecOn with
  | nil => exact ⟨[], List.Perm.refl _, (Nat.min_zero k).symm⟩
  | append_singleton items x ih =>
    obtain ⟨dropped, hperm, hlen⟩ := ih
    rw [List.foldl_append, List.foldl_cons, List.foldl_nil, List.length_append, List.length_singleton]
    generalize items.foldl (keep cmp less k) [] = heap at hperm hlen
    have hlast : (x :: (heap ++ dropped)).Perm (items ++ [x]) :=
      (hperm.cons x).trans (List.perm_append_singleton x items).symm
    by_cases hroom : heap.length < k
    · rw [keep_of_room hroom]
      exact ⟨dropped, hlast, by rw [List.length_cons]; omega⟩
    · obtain ⟨top, rest, hpop, hkeep⟩ := keep_of_full cmp less x hk (not_lt.mp hroom)
      have hpopped := pop_perm hpop
      rw [hkeep]
      split
      case isTrue =>
        refine ⟨top :: dropped, List.Perm.trans ?_ hlast, ?_⟩
        · refine (List.Perm.cons x ?_)
          exact List.perm_middle.trans (hpopped.append_right dropped)
        · have hlen' := hpopped.length_eq
          rw [List.length_cons] at hlen' ⊢
          omega
      case isFalse =>
        refine ⟨x :: dropped, List.perm_middle.trans hlast, ?_⟩
        omega

section Least

variable [LinearOrder κ] [OrderTop κ] {key : α → κ}

/-- **Without `⊤` among the first `k` elements** the least ones are kept. -/
theorem foldl_keep_least (hkey : Keyed cmp key) (hless : ∀ a b, less a b = true ↔ key a < key b ∧ key b ≠ ⊤)
    (hk : 1 ≤ k) (hfirst : ∀ x ∈ items.take k, key x ≠ ⊤) :
    (∀ x ∈ items.foldl (keep cmp less k) [], key x ≠ ⊤) ∧
      ∃ dropped, (items.foldl (keep cmp less k) [] ++ dropped).Perm items ∧
        ∀ x ∈ items.foldl (keep cmp less k) [], ∀ y ∈ dropped, key x ≤ key y := by
  induction items using List.reverseRecOn with
  | nil => exact ⟨fun x hx => absurd hx List.not_mem_nil, [], List.Perm.refl _, fun x hx => absurd hx List.not_mem_nil⟩
  | append_singleton items x ih =>
    have hbefore : ∀ y ∈ items.take k, key y ≠ ⊤ := by
      intro y hy
      refine hfirst y ?_
      rw [List.take_append]
      exact List.mem_append_left _ hy
    obtain ⟨hfinite, dropped, hperm, hleast⟩ := ih hbefore
    have hlen : (items.foldl (keep cmp less k) []).length = min k items.length := by
      obtain ⟨-, -, hlen⟩ := exists_dropped cmp less hk items
      exact hlen
    rw [List.foldl_append, List.foldl_cons, List.foldl_nil]
    generalize items.foldl (keep cmp less k) [] = heap at hfinite hperm hleast hlen
    have hlast : (x :: (heap ++ dropped)).Perm (items ++ [x]) :=
      (hperm.cons x).trans (List.perm_append_singleton x items).symm
    by_cases hroom : heap.length < k
    · -- nothing has been dropped, and the element is among the first
      have hdropped : dropped = [] := by
        have hlen' := hperm.length_eq
        rw [List.length_append] at hlen'
        exact List.eq_nil_of_length_eq_zero (by omega)
      subst hdropped
      rw [keep_of_room hroom]
      refine ⟨List.forall_mem_cons.mpr ⟨hfirst x ?_, hfinite⟩, [], hlast, fun y _ z hz => absurd hz List.not_mem_nil⟩
      rw [List.take_of_length_le (by rw [List.length_append, List.length_singleton]; omega)]
      exact List.mem_append_right _ (List.mem_singleton_self x)
    · obtain ⟨top, rest, hpop, hkeep⟩ := keep_of_full cmp less x hk (not_lt.mp hroom)
      have hpopped := pop_perm hpop
      have htop : ∀ y ∈ heap, key y ≤ key top := key_le_of_pop hkey hpop
      rw [hkeep]
      split
      case isTrue hlt =>
        obtain ⟨hlt, -⟩ := (hless x top).mp hlt
        have hrest : ∀ y ∈ rest, y ∈ heap := fun y hy => hpopped.subset (List.mem_cons_of_mem _ hy)
        refine ⟨List.forall_mem_cons.mpr ⟨(hlt.trans_le le_top).ne, fun y hy => hfinite y (hrest y hy)⟩,
          top :: dropped, List.Perm.trans ?_ hlast, ?_⟩
        · refine (List.Perm.cons x ?_)
          exact List.perm_middle.trans (hpopped.append_right dropped)
        · intro y hy z hz
          have hyTop : key y ≤ key top := by
            rcases List.mem_cons.mp hy with rfl | hy
            · exact hlt.le
            · exact htop y (hrest y hy)
          rcases List.mem_cons.mp hz with rfl | hz
          · exact hyTop
          · exact hyTop.trans (hleast top (mem_of_pop hpop) z hz)
      case isFalse hge =>
        refine ⟨hfinite, x :: dropped, List.perm_middle.trans hlast, fun y hy z hz => ?_⟩
        rcases List.mem_cons.mp hz with rfl | hz
        · have hge : key top ≤ key z :=
            not_lt.mp fun hlt => hge ((hless z top).mpr ⟨hlt, hfinite top (mem_of_pop hpop)⟩)
          exact (htop y hy).trans hge
        · exact hleast y hy z hz

/-- **With `⊤` among the first `k` elements** the first ones are kept. -/
theorem foldl_keep_first (hkey : Keyed cmp key) (hless : ∀ a b, less a b = true ↔ key a < key b ∧ key b ≠ ⊤)
    (hk : 1 ≤ k) {x : α} (hx : x ∈ items.take k) (htop : key x = ⊤) (hlen : k ≤ items.length) :
    (items.foldl (keep cmp less k) []).Perm (items.take k) := by
  induction items using List.reverseRecOn with
  | nil => exact absurd hx (by simp)
  | append_singleton items y ih =>
    rw [List.length_append, List.length_singleton] at hlen
    by_cases hfull : k ≤ items.length
    · rw [List.take_append_of_le_length hfull] at hx ⊢
      have hperm := ih hx hfull
      rw [List.foldl_append, List.foldl_cons, List.foldl_nil]
      generalize items.foldl (keep cmp less k) [] = heap at hperm
      have hlarge : k ≤ heap.length := by
        rw [hperm.length_eq, List.length_take]
        omega
      obtain ⟨top, rest, hpop, hkeep⟩ := keep_of_full cmp less y hk hlarge
      -- a greatest element has the key of `x`
      have hgreatest : key top = ⊤ :=
        top_le_iff.mp (htop ▸ key_le_of_pop hkey hpop x (hperm.symm.subset hx))
      rw [hkeep, if_neg fun hlt => ((hless y top).mp hlt).2 hgreatest]
      exact hperm
    · rw [List.take_of_length_le (by rw [List.length_append, List.length_singleton]; omega)]
      exact foldl_keep_of_room cmp less (by rw [List.length_append, List.length_singleton]; omega)

/-- **The elements kept are the least ones** if and only if none of the first `k` has the key `⊤`, or all others
have. -/
theorem keeps_least_iff (hkey : Keyed cmp key) (hless : ∀ a b, less a b = true ↔ key a < key b ∧ key b ≠ ⊤)
    (hk : 1 ≤ k) (hperm : (items.foldl (keep cmp less k) [] ++ dropped).Perm items) :
    (∀ x ∈ items.foldl (keep cmp less k) [], ∀ y ∈ dropped, key x ≤ key y) ↔
      (∀ x ∈ items.take k, key x ≠ ⊤) ∨ ∀ x ∈ items.drop k, key x = ⊤ := by
  by_cases hfirst : ∀ x ∈ items.take k, key x ≠ ⊤
  · refine iff_of_true ?_ (.inl hfirst)
    obtain ⟨-, dropped', hperm', hleast⟩ := foldl_keep_least hkey hless hk hfirst
    have hdropped : dropped.Perm dropped' := (List.perm_append_left_iff _).mp (hperm.trans hperm'.symm)
    exact fun x hx y hy => hleast x hx y (hdropped.subset hy)
  · rw [or_iff_right hfirst]
    simp only [not_forall, not_not] at hfirst
    obtain ⟨x, hx, htop⟩ := hfirst
    by_cases hlen : k ≤ items.length
    · have hkept := foldl_keep_first hkey hless hk hx htop hlen
      have hdropped : dropped.Perm (items.drop k) := by
        refine (List.perm_append_left_iff (items.take k)).mp ?_
        rw [List.take_append_drop]
        exact (hkept.symm.append_right dropped).trans hperm
      constructor
      · intro hleast y hy
        exact top_le_iff.mp (htop ▸ hleast x (hkept.symm.subset hx) y (hdropped.symm.subset hy))
      · intro hall y _ z hz
        rw [hall z (hdropped.subset hz)]
        exact le_top
    · have hdrop : items.drop k = [] := List.drop_of_length_le (not_le.mp hlen).le
      have hdropped : dropped = [] := by
        have hkept := (foldl_keep_of_room cmp less (not_le.mp hlen).le).length_eq
        have hlen' := hperm.length_eq
        rw [List.length_append] at hlen'
        exact List.eq_nil_of_length_eq_zero (by omega)
      rw [hdrop, hdropped]
      exact iff_of_true (fun _ _ y hy => absurd hy List.not_mem_nil) fun y hy => absurd hy List.not_mem_nil

end Least

end Heap
