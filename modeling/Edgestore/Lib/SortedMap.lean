import Mathlib.Order.Lattice
import Mathlib.Data.List.Basic
import Mathlib.Tactic.Tauto

/-!
# Sorted association lists

A finite map over a linear order, as the list of its bindings in ascending key order. The order is
a field of the structure, so that iteration is always sorted and never meets a key twice.

## Main definitions

* `KeySorted l`: the bindings of `l` are strictly ascending by key
* `find l k`: the value bound to `k` in a list of bindings
* `SortedMap κ α`: finite maps, with `get`, `insert`, `erase`, `filter` and `insertAll`

## Main results

* `KeySorted.find_eq_some_iff`: in a sorted list, lookup is membership
* `SortedMap.get_insert`, `SortedMap.get_erase`, `SortedMap.get_filter`: the map laws
* `SortedMap.ext_get`: a map is determined by its lookups
-/

variable {κ α β : Type} [LinearOrder κ]

/-- The bindings are strictly ascending by key. -/
def KeySorted (l : List (κ × α)) : Prop := l.Pairwise fun a b => a.1 < b.1

instance (l : List (κ × α)) : Decidable (KeySorted l) :=
  inferInstanceAs (Decidable (l.Pairwise fun a b => a.1 < b.1))

/-- The value of the first binding of `k`. -/
def find : List (κ × α) → κ → Option α
  | [], _ => none
  | (k', v) :: l, k => if k' = k then some v else find l k

@[simp] theorem find_nil (k : κ) : find ([] : List (κ × α)) k = none := rfl

theorem find_cons (p : κ × α) (l : List (κ × α)) (k : κ) :
    find (p :: l) k = if p.1 = k then some p.2 else find l k := rfl

theorem find_append (l l' : List (κ × α)) (k : κ) :
    find (l ++ l') k = (find l k).or (find l' k) := by
  induction l with
  | nil => simp
  | cons p l ih =>
    rw [List.cons_append, find_cons, find_cons]
    split
    · rfl
    · exact ih

theorem mem_of_find {l : List (κ × α)} {k : κ} {v : α} (h : find l k = some v) : (k, v) ∈ l := by
  induction l with
  | nil => simp at h
  | cons p l ih =>
    rw [find_cons] at h
    split at h
    case isTrue hk =>
      obtain rfl : p.2 = v := by simpa using h
      exact hk ▸ List.mem_cons_self
    case isFalse => exact List.mem_cons_of_mem _ (ih h)

theorem find_eq_none_iff {l : List (κ × α)} {k : κ} : find l k = none ↔ ∀ p ∈ l, p.1 ≠ k := by
  induction l with
  | nil => simp
  | cons p l ih =>
    rw [find_cons]
    by_cases hk : p.1 = k
    · simp [hk]
    · simp [hk, ih]

theorem find_isSome_of_mem {l : List (κ × α)} {p : κ × α} (h : p ∈ l) : ∃ v, find l p.1 = some v := by
  cases hf : find l p.1 with
  | none => exact absurd rfl (find_eq_none_iff.mp hf p h)
  | some v => exact ⟨v, rfl⟩

theorem find_eq_none_of_lt {l : List (κ × α)} {k : κ} (h : ∀ p ∈ l, k < p.1) : find l k = none :=
  find_eq_none_iff.mpr fun p hp => (h p hp).ne'

@[simp] theorem keySorted_nil : KeySorted ([] : List (κ × α)) := List.Pairwise.nil

theorem keySorted_cons {p : κ × α} {l : List (κ × α)} :
    KeySorted (p :: l) ↔ (∀ q ∈ l, p.1 < q.1) ∧ KeySorted l := List.pairwise_cons

theorem KeySorted.sublist {l l' : List (κ × α)} (h : KeySorted l) (hs : l'.Sublist l) :
    KeySorted l' := List.Pairwise.sublist hs h

theorem KeySorted.filter {l : List (κ × α)} (h : KeySorted l) (p : κ × α → Bool) :
    KeySorted (l.filter p) := h.sublist List.filter_sublist

/-- In a sorted list, lookup is membership. -/
theorem KeySorted.find_eq_some_iff {l : List (κ × α)} (h : KeySorted l) {k : κ} {v : α} :
    find l k = some v ↔ (k, v) ∈ l := by
  refine ⟨mem_of_find, fun hm => ?_⟩
  induction l with
  | nil => simp at hm
  | cons p l ih =>
    rw [keySorted_cons] at h
    rw [find_cons]
    rcases List.mem_cons.mp hm with rfl | hm
    · simp
    · rw [if_neg (h.1 _ hm).ne]
      exact ih h.2 hm

/-- Filtering a sorted list filters its lookups. -/
theorem KeySorted.find_filter {l : List (κ × α)} (h : KeySorted l) (p : κ × α → Bool) (k : κ) :
    find (l.filter p) k = (find l k).filter fun v => p (k, v) := by
  ext v
  rw [(h.filter p).find_eq_some_iff, Option.filter_eq_some_iff, h.find_eq_some_iff,
    List.mem_filter]

theorem find_filter_key {l : List (κ × α)} (p : κ → Bool) (k : κ) :
    find (l.filter fun q => p q.1) k = if p k then find l k else none := by
  induction l with
  | nil => simp
  | cons q l ih =>
    rw [List.filter_cons, find_cons]
    by_cases hk : q.1 = k
    · subst hk
      by_cases hp : p q.1
      · simp [hp, find_cons]
      · simpa [hp] using ih
    · by_cases hp : p q.1
      · simp only [hp, if_true, find_cons, hk, if_false]
        exact ih
      · simp only [hp, hk, if_false]
        exact ih

/-- Two sorted lists with the same lookups are equal. -/
theorem KeySorted.ext {l l' : List (κ × α)} (h : KeySorted l) (h' : KeySorted l')
    (hf : ∀ k, find l k = find l' k) : l = l' := by
  have hmem : ∀ {l l' : List (κ × α)}, KeySorted l → KeySorted l' →
      (∀ k, find l k = find l' k) → ∀ p ∈ l, p ∈ l' := by
    intro l l' h h' hf p hp
    exact mem_of_find ((hf p.1).symm.trans (h.find_eq_some_iff.mpr hp))
  induction l generalizing l' with
  | nil =>
    cases l' with
    | nil => rfl
    | cons q l' => exact absurd (hmem h' h (fun k => (hf k).symm) q (by simp)) (by simp)
  | cons p l ih =>
    cases l' with
    | nil => exact absurd (hmem h h' hf p (by simp)) (by simp)
    | cons q l' =>
      have hp := hmem h h' hf p (by simp)
      have hq := hmem h' h (fun k => (hf k).symm) q (by simp)
      rw [keySorted_cons] at h h'
      have hpq : p = q := by
        rcases List.mem_cons.mp hp with hp | hp
        · exact hp
        · rcases List.mem_cons.mp hq with hq | hq
          · exact hq.symm
          · exact absurd ((h.1 _ hq).trans (h'.1 _ hp)) (lt_irrefl _)
      subst hpq
      rw [ih h.2 h'.2]
      intro k
      have hk := hf k
      rw [find_cons, find_cons] at hk
      by_cases hpk : p.1 = k
      · subst hpk
        rw [find_eq_none_of_lt h.1, find_eq_none_of_lt h'.1]
      · simpa [hpk] using hk

/-- Insert a binding into a sorted list, replacing the binding of the same key. -/
def insertEntry (k : κ) (v : α) : List (κ × α) → List (κ × α)
  | [] => [(k, v)]
  | (k', v') :: l =>
    if k < k' then (k, v) :: (k', v') :: l
    else if k = k' then (k, v) :: l
    else (k', v') :: insertEntry k v l

theorem find_insertEntry (l : List (κ × α)) (k : κ) (v : α) (j : κ) :
    find (insertEntry k v l) j = if k = j then some v else find l j := by
  induction l with
  | nil => rfl
  | cons p l ih =>
    rw [insertEntry]
    split
    · rfl
    · split
      case isTrue hk =>
        subst hk
        simp only [find_cons]
        split <;> rfl
      case isFalse hk =>
        simp only [find_cons, ih]
        by_cases hp : p.1 = j
        · subst hp
          simp [hk]
        · simp [hp]

theorem length_insertEntry_le (l : List (κ × α)) (k : κ) (v : α) :
    (insertEntry k v l).length ≤ l.length + 1 := by
  induction l with
  | nil => exact Nat.le_refl 1
  | cons p l ih =>
    rw [insertEntry]
    split
    · exact Nat.le_refl _
    · split
      · exact Nat.le_succ _
      · exact Nat.succ_le_succ ih

theorem mem_insertEntry {l : List (κ × α)} {k : κ} {v : α} {p : κ × α}
    (h : p ∈ insertEntry k v l) : p = (k, v) ∨ p ∈ l := by
  induction l with
  | nil => simpa [insertEntry] using h
  | cons q l ih =>
    rw [insertEntry] at h
    split at h
    · simpa using h
    · split at h
      · rcases List.mem_cons.mp h with h | h
        · exact .inl h
        · exact .inr (List.mem_cons_of_mem _ h)
      · rcases List.mem_cons.mp h with h | h
        · exact .inr (h ▸ List.mem_cons_self)
        · exact (ih h).imp_right (List.mem_cons_of_mem _)

/-- Insertion passes by smaller keys. -/
theorem insertEntry_append {pre l : List (κ × α)} {k : κ} (h : ∀ p ∈ pre, p.1 < k) (v : α) :
    insertEntry k v (pre ++ l) = pre ++ insertEntry k v l := by
  induction pre with
  | nil => rfl
  | cons p pre ih =>
    have hp : p.1 < k := h p (by simp)
    rw [List.cons_append, insertEntry, if_neg hp.not_gt, if_neg hp.ne',
      ih fun q hq => h q (List.mem_cons_of_mem _ hq)]
    rfl

theorem keySorted_insertEntry {l : List (κ × α)} (h : KeySorted l) (k : κ) (v : α) :
    KeySorted (insertEntry k v l) := by
  induction l with
  | nil => simp [insertEntry, keySorted_cons]
  | cons p l ih =>
    rw [keySorted_cons] at h
    rw [insertEntry]
    split
    case isTrue hlt =>
      refine keySorted_cons.mpr ⟨fun q hq => ?_, keySorted_cons.mpr h⟩
      rcases List.mem_cons.mp hq with rfl | hq
      · exact hlt
      · exact hlt.trans (h.1 q hq)
    case isFalse hlt =>
      split
      case isTrue hk => exact keySorted_cons.mpr ⟨fun q hq => hk ▸ h.1 q hq, h.2⟩
      case isFalse hk =>
        refine keySorted_cons.mpr ⟨fun q hq => ?_, ih h.2⟩
        rcases mem_insertEntry hq with rfl | hq
        · exact lt_of_le_of_ne (not_lt.mp hlt) (Ne.symm hk)
        · exact h.1 q hq

/-! ### Finite maps -/

/-- A finite map: its bindings in ascending key order. -/
structure SortedMap (κ α : Type) [LinearOrder κ] where
  entries : List (κ × α)
  sorted : KeySorted entries

namespace SortedMap

instance [DecidableEq α] : DecidableEq (SortedMap κ α) := fun a b =>
  decidable_of_iff (a.entries = b.entries) (by cases a; cases b; simp)

/-- The empty map. -/
def empty : SortedMap κ α := ⟨[], keySorted_nil⟩

/-- The value bound to a key. -/
def get (m : SortedMap κ α) (k : κ) : Option α := find m.entries k

/-- Bind `k` to `v`, replacing what it was bound to. -/
def insert (m : SortedMap κ α) (k : κ) (v : α) : SortedMap κ α :=
  ⟨insertEntry k v m.entries, keySorted_insertEntry m.sorted k v⟩

/-- The bindings that meet a test. -/
def filter (m : SortedMap κ α) (p : κ × α → Bool) : SortedMap κ α :=
  ⟨m.entries.filter p, m.sorted.filter p⟩

/-- Drop the binding of `k`. -/
def erase (m : SortedMap κ α) (k : κ) : SortedMap κ α := m.filter fun p => p.1 ≠ k

/-- Insert bindings one after the other. -/
def insertAll (m : SortedMap κ α) (l : List (κ × α)) : SortedMap κ α :=
  l.foldl (fun m p => m.insert p.1 p.2) m

/-- The number of bindings. -/
def size (m : SortedMap κ α) : ℕ := m.entries.length

variable (m : SortedMap κ α) (k j : κ) (v : α)

@[simp] theorem get_empty : (empty : SortedMap κ α).get k = none := rfl

theorem get_insert : (m.insert k v).get j = if k = j then some v else m.get j :=
  find_insertEntry m.entries k v j

@[simp] theorem get_insert_self : (m.insert k v).get k = some v := by simp [get_insert]

theorem get_insert_eq_update [DecidableEq κ] : (m.insert k v).get = Function.update m.get k (some v) := by
  funext j
  rw [get_insert]
  by_cases hk : k = j
  · rw [if_pos hk, ← hk, Function.update_self]
  · rw [if_neg hk, Function.update_of_ne (Ne.symm hk)]

theorem get_filter (p : κ × α → Bool) :
    (m.filter p).get k = (m.get k).filter fun v => p (k, v) := m.sorted.find_filter p k

theorem get_erase : (m.erase k).get j = if k = j then none else m.get j := by
  rw [erase, get_filter]
  by_cases h : k = j
  · subst h
    cases m.get k <;> simp
  · cases m.get j <;> simp [Ne.symm h, h]

theorem mem_entries_iff {p : κ × α} : p ∈ m.entries ↔ m.get p.1 = some p.2 :=
  m.sorted.find_eq_some_iff.symm

variable {m k v} in
theorem mem_entries_of_get (h : m.get k = some v) : (k, v) ∈ m.entries := mem_of_find h

/-- A map is determined by its lookups. -/
theorem ext_get {m m' : SortedMap κ α} (h : ∀ k, m.get k = m'.get k) : m = m' := by
  cases m
  cases m'
  simp only [mk.injEq]
  exact KeySorted.ext ‹_› ‹_› h

/-- A binding above all others goes to the end. -/
theorem entries_insert_of_lt {m : SortedMap κ α} {k : κ} (h : ∀ p ∈ m.entries, p.1 < k) (v : α) :
    (m.insert k v).entries = m.entries ++ [(k, v)] := by
  have heq := insertEntry_append (l := []) h v
  rwa [List.append_nil] at heq

/-- Replacing the binding of a greatest key leaves the others in front of it. -/
theorem entries_insert_of_top {m : SortedMap κ α} {pre : List (κ × α)} {k : κ} {v : α}
    (heq : m.entries = pre ++ [(k, v)]) (hlt : ∀ p ∈ pre, p.1 < k) (w : α) :
    (m.insert k w).entries = pre ++ [(k, w)] := by
  change insertEntry k w m.entries = _
  rw [heq, insertEntry_append hlt]
  simp [insertEntry]

/-- Erasing the first binding leaves the others. -/
theorem entries_erase_of_cons {m : SortedMap κ α} {p : κ × α} {rest : List (κ × α)}
    (heq : m.entries = p :: rest) : (m.erase p.1).entries = rest := by
  have hsorted := m.sorted
  rw [heq, keySorted_cons] at hsorted
  change m.entries.filter _ = rest
  rw [heq, List.filter_cons_of_neg (by simp), List.filter_eq_self]
  intro q hq
  simpa using (hsorted.1 q hq).ne'

/-- Inserting bindings: the last binding of a key wins. -/
theorem get_insertAll (l : List (κ × α)) :
    (m.insertAll l).get k = (find l.reverse k).or (m.get k) := by
  induction l generalizing m with
  | nil => rfl
  | cons p l ih =>
    change ((m.insert p.1 p.2).insertAll l).get k = _
    rw [ih, get_insert, List.reverse_cons, find_append, find_cons, find_nil]
    by_cases h : p.1 = k
    · cases find l.reverse k <;> simp [h]
    · cases find l.reverse k <;> simp [h]

end SortedMap
