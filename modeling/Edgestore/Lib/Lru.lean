import Mathlib.Data.List.Nodup
import Mathlib.Algebra.Order.BigOperators.Group.List
import Mathlib.Algebra.GroupWithZero.Nat

/-!
# Maps that forget the least recently used entry

A map of a bounded number of entries, which are kept in the order of their last use. A new entry in a full map
pushes out the one that was used least recently.

## Main definitions

* `Lru`: the map
* `Lru.get`, `Lru.put`, `Lru.popLru`: its operations
* `Lru.weight`: the sum of a measure of the values

## Main results

* `Lru.get_entries_perm`: a use of an entry changes the order
* `Lru.weight_put`, `Lru.weight_put_full`: the weight after a new entry, in a map with room and in a full one
* `Lru.weight_popLru`: the weight without the last entry
-/

/-- A map of at most `cap` entries, no key twice, the most recently used first. -/
structure Lru (κ ν : Type) (cap : ℕ) where
  entries : List (κ × ν)
  nodup : (entries.map Prod.fst).Nodup
  length_le : entries.length ≤ cap

namespace Lru

variable {κ ν : Type} {cap : ℕ}

/-- A map without entries. -/
def empty : Lru κ ν cap := ⟨[], List.nodup_nil, Nat.zero_le cap⟩

/-- The sum of a measure of the values. -/
def weight (f : ν → ℕ) (c : Lru κ ν cap) : ℕ := (c.entries.map fun p => f p.2).sum

/-- The least recently used entry, and the map without it. -/
def popLru (c : Lru κ ν cap) : Option ((κ × ν) × Lru κ ν cap) :=
  c.entries.getLast?.map fun p => (p, {
    entries := c.entries.dropLast
    nodup := c.nodup.sublist ((List.dropLast_sublist c.entries).map Prod.fst)
    length_le := (List.dropLast_sublist c.entries).length_le.trans c.length_le })

variable [DecidableEq κ]

/-- An entry moves to the front when it is used. -/
def use [DecidableEq ν] (c : Lru κ ν cap) (p : κ × ν) (hp : p ∈ c.entries) : Lru κ ν cap where
  entries := p :: c.entries.erase p
  nodup := ((List.perm_cons_erase hp).map Prod.fst).nodup_iff.mp c.nodup
  length_le := (List.perm_cons_erase hp).length_eq.symm.trans_le c.length_le

/-- The value of a key, and the map after its use. -/
def get [DecidableEq ν] (c : Lru κ ν cap) (k : κ) : Option ν × Lru κ ν cap :=
  match h : c.entries.find? fun p => p.1 = k with
  | none => (none, c)
  | some p => (some p.2, c.use p (List.mem_of_find?_eq_some h))

/-- Put an entry in front. The last one is dropped if there are too many. -/
def put (c : Lru κ ν cap) (k : κ) (v : ν) : Lru κ ν cap where
  entries := ((k, v) :: c.entries.filter fun p => p.1 ≠ k).take cap
  nodup := by
    refine List.Nodup.sublist ((List.take_sublist _ _).map Prod.fst) (List.nodup_cons.mpr ⟨?_, ?_⟩)
    · intro hk
      obtain ⟨p, hp, hpk⟩ := List.mem_map.mp hk
      exact of_decide_eq_true (List.mem_filter.mp hp).2 hpk
    · exact c.nodup.sublist (List.filter_sublist.map Prod.fst)
  length_le := List.length_take_le _ _

variable {c c' : Lru κ ν cap} {k : κ} {v : ν} {f : ν → ℕ}

/-! ### Lookups -/

section

variable [DecidableEq ν]

/-- **A lookup** changes no more than the order of the entries. -/
theorem get_entries_perm (c : Lru κ ν cap) (k : κ) : (c.get k).2.entries.Perm c.entries := by
  unfold get
  split
  · exact List.Perm.refl _
  case h_2 p hp => exact (List.perm_cons_erase (List.mem_of_find?_eq_some hp)).symm

theorem mem_of_get (h : (c.get k).1 = some v) : (k, v) ∈ c.entries := by
  unfold get at h
  split at h
  · cases h
  case h_2 p hp =>
    cases h
    have hk := List.find?_some hp
    rw [← of_decide_eq_true hk]
    exact List.mem_of_find?_eq_some hp

theorem not_mem_of_get (h : (c.get k).1 = none) : ∀ p ∈ c.entries, p.1 ≠ k := by
  unfold get at h
  split at h
  case h_1 hnone => exact fun p hp hpk => List.find?_eq_none.mp hnone p hp (decide_eq_true hpk)
  · cases h

theorem weight_get (c : Lru κ ν cap) (k : κ) (f : ν → ℕ) : (c.get k).2.weight f = c.weight f :=
  ((c.get_entries_perm k).map fun p : κ × ν => f p.2).sum_eq

end

/-! ### New entries -/

theorem filter_of_new (hnew : ∀ p ∈ c.entries, p.1 ≠ k) : (c.entries.filter fun p => p.1 ≠ k) = c.entries :=
  List.filter_eq_self.mpr fun p hp => decide_eq_true (hnew p hp)

/-- What is in the map after an entry has been put. -/
theorem mem_put {p : κ × ν} (h : p ∈ (c.put k v).entries) : p = (k, v) ∨ p ∈ c.entries :=
  (List.mem_cons.mp (List.mem_of_mem_take h)).imp_right List.mem_of_mem_filter

theorem entries_put (hnew : ∀ p ∈ c.entries, p.1 ≠ k) (hroom : c.entries.length < cap) :
    (c.put k v).entries = (k, v) :: c.entries := by
  change ((k, v) :: c.entries.filter fun p => p.1 ≠ k).take cap = _
  rw [filter_of_new hnew, List.take_of_length_le]
  exact hroom

/-- **A new entry** in a map with room. -/
theorem weight_put (f : ν → ℕ) (v : ν) (hnew : ∀ p ∈ c.entries, p.1 ≠ k) (hroom : c.entries.length < cap) :
    (c.put k v).weight f = f v + c.weight f := by
  unfold weight
  rw [entries_put hnew hroom, List.map_cons, List.sum_cons]

/-- **A new entry** in a full map pushes out the last one. -/
theorem weight_put_full (f : ν → ℕ) (v : ν) (hnew : ∀ p ∈ c.entries, p.1 ≠ k) (hfull : c.entries.length = cap)
    {p : κ × ν} (hlast : c.entries.getLast? = some p) : (c.put k v).weight f + f p.2 = f v + c.weight f := by
  obtain ⟨init, hinit⟩ := List.getLast?_eq_some_iff.mp hlast
  have hlen : init.length + 1 = cap := by
    rw [← hfull, hinit, List.length_append, List.length_singleton]
  have hentries : (c.put k v).entries = (k, v) :: init := by
    change ((k, v) :: c.entries.filter fun p => p.1 ≠ k).take cap = _
    rw [filter_of_new hnew, hinit, ← hlen, List.take_succ_cons, List.take_left]
  unfold weight
  rw [hentries, hinit, List.map_cons, List.sum_cons, List.map_append, List.sum_append, List.map_singleton,
    List.sum_singleton]
  exact Nat.add_assoc (f v) _ _

/-! ### The last entry -/

omit [DecidableEq κ] in
theorem popLru_eq_some {p : κ × ν} (h : c.popLru = some (p, c')) : c.entries = c'.entries ++ [p] := by
  unfold popLru at h
  obtain ⟨q, hq, heq⟩ := Option.map_eq_some_iff.mp h
  cases heq
  obtain ⟨init, hinit⟩ := List.getLast?_eq_some_iff.mp hq
  change c.entries = c.entries.dropLast ++ [p]
  rw [hinit, List.dropLast_concat]

omit [DecidableEq κ] in
theorem popLru_eq_none : c.popLru = none ↔ c.entries = [] := by
  unfold popLru
  rw [Option.map_eq_none_iff, List.getLast?_eq_none_iff]

omit [DecidableEq κ] in
/-- **The weight** without the last entry. -/
theorem weight_popLru {p : κ × ν} (h : c.popLru = some (p, c')) (f : ν → ℕ) :
    c'.weight f + f p.2 = c.weight f := by
  unfold weight
  rw [popLru_eq_some h, List.map_append, List.sum_append, List.map_singleton, List.sum_singleton]

end Lru
