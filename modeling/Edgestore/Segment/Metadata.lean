import Edgestore.Segment.Flush
import Mathlib.Order.Bounds.Basic
import Mathlib.Data.Int.ConditionallyCompleteOrder
import Mathlib.Order.ConditionallyCompleteLattice.Basic

/-!
# Metadata that describes a segment

The metadata of a segment bounds its keys and LSNs, counts its entries, and names a time by which all
of them are dead. The bounds are the keys and LSNs of entries, not merely above or below them.

## Main definitions

* `keysOf`, `lsnsOf`: the keys and the LSNs of entries
* `SegmentMeta.Describes`: metadata that is exact for the entries of a segment

## Main results

* `isLeast_minOr`, `isGreatest_maxOr`: the bounds that a flush computes
* `deathTimeFor_mono`: a longer cohort window lets no record die earlier
* `Flushed.describes`: a flush returns metadata that describes what it has written
-/

variable {X : Externals} {α : Type} [LinearOrder α]

/-! ### Least and greatest elements -/

omit [LinearOrder α] in
theorem setOf_mem_cons (a : α) (l : List α) : {b | b ∈ a :: l} = insert a {b | b ∈ l} := by
  ext b
  simp

theorem isLeast_foldl_min (l : List α) (a : α) : IsLeast (insert a {b | b ∈ l}) (l.foldl min a) := by
  induction l generalizing a with
  | nil =>
    rw [List.foldl_nil]
    simp [isLeast_singleton]
  | cons c l ih =>
    rw [List.foldl_cons, setOf_mem_cons, Set.insert_comm]
    rcases le_total a c with hac | hca
    · have hle : l.foldl min a ≤ c := ((ih a).2 (Set.mem_insert a _)).trans hac
      rw [min_eq_left hac]
      simpa [min_eq_right hle] using (ih a).insert c
    · have hle : l.foldl min c ≤ a := ((ih c).2 (Set.mem_insert c _)).trans hca
      rw [min_eq_right hca, Set.insert_comm]
      simpa [min_eq_right hle] using (ih c).insert a

/-- The least element of a list, if it has one. -/
theorem isLeast_minOr (d : α) {l : List α} (h : l ≠ []) : IsLeast {b | b ∈ l} (minOr d l) := by
  cases l with
  | nil => exact absurd rfl h
  | cons a l =>
    rw [setOf_mem_cons]
    exact isLeast_foldl_min l a

/-- The greatest element of a list, if it has one. -/
theorem isGreatest_maxOr (d : α) {l : List α} (h : l ≠ []) : IsGreatest {b | b ∈ l} (maxOr d l) := by
  cases l with
  | nil => exact absurd rfl h
  | cons a l =>
    rw [setOf_mem_cons]
    exact isLeast_foldl_min (α := αᵒᵈ) l a

/-! ### Death times -/

theorem saturateI64_mono : Monotone saturateI64 := fun _ _ h =>
  max_le_max le_rfl (min_le_min h le_rfl)

/-- A longer cohort window lets no record die earlier. -/
theorem deathTimeFor_mono {w w' : ℕ} (h : asI64 w ≤ asI64 w') (t : ℤ) (ttl : ℕ) :
    deathTimeFor t ttl w ≤ deathTimeFor t ttl w' := by
  unfold deathTimeFor
  split
  · exact le_rfl
  · refine saturateI64_mono (Int.add_le_add_left (saturateI64_mono ?_) t)
    exact Int.mul_le_mul_of_nonneg_right h (by decide)

/-! ### The entries of a segment -/

/-- The keys of entries. -/
def keysOf (l : List (Bytes × MemEntry)) : Set Bytes := {k | k ∈ l.map Prod.fst}

/-- The LSNs of entries. -/
def lsnsOf (l : List (Bytes × MemEntry)) : Set Lsn := {n | n ∈ l.map fun p => p.2.lsn}

@[simp] theorem keysOf_nil : keysOf [] = ∅ := by simp [keysOf]

@[simp] theorem lsnsOf_nil : lsnsOf [] = ∅ := by simp [lsnsOf]

theorem mem_keysOf {l : List (Bytes × MemEntry)} {p : Bytes × MemEntry} (h : p ∈ l) : p.1 ∈ keysOf l :=
  List.mem_map_of_mem h

theorem mem_lsnsOf {l : List (Bytes × MemEntry)} {p : Bytes × MemEntry} (h : p ∈ l) :
    p.2.lsn ∈ lsnsOf l := List.mem_map.mpr ⟨p, h, rfl⟩

theorem keysOf_concat (l : List (Bytes × MemEntry)) (p : Bytes × MemEntry) :
    keysOf (l ++ [p]) = insert p.1 (keysOf l) := by
  ext k
  simp [keysOf, or_comm]

theorem lsnsOf_concat (l : List (Bytes × MemEntry)) (p : Bytes × MemEntry) :
    lsnsOf (l ++ [p]) = insert p.2.lsn (lsnsOf l) := by
  ext n
  simp [lsnsOf, or_comm]

@[simp] theorem keysOf_map_storedEntry (l : List (Bytes × MemEntry)) :
    keysOf (l.map storedEntry) = keysOf l := by
  simp [keysOf, Function.comp_def]

@[simp] theorem lsnsOf_map_storedEntry (l : List (Bytes × MemEntry)) :
    lsnsOf (l.map storedEntry) = lsnsOf l := by
  simp [lsnsOf, Function.comp_def, storedEntry]

/-- **Metadata that describes entries**: the bounds are exact, the count is right, and no entry dies
after the death time, by the cohort window given. No entries have no bounds. -/
structure SegmentMeta.Describes (m : SegmentMeta) (window : ℕ) (l : List (Bytes × MemEntry)) : Prop where
  minKey : l ≠ [] → IsLeast (keysOf l) m.minKey
  maxKey : l ≠ [] → IsGreatest (keysOf l) m.maxKey
  minLsn : l ≠ [] → IsLeast (lsnsOf l) m.minLsn
  maxLsn : l ≠ [] → IsGreatest (lsnsOf l) m.maxLsn
  recordCount : m.recordCount = l.length
  deathTime : ∀ p ∈ l, deathTimeFor p.2.timestamp p.2.ttl window ≤ m.deathTime

variable {entries : List (Bytes × MemEntry)}

theorem isLeast_head (hs : KeySorted entries) (h : entries ≠ []) :
    IsLeast (keysOf entries) ((entries.head?.map Prod.fst).getD []) := by
  constructor
  · obtain ⟨p, l, rfl⟩ := List.exists_cons_of_ne_nil h
    exact mem_keysOf List.mem_cons_self
  · intro k hk
    obtain ⟨p, hp, rfl⟩ := List.mem_map.mp hk
    exact (minKey_le_of_sorted hs hp).1

theorem isGreatest_getLast (hs : KeySorted entries) (h : entries ≠ []) :
    IsGreatest (keysOf entries) ((entries.getLast?.map Prod.fst).getD []) := by
  constructor
  · rw [List.getLast?_eq_some_getLast h]
    exact mem_keysOf (List.getLast_mem h)
  · intro k hk
    obtain ⟨p, hp, rfl⟩ := List.mem_map.mp hk
    exact (minKey_le_of_sorted hs hp).2

/-- What is read back of entries has their keys, their LSNs and their death times. -/
theorem SegmentMeta.Describes.map_storedEntry {m : SegmentMeta} {window : ℕ}
    (h : m.Describes window entries) : m.Describes window (entries.map storedEntry) := by
  have hnil : entries.map storedEntry ≠ [] → entries ≠ [] := by simp
  refine ⟨fun hne => ?_, fun hne => ?_, fun hne => ?_, fun hne => ?_, ?_, fun p hp => ?_⟩
  · rw [keysOf_map_storedEntry]
    exact h.minKey (hnil hne)
  · rw [keysOf_map_storedEntry]
    exact h.maxKey (hnil hne)
  · rw [lsnsOf_map_storedEntry]
    exact h.minLsn (hnil hne)
  · rw [lsnsOf_map_storedEntry]
    exact h.maxLsn (hnil hne)
  · rw [h.recordCount, List.length_map]
  · obtain ⟨q, hq, rfl⟩ := List.mem_map.mp hp
    exact h.deathTime q hq

/-- The metadata that a flush computes describes the entries it is given. -/
theorem describes_segmentMetaFor {window window' : ℕ} (hs : KeySorted entries)
    (hw : asI64 window ≤ asI64 window') (id : SegmentId) (built : DatBuilder) (bucket nanos : ℤ) :
    (segmentMetaFor X id window' entries built bucket nanos).Describes window entries := by
  refine ⟨isLeast_head hs, isGreatest_getLast hs, fun hne => ?_, fun hne => ?_, rfl, fun p hp => ?_⟩
  · exact isLeast_minOr 0 (by simpa using hne)
  · exact isGreatest_maxOr 0 (by simpa using hne)
  · refine (deathTimeFor_mono hw _ _).trans ?_
    exact le_maxOr (List.mem_map_of_mem hp)

/-- **A flush** returns metadata that describes the segment it has written. -/
theorem Flushed.describes {id : SegmentId} {window window' : ℕ} {m : SegmentMeta} {files : SegmentFiles}
    (h : Flushed X id window' entries m files) (hw : asI64 window ≤ asI64 window') :
    m.Describes window files.table := by
  have hs : KeySorted entries := by
    rw [← keySorted_map_storedEntry, ← h.table]
    exact h.wf.sorted
  obtain ⟨bucket, nanos, hmade⟩ := h.made
  rw [h.table, hmade]
  exact (describes_segmentMetaFor hs hw id _ bucket nanos).map_storedEntry
