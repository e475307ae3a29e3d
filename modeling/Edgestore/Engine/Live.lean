import Edgestore.Engine.PageSpec

/-!
# The live pairs of a namespace

What is live in a namespace is what a range shows whose end is above every stored key. A range from the first key on
shows the live pairs in front of its end.

## Main definitions

* `Engine.storedEnd`: an end above every stored key
* `Engine.live`: the live pairs of a namespace

## Main results

* `Engine.visible_eq_live`: the live pairs in front of an end
-/

variable {X : Externals} {R : List SegmentId} {fs : Fs} {e : Engine} {ns : Bytes}

/-- A key is below enough bytes `0xFF`. -/
theorem lt_replicate_of_length_lt {key : Bytes} {n : ℕ} (h : key.length < n) :
    key < List.replicate n (255 : Byte) := by
  induction n generalizing key with
  | zero => exact absurd h (Nat.not_lt_zero _)
  | succ n ih =>
    cases key with
    | nil => exact List.nil_lt_cons _ _
    | cons b key =>
      rw [List.replicate_succ, List.cons_lt_cons_iff]
      rcases lt_or_eq_of_le (show b ≤ 255 from Fin.le_last b) with hb | hb
      · exact .inl hb
      · exact .inr ⟨hb, ih (Nat.lt_of_succ_lt_succ h)⟩

namespace Engine

/-- The entries of the memtable and of the registered segments. -/
def storedEntries (X : Externals) (fs : Fs) (e : Engine) : List (Bytes × MemEntry) :=
  e.memtable.entries ++ (layers X fs).flatten

/-- An end above every stored key. -/
def storedEnd (X : Externals) (fs : Fs) (e : Engine) : Bytes :=
  List.replicate (((e.storedEntries X fs).map fun p => p.1.length).foldr max 0 + 1) 255

/-- The live pairs of a namespace, in order of keys. -/
def live (X : Externals) (fs : Fs) (e : Engine) (ns : Bytes) : List (Bytes × Bytes) :=
  e.visible fs ns [] (e.storedEnd X fs)

theorem lt_storedEnd {p : Bytes × MemEntry} (hp : p ∈ e.storedEntries X fs) {key : Bytes}
    (hkey : p.1 = encoded ns key) : key < e.storedEnd X fs := by
  refine lt_replicate_of_length_lt (Nat.lt_succ_of_le ?_)
  have hle : ∀ (l : List ℕ), ∀ n ∈ l, n ≤ l.foldr max 0 := by
    intro l
    induction l with
    | nil => exact fun n hn => absurd hn List.not_mem_nil
    | cons m l ih =>
      intro n hn
      rcases List.mem_cons.mp hn with rfl | hn
      · exact le_max_left _ _
      · exact (ih n hn).trans (le_max_right _ _)
  have hlen : key.length ≤ p.1.length := by
    rw [hkey, encoded, List.length_append]
    exact Nat.le_add_left _ _
  exact hlen.trans (hle _ _ (List.mem_map_of_mem hp))

/-- What a range shows comes from a stored entry. -/
theorem lt_storedEnd_of_visible (h : StoreInv X R e.segmentStore fs) (hns : ns.length ≤ maxNsLen)
    {start «end» : Bytes} : ∀ q ∈ e.visible fs ns start «end», q.1 < e.storedEnd X fs := by
  intro q hq
  obtain ⟨v, hv⟩ := find_isSome_of_mem hq
  rw [find_visible h hns, Option.bind_eq_some_iff] at hv
  obtain ⟨entry, hentry, -⟩ := hv
  have hpick : find (e.segmentLayer fs (encoded ns start) (encoded ns «end»)) (encoded ns q.1) = some entry ∨
      find (e.memtable.range (encoded ns start) (encoded ns «end»)) (encoded ns q.1) = some entry := by
    cases hs : find (e.segmentLayer fs (encoded ns start) (encoded ns «end»)) (encoded ns q.1) with
    | none =>
      rw [hs] at hentry
      exact .inr hentry
    | some s =>
      cases hm : find (e.memtable.range (encoded ns start) (encoded ns «end»)) (encoded ns q.1) with
      | none =>
        rw [hs, hm] at hentry
        exact .inl hentry
      | some m =>
        rw [hs, hm, pick] at hentry
        split at hentry
        · exact .inr hentry
        · exact .inl hentry
  rcases hpick with hs | hm
  · obtain ⟨l, hl, heq⟩ := segmentLayer_eq h (encoded ns start) (encoded ns «end»)
    rw [heq, hl.sorted.find_filter] at hs
    have hfound := (Option.filter_eq_some_iff.mp hs).1
    obtain ⟨table, htable, hfind⟩ := List.mem_filterMap.mp (hl.newest _ _ hfound).1
    refine lt_storedEnd (p := (encoded ns q.1, entry)) (List.mem_append_right _ ?_) rfl
    exact List.mem_flatten.mpr ⟨table, htable, mem_of_find hfind⟩
  · refine lt_storedEnd (p := (encoded ns q.1, entry)) (List.mem_append_left _ ?_) rfl
    exact (List.mem_filter.mp (mem_of_find hm)).1

/-- **The live pairs in front of an end** are what a range to it shows. -/
theorem visible_eq_live (hone : OneRecordPerLsn X fs) (h : StoreInv X R e.segmentStore fs)
    (hns : ns.length ≤ maxNsLen) (start «end» : Bytes) :
    e.visible fs ns start «end» = (e.live X fs ns).filter fun q => start ≤ q.1 ∧ q.1 < «end» := by
  have hlive : e.live X fs ns = e.visible fs ns [] (max (e.storedEnd X fs) «end») := by
    rw [live, visible_prefix hone h hns (le_max_left _ «end»), List.filter_eq_self]
    intro q hq
    exact decide_eq_true (lt_storedEnd_of_visible h hns q hq)
  rw [hlive, visible_suffix hone h hns (not_lt.mp (List.not_lt_nil start)),
    visible_prefix hone h hns (le_max_right _ «end»), List.filter_filter]
  refine List.filter_congr fun q _ => ?_
  rw [Bool.decide_and]

end Engine
