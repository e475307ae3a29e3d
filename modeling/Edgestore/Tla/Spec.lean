import Edgestore.Lib.Recovery
import Edgestore.Types
import Mathlib.Data.Set.Insert
import Mathlib.Logic.Relation

/-!
# The TLA+ specification

`edgestore.tla` says how writes move from the WAL through the memtable into segments, with atomic actions and a single
writer. A model checker has looked at a few keys and a few LSNs; here keys and values are arbitrary types, and the bound
on LSNs is any number.

## Main definitions

* `Tla.State`: the variables `wal`, `memtable`, `segments`, `flushed` and `lsn`
* `Tla.Next N`: the actions `Put`, `Delete`, `Flush`, `Compact` and `Restart`, with `MaxLsn = N`
* `Tla.AllInvariants`: the invariants that the model checker is given
* `Tla.Inv`: the invariant that is inductive
* `Tla.Spares N k`: the actions other than a write of the key `k`

## Main results

* `Tla.Inv.newest_next`: they keep the newest entry of the key
* `Tla.allInvariants_of_reachable`: the invariants hold in every behavior, and a put is read until the key is
  written again
-/

namespace Tla

open WriteBuffer

variable {K V : Type}

/-! ## The variables -/

/-- A value under its LSN. A delete has the value "tombstone", which is `none` here. -/
structure Entry (V : Type) where
  value : Option V
  lsn : ℕ
  op : Operation

/-- A record of the WAL. -/
structure Record (K V : Type) extends Entry V where
  key : K

/-- A segment: a snapshot of the memtable, and its range of LSNs. `none` is `ABSENT`. -/
structure Segment (K V : Type) where
  entries : K → Option (Entry V)
  minLsn : ℕ
  maxLsn : ℕ

/-- The variables. -/
structure State (K V : Type) where
  wal : List (Record K V)
  memtable : K → Option (Entry V)
  segments : Set (Segment K V)
  flushed : ℕ
  lsn : ℕ

/-- The initial state. -/
def init : State K V := ⟨[], fun _ => none, ∅, 0, 0⟩

/-! ## What is visible -/

/-- A segment with a put of the key: an element of `matching`. -/
def State.Matching (s : State K V) (k : K) (seg : Segment K V) : Prop :=
  seg ∈ s.segments ∧ ∃ e, seg.entries k = some e ∧ e.op = .put

/-- The LSN of the entry of a key. -/
def Segment.lsnOf (seg : Segment K V) (k : K) : ℕ := ((seg.entries k).map Entry.lsn).getD 0

/-- A segment that `SegmentGet` may choose: no other has a put with a higher LSN. -/
def State.IsBest (s : State K V) (k : K) (seg : Segment K V) : Prop :=
  s.Matching k seg ∧ ∀ other, s.Matching k other → other.lsnOf k ≤ seg.lsnOf k

open Classical in
/-- `SegmentGet`: the latest value across all segments, the highest LSN wins. -/
noncomputable def State.segmentGet (s : State K V) (k : K) : Option V :=
  if h : ∃ best, s.IsBest k best then (h.choose.entries k).bind Entry.value else none

/-- `LiveGet`: the memtable wins. -/
noncomputable def State.liveGet (s : State K V) (k : K) : Option V :=
  match s.memtable k with
  | some e => if e.op = .put then e.value else none
  | none => s.segmentGet k

/-- A record that is chosen for a key: no other record of the key has a higher LSN. -/
def IsLast (wal : List (Record K V)) (k : K) (r : Record K V) : Prop :=
  r ∈ wal ∧ r.key = k ∧ ∀ r' ∈ wal, r'.key = k → r'.lsn ≤ r.lsn

open Classical in
/-- The record of a key with the highest LSN. -/
noncomputable def lastRecord (wal : List (Record K V)) (k : K) : Option (Record K V) :=
  if h : ∃ r, IsLast wal k r then some h.choose else none

/-! ## The actions -/

namespace State

/-- A write of an entry under the next LSN. -/
def write [DecidableEq K] (s : State K V) (k : K) (value : Option V) (op : Operation) : State K V :=
  { s with
    lsn := s.lsn + 1
    wal := s.wal ++ [⟨⟨value, s.lsn + 1, op⟩, k⟩]
    memtable := Function.update s.memtable k (some ⟨value, s.lsn + 1, op⟩) }

/-- `Put(k, v)`. -/
def put [DecidableEq K] (s : State K V) (k : K) (v : V) : State K V := s.write k (some v) .put

/-- `Delete(k)`. -/
def delete [DecidableEq K] (s : State K V) (k : K) : State K V := s.write k none .delete

/-- `Flush`: the memtable becomes a segment, and the WAL is cleared. -/
def flush (s : State K V) : State K V :=
  { s with
    segments := insert ⟨s.memtable, s.flushed + 1, s.lsn⟩ s.segments
    flushed := s.lsn
    wal := []
    memtable := fun _ => none }

/-- The entry with the higher LSN. -/
def newer (e₁ e₂ : Option (Entry V)) : Option (Entry V) :=
  match e₁, e₂ with
  | none, none => none
  | none, some e₂ => some e₂
  | some e₁, none => some e₁
  | some e₁, some e₂ => if e₁.lsn ≥ e₂.lsn then some e₁ else some e₂

/-- Two segments as one. -/
def merge (seg₁ seg₂ : Segment K V) : Segment K V where
  entries := fun k => newer (seg₁.entries k) (seg₂.entries k)
  minLsn := if seg₁.minLsn < seg₂.minLsn then seg₁.minLsn else seg₂.minLsn
  maxLsn := if seg₁.maxLsn > seg₂.maxLsn then seg₁.maxLsn else seg₂.maxLsn

/-- `Compact`, of two segments that are chosen. -/
def compact (s : State K V) (seg₁ seg₂ : Segment K V) : State K V :=
  { s with segments := insert (merge seg₁ seg₂) (s.segments \ {seg₁, seg₂}) }

/-- `Restart`: the WAL is replayed. -/
noncomputable def restart (s : State K V) : State K V :=
  { s with memtable := fun k => (lastRecord s.wal k).map Record.toEntry }

end State

/-- **The next-state relation**, with a bound on LSNs. The specification chooses the segments of a compaction in some
fixed way; here they may be any two. -/
inductive Next [DecidableEq K] (N : ℕ) : State K V → State K V → Prop
  | put {s : State K V} (k : K) (v : V) (h : s.lsn < N) : Next N s (s.put k v)
  | delete {s : State K V} (k : K) (h : s.lsn < N) : Next N s (s.delete k)
  | flush {s : State K V} (h : s.flushed < s.lsn) : Next N s s.flush
  | compact {s : State K V} {seg₁ seg₂ : Segment K V} (h₁ : seg₁ ∈ s.segments) (h₂ : seg₂ ∈ s.segments)
      (hne : seg₁ ≠ seg₂) : Next N s (s.compact seg₁ seg₂)
  | restart {s : State K V} (h : s.wal ≠ []) : Next N s s.restart

/-- The states of behaviors. Steps that leave all variables are no steps here. -/
def Reachable [DecidableEq K] (N : ℕ) (s : State K V) : Prop := Relation.ReflTransGen (Next N) init s

/-! ## The invariants of the specification -/

/-- An LSN that has been assigned. -/
def IsLsn (N n : ℕ) : Prop := 1 ≤ n ∧ n ≤ N

/-- `TypeOK`, as far as the types do not say it. -/
structure TypeOK (N : ℕ) (s : State K V) : Prop where
  wal : ∀ r ∈ s.wal, IsLsn N r.lsn
  memtable : ∀ k, ∀ e ∈ s.memtable k, IsLsn N e.lsn
  segments : ∀ seg ∈ s.segments, seg.minLsn ≤ N ∧ seg.maxLsn ≤ N ∧ seg.minLsn ≤ seg.maxLsn
  flushed : s.flushed ≤ N
  lsn : s.lsn ≤ N

/-- `NoDataLoss`: if the last record of a key in the WAL is a put, its value is read. -/
def NoDataLoss (s : State K V) : Prop :=
  ∀ k, ∀ r ∈ lastRecord s.wal k, r.op = .put → s.liveGet k = r.value

/-- `FlushSafety`: the records of the WAL have not been flushed. -/
def FlushSafety (s : State K V) : Prop := ∀ r ∈ s.wal, s.flushed < r.lsn

/-- `LsnMonotonic`: LSNs grow along the WAL. -/
def LsnMonotonic (s : State K V) : Prop := s.wal.Pairwise fun r r' => r.lsn < r'.lsn

/-- `SegmentLsnOrder`: the entries of a segment are in its range of LSNs. -/
def SegmentLsnOrder (s : State K V) : Prop :=
  ∀ seg ∈ s.segments, ∀ k, ∀ e ∈ seg.entries k, seg.minLsn ≤ e.lsn ∧ e.lsn ≤ seg.maxLsn

/-- `AllInvariants`. -/
structure AllInvariants (N : ℕ) (s : State K V) : Prop where
  typeOK : TypeOK N s
  noDataLoss : NoDataLoss s
  flushSafety : FlushSafety s
  lsnMonotonic : LsnMonotonic s
  segmentLsnOrder : SegmentLsnOrder s

/-! ## The records of the WAL -/

section Wal

variable {wal : List (Record K V)} {k : K} {r r' : Record K V}

/-- The records of a WAL under their keys. -/
def keyed (wal : List (Record K V)) : List (K × Record K V) := wal.map fun r => (r.key, r)

theorem mem_keyed : (k, r) ∈ keyed wal ↔ r ∈ wal ∧ r.key = k := by
  simp only [keyed, List.mem_map, Prod.mk.injEq]
  constructor
  · rintro ⟨r', hr', rfl, rfl⟩
    exact ⟨hr', rfl⟩
  · rintro ⟨hr, rfl⟩
    exact ⟨r, hr, rfl, rfl⟩

theorem increasing_keyed (h : wal.Pairwise fun r r' => r.lsn < r'.lsn) :
    Increasing (fun r => r.lsn) (keyed wal) := List.pairwise_map.mpr h

/-- Two last records of a key are the same, if LSNs grow. -/
theorem IsLast.unique (h : IsLast wal k r) (h' : IsLast wal k r') (hwal : wal.Pairwise fun r r' => r.lsn < r'.lsn) :
    r = r' := by
  have hlsn : r.lsn = r'.lsn := (h'.2.2 r h.1 h.2.1).antisymm (h.2.2 r' h'.1 h'.2.1)
  have hmem : (k, r) ∈ keyed wal := mem_keyed.mpr ⟨h.1, h.2.1⟩
  have hmem' : (k, r') ∈ keyed wal := mem_keyed.mpr ⟨h'.1, h'.2.1⟩
  exact congrArg Prod.snd ((increasing_keyed hwal).eq_of_stamp hmem hmem' hlsn)

/-- The last record of a key, if LSNs grow. -/
theorem lastRecord_eq_some (hwal : wal.Pairwise fun r r' => r.lsn < r'.lsn) (h : IsLast wal k r) :
    lastRecord wal k = some r := by
  have hchosen : ∃ r, IsLast wal k r := ⟨r, h⟩
  rw [lastRecord, dif_pos hchosen]
  exact congrArg some (hchosen.choose_spec.unique h hwal)

theorem lastRecord_eq_none (h : ∀ r ∈ wal, r.key ≠ k) : lastRecord wal k = none :=
  dif_neg fun ⟨r, hr, hkey, _⟩ => h r hr hkey

variable [DecidableEq K]

/-- **The last record of a key** is the one that is written last, if LSNs grow. -/
theorem lastRecord_eq (hwal : wal.Pairwise fun r r' => r.lsn < r'.lsn) (k : K) :
    lastRecord wal k = latestAfter (fun _ => none) (keyed wal) k := by
  cases hlatest : latestAfter (fun _ => none) (keyed wal) k with
  | none =>
    -- a record of the key would have been written
    refine dif_neg ?_
    rintro ⟨r, hr, hkey, -⟩
    obtain ⟨r', hr', -⟩ := (increasing_keyed hwal).latest (m := fun _ => none) (mem_keyed.mpr ⟨hr, hkey⟩)
    rw [hlatest] at hr'
    cases hr'
  | some r =>
    have hmem : (k, r) ∈ keyed wal := (mem_of_latestAfter hlatest).resolve_right fun h => (by cases h.2)
    have hlast : IsLast wal k r := by
      refine ⟨(mem_keyed.mp hmem).1, (mem_keyed.mp hmem).2, fun r' hr' hkey => ?_⟩
      obtain ⟨v, hv, -, hcovers⟩ := (increasing_keyed hwal).latest (m := fun _ => none) (mem_keyed.mpr ⟨hr', hkey⟩)
      rw [hlatest, Option.some_inj] at hv
      rw [hv]
      exact hcovers.le
    exact lastRecord_eq_some hwal hlast

/-- A record that is appended is the last one of its key. -/
theorem lastRecord_concat (hwal : (wal ++ [r]).Pairwise fun r r' => r.lsn < r'.lsn) (k : K) :
    lastRecord (wal ++ [r]) k = if k = r.key then some r else lastRecord wal k := by
  have hwal' : wal.Pairwise fun r r' => r.lsn < r'.lsn := (List.pairwise_append.mp hwal).1
  have hkeyed : keyed (wal ++ [r]) = keyed wal ++ [(r.key, r)] := List.map_append
  rw [lastRecord_eq hwal, lastRecord_eq hwal', hkeyed, latestAfter_concat, Function.update_apply]

end Wal

/-! ## Merged segments -/

section Merge

variable {k : K} {e : Entry V} {e₁ e₂ : Option (Entry V)} {seg₁ seg₂ : Segment K V} {top : ℕ}

namespace State

/-- The newer entry is one of the two. -/
theorem mem_of_newer (h : e ∈ newer e₁ e₂) : e ∈ e₁ ∨ e ∈ e₂ := by
  cases e₁ <;> cases e₂
  · cases h
  · exact .inr h
  · exact .inl h
  · rw [newer] at h
    split at h
    · exact .inl h
    · exact .inr h

/-- The newer entry has the higher LSN. -/
theorem newer_covers (h : e ∈ e₁ ∨ e ∈ e₂) : ∃ e', e' ∈ newer e₁ e₂ ∧ e.lsn ≤ e'.lsn := by
  cases e₁ with
  | none =>
    cases e₂ with
    | none => rcases h with h | h <;> cases h
    | some e₂ =>
      obtain rfl : e₂ = e := Option.some_inj.mp (h.resolve_left fun h => by cases h)
      exact ⟨e₂, rfl, le_rfl⟩
  | some e₁ =>
    cases e₂ with
    | none =>
      obtain rfl : e₁ = e := Option.some_inj.mp (h.resolve_right fun h => by cases h)
      exact ⟨e₁, rfl, le_rfl⟩
    | some e₂ =>
      rw [newer]
      by_cases hle : e₁.lsn ≥ e₂.lsn
      · rw [if_pos hle]
        rcases h with h | h <;> obtain rfl := Option.some_inj.mp h
        · exact ⟨e₁, rfl, le_rfl⟩
        · exact ⟨e₁, rfl, hle⟩
      · rw [if_neg hle]
        rcases h with h | h <;> obtain rfl := Option.some_inj.mp h
        · exact ⟨e₂, rfl, (not_le.mp hle).le⟩
        · exact ⟨e₂, rfl, le_rfl⟩

end State

end Merge

/-! ## The inductive invariant -/

/-- The range of a segment: it is not empty, it has the LSNs of the entries, and nothing above it was flushed. -/
structure Segment.Ranged (seg : Segment K V) (top : ℕ) : Prop where
  le : seg.minLsn ≤ seg.maxLsn
  le_top : seg.maxLsn ≤ top
  entries : ∀ k, ∀ e ∈ seg.entries k, seg.minLsn ≤ e.lsn ∧ e.lsn ≤ seg.maxLsn

/-- Entries of a key under one LSN are the same in all segments. -/
def OneEntry (segments : Set (Segment K V)) : Prop :=
  ∀ seg ∈ segments, ∀ seg' ∈ segments, ∀ k, ∀ e ∈ seg.entries k, ∀ e' ∈ seg'.entries k, e.lsn = e'.lsn → e = e'

/-- **The inductive invariant**: the memtable is what the WAL replays to, the WAL has the LSNs that have not been
flushed, and the segments have those that have. -/
structure Inv (N : ℕ) (s : State K V) : Prop where
  monotonic : LsnMonotonic s
  unflushed : FlushSafety s
  le_lsn : ∀ r ∈ s.wal, r.lsn ≤ s.lsn
  replayed : s.restart = s
  flushed_le : s.flushed ≤ s.lsn
  lsn_le : s.lsn ≤ N
  ranged : ∀ seg ∈ s.segments, seg.Ranged s.flushed
  one : OneEntry s.segments

namespace Inv

variable {N : ℕ} {s : State K V} {k : K} {e : Entry V}

theorem memtable_eq (h : Inv N s) (k : K) : s.memtable k = (lastRecord s.wal k).map Record.toEntry := by
  have hmem : s.restart.memtable k = s.memtable k := by rw [h.replayed]
  exact hmem.symm

/-- What is in the memtable has not been flushed. -/
theorem memtable_lsn (h : Inv N s) (he : e ∈ s.memtable k) : s.flushed < e.lsn ∧ e.lsn ≤ s.lsn := by
  rw [h.memtable_eq k, lastRecord] at he
  split at he
  case isTrue hlast =>
    obtain ⟨hr, -, -⟩ := hlast.choose_spec
    obtain rfl : hlast.choose.toEntry = e := Option.some_inj.mp he
    exact ⟨h.unflushed _ hr, h.le_lsn _ hr⟩
  case isFalse => cases he

/-- What is in a segment has been flushed. -/
theorem segment_lsn (h : Inv N s) {seg : Segment K V} (hseg : seg ∈ s.segments) (he : e ∈ seg.entries k) :
    e.lsn ≤ s.flushed := ((h.ranged seg hseg).entries k e he).2.trans (h.ranged seg hseg).le_top

theorem init : Inv N (init : State K V) where
  monotonic := List.Pairwise.nil
  unflushed := fun _ hr => absurd hr List.not_mem_nil
  le_lsn := fun _ hr => absurd hr List.not_mem_nil
  replayed := by
    have hnone : (fun k => (lastRecord ([] : List (Record K V)) k).map Record.toEntry) = fun _ => none :=
      funext fun k => congrArg (Option.map Record.toEntry) (lastRecord_eq_none fun _ hr => absurd hr List.not_mem_nil)
    exact congrArg (fun m => ({ Tla.init with memtable := m } : State K V)) hnone
  flushed_le := le_rfl
  lsn_le := Nat.zero_le N
  ranged := fun _ hseg => absurd hseg (Set.notMem_empty _)
  one := fun _ hseg => absurd hseg (Set.notMem_empty _)

/-- **A write** appends the next LSN. -/
theorem write [DecidableEq K] (h : Inv N s) (hlsn : s.lsn < N) (k : K) (value : Option V) (op : Operation) :
    Inv N (s.write k value op) := by
  have hmonotonic : LsnMonotonic (s.write k value op) := by
    refine List.pairwise_append.mpr ⟨h.monotonic, List.pairwise_singleton .., fun r hr r' hr' => ?_⟩
    rw [List.mem_singleton.mp hr']
    exact Nat.lt_succ_of_le (h.le_lsn r hr)
  refine ⟨hmonotonic, fun r hr => ?_, fun r hr => ?_, ?_, h.flushed_le.trans (Nat.le_succ _), hlsn, h.ranged, h.one⟩
  · rcases List.mem_append.mp hr with hr | hr
    · exact h.unflushed r hr
    · rw [List.mem_singleton.mp hr]
      exact Nat.lt_succ_of_le h.flushed_le
  · rcases List.mem_append.mp hr with hr | hr
    · exact (h.le_lsn r hr).trans (Nat.le_succ _)
    · rw [List.mem_singleton.mp hr]
      exact le_rfl
  · -- the record that is appended is the entry that is inserted
    have hmem : (fun k' => (lastRecord (s.write k value op).wal k').map Record.toEntry) =
        (s.write k value op).memtable := by
      funext k'
      refine (congrArg (Option.map Record.toEntry) (lastRecord_concat hmonotonic k')).trans ?_
      show Option.map _ (if k' = k then _ else _) = Function.update s.memtable k _ k'
      rw [Function.update_apply, apply_ite (Option.map Record.toEntry), h.memtable_eq k']
      rfl
    exact congrArg (fun m => { s.write k value op with memtable := m }) hmem

/-- **A flush** makes a segment of what has not been flushed. -/
theorem flush (h : Inv N s) (hflush : s.flushed < s.lsn) : Inv N s.flush where
  monotonic := List.Pairwise.nil
  unflushed := fun _ hr => absurd hr List.not_mem_nil
  le_lsn := fun _ hr => absurd hr List.not_mem_nil
  replayed := by
    have hnone : (fun k => (lastRecord ([] : List (Record K V)) k).map Record.toEntry) = fun _ => none :=
      funext fun k => congrArg (Option.map Record.toEntry) (lastRecord_eq_none fun _ hr => absurd hr List.not_mem_nil)
    exact congrArg (fun m => { s.flush with memtable := m }) hnone
  flushed_le := le_rfl
  lsn_le := h.lsn_le
  ranged := fun seg hseg => by
    rcases Set.mem_insert_iff.mp hseg with rfl | hseg
    · exact ⟨hflush, le_rfl, fun k e he => h.memtable_lsn he⟩
    · obtain ⟨hle, htop, hentries⟩ := h.ranged seg hseg
      exact ⟨hle, htop.trans h.flushed_le, hentries⟩
  one := by
    -- what was in a segment has been flushed, and what was in the memtable has not
    have hdisjoint : ∀ seg ∈ s.segments, ∀ k, ∀ e ∈ s.memtable k, ∀ e' ∈ seg.entries k, e.lsn ≠ e'.lsn :=
      fun seg hseg k e he e' he' => ((h.segment_lsn hseg he').trans_lt (h.memtable_lsn he).1).ne'
    intro seg hseg seg' hseg' k e he e' he' hlsn
    rcases Set.mem_insert_iff.mp hseg with rfl | hseg <;> rcases Set.mem_insert_iff.mp hseg' with rfl | hseg'
    · exact Option.some_inj.mp (he.symm.trans he')
    · exact absurd hlsn (hdisjoint seg' hseg' k e he e' he')
    · exact absurd hlsn.symm (hdisjoint seg hseg k e' he' e he)
    · exact h.one seg hseg seg' hseg' k e he e' he' hlsn

/-- A segment of a compaction: one that is left, or the merged one. -/
theorem mem_compact {seg seg₁ seg₂ : Segment K V} (h : seg ∈ (s.compact seg₁ seg₂).segments) :
    seg = State.merge seg₁ seg₂ ∨ seg ∈ s.segments :=
  (Set.mem_insert_iff.mp h).imp_right fun h => h.1

/-- An entry after a compaction was there before. -/
theorem mem_entries_compact {seg seg₁ seg₂ : Segment K V} (h₁ : seg₁ ∈ s.segments) (h₂ : seg₂ ∈ s.segments)
    (hseg : seg ∈ (s.compact seg₁ seg₂).segments) (he : e ∈ seg.entries k) :
    ∃ seg' ∈ s.segments, e ∈ seg'.entries k := by
  rcases mem_compact hseg with rfl | hseg
  · rcases State.mem_of_newer he with he | he
    · exact ⟨seg₁, h₁, he⟩
    · exact ⟨seg₂, h₂, he⟩
  · exact ⟨seg, hseg, he⟩

/-- A merged segment has the range of both. -/
theorem ranged_merge {seg₁ seg₂ : Segment K V} {top : ℕ} (h₁ : seg₁.Ranged top) (h₂ : seg₂.Ranged top) :
    (State.merge seg₁ seg₂).Ranged top := by
  have hmin : (State.merge seg₁ seg₂).minLsn = min seg₁.minLsn seg₂.minLsn := by
    show (if seg₁.minLsn < seg₂.minLsn then seg₁.minLsn else seg₂.minLsn) = _
    split <;> omega
  have hmax : (State.merge seg₁ seg₂).maxLsn = max seg₁.maxLsn seg₂.maxLsn := by
    show (if seg₁.maxLsn > seg₂.maxLsn then seg₁.maxLsn else seg₂.maxLsn) = _
    split <;> omega
  refine ⟨?_, ?_, fun k e he => ?_⟩
  · rw [hmin, hmax]
    exact (min_le_left _ _).trans (h₁.le.trans (le_max_left _ _))
  · rw [hmax]
    exact max_le h₁.le_top h₂.le_top
  · rw [hmin, hmax]
    rcases State.mem_of_newer he with he | he
    · exact ⟨(min_le_left _ _).trans (h₁.entries k e he).1, (h₁.entries k e he).2.trans (le_max_left _ _)⟩
    · exact ⟨(min_le_right _ _).trans (h₂.entries k e he).1, (h₂.entries k e he).2.trans (le_max_right _ _)⟩

/-- **A compaction** adds no entry. -/
theorem compact (h : Inv N s) {seg₁ seg₂ : Segment K V} (h₁ : seg₁ ∈ s.segments) (h₂ : seg₂ ∈ s.segments) :
    Inv N (s.compact seg₁ seg₂) where
  monotonic := h.monotonic
  unflushed := h.unflushed
  le_lsn := h.le_lsn
  replayed := by
    have hmem := congrArg State.memtable h.replayed
    exact congrArg (fun m => { s.compact seg₁ seg₂ with memtable := m }) hmem
  flushed_le := h.flushed_le
  lsn_le := h.lsn_le
  ranged := fun seg hseg => by
    rcases mem_compact hseg with rfl | hseg
    · exact ranged_merge (h.ranged seg₁ h₁) (h.ranged seg₂ h₂)
    · exact h.ranged seg hseg
  one := fun seg hseg seg' hseg' k e he e' he' hlsn => by
    obtain ⟨seg₀, hseg₀, he₀⟩ := mem_entries_compact h₁ h₂ hseg he
    obtain ⟨seg₀', hseg₀', he₀'⟩ := mem_entries_compact h₁ h₂ hseg' he'
    exact h.one seg₀ hseg₀ seg₀' hseg₀' k e he₀ e' he₀' hlsn

/-- **Every action** keeps the invariant. -/
theorem next [DecidableEq K] {s' : State K V} (h : Inv N s) (hnext : Next N s s') : Inv N s' := by
  cases hnext with
  | put k v hlsn => exact h.write hlsn k (some v) .put
  | delete k hlsn => exact h.write hlsn k none .delete
  | flush hflush => exact h.flush hflush
  | compact h₁ h₂ _ => exact h.compact h₁ h₂
  | restart _ => exact h.replayed.symm ▸ h

end Inv

/-- The invariant holds in every behavior. -/
theorem Reachable.inv [DecidableEq K] {N : ℕ} {s : State K V} (h : Reachable N s) : Inv N s := by
  induction h with
  | refl => exact .init
  | tail _ hnext ih => exact ih.next hnext

/-! ## What is read -/

/-- An entry of a key that has been committed: it is in the memtable, or in a segment. -/
def State.Committed (s : State K V) (k : K) (e : Entry V) : Prop :=
  e ∈ s.memtable k ∨ ∃ seg ∈ s.segments, e ∈ seg.entries k

/-- The newest entry of a key: it has not been overwritten, nor deleted. -/
def State.Newest (s : State K V) (k : K) (e : Entry V) : Prop :=
  s.Committed k e ∧ ∀ e', s.Committed k e' → e'.lsn ≤ e.lsn

/-- An action that is no write of the key. -/
def Spares [DecidableEq K] (N : ℕ) (k : K) (s s' : State K V) : Prop :=
  Next N s s' ∧ (∀ v, s' ≠ s.put k v) ∧ s' ≠ s.delete k

namespace Inv

variable {N : ℕ} {s : State K V} {k : K} {e : Entry V}

/-- The newest put of a key in the segments is what `SegmentGet` returns. -/
theorem segmentGet_eq (h : Inv N s) (hput : e.op = .put) {seg : Segment K V} (hseg : seg ∈ s.segments)
    (he : e ∈ seg.entries k) (hnewest : ∀ seg' ∈ s.segments, ∀ e' ∈ seg'.entries k, e'.op = .put → e'.lsn ≤ e.lsn) :
    s.segmentGet k = e.value := by
  have hlsn : ∀ {seg' : Segment K V} {e' : Entry V}, e' ∈ seg'.entries k → seg'.lsnOf k = e'.lsn := by
    intro seg' e' he'
    rw [Segment.lsnOf, show seg'.entries k = some e' from he']
    rfl
  have hmatching : s.Matching k seg := ⟨hseg, e, he, hput⟩
  have hbest : ∃ best, s.IsBest k best := by
    refine ⟨seg, hmatching, ?_⟩
    rintro other ⟨hother, e', he', hput'⟩
    rw [hlsn he, hlsn he']
    exact hnewest other hother e' he' hput'
  rw [State.segmentGet, dif_pos hbest]
  -- the segment that is chosen may be another one, but its entry has the same LSN
  obtain ⟨⟨hchosen, e', he', hput'⟩, hmax⟩ := hbest.choose_spec
  have hle : e.lsn ≤ e'.lsn := by
    rw [← hlsn he, ← hlsn he']
    exact hmax seg hmatching
  have heq : e' = e := h.one _ hchosen seg hseg k e' he' e he ((hnewest _ hchosen e' he' hput').antisymm hle)
  rw [he', heq]
  rfl

/-- **The newest entry of a key is read**, if it is a put. -/
theorem liveGet_of_newest (h : Inv N s) (hnewest : s.Newest k e) (hput : e.op = .put) : s.liveGet k = e.value := by
  obtain ⟨hcommitted, hle⟩ := hnewest
  rw [State.liveGet]
  rcases hcommitted with hmem | ⟨seg, hseg, he⟩
  · rw [show s.memtable k = some e from hmem]
    exact if_pos hput
  · have hnone : s.memtable k = none := by
      refine Option.eq_none_iff_forall_not_mem.mpr fun e' he' => ?_
      -- an entry of the memtable would be newer
      exact absurd (hle e' (.inl he')) (not_le.mpr ((h.segment_lsn hseg he).trans_lt (h.memtable_lsn he').1))
    rw [hnone]
    exact h.segmentGet_eq hput hseg he fun seg' hseg' e' he' _ => hle e' (.inr ⟨seg', hseg', he'⟩)

/-- An entry that has been committed has an LSN that has been assigned. -/
theorem committed_lsn (h : Inv N s) (hcommitted : s.Committed k e) : e.lsn ≤ s.lsn := by
  rcases hcommitted with hmem | ⟨seg, hseg, he⟩
  · exact (h.memtable_lsn hmem).2
  · exact (h.segment_lsn hseg he).trans h.flushed_le

/-- **A put** is the newest entry of its key. -/
theorem newest_put [DecidableEq K] (h : Inv N s) (k : K) (v : V) :
    (s.put k v).Newest k ⟨some v, s.lsn + 1, .put⟩ := by
  refine ⟨.inl (Function.update_self ..), fun e' he' => ?_⟩
  rcases he' with hmem | hseg
  · have hself : (s.put k v).memtable k = some ⟨some v, s.lsn + 1, .put⟩ := Function.update_self ..
    rw [hself] at hmem
    cases hmem
    exact le_rfl
  · exact (h.committed_lsn (.inr hseg)).trans (Nat.le_succ _)

/-- A write of another key leaves the entries of a key. -/
theorem newest_write [DecidableEq K] {k' : K} (hne : k ≠ k') (value : Option V) (op : Operation)
    (hnewest : s.Newest k e) : (s.write k' value op).Newest k e := by
  have hmem : (s.write k' value op).memtable k = s.memtable k := Function.update_of_ne hne _ _
  unfold State.Newest State.Committed
  rw [hmem]
  exact hnewest

/-- A flush moves the entries of the memtable. -/
theorem newest_flush (hnewest : s.Newest k e) : s.flush.Newest k e := by
  have hcommitted : ∀ {e'}, s.flush.Committed k e' ↔ s.Committed k e' := by
    intro e'
    constructor
    · rintro (hmem | ⟨seg, hseg, he⟩)
      · cases hmem
      · rcases Set.mem_insert_iff.mp hseg with rfl | hseg
        · exact .inl he
        · exact .inr ⟨seg, hseg, he⟩
    · rintro (hmem | ⟨seg, hseg, he⟩)
      · exact .inr ⟨_, Set.mem_insert .., hmem⟩
      · exact .inr ⟨seg, Set.mem_insert_of_mem _ hseg, he⟩
  exact ⟨hcommitted.mpr hnewest.1, fun e' he' => hnewest.2 e' (hcommitted.mp he')⟩

/-- **A compaction keeps the newest entry** of a key, whichever segments it merges. -/
theorem newest_compact (h : Inv N s) {seg₁ seg₂ : Segment K V} (h₁ : seg₁ ∈ s.segments) (h₂ : seg₂ ∈ s.segments)
    (hnewest : s.Newest k e) : (s.compact seg₁ seg₂).Newest k e := by
  obtain ⟨hcommitted, hle⟩ := hnewest
  -- in the merged segment stands an entry that is no older, which can only be this one
  have hmerged : e ∈ seg₁.entries k ∨ e ∈ seg₂.entries k → e ∈ (State.merge seg₁ seg₂).entries k := by
    intro hmem
    obtain ⟨e', he', hlsn⟩ := State.newer_covers hmem
    obtain ⟨seg', hseg', hold⟩ : ∃ seg' ∈ s.segments, e' ∈ seg'.entries k := by
      rcases State.mem_of_newer he' with hfrom | hfrom
      · exact ⟨seg₁, h₁, hfrom⟩
      · exact ⟨seg₂, h₂, hfrom⟩
    obtain ⟨seg, hseg, he⟩ : ∃ seg ∈ s.segments, e ∈ seg.entries k := by
      rcases hmem with hmem | hmem
      · exact ⟨seg₁, h₁, hmem⟩
      · exact ⟨seg₂, h₂, hmem⟩
    have hback := hle e' (.inr ⟨seg', hseg', hold⟩)
    rw [h.one seg hseg seg' hseg' k e he e' hold (hlsn.antisymm hback)]
    exact he'
  refine ⟨?_, fun e' he' => ?_⟩
  · rcases hcommitted with hmem | ⟨seg, hseg, he⟩
    · exact .inl hmem
    · by_cases hin : seg ∈ ({seg₁, seg₂} : Set (Segment K V))
      · refine .inr ⟨State.merge seg₁ seg₂, Set.mem_insert .., hmerged ?_⟩
        rcases hin with rfl | hin
        · exact .inl he
        · exact .inr (Set.mem_singleton_iff.mp hin ▸ he)
      · exact .inr ⟨seg, Set.mem_insert_of_mem _ ⟨hseg, hin⟩, he⟩
  · rcases he' with hmem | ⟨seg, hseg, he⟩
    · exact hle e' (.inl hmem)
    · obtain ⟨seg', hseg', he'⟩ := mem_entries_compact h₁ h₂ hseg he
      exact hle e' (.inr ⟨seg', hseg', he'⟩)

/-- **Every action but a write of its key** keeps the newest entry. -/
theorem newest_next [DecidableEq K] {s' : State K V} (h : Inv N s) (hnext : Spares N k s s')
    (hnewest : s.Newest k e) : s'.Newest k e := by
  obtain ⟨hnext, hput, hdelete⟩ := hnext
  cases hnext with
  | put k' v hlsn => exact newest_write (fun heq => hput v (by rw [heq])) _ _ hnewest
  | delete k' hlsn => exact newest_write (fun heq => hdelete (by rw [heq])) _ _ hnewest
  | flush hflush => exact newest_flush hnewest
  | compact h₁ h₂ _ => exact h.newest_compact h₁ h₂ hnewest
  | restart _ => exact h.replayed.symm ▸ hnewest

/-- **A put is read until the key is written again.** -/
theorem liveGet_of_put [DecidableEq K] {s' : State K V} (h : Inv N s) (hlsn : s.lsn < N) (k : K) (v : V)
    (hrun : Relation.ReflTransGen (Spares N k) (s.put k v) s') : s'.liveGet k = some v := by
  have hkept : Inv N s' ∧ s'.Newest k ⟨some v, s.lsn + 1, .put⟩ := by
    induction hrun with
    | refl => exact ⟨h.write hlsn k (some v) .put, h.newest_put k v⟩
    | tail _ hnext ih => exact ⟨ih.1.next hnext.1, ih.1.newest_next hnext ih.2⟩
  exact hkept.1.liveGet_of_newest hkept.2 rfl

/-- **A delete is read**, as long as it is in the memtable, or no segment has a put of the key. -/
theorem liveGet_of_deleted (hdelete : e.op = .delete)
    (hkept : e ∈ s.memtable k ∨ s.memtable k = none ∧ ∀ seg, ¬ s.Matching k seg) : s.liveGet k = none := by
  rw [State.liveGet]
  rcases hkept with hmem | ⟨hnone, hmatching⟩
  · rw [show s.memtable k = some e from hmem]
    exact if_neg (by rw [hdelete]; exact fun h => by cases h)
  · rw [hnone]
    exact dif_neg fun ⟨best, hbest⟩ => hmatching best hbest.1

theorem noDataLoss (h : Inv N s) : NoDataLoss s := by
  intro k r hr hput
  have hmem : s.memtable k = some r.toEntry := by
    rw [h.memtable_eq k, show lastRecord s.wal k = some r from hr]
    rfl
  rw [State.liveGet, hmem]
  exact if_pos hput

theorem typeOK (h : Inv N s) : TypeOK N s where
  wal := fun r hr => ⟨(Nat.zero_le _).trans_lt (h.unflushed r hr), (h.le_lsn r hr).trans h.lsn_le⟩
  memtable := fun k e he =>
    ⟨(Nat.zero_le _).trans_lt (h.memtable_lsn he).1, (h.memtable_lsn he).2.trans h.lsn_le⟩
  segments := fun seg hseg => by
    obtain ⟨hle, htop, -⟩ := h.ranged seg hseg
    have hmax : seg.maxLsn ≤ N := htop.trans (h.flushed_le.trans h.lsn_le)
    exact ⟨hle.trans hmax, hmax, hle⟩
  flushed := h.flushed_le.trans h.lsn_le
  lsn := h.lsn_le

end Inv

section Behaviors

variable [DecidableEq K] {N : ℕ} {s : State K V}

/-- **The invariants of the specification hold in every behavior**, for any keys, values and bound on LSNs, whatever
segments a compaction chooses. What is more, a put is read in every later state, as long as the key is neither put nor
deleted again, wherever its entry has gone. -/
theorem allInvariants_of_reachable (h : Reachable N s) :
    AllInvariants N s ∧ ∀ k v s', s.lsn < N → Relation.ReflTransGen (Spares N k) (s.put k v) s' →
      s'.liveGet k = some v := by
  have hinv := h.inv
  refine ⟨⟨hinv.typeOK, hinv.noDataLoss, hinv.unflushed, hinv.monotonic, fun seg hseg => ?_⟩, ?_⟩
  · exact (hinv.ranged seg hseg).entries
  · exact fun k v s' hlsn hrun => hinv.liveGet_of_put hlsn k v hrun

/-- A put and a delete of a key, flushed one after the other. -/
def flushedDelete (k : K) (v : V) : State K V := (((init.put k v).flush).delete k).flush

theorem reachable_flushedDelete (hN : 2 ≤ N) (k : K) (v : V) : Reachable N (flushedDelete k v) := by
  have hput : Next N (init : State K V) (init.put k v) := .put k v (by show 0 < N; omega)
  have hflush : Next N (init.put k v) (init.put k v).flush := .flush Nat.zero_lt_one
  have hdelete : Next N (init.put k v).flush ((init.put k v).flush.delete k) := .delete k hN
  have hflush' : Next N ((init.put k v).flush.delete k) (flushedDelete k v) := .flush (Nat.lt_succ_self 1)
  exact (((Relation.ReflTransGen.refl.tail hput).tail hflush).tail hdelete).tail hflush'

/-- After the delete, the key is put again and flushed, and its segment is merged with the first one. -/
theorem allInvariants_of_reachable_flushedDelete :
    let s : State ℕ ℕ := flushedDelete 0 7
    let flushed := (s.put 0 8).flush
    let merged := flushed.compact ⟨(init.put 0 7 : State ℕ ℕ).memtable, 1, 1⟩ ⟨(s.put 0 8).memtable, 3, 3⟩
    AllInvariants 3 s ∧ merged.liveGet 0 = some 8 := by
  intro s flushed merged
  obtain ⟨hall, hreads⟩ := allInvariants_of_reachable (N := 3) (reachable_flushedDelete (by decide) 0 7)
  refine ⟨hall, hreads 0 8 merged (Nat.lt_succ_self 2) ?_⟩
  have hflush : Spares 3 0 (s.put 0 8) flushed := by
    refine ⟨.flush (Nat.lt_succ_self 2), fun v heq => ?_, fun heq => ?_⟩
    · exact absurd (congrArg State.lsn heq) (by show (3 : ℕ) ≠ 4; decide)
    · exact absurd (congrArg State.lsn heq) (by show (3 : ℕ) ≠ 4; decide)
  have hmerge : Spares 3 0 flushed merged := by
    refine ⟨.compact ?_ ?_ ?_, fun v heq => ?_, fun heq => ?_⟩
    · exact Set.mem_insert_of_mem _ (Set.mem_insert_of_mem _ (Set.mem_insert _ _))
    · exact Set.mem_insert _ _
    · intro heq
      exact absurd (congrArg Segment.minLsn heq) (by decide)
    · exact absurd (congrArg State.lsn heq) (by show (3 : ℕ) ≠ 4; decide)
    · exact absurd (congrArg State.lsn heq) (by show (3 : ℕ) ≠ 4; decide)
  exact (Relation.ReflTransGen.refl.tail hflush).tail hmerge

/-- **The specification does not say that deletes last**: `SegmentGet` looks at puts only, and once a delete is in a
segment an older put of the key is read again. No invariant is about a key that is not in the WAL. -/
theorem flushedDelete_resurfaces (hN : 2 ≤ N) (k : K) (v : V) :
    (flushedDelete k v).Newest k ⟨none, 2, .delete⟩ ∧ (flushedDelete k v).liveGet k = some v := by
  have hinv := (reachable_flushedDelete hN k v).inv
  obtain ⟨hfirst, hsecond⟩ : (init.put k v).memtable k = some ⟨some v, 1, .put⟩ ∧
      ((init.put k v).flush.delete k).memtable k = some ⟨none, 2, .delete⟩ :=
    ⟨Function.update_self .., Function.update_self ..⟩
  have hentries : ∀ e, (∃ seg ∈ (flushedDelete k v).segments, e ∈ seg.entries k) ↔
      e = ⟨none, 2, .delete⟩ ∨ e = ⟨some v, 1, .put⟩ := by
    intro e
    have hsegments : (flushedDelete k v).segments =
        {⟨((init.put k v).flush.delete k).memtable, 2, 2⟩, ⟨(init.put k v).memtable, 1, 1⟩} := by
      show insert _ (insert _ ∅) = _
      rw [insert_empty_eq]
      rfl
    rw [hsegments]
    simp only [Set.mem_insert_iff, Set.mem_singleton_iff, exists_eq_or_imp, exists_eq_left, hfirst, hsecond,
      Option.mem_some_iff]
    exact or_congr eq_comm eq_comm
  refine ⟨⟨.inr ((hentries _).mpr (.inl rfl)), ?_⟩, ?_⟩
  · rintro e' (he' | he')
    · cases he'
    · rcases (hentries e').mp he' with rfl | rfl
      · exact le_rfl
      · exact Nat.le_succ 1
  · show (flushedDelete k v).segmentGet k = some v
    have hput := (hentries ⟨some v, 1, .put⟩).mpr (.inr rfl)
    obtain ⟨seg, hseg, he⟩ := hput
    refine hinv.segmentGet_eq rfl hseg he fun seg' hseg' e' he' hput' => ?_
    rcases (hentries e').mp ⟨seg', hseg', he'⟩ with rfl | rfl
    · cases hput'
    · exact le_rfl

end Behaviors

end Tla
