import Edgestore.Segment.Table
import Edgestore.Manifest
import Mathlib.Data.List.TakeWhile

/-!
# Flushing a sorted table

`segmentFlush` of a sorted list of entries writes a well-formed segment whose table is that list, as
long as what it writes is within the limits the readers check.

## Main definitions

* `WithinLimits X`: every file that is written is one its reader accepts
* `WritesSegment id`: an effect on the files of one segment

## Main results

* `table_writeDatAndIndex`: the blocks hold the entries
* `index_sound_writeDatAndIndex`: the sparse index never skips a key
* `wp_segmentFlush`: the specification of a flush
-/

variable {X : Externals} {σ : Type}

/-! ### Packing entries into blocks -/

@[simp] theorem storedEntry_fst (p : Bytes × MemEntry) : (storedEntry p).1 = p.1 := rfl

@[simp] theorem storedEntry_storedEntry (p : Bytes × MemEntry) :
    storedEntry (storedEntry p) = storedEntry p := by
  cases hop : p.2.op <;> simp [storedEntry, hop]

theorem keySorted_map_storedEntry {l : List (Bytes × MemEntry)} :
    KeySorted (l.map storedEntry) ↔ KeySorted l := by
  simp [KeySorted, List.pairwise_map]

theorem find_map_storedEntry (l : List (Bytes × MemEntry)) (k : Bytes) :
    find (l.map storedEntry) k = (find l k).map fun e => (storedEntry (k, e)).2 := by
  induction l with
  | nil => rfl
  | cons p l ih =>
    rw [List.map_cons, find_cons, find_cons, storedEntry_fst]
    by_cases hk : p.1 = k
    · subst hk
      simp
    · simp [hk, ih]

/-- The state of the packing loop after the entries `before`. -/
structure DatBuilder.Packs (b : DatBuilder) (before : List (Bytes × MemEntry)) : Prop where
  table : Dat.table b.blocks ++ b.current.map storedEntry = before.map storedEntry
  blocks : ∀ c ∈ b.blocks, ∃ size es, c = .decoded size es ∧ es ≠ [] ∧ ∀ p ∈ es, storedEntry p = p
  index : ∀ p ∈ b.index, ∀ q ∈ Dat.table (b.blocks.take p.2), q.1 < p.1
  index_le : ∀ p ∈ b.index, p.2 ≤ b.blocks.length
  head : (b.index = [] ∧ before = []) ∨ ∃ k is, b.index = (k, 0) :: is
  count : b.count = before.length

namespace DatBuilder

theorem packs_empty : ({} : DatBuilder).Packs [] where
  table := rfl
  blocks := by simp
  index := by simp
  index_le := by simp
  head := .inl ⟨rfl, rfl⟩
  count := rfl

/-- Writing the current block keeps the entries. -/
theorem Packs.flushBlock {b : DatBuilder} {before : List (Bytes × MemEntry)} (h : b.Packs before)
    (hne : b.current ≠ []) : (b.flushBlock X).Packs before where
  table := by
    simp only [DatBuilder.flushBlock, Dat.table_append, Dat.table_cons, Dat.table_nil,
      Block.entries, List.append_nil, List.map_nil, h.table]
  blocks := by
    intro c hc
    rcases List.mem_append.mp hc with hc | hc
    · exact h.blocks c hc
    · refine ⟨_, _, List.mem_singleton.mp hc, by simpa using hne, fun p hp => ?_⟩
      obtain ⟨q, -, rfl⟩ := List.mem_map.mp hp
      exact storedEntry_storedEntry q
  index := by
    intro p hp q hq
    refine h.index p hp q ?_
    rwa [DatBuilder.flushBlock, List.take_append_of_le_length (h.index_le p hp)] at hq
  index_le := by
    intro p hp
    simp only [DatBuilder.flushBlock, List.length_append, List.length_singleton]
    exact (h.index_le p hp).trans (Nat.le_succ _)
  head := h.head
  count := h.count

/-- Adding an entry behind lesser keys. -/
theorem Packs.push {b : DatBuilder} {before : List (Bytes × MemEntry)} {p : Bytes × MemEntry}
    (h : b.Packs before) (hlt : ∀ q ∈ before, q.1 < p.1) : (b.push X p).Packs (before ++ [p]) := by
  have hkeys : ∀ q ∈ Dat.table b.blocks, q.1 < p.1 := by
    intro q hq
    have hmem : q ∈ before.map storedEntry := h.table ▸ List.mem_append_left _ hq
    obtain ⟨q', hq', rfl⟩ := List.mem_map.mp hmem
    exact hlt q' hq'
  -- before the block is written, only the sparse index has grown, by the key and its block
  have hpacks : DatBuilder.Packs
      { b with
        uncompressedTotal := b.uncompressedTotal + serializedLen p
        index :=
          if b.count % sparseIndexStride = 0 then b.index ++ [(p.1, b.blocks.length)] else b.index
        current := b.current ++ [p]
        currentLen := b.currentLen + serializedLen p
        count := b.count + 1 } (before ++ [p]) := by
    refine ⟨?_, h.blocks, ?_, ?_, ?_, ?_⟩
    · simp only [List.map_append, ← List.append_assoc, h.table]
    · intro r hr q hq
      simp only at hr hq
      split at hr
      · rcases List.mem_append.mp hr with hr | hr
        · exact h.index r hr q hq
        · obtain rfl := List.mem_singleton.mp hr
          exact hkeys q (by simpa using hq)
      · exact h.index r hr q hq
    · intro r hr
      simp only at hr ⊢
      split at hr
      · rcases List.mem_append.mp hr with hr | hr
        · exact h.index_le r hr
        · rw [List.mem_singleton.mp hr]
      · exact h.index_le r hr
    · right
      simp only
      rcases h.head with ⟨hidx, rfl⟩ | ⟨k, is, hidx⟩
      · -- the first entry: its block is the first one
        have hnil : b.blocks = [] := by
          refine List.eq_nil_iff_forall_not_mem.mpr fun c hc => ?_
          obtain ⟨size, es, rfl, hes, -⟩ := h.blocks c hc
          have htable := List.append_eq_nil_iff.mp h.table
          exact hes (List.flatMap_eq_nil_iff.mp htable.1 _ hc)
        have hcount : b.count = 0 := h.count
        exact ⟨p.1, [], by simp [hidx, hnil, hcount]⟩
      · split
        · exact ⟨k, is ++ [(p.1, b.blocks.length)], by simp [hidx]⟩
        · exact ⟨k, is, hidx⟩
    · simp [h.count]
  simp only [DatBuilder.push]
  split
  · exact hpacks.flushBlock (by simp)
  · exact hpacks

/-- Packing a sorted list. -/
theorem Packs.foldl {b : DatBuilder} {before entries : List (Bytes × MemEntry)}
    (h : b.Packs before) (hs : KeySorted (before ++ entries)) :
    (entries.foldl (DatBuilder.push X) b).Packs (before ++ entries) := by
  induction entries generalizing b before with
  | nil => simpa using h
  | cons p entries ih =>
    have hlt : ∀ q ∈ before, q.1 < p.1 := fun q hq => hs.of_append.2.2 q hq p (by simp)
    have := ih (h.push (X := X) hlt) (by simpa using hs)
    simpa using this

/-- Writing the last block, unless it is empty. -/
theorem Packs.finish {b : DatBuilder} {before : List (Bytes × MemEntry)} (h : b.Packs before) :
    (b.finish X).Packs before ∧ (b.finish X).current = [] := by
  rw [DatBuilder.finish]
  split
  case isTrue hnil => exact ⟨h, hnil⟩
  case isFalse hne => exact ⟨h.flushBlock hne, rfl⟩

end DatBuilder

variable {entries : List (Bytes × MemEntry)}

theorem packs_writeDatAndIndex (hs : KeySorted entries) :
    (writeDatAndIndex X entries).Packs entries ∧ (writeDatAndIndex X entries).current = [] := by
  have h := DatBuilder.packs_empty.foldl (X := X) (by simpa using hs : KeySorted ([] ++ entries))
  rw [List.nil_append] at h
  exact h.finish

/-- The blocks hold the entries. -/
theorem table_writeDatAndIndex (hs : KeySorted entries) :
    Dat.table (writeDatAndIndex X entries).blocks = entries.map storedEntry := by
  obtain ⟨hp, hnil⟩ := packs_writeDatAndIndex (X := X) hs
  have h := hp.table
  rwa [hnil, List.map_nil, List.append_nil] at h

/-- The sparse index never skips a key. -/
theorem index_sound_writeDatAndIndex (hs : KeySorted entries) (q : Bytes) :
    ∀ p ∈ Dat.table ((writeDatAndIndex X entries).blocks.take
      (findBlockOffset (writeDatAndIndex X entries).index q)), p.1 < q := by
  obtain ⟨hp, -⟩ := packs_writeDatAndIndex (X := X) hs
  generalize writeDatAndIndex X entries = b at hp
  intro p hmem
  rw [findBlockOffset] at hmem
  cases hlast : (b.index.takeWhile fun r => decide (r.1 ≤ q)).getLast? with
  | some r =>
    rw [hlast] at hmem
    have hr := List.mem_of_getLast? hlast
    have hle : r.1 ≤ q := by simpa using List.mem_takeWhile_imp hr
    exact (hp.index r (List.takeWhile_subset _ hr) p hmem).trans_le hle
  | none =>
    rw [hlast] at hmem
    rcases hp.head with ⟨hidx, -⟩ | ⟨k, is, hidx⟩
    · simp [hidx] at hmem
    · simp [hidx] at hmem

/-! ### The files of a flush -/

/-- Metadata that fits in a manifest frame, whatever has been stripped since. -/
def FitsManifest (X : Externals) (m : SegmentMeta) : Prop :=
  m.segmentId < 2 ^ 64 ∧ ∀ t v, (X.manifestJson (addEntry
    { m with textIndexStripped := t, vectorIndexStripped := v })).length ≤ maxEntryLen

theorem FitsManifest.length_le {m : SegmentMeta} (h : FitsManifest X m) :
    (X.manifestJson (addEntry m)).length ≤ maxEntryLen :=
  h.2 m.textIndexStripped m.vectorIndexStripped

/-- Every file that is written is one its reader accepts, and the manifest can hold the segment:
blocks of at most 2 MiB, filters and sparse indexes below their limits, ids of 64 bits, metadata
that fits in a frame. A `.dat` file that an import adopts is a readable, sorted one. -/
def WithinLimits (X : Externals) : Effect → Fs → Prop
  | .datWrite _ dat, _ => ∀ b ∈ dat, b.size ≤ maxBlockDecompressed
  | .idxWrite _ idx, _ => idx.length ≤ maxIndexCount
  | .xfWrite _ xf, _ => xf.fingerprints.length ≤ maxFingerprints
  | .metaWrite _ m, _ => FitsManifest X m
  | .stageAdopt hash _, fs => (fs.staged hash).dat.Holds fun dat =>
      (∀ b ∈ dat, b.Readable) ∧ KeySorted (Dat.table dat)
  | _, _ => True

instance (X : Externals) (m : SegmentMeta) : Decidable (FitsManifest X m) :=
  inferInstanceAs (Decidable (_ ∧ _))

instance (X : Externals) : ∀ e fs, Decidable (WithinLimits X e fs)
  | .datWrite _ dat, _ => inferInstanceAs (Decidable (∀ b ∈ dat, b.size ≤ maxBlockDecompressed))
  | .idxWrite _ idx, _ => inferInstanceAs (Decidable (idx.length ≤ maxIndexCount))
  | .xfWrite _ xf, _ => inferInstanceAs (Decidable (xf.fingerprints.length ≤ maxFingerprints))
  | .metaWrite _ m, _ => inferInstanceAs (Decidable (FitsManifest X m))
  | .stageAdopt hash _, fs => inferInstanceAs (Decidable ((fs.staged hash).dat.Holds fun dat =>
      (∀ b ∈ dat, b.Readable) ∧ KeySorted (Dat.table dat)))
  | .walCreate _, _ => .isTrue trivial
  | .walHeader _, _ => .isTrue trivial
  | .walAppend _ _, _ => .isTrue trivial
  | .walUnlink _, _ => .isTrue trivial
  | .manifestCreate, _ => .isTrue trivial
  | .manifestHeader, _ => .isTrue trivial
  | .manifestAppend _ _, _ => .isTrue trivial
  | .segUnlink _ _, _ => .isTrue trivial
  | .stageWrite _ _, _ => .isTrue trivial
  | .stageRename _, _ => .isTrue trivial
  | .sync _, _ => .isTrue trivial

/-- An effect on the files of segment `id` that writes or syncs them. -/
def WritesSegment (id : SegmentId) : Effect → Prop
  | .datWrite i _ => i = id
  | .idxWrite i _ => i = id
  | .xfWrite i _ => i = id
  | .metaWrite i _ => i = id
  | .sync _ => True
  | _ => False

theorem minKey_le_of_sorted (hs : KeySorted entries) {p : Bytes × MemEntry} (hp : p ∈ entries) :
    (entries.head?.map Prod.fst).getD [] ≤ p.1 ∧ p.1 ≤ (entries.getLast?.map Prod.fst).getD [] := by
  constructor
  · cases entries with
    | nil => simp at hp
    | cons q l =>
      rcases List.mem_cons.mp hp with rfl | hp
      · exact le_rfl
      · exact ((keySorted_cons.mp hs).1 p hp).le
  · induction entries generalizing p with
    | nil => simp at hp
    | cons q l ih =>
      rw [keySorted_cons] at hs
      cases l with
      | nil => rw [List.mem_singleton.mp hp]; exact le_rfl
      | cons r l =>
        rw [List.getLast?_cons_cons]
        rcases List.mem_cons.mp hp with hpq | hp
        · rw [hpq]
          exact (hs.1 r List.mem_cons_self).le.trans (ih hs.2 List.mem_cons_self)
        · exact ih hs.2 hp

/-- The image a flush writes, given that what it writes is within the limits. -/
def flushImage (X : Externals) (hs : KeySorted entries) (m : SegmentMeta)
    (hmin : m.minKey = (entries.head?.map Prod.fst).getD [])
    (hmax : m.maxKey = (entries.getLast?.map Prod.fst).getD [])
    (hdat : ∀ b ∈ (writeDatAndIndex X entries).blocks, b.size ≤ maxBlockDecompressed)
    (hidx : (writeDatAndIndex X entries).index.length ≤ maxIndexCount)
    (hxf : (X.buildFilter (entries.map Prod.fst)).fingerprints.length ≤ maxFingerprints) :
    SegmentImage X where
  dat := (writeDatAndIndex X entries).blocks
  idx := (writeDatAndIndex X entries).index
  xf := X.buildFilter (entries.map Prod.fst)
  segMeta := m
  readable b hb := by
    obtain ⟨size, es, rfl, hes, hstored⟩ := (packs_writeDatAndIndex (X := X) hs).1.blocks b hb
    exact ⟨size, es, rfl, hdat _ hb, hes, hstored⟩
  sorted := by
    rw [table_writeDatAndIndex hs]
    exact keySorted_map_storedEntry.mpr hs
  index_sound := index_sound_writeDatAndIndex hs
  filter_complete p hp := by
    rw [table_writeDatAndIndex hs] at hp
    obtain ⟨q, hq, rfl⟩ := List.mem_map.mp hp
    exact X.filterContains_build _ _ (List.mem_map.mpr ⟨q, hq, rfl⟩)
  bounds p hp := by
    rw [table_writeDatAndIndex hs] at hp
    obtain ⟨q, hq, rfl⟩ := List.mem_map.mp hp
    rw [hmin, hmax]
    simpa using minKey_le_of_sorted hs hq
  idx_le := hidx
  xf_le := hxf

/-- What the flush of `entries` to segment `id`, under a cohort window, returns and leaves. -/
structure Flushed (X : Externals) (id : SegmentId) (window : ℕ) (entries : List (Bytes × MemEntry))
    (m : SegmentMeta) (files : SegmentFiles) : Prop where
  segmentId : m.segmentId = id
  fits : FitsManifest X m
  wf : SegmentWf X files
  table : files.table = entries.map storedEntry
  made : ∃ bucket nanos, m = segmentMetaFor X id window entries (writeDatAndIndex X entries) bucket nanos
  stored : files.segMeta = .whole m

/-- **A flush** of sorted entries writes the files of one segment, which is well formed and holds
the entries. It fails only without entries, or when the cohort window is zero. -/
theorem wp_segmentFlush {id : SegmentId} {window : ℕ} {p : Process σ} {fs : Fs}
    (hs : KeySorted entries) :
    Prog.wp (segmentFlush (X := X) id window entries)
      ⟨fun m q fs' => q.state = p.state ∧ fs' = fs.setSegment id (fun _ => fs'.segs id) ∧
          Flushed X id window entries m (fs'.segs id),
        fun _ q _ => q.state = p.state ∧ (entries = [] ∨ asI64 window = 0),
        WithinLimits X, fun e _ => WritesSegment id e⟩ p fs := by
  cases entries with
  | nil => simp [segmentFlush]
  | cons first rest =>
    simp only [segmentFlush]
    generalize hb : cohortBucketFor first.2.timestamp first.2.ttl window = bucket
    cases bucket with
    | error e =>
      have hw : asI64 window = 0 := by
        by_contra hw
        simp only [cohortBucketFor, hw, if_false] at hb
        split at hb <;> cases hb
      simp [WritesSegment, hw]
    | ok bucket =>
      simp only [Prog.wp_bind, Exec.wp_effect, Exec.wp_now, Prog.wp_lift, Prog.wp_pure,
        WritesSegment, WithinLimits, true_and, forall_const, Prog.result_ok, applyEffect,
        Fs.setSegment_setSegment]
      intro hdat hidx hxf hmeta
      simp only [Fs.segs_setSegment_self, true_and]
      exact ⟨rfl, hmeta, ⟨flushImage X hs _ rfl rfl hdat hidx hxf, rfl⟩, table_writeDatAndIndex hs,
        ⟨bucket, _, rfl⟩, rfl⟩
