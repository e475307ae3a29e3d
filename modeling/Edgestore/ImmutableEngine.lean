import Edgestore.PrefixScans
import Edgestore.Segment.InMemory
import Edgestore.Snapshot

/-!
# The engine in memory

`ImmutableEngine` serves archived segments from their bytes, with readers of its own, and merges them as
a snapshot merges the readers of files. An archive has lost the metadata of its segments; there the engine
is given placeholders, whose greatest key `[0xFF, 0xFF]` is less than the keys of a namespace of the
greatest length there is. Scans of such a namespace then pass over every segment.

## Main definitions

* `Raw.Snapshot`: a snapshot over the bytes of files, with `get` and `range`
* `ImmutableEngine`, with `fromSegmentBytes`, `get`, `range`, `prefixScan`
* `syntheticMeta`: the metadata of an archived segment
* `LivePairs`: the live keys with a prefix
* `NoneLive`: no key of a range is live

## Main results

* `immutable_agrees_snapshot`: what the engine returns is what a snapshot returns
* `archived_range_misses`: a range that a snapshot returns and the archive does not
-/

variable {X : Externals} {Z : Zstd}

/-! ### Merging readers -/

namespace Raw

/-- The entry with the highest LSN among `best` and those that readers find. -/
def bestEntry {ρ : Type} (get : ρ → Except EdgestoreError (Option MemEntry)) :
    Option MemEntry → List ρ → Except EdgestoreError (Option MemEntry)
  | best, [] => .ok best
  | best, r :: readers => do
    match ← get r with
    | some entry => bestEntry get (if best.all fun b => entry.lsn > b.lsn then some entry else best) readers
    | none => bestEntry get best readers

/-- The live pairs of the scans of readers. -/
def mergedScans {ρ : Type} (scan : ρ → Except EdgestoreError (List (Bytes × MemEntry)))
    (readers : List ρ) : Except EdgestoreError (List (Bytes × Bytes)) := do
  let segs ← readers.mapM fun r => do
    let seg ← scan r
    return seg.insertionSort fun p q => p.1 ≤ q.1
  let popped ← KWayMerge.merged MemEntry.lsn (segs.map fun seg => seg.map .ok)
  Snapshot.collect none [] popped

/-- The value of the best entry, if it is a put. -/
def putValue : Option MemEntry → Option Bytes
  | some e => if e.op = .put then e.value else none
  | none => none

/-- A point-in-time view of a set of segments: readers, and the files they were opened on. -/
structure Snapshot where
  readers : List (SegmentReader × SegmentFiles)
  deriving DecidableEq, Repr

namespace Snapshot

/-- A snapshot over the files of segments. -/
def «open» (files : List SegmentFiles) : Except EdgestoreError Snapshot := do
  return ⟨← files.mapM fun f => do return (← SegmentReader.open f, f)⟩

/-- Look up a single key. -/
def get (X : Externals) (Z : Zstd) (s : Snapshot) (ns key : Bytes) :
    Except EdgestoreError (Option Bytes) := do
  let encoded ← encodeKey ns key
  return putValue (← bestEntry (fun r => r.1.get X Z r.2 encoded) none s.readers)

/-- The live pairs of a namespace with `start ≤ key < end`. -/
def range (Z : Zstd) (s : Snapshot) (ns start «end» : Bytes) :
    Except EdgestoreError (List (Bytes × Bytes)) := do
  let encStart ← encodeKey ns start
  let encEnd ← encodeKey ns «end»
  mergedScans (fun r => r.1.rangeScan Z r.2 encStart encEnd) s.readers

end Snapshot

end Raw

/-! ### The engine -/

/-- Read-only engine that serves from in-memory segments. -/
structure ImmutableEngine where
  readers : List Raw.InMemorySegmentReader
  deriving DecidableEq, Repr

namespace ImmutableEngine

/-- An engine over metadata and bytes of segments. -/
def fromSegmentBytes (X : Externals) (Z : Zstd) (segments : List (SegmentMeta × Bytes)) :
    Except EdgestoreError ImmutableEngine := do
  return ⟨← segments.mapM fun s =>
    if s.1.segmentHash.length ≠ 32 then
      .error (.replicationError s!"segment {s.1.segmentId} hash is not 32 bytes")
    else Raw.InMemorySegmentReader.fromBytes X Z s.1.segmentId s.1.segmentHash s.1 s.2⟩

/-- Look up a single key. -/
def get (X : Externals) (Z : Zstd) (e : ImmutableEngine) (ns key : Bytes) :
    Except EdgestoreError (Option Bytes) := do
  let encoded ← encodeKey ns key
  return Raw.putValue (← Raw.bestEntry (fun r => r.get X Z encoded) none e.readers)

/-- The live pairs between two encoded keys. -/
def rangeEncoded (Z : Zstd) (e : ImmutableEngine) (encStart encEnd : Bytes) :
    Except EdgestoreError (List (Bytes × Bytes)) :=
  Raw.mergedScans (fun r => r.rangeScan Z encStart encEnd) e.readers

/-- The live pairs of a namespace with `start ≤ key < end`. -/
def range (Z : Zstd) (e : ImmutableEngine) (ns start «end» : Bytes) :
    Except EdgestoreError (List (Bytes × Bytes)) := do
  let encStart ← encodeKey ns start
  let encEnd ← encodeKey ns «end»
  e.rangeEncoded Z encStart encEnd

/-- The live pairs of a namespace whose key has a prefix. -/
def prefixScan (Z : Zstd) (e : ImmutableEngine) (ns p : Bytes) :
    Except EdgestoreError (List (Bytes × Bytes)) := do
  let encPrefix ← encodeKey ns p
  e.rangeEncoded Z encPrefix
    ((prefixUpperBound encPrefix).getD (List.replicate (encPrefix.length + 1) 255))

end ImmutableEngine

/-- Metadata for an archived segment, of which only the hash is known. -/
def syntheticMeta (hash : Bytes) : SegmentMeta where
  segmentId := 0
  segmentHash := hash
  minKey := []
  maxKey := List.replicate 2 255
  minLsn := 0
  maxLsn := 2 ^ 64 - 1
  recordCount := 0
  compressedBytes := 0
  uncompressedBytes := 0
  compression := "zstd:1"
  cohortBucket := 0
  deathTime := 2 ^ 63 - 1
  merkleRoot := List.replicate 32 0
  createdAt := 0
  textIndexStripped := false
  vectorIndexStripped := false

/-! ### What merged readers return -/

namespace Raw

variable {ρ σ : Type} {tables : List (List (Bytes × MemEntry))} {ns a b : Bytes}

/-- Only what the readers find matters. -/
theorem bestEntry_congr {get : ρ → Except EdgestoreError (Option MemEntry)}
    {get' : σ → Except EdgestoreError (Option MemEntry)} {readers : List ρ} {readers' : List σ}
    (h : readers.map get = readers'.map get') (best : Option MemEntry) :
    bestEntry get best readers = bestEntry get' best readers' := by
  induction readers generalizing readers' best with
  | nil =>
    cases readers' with
    | nil => rfl
    | cons r' readers' => cases h
  | cons r readers ih =>
    cases readers' with
    | nil => cases h
    | cons r' readers' =>
      obtain ⟨hr, hrest⟩ := List.cons.inj h
      rw [bestEntry, bestEntry, hr]
      congr 1
      funext found
      cases found with
      | none => exact ih hrest best
      | some e => exact ih hrest _

/-- Only what the readers yield matters. -/
theorem mergedScans_congr {scan : ρ → Except EdgestoreError (List (Bytes × MemEntry))}
    {scan' : σ → Except EdgestoreError (List (Bytes × MemEntry))} {readers : List ρ}
    {readers' : List σ} (h : readers.map scan = readers'.map scan') :
    mergedScans scan readers = mergedScans scan' readers' := by
  have hmapM : (readers.mapM fun r => do
      let seg ← scan r
      return seg.insertionSort fun p q : Bytes × MemEntry => p.1 ≤ q.1) = readers'.mapM fun r => do
        let seg ← scan' r
        return seg.insertionSort fun p q : Bytes × MemEntry => p.1 ≤ q.1 := by
    induction readers generalizing readers' with
    | nil =>
      cases readers' with
      | nil => rfl
      | cons r' readers' => cases h
    | cons r readers ih =>
      cases readers' with
      | nil => cases h
      | cons r' readers' =>
        obtain ⟨hr, hrest⟩ := List.cons.inj h
        rw [List.mapM_cons, List.mapM_cons, hr, ih hrest]
  rw [mergedScans, mergedScans, hmapM]

/-- **Readers that yield the entries of tables** in a range: a newest record of every key there is
returned, if it is live. -/
theorem mergedScans_within {scan : ρ → Except EdgestoreError (List (Bytes × MemEntry))}
    {readers : List ρ} (hscan : readers.map scan = tables.map fun table => .ok (within a b table))
    (hs : ∀ table ∈ tables, KeySorted table)
    (hkeys : ∀ k, a ≤ k → k < b → ∃ key, encodeKey ns key = .ok k) :
    ∃ l, mergedScans scan readers = .ok (l.filterMap (Engine.emitted ns)) ∧ KeySorted l ∧
      (∀ p ∈ l, a ≤ p.1 ∧ p.1 < b) ∧ ∀ k, a ≤ k → k < b →
        (∀ r, find l k = some r → IsNewest (tables.filterMap fun table => find table k) r) ∧
        (find l k = none → tables.filterMap (fun table => find table k) = []) := by
  have hsorted : ∀ t ∈ tables.map (within a b), t.Pairwise fun p q => p.1 ≤ q.1 := by
    intro t ht
    obtain ⟨table, htable, rfl⟩ := List.mem_map.mp ht
    exact ((hs table htable).filter _).le
  obtain ⟨out, hout, hperm, hup⟩ := KWayMerge.merged_eq MemEntry.lsn (ε := EdgestoreError) hsorted
  rw [← List.flatMap_def] at hperm
  obtain ⟨hl, hrange, hfound⟩ := newest_within hs hperm hup
  refine ⟨newest MemEntry.lsn out, ?_, hl, hrange, hfound⟩
  have hmapM : (readers.mapM fun r => do
      let seg ← scan r
      return seg.insertionSort fun p q => p.1 ≤ q.1) =
        (.ok (tables.map (within a b)) : Except EdgestoreError _) := by
    clear hout hperm hup hl hrange hfound out
    induction readers generalizing tables with
    | nil =>
      cases tables with
      | nil => rfl
      | cons t tables => cases hscan
    | cons r readers ih =>
      cases tables with
      | nil => cases hscan
      | cons t tables =>
        obtain ⟨hr, hrest⟩ := List.cons.inj hscan
        have hle := hsorted (within a b t) (by simp)
        rw [List.mapM_cons, hr, ih hrest (fun t ht => hs t (List.mem_cons_of_mem _ ht))
          fun t ht => hsorted t (List.mem_cons_of_mem _ ht)]
        change Except.ok ((within a b t).insertionSort _ :: _) = _
        rw [hle.insertionSort_eq]
        rfl
  have hencoded : ∀ p ∈ out, ∃ key, encodeKey ns key = .ok p.1 := by
    intro p hp
    obtain ⟨table, -, hin⟩ := List.mem_flatMap.mp (hperm.mem_iff.mp hp)
    obtain ⟨ha, hb⟩ : a ≤ p.1 ∧ p.1 < b := by simpa using (List.mem_filter.mp hin).2
    exact hkeys p.1 ha hb
  rw [mergedScans, hmapM]
  change (KWayMerge.merged MemEntry.lsn (KWayMerge.okStreams EdgestoreError _) >>= Snapshot.collect none []) = _
  rw [hout]
  exact Snapshot.collect_none hencoded

end Raw

/-! ### Engines over the same segments -/

section AllFlushed

variable {segs : List (List (Bytes × MemEntry) × Raw.SegmentFiles)}

/-- Entries within the limits, with the files that a flush of them made. -/
def AllFlushed (X : Externals) (Z : Zstd) (segs : List (List (Bytes × MemEntry) × Raw.SegmentFiles)) :
    Prop :=
  ∀ s ∈ segs, Flushable X s.1 ∧
    ∃ id window nanos, Raw.SegmentWriter.flush X Z id window nanos s.1 = .ok s.2

theorem map_eq_map_of_forall₂ {α β γ : Type} {P : α → β → Prop} {l : List α} {l' : List β}
    {f : β → γ} {g : α → γ} (h : List.Forall₂ P l l') (hfg : ∀ a ∈ l, ∀ b, P a b → f b = g a) :
    l'.map f = l.map g := by
  induction h with
  | nil => rfl
  | cons hab _ ih =>
    rw [List.map_cons, List.map_cons, hfg _ List.mem_cons_self _ hab,
      ih fun a ha => hfg a (List.mem_cons_of_mem _ ha)]

/-- The hash of a segment has 32 bytes. -/
theorem Raw.length_segmentHash (h : AllFlushed X Z segs) :
    ∀ s ∈ segs, s.2.segMeta.segmentHash.length = 32 := by
  rintro ⟨entries, files⟩ hs
  obtain ⟨-, id, window, nanos, hflush⟩ := h _ hs
  cases entries with
  | nil => cases hflush
  | cons first rest =>
    unfold Raw.SegmentWriter.flush at hflush
    cases hb : cohortBucketFor first.2.timestamp first.2.ttl window with
    | error e =>
      simp only [hb] at hflush
      cases hflush
    | ok bucket =>
      simp only [hb] at hflush
      cases hflush
      exact X.length_blake3 _

/-- The readers of a snapshot find and yield the entries of the segments. -/
theorem Raw.Snapshot.open_flushed (h : AllFlushed X Z segs) :
    ∃ s, Raw.Snapshot.open (segs.map Prod.snd) = .ok s ∧
      (∀ key, s.readers.map (fun r => r.1.get X Z r.2 key) = segs.map fun g => .ok (find g.1 key)) ∧
      ∀ a b, s.readers.map (fun r => r.1.rangeScan Z r.2 a b) =
        segs.map fun g => .ok (within a b g.1) := by
  obtain ⟨readers, hopen, hall⟩ := mapM_eq_ok
    (f := fun g : List (Bytes × MemEntry) × Raw.SegmentFiles => do
      return (← Raw.SegmentReader.open g.2, g.2)) (l := segs) fun g hg => by
    obtain ⟨hfit, id, window, nanos, hflush⟩ := h g hg
    exact ⟨_, by rw [hfit.open_flushed hflush]; rfl⟩
  have hreader : ∀ g ∈ segs, ∀ r, (do return (← Raw.SegmentReader.open g.2, g.2)) =
      (.ok r : Except EdgestoreError _) → r = (Flushable.reader X Z g.1 g.2, g.2) := by
    intro g hg r hr
    obtain ⟨hfit, id, window, nanos, hflush⟩ := h g hg
    rw [hfit.open_flushed hflush] at hr
    cases hr
    rfl
  refine ⟨⟨readers⟩, ?_, fun key => ?_, fun a b => ?_⟩
  · rw [Raw.Snapshot.open, List.mapM_map]
    change (segs.mapM (fun g : List (Bytes × MemEntry) × Raw.SegmentFiles => do
      return (← Raw.SegmentReader.open g.2, g.2)) >>= fun readers => _) = _
    rw [hopen]
    rfl
  · refine map_eq_map_of_forall₂ hall fun g hg r hr => ?_
    obtain ⟨hfit, id, window, nanos, hflush⟩ := h g hg
    rw [hreader g hg r hr]
    exact hfit.get_flushed hflush key
  · refine map_eq_map_of_forall₂ hall fun g hg r hr => ?_
    obtain ⟨hfit, id, window, nanos, hflush⟩ := h g hg
    rw [hreader g hg r hr]
    exact hfit.rangeScan_flushed hflush a b

/-- The readers of an engine in memory find the entries of the segments, and yield those of the segments
that the metadata do not exclude. -/
theorem ImmutableEngine.open_flushed (h : AllFlushed X Z segs) (described : Raw.SegmentFiles → SegmentMeta)
    (hhash : ∀ s ∈ segs, (described s.2).segmentHash.length = 32) :
    ∃ e, ImmutableEngine.fromSegmentBytes X Z (segs.map fun s => (described s.2, s.2.dat)) = .ok e ∧
      (∀ key, e.readers.map (fun r => r.get X Z key) = segs.map fun s => .ok (find s.1 key)) ∧
      ∀ a b, e.readers.map (fun r => r.rangeScan Z a b) = segs.map fun s =>
        .ok (if b < (described s.2).minKey ∨ (described s.2).maxKey < a then []
          else within a b s.1) := by
  let build (s : List (Bytes × MemEntry) × Raw.SegmentFiles) :
      Except EdgestoreError Raw.InMemorySegmentReader :=
    if (described s.2).segmentHash.length ≠ 32 then
      .error (.replicationError s!"segment {(described s.2).segmentId} hash is not 32 bytes")
    else Raw.InMemorySegmentReader.fromBytes X Z (described s.2).segmentId (described s.2).segmentHash
      (described s.2) s.2.dat
  have hbuild : ∀ s ∈ segs, ∃ r, build s = .ok r ∧
      (∀ key, r.get X Z key = .ok (find s.1 key)) ∧
      ∀ a b, r.rangeScan Z a b = .ok (if b < (described s.2).minKey ∨ (described s.2).maxKey < a then []
        else within a b s.1) := by
    intro s hs
    obtain ⟨hfit, id, window, nanos, hflush⟩ := h s hs
    obtain ⟨r, hr, hdata, hmeta, hfilter, hloc⟩ := hfit.fromBytes_eq (Z := Z)
      (described s.2).segmentId (described s.2).segmentHash (described s.2)
    refine ⟨r, ?_, hfit.get_inMemory hdata hloc hfilter, fun a b => ?_⟩
    · change (if _ then _ else _) = _
      rw [if_neg (not_not.mpr (hhash s hs)), (Raw.flush_eq_ok hflush).1, hr]
    · rw [hfit.rangeScan_inMemory hdata hloc a b, hmeta]
  obtain ⟨readers, hopen, hall⟩ := mapM_eq_ok (f := build) fun s hs =>
    (hbuild s hs).imp fun r hr => hr.1
  refine ⟨⟨readers⟩, ?_, fun key => ?_, fun a b => ?_⟩
  · rw [ImmutableEngine.fromSegmentBytes, List.mapM_map]
    change (segs.mapM build >>= fun readers => pure (⟨readers⟩ : ImmutableEngine)) = _
    rw [hopen]
    rfl
  · refine map_eq_map_of_forall₂ hall fun s hs r hr => ?_
    obtain ⟨r', hr', hget, -⟩ := hbuild s hs
    cases hr'.symm.trans hr
    exact hget key
  · refine map_eq_map_of_forall₂ hall fun s hs r hr => ?_
    obtain ⟨r', hr', -, hscan⟩ := hbuild s hs
    cases hr'.symm.trans hr
    exact hscan a b

end AllFlushed

/-! ### What the placeholders cost -/

/-- The value of a newest record, or none if there is no record. -/
def ShowsNewest (l : List MemEntry) (v : Option Bytes) : Prop :=
  l = [] ∧ v = none ∨ ∃ r, IsNewest l r ∧ v = r.live

/-- The live keys with a prefix, in order, each with the value of a newest record. -/
structure LivePairs (tables : List (List (Bytes × MemEntry))) (ns p : Bytes)
    (pairs : List (Bytes × Bytes)) : Prop where
  sorted : KeySorted pairs
  inside : ∀ key, p <+: key →
    ShowsNewest (tables.filterMap fun table => find table (encoded ns key)) (find pairs key)
  outside : ∀ key, ¬ p <+: key → find pairs key = none

/-- The newest records of the keys of a range are tombstones. -/
def NoneLive (tables : List (List (Bytes × MemEntry))) (ns start «end» : Bytes) : Prop :=
  ∀ key, start ≤ key → key < «end» → ∀ r,
    IsNewest (tables.filterMap fun table => find table (encoded ns key)) r → r.live = none

/-- The records of one key under one LSN are one record. -/
def OneRecordPerKey (tables : List (List (Bytes × MemEntry))) : Prop :=
  ∀ k, ∀ r ∈ tables.filterMap fun table => find table k,
    ∀ r' ∈ tables.filterMap fun table => find table k, r.lsn = r'.lsn → r = r'

section Archived

variable {tables : List (List (Bytes × MemEntry))} {ns start «end» p : Bytes}

/-- The placeholder for the greatest key is less than the keys of a namespace of the greatest length
there is, and of no other. -/
theorem replicate_lt_encoded_iff (hns : ns.length ≤ maxNsLen) (key : Bytes) :
    List.replicate 2 255 < encoded ns key ↔ ns.length = maxNsLen := by
  have hbound : prefixUpperBound (List.replicate 2 255) = none :=
    prefixUpperBound_eq_none.mpr fun b hb => List.eq_of_mem_replicate hb
  constructor
  · intro hlt
    obtain ⟨c, hc⟩ := (le_iff_of_prefixUpperBound_none hbound _).mp hlt.le
    -- the first two bytes of a key are the length of its namespace
    have hbytes : beBytes 2 ns.length = List.replicate 2 255 := by
      rw [encoded, List.append_assoc] at hc
      exact (List.append_inj_left hc (by simp)).symm
    exact (lengthBytes_eq_max_iff hns).mp fun b hb => List.eq_of_mem_replicate (hbytes ▸ hb)
  · intro hlen
    have hbytes : beBytes 2 ns.length = List.replicate 2 255 :=
      List.eq_replicate_iff.mpr ⟨by simp, (lengthBytes_eq_max_iff hns).mpr hlen⟩
    have hne : ns ≠ [] := by
      rintro rfl
      cases hlen
    obtain ⟨b, ns', rfl⟩ := List.exists_cons_of_ne_nil hne
    rw [encoded, hbytes, List.append_assoc]
    have hlt : List.replicate 2 255 ++ [] < List.replicate 2 255 ++ ((b :: ns') ++ key) :=
      append_lt_append_iff.mpr (List.nil_lt_cons b (ns' ++ key))
    rwa [List.append_nil] at hlt

/-- The keys between two of a namespace are of the namespace. -/
theorem encoded_of_between (hns : ns.length ≤ maxNsLen) (k : Bytes) (ha : encoded ns start ≤ k)
    (hb : k < encoded ns «end») : ∃ key, encodeKey ns key = .ok k :=
  encodeKey_of_between (encodeKey_eq_encoded hns start) (encodeKey_eq_encoded hns «end») ha hb

/-- **A merge of nothing** returns nothing. -/
theorem Raw.mergedScans_nil {ρ σ : Type} {scan : ρ → Except EdgestoreError (List (Bytes × MemEntry))}
    {readers : List ρ} {segs : List σ} (h : readers.map scan = segs.map fun _ => .ok []) :
    Raw.mergedScans scan readers = .ok [] := by
  have hempty : readers.map scan = (segs.map fun _ => ([] : List (Bytes × MemEntry))).map
      fun table => .ok (within [] [] table) := by
    rw [h, List.map_map]
    rfl
  obtain ⟨l, hl, -, hrange, -⟩ := @Raw.mergedScans_within _ _ [] _ _ _ _ hempty
    (fun table htable => by
      obtain ⟨-, -, rfl⟩ := List.mem_map.mp htable
      exact List.Pairwise.nil)
    fun k ha hb => absurd hb (not_lt.mpr ha)
  have hnil : l = [] := by
    apply List.eq_nil_iff_forall_not_mem.mpr
    intro q hq
    obtain ⟨ha, hb⟩ := hrange q hq
    exact absurd hb (not_lt.mpr ha)
  rw [hl, hnil]
  rfl

/-- The scan of a prefix of a shorter namespace returns the live pairs. -/
theorem Raw.mergedScans_livePairs {ρ : Type} {scan : ρ → Except EdgestoreError (List (Bytes × MemEntry))}
    {readers : List ρ} {u : Bytes} (hns : ns.length < maxNsLen)
    (hu : prefixUpperBound (encoded ns p) = some u)
    (hscan : readers.map scan = tables.map fun table => .ok (within (encoded ns p) u table))
    (hs : ∀ table ∈ tables, KeySorted table) :
    ∃ pairs, Raw.mergedScans scan readers = .ok pairs ∧ LivePairs tables ns p pairs := by
  have hkeys : ∀ k, encoded ns p ≤ k → k < u → ∃ key, encodeKey ns key = .ok k := by
    intro k ha hb
    obtain ⟨key, -, hkey⟩ := Engine.encodeKey_of_isPrefix hns.le ((prefixUpperBound_some hu k).mp ⟨ha, hb⟩)
    exact ⟨key, hkey⟩
  obtain ⟨l, hl, hsorted, hrange, hfound⟩ := Raw.mergedScans_within hscan hs hkeys
  have hl' : ∀ q ∈ l, ∃ key, encodeKey ns key = .ok q.1 := by
    intro q hq
    obtain ⟨ha, hb⟩ := hrange q hq
    exact hkeys q.1 ha hb
  have hfind : ∀ key, find (l.filterMap (Engine.emitted ns)) key =
      (find l (encoded ns key)).bind MemEntry.live :=
    fun key => Engine.find_emitted hsorted hl' (encodeKey_eq_encoded hns.le key)
  refine ⟨_, hl, ⟨Engine.keySorted_emitted hsorted hl', fun key hp => ?_, fun key hp => ?_⟩⟩
  · obtain ⟨ha, hb⟩ := (prefixUpperBound_some hu _).mpr (Engine.encoded_isPrefix_iff.mpr hp)
    obtain ⟨hsome, hnone⟩ := hfound (encoded ns key) ha hb
    rw [hfind]
    cases hr : find l (encoded ns key) with
    | none => exact .inl ⟨hnone hr, rfl⟩
    | some r => exact .inr ⟨r, hsome r hr, rfl⟩
  · have hnone : find l (encoded ns key) = none := by
      apply find_eq_none_iff.mpr
      intro q hq heq
      obtain ⟨ha, hb⟩ := hrange q hq
      rw [heq] at ha hb
      exact hp (Engine.encoded_isPrefix_iff.mp ((prefixUpperBound_some hu _).mp ⟨ha, hb⟩))
    rw [hfind, hnone]
    rfl

/-- Of a range without a live key nothing is returned. -/
theorem Raw.mergedScans_eq_nil {ρ : Type} {scan : ρ → Except EdgestoreError (List (Bytes × MemEntry))}
    {readers : List ρ} (hns : ns.length ≤ maxNsLen)
    (hscan : readers.map scan =
      tables.map fun table => .ok (within (encoded ns start) (encoded ns «end») table))
    (hs : ∀ table ∈ tables, KeySorted table) :
    (NoneLive tables ns start «end» → Raw.mergedScans scan readers = .ok []) ∧
      (OneRecordPerKey tables → Raw.mergedScans scan readers = .ok [] →
        NoneLive tables ns start «end») := by
  obtain ⟨l, hl, hsorted, hrange, hfound⟩ :=
    Raw.mergedScans_within hscan hs (encoded_of_between hns)
  have hempty : l.filterMap (Engine.emitted ns) = [] ↔ ∀ q ∈ l, q.2.live = none := by
    simp [Engine.emitted]
  rw [hl, Except.ok.injEq, hempty]
  constructor
  · intro hnone q hq
    obtain ⟨ha, hb⟩ := hrange q hq
    obtain ⟨key, hkey⟩ := encoded_of_between hns q.1 ha hb
    obtain ⟨-, hk⟩ := encodeKey_eq_ok.mp hkey
    have heq : encoded ns key = q.1 := hk.symm
    rw [← heq] at ha hb
    refine hnone key (encoded_le_iff.mp ha) (encoded_lt_iff.mp hb) q.2 ?_
    refine (hfound (encoded ns key) ha hb).1 q.2 ?_
    rw [heq]
    exact hsorted.find_eq_some_iff.mpr hq
  · intro hone hlive key ha hb r hr
    obtain ⟨hsome, hnil⟩ := hfound (encoded ns key) (encoded_le_iff.mpr ha) (encoded_lt_iff.mpr hb)
    cases hf : find l (encoded ns key) with
    | none =>
      have hmem := hr.1
      rw [hnil hf] at hmem
      cases hmem
    | some r' =>
      obtain ⟨hin, hmax⟩ := hsome r' hf
      obtain rfl : r = r' := hone _ r hr.1 r' hin (Nat.le_antisymm (hmax r hr.1) (hr.2 r' hin))
      exact hlive _ (mem_of_find hf)

end Archived

/-! ### Agreement -/

section Agreement

variable {segs : List (List (Bytes × MemEntry) × Raw.SegmentFiles)} {s : Raw.Snapshot}
  {e : ImmutableEngine}

namespace ImmutableEngine

/-- Readers that find the same answer lookups alike. -/
theorem get_eq_snapshot (hs : ∀ key, s.readers.map (fun r => r.1.get X Z r.2 key) =
      segs.map fun g => .ok (find g.1 key))
    (he : ∀ key, e.readers.map (fun r => r.get X Z key) = segs.map fun g => .ok (find g.1 key))
    (ns key : Bytes) : e.get X Z ns key = s.get X Z ns key := by
  unfold ImmutableEngine.get Raw.Snapshot.get
  cases encodeKey ns key with
  | error err => rfl
  | ok k =>
    change (Raw.bestEntry _ none e.readers >>= _) = (Raw.bestEntry _ none s.readers >>= _)
    rw [Raw.bestEntry_congr ((he k).trans (hs k).symm)]

/-- Readers that yield the same answer scans alike. -/
theorem range_eq_snapshot {ns start «end» : Bytes}
    (h : ∀ a b, encodeKey ns start = .ok a → encodeKey ns «end» = .ok b →
      e.readers.map (fun r => r.rangeScan Z a b) = s.readers.map fun r => r.1.rangeScan Z r.2 a b) :
    e.range Z ns start «end» = s.range Z ns start «end» := by
  unfold ImmutableEngine.range Raw.Snapshot.range
  cases ha : encodeKey ns start with
  | error err => rfl
  | ok a =>
    cases hb : encodeKey ns «end» with
    | error err => rfl
    | ok b => exact Raw.mergedScans_congr (h a b ha hb)

/-- The scan of a prefix of a shorter namespace is a range scan up to its upper bound. -/
theorem prefixScan_livePairs {ns p : Bytes} (hns : ns.length < maxNsLen)
    (hfit : ∀ g ∈ segs, Flushable X g.1)
    (he : ∀ a b, a = encoded ns p → e.readers.map (fun r => r.rangeScan Z a b) =
      segs.map fun g => .ok (within a b g.1)) :
    ∃ pairs, e.prefixScan Z ns p = .ok pairs ∧ LivePairs (segs.map Prod.fst) ns p pairs := by
  have hu : prefixUpperBound (encoded ns p) ≠ none := by
    rw [Ne, prefixUpperBound_encoded_eq_none hns.le]
    exact fun h => hns.ne h.1
  obtain ⟨u, hu⟩ := Option.ne_none_iff_exists'.mp hu
  have hscan : e.readers.map (fun r => r.rangeScan Z (encoded ns p) u) =
      (segs.map Prod.fst).map fun table => .ok (within (encoded ns p) u table) := by
    rw [he _ u rfl, List.map_map]
    rfl
  have hsorted : ∀ table ∈ segs.map Prod.fst, KeySorted table := by
    intro table htable
    obtain ⟨g, hg, rfl⟩ := List.mem_map.mp htable
    exact (hfit g hg).sorted
  obtain ⟨pairs, hpairs, hlive⟩ := Raw.mergedScans_livePairs hns hu hscan hsorted
  refine ⟨pairs, ?_, hlive⟩
  rw [prefixScan, encodeKey_eq_encoded hns.le]
  change e.rangeEncoded Z (encoded ns p) ((prefixUpperBound (encoded ns p)).getD _) = _
  rw [hu]
  exact hpairs

/-- The placeholders of an archived segment exclude the scans that start behind their greatest key. -/
theorem open_archived (h : AllFlushed X Z segs) :
    ∃ e, fromSegmentBytes X Z
        (segs.map fun g => (syntheticMeta g.2.segMeta.segmentHash, g.2.dat)) = .ok e ∧
      (∀ key, e.readers.map (fun r => r.get X Z key) = segs.map fun g => .ok (find g.1 key)) ∧
      ∀ a b, e.readers.map (fun r => r.rangeScan Z a b) =
        segs.map fun g => .ok (if List.replicate 2 255 < a then [] else within a b g.1) := by
  obtain ⟨e, he, hget, hscan⟩ := ImmutableEngine.open_flushed h
    (fun f => syntheticMeta f.segMeta.segmentHash) (Raw.length_segmentHash h)
  refine ⟨e, he, hget, fun a b => ?_⟩
  rw [hscan]
  refine List.map_congr_left fun g _ => ?_
  simp only [syntheticMeta, List.not_lt_nil, false_or]

/-- Of a namespace of the greatest length there is, placeholders let nothing be returned. -/
theorem range_longest (hscan : ∀ a b, e.readers.map (fun r => r.rangeScan Z a b) =
      segs.map fun g => .ok (if List.replicate 2 255 < a then [] else within a b g.1))
    {ns start «end» : Bytes} (hlen : ns.length = maxNsLen) : e.range Z ns start «end» = .ok [] := by
  rw [ImmutableEngine.range, encodeKey_eq_encoded hlen.le, encodeKey_eq_encoded hlen.le]
  refine @Raw.mergedScans_nil _ _ _ _ segs ?_
  rw [hscan]
  refine List.map_congr_left fun g _ => ?_
  rw [if_pos ((replicate_lt_encoded_iff hlen.le start).mpr hlen)]

end ImmutableEngine

/-- **The engine in memory agrees with a snapshot** of the same segments: on lookups, on ranges, and its
prefix scans of the shorter namespaces return the live keys with the prefix. With placeholders for
metadata the same holds, but a range of a namespace of the greatest length there is agrees if and only if
it has no live key. -/
theorem immutable_agrees_snapshot (h : AllFlushed X Z segs) :
    ∃ s real archived, Raw.Snapshot.open (segs.map Prod.snd) = .ok s ∧
      ImmutableEngine.fromSegmentBytes X Z (segs.map fun g => (g.2.segMeta, g.2.dat)) = .ok real ∧
      ImmutableEngine.fromSegmentBytes X Z
        (segs.map fun g => (syntheticMeta g.2.segMeta.segmentHash, g.2.dat)) = .ok archived ∧
      (∀ ns key, real.get X Z ns key = s.get X Z ns key ∧
        archived.get X Z ns key = s.get X Z ns key) ∧
      (∀ ns start «end», real.range Z ns start «end» = s.range Z ns start «end») ∧
      (∀ ns p, ns.length < maxNsLen →
        (∃ pairs, real.prefixScan Z ns p = .ok pairs ∧ LivePairs (segs.map Prod.fst) ns p pairs) ∧
        ∃ pairs, archived.prefixScan Z ns p = .ok pairs ∧ LivePairs (segs.map Prod.fst) ns p pairs) ∧
      (∀ ns start «end»,
        (ns.length = maxNsLen → NoneLive (segs.map Prod.fst) ns start «end») →
          archived.range Z ns start «end» = s.range Z ns start «end») ∧
      (OneRecordPerKey (segs.map Prod.fst) → ∀ ns start «end»,
        archived.range Z ns start «end» = s.range Z ns start «end» →
          ns.length = maxNsLen → NoneLive (segs.map Prod.fst) ns start «end») := by
  obtain ⟨s, hs, hsget, hsscan⟩ := Raw.Snapshot.open_flushed h
  obtain ⟨real, hreal, hrget, hrscan⟩ :=
    ImmutableEngine.open_flushed h Raw.SegmentFiles.segMeta (Raw.length_segmentHash h)
  obtain ⟨archived, harch, haget, hascan⟩ := ImmutableEngine.open_archived h
  -- the metadata of a segment exclude no entry
  have hrscan' : ∀ a b, real.readers.map (fun r => r.rangeScan Z a b) =
      segs.map fun g => .ok (within a b g.1) := by
    intro a b
    rw [hrscan]
    refine List.map_congr_left fun g hg => ?_
    obtain ⟨hfit, id, window, nanos, hflush⟩ := h g hg
    split
    case isTrue hout => rw [hfit.within_eq_nil_of_flushed hflush (hout.imp_left le_of_lt)]
    case isFalse => rfl
  have hsorted : ∀ table ∈ segs.map Prod.fst, KeySorted table := by
    intro table htable
    obtain ⟨g, hg, rfl⟩ := List.mem_map.mp htable
    exact (h g hg).1.sorted
  have hshort : ∀ ns start, ns.length ≤ maxNsLen → ns.length ≠ maxNsLen → ∀ a b, a = encoded ns start →
      archived.readers.map (fun r => r.rangeScan Z a b) = segs.map fun g => .ok (within a b g.1) := by
    rintro ns start hns hne a b rfl
    rw [hascan]
    refine List.map_congr_left fun g _ => ?_
    rw [if_neg fun hlt => hne ((replicate_lt_encoded_iff hns start).mp hlt)]
  have hlive : ∀ ns start «end», ns.length = maxNsLen →
      (NoneLive (segs.map Prod.fst) ns start «end» → s.range Z ns start «end» = .ok []) ∧
      (OneRecordPerKey (segs.map Prod.fst) → s.range Z ns start «end» = .ok [] →
        NoneLive (segs.map Prod.fst) ns start «end») := by
    intro ns start «end» hlen
    rw [Raw.Snapshot.range, encodeKey_eq_encoded hlen.le, encodeKey_eq_encoded hlen.le]
    refine Raw.mergedScans_eq_nil hlen.le ?_ hsorted
    rw [hsscan, List.map_map]
    rfl
  refine ⟨s, real, archived, hs, hreal, harch, fun ns key => ⟨?_, ?_⟩, fun ns start «end» => ?_,
    fun ns p hns => ⟨?_, ?_⟩, fun ns start «end» hcond => ?_, fun hone ns start «end» hagree hlen => ?_⟩
  · exact ImmutableEngine.get_eq_snapshot hsget hrget ns key
  · exact ImmutableEngine.get_eq_snapshot hsget haget ns key
  · exact ImmutableEngine.range_eq_snapshot fun a b _ _ => (hrscan' a b).trans (hsscan a b).symm
  · exact ImmutableEngine.prefixScan_livePairs hns (fun g hg => (h g hg).1) fun a b _ => hrscan' a b
  · exact ImmutableEngine.prefixScan_livePairs hns (fun g hg => (h g hg).1)
      fun a b ha => hshort ns p hns.le hns.ne a b ha
  · by_cases hlen : ns.length = maxNsLen
    · rw [ImmutableEngine.range_longest hascan hlen, (hlive ns start «end» hlen).1 (hcond hlen)]
    · refine ImmutableEngine.range_eq_snapshot fun a b ha _ => ?_
      obtain ⟨hns, ha⟩ := encodeKey_eq_ok.mp ha
      exact (hshort ns start hns hlen a b ha).trans (hsscan a b).symm
  · rw [ImmutableEngine.range_longest hascan hlen] at hagree
    exact (hlive ns start «end» hlen).2 hone hagree.symm

/-- Two segments, of which the second deletes a key of the first: both engines return the other key. -/
theorem immutable_agrees_snapshot_two :
    let older : List (Bytes × MemEntry) :=
      [([0, 0, 1], ⟨[0, 0, 1], some [7], .put, 1, 5, 0⟩), ([0, 0, 2], ⟨[0, 0, 2], some [8], .put, 2, 6, 0⟩)]
    let newer : List (Bytes × MemEntry) := [([0, 0, 1], ⟨[0, 0, 1], none, .delete, 3, 7, 0⟩)]
    ∃ files₁ files₂ s archived,
      Raw.SegmentWriter.flush plainExternals plainZstd 0 60 9 older = .ok files₁ ∧
      Raw.SegmentWriter.flush plainExternals plainZstd 1 60 9 newer = .ok files₂ ∧
      Raw.Snapshot.open [files₁, files₂] = .ok s ∧
      ImmutableEngine.fromSegmentBytes plainExternals plainZstd
        [(syntheticMeta files₁.segMeta.segmentHash, files₁.dat),
          (syntheticMeta files₂.segMeta.segmentHash, files₂.dat)] = .ok archived ∧
      archived.get plainExternals plainZstd [] [1] = s.get plainExternals plainZstd [] [1] ∧
      archived.range plainZstd [] [] [9] = s.range plainZstd [] [] [9] := by
  intro older newer
  have hrange : ∀ q ∈ older ++ newer, EntryInRange q := by
    intro q hq
    simp only [older, newer, List.cons_append, List.nil_append, List.mem_cons, List.not_mem_nil,
      or_false] at hq
    rcases hq with rfl | rfl | rfl <;>
      exact ⟨rfl, by decide, by decide, by decide, by decide, by decide⟩
  have holder : Flushable plainExternals older :=
    ⟨by decide, fun q hq => hrange q (List.mem_append_left _ hq), by decide, by decide, by decide,
      by decide, by decide⟩
  have hnewer : Flushable plainExternals newer :=
    ⟨by decide, fun q hq => hrange q (List.mem_append_right _ hq), by decide, by decide, by decide,
      by decide, by decide⟩
  obtain ⟨files₁, hflush₁⟩ : ∃ files,
      Raw.SegmentWriter.flush plainExternals plainZstd 0 60 9 older = .ok files := ⟨_, rfl⟩
  obtain ⟨files₂, hflush₂⟩ : ∃ files,
      Raw.SegmentWriter.flush plainExternals plainZstd 1 60 9 newer = .ok files := ⟨_, rfl⟩
  have hall : AllFlushed plainExternals plainZstd [(older, files₁), (newer, files₂)] := by
    intro g hg
    rcases List.mem_cons.mp hg with rfl | hg
    · exact ⟨holder, 0, 60, 9, hflush₁⟩
    · rw [List.mem_singleton.mp hg]
      exact ⟨hnewer, 1, 60, 9, hflush₂⟩
  obtain ⟨s, real, archived, hs, -, harch, hget, -, -, hagree, -⟩ := immutable_agrees_snapshot hall
  exact ⟨files₁, files₂, s, archived, hflush₁, hflush₂, hs, harch, (hget [] [1]).2,
    hagree [] [] [9] fun hlen => absurd hlen (by decide)⟩

/-! ### A range that the placeholders hide -/

/-- The live pair of a single entry is returned. -/
theorem Raw.Snapshot.range_singleton {ns key v : Bytes} {r : MemEntry} (hns : ns.length ≤ maxNsLen)
    (hlive : r.live = some v)
    (hscan : ∀ a b, s.readers.map (fun r => r.1.rangeScan Z r.2 a b) =
      [.ok (within a b [(encoded ns key, r)])]) :
    s.range Z ns key (key ++ [0]) = .ok [(key, v)] := by
  obtain ⟨reader, hreaders⟩ : ∃ reader, s.readers = [reader] :=
    List.length_eq_one_iff.mp (by simpa using congrArg List.length (hscan [] []))
  have hwithin : within (encoded ns key) (encoded ns (key ++ [0])) [(encoded ns key, r)] =
      [(encoded ns key, r)] := by
    simp [within, encoded_lt_iff, lt_append_zero]
  have hone := hscan (encoded ns key) (encoded ns (key ++ [0]))
  rw [hreaders, hwithin] at hone
  have hreader : reader.1.rangeScan Z reader.2 (encoded ns key) (encoded ns (key ++ [0])) =
      .ok [(encoded ns key, r)] := (List.cons.inj hone).1
  rw [Raw.Snapshot.range, encodeKey_eq_encoded hns, encodeKey_eq_encoded hns]
  change Raw.mergedScans _ s.readers = _
  rw [hreaders, Raw.mergedScans, List.mapM_cons, List.mapM_nil, hreader]
  change Snapshot.collect none [] [.ok (encoded ns key, r)] = _
  have hcollect := @Snapshot.collect_none ns [(encoded ns key, r)] fun q hq =>
    ⟨key, by rw [List.mem_singleton.mp hq, encodeKey_eq_encoded hns]⟩
  rw [show ([.ok (encoded ns key, r)] : List (Except EdgestoreError (Bytes × MemEntry))) =
    [(encoded ns key, r)].map .ok from rfl, hcollect]
  simp [newest, newestFrom, Engine.emitted, hlive, rawKey_encoded]

/-- The only key of a namespace of the greatest length there is, in an archived segment. -/
theorem archived_misses {ns : Bytes} (hlen : ns.length = maxNsLen) :
    let entries : List (Bytes × MemEntry) :=
      [(encoded ns [1], ⟨encoded ns [1], some [10], .put, 1, 0, 0⟩)]
    ∃ files s archived, Raw.SegmentWriter.flush plainExternals plainZstd 0 60 0 entries = .ok files ∧
      Raw.Snapshot.open [files] = .ok s ∧
      ImmutableEngine.fromSegmentBytes plainExternals plainZstd
        [(syntheticMeta files.segMeta.segmentHash, files.dat)] = .ok archived ∧
      s.range plainZstd ns [1] [1, 0] = .ok [([1], [10])] ∧
      archived.range plainZstd ns [1] [1, 0] = .ok [] := by
  intro entries
  obtain ⟨files, hflush⟩ : ∃ files,
      Raw.SegmentWriter.flush plainExternals plainZstd 0 60 0 entries = .ok files := ⟨_, rfl⟩
  have hall : AllFlushed plainExternals plainZstd [(entries, files)] := by
    intro g hg
    rw [List.mem_singleton.mp hg]
    exact ⟨Engine.flushable_longest hlen, 0, 60, 0, hflush⟩
  obtain ⟨s, hs, -, hscan⟩ := Raw.Snapshot.open_flushed hall
  obtain ⟨archived, harch, -, hascan⟩ := ImmutableEngine.open_archived hall
  refine ⟨files, s, archived, hflush, hs, harch, ?_, ImmutableEngine.range_longest hascan hlen⟩
  exact Raw.Snapshot.range_singleton hlen.le rfl hscan

/-- **A range that the archive does not return**: the namespace is 65535 bytes of `0xFF`, its only key is
in a segment, and a snapshot of the segment returns it. -/
theorem archived_range_misses :
    let ns : Bytes := List.replicate maxNsLen 255
    let entries : List (Bytes × MemEntry) :=
      [(encoded ns [1], ⟨encoded ns [1], some [10], .put, 1, 0, 0⟩)]
    ∃ files s archived, Raw.SegmentWriter.flush plainExternals plainZstd 0 60 0 entries = .ok files ∧
      Raw.Snapshot.open [files] = .ok s ∧
      ImmutableEngine.fromSegmentBytes plainExternals plainZstd
        [(syntheticMeta files.segMeta.segmentHash, files.dat)] = .ok archived ∧
      s.range plainZstd ns [1] [1, 0] = .ok [([1], [10])] ∧
      archived.range plainZstd ns [1] [1, 0] = .ok [] :=
  archived_misses List.length_replicate

end Agreement
