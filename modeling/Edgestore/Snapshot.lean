import Edgestore.Engine.PageSpec

/-!
# Snapshots

A snapshot holds clones of the readers of the store, and pins their segments in the registry of the
engine. It reads the segments only: the entry with the highest LSN among those its readers find.

## Main definitions

* `Snapshot`, with `get` and `range`
* `Engine.newSnapshot`: the snapshot that `Engine.snapshot` returns
* `Engine.AllRecorded X e fs`: no write is in the memtable alone, and newer records are registered later
* `Engine.Captured X e fs`: the segments alone say what the engine says

## Main results

* `Snapshot.get_eq`, `Snapshot.range_eq`: a snapshot returns the records with the highest LSN
* `Engine.AllRecorded.captured`: segments in which all writes are recorded say what the engine says
* `Engine.Captured.get_eq`, `Engine.Captured.range_eq`: a snapshot that captures all layers returns
  what the engine returns
* `Snapshot.get_congr`, `Snapshot.range_congr`: nothing but the pinned files matters
-/

variable {X : Externals} {R : List SegmentId} {fs : Fs}

/-- A point-in-time view of a set of segments. -/
structure Snapshot where
  snapshotId : ℕ
  readers : List SegmentReader
  deriving DecidableEq, Repr

namespace Snapshot

/-- The segments that a snapshot pins. -/
def segmentIds (s : Snapshot) : List SegmentId := s.readers.map SegmentReader.segmentId

/-- The entry with the highest LSN among `best` and those that readers find. -/
def bestEntry (X : Externals) (fs : Fs) (encoded : Bytes) :
    Option MemEntry → List SegmentReader → Except EdgestoreError (Option MemEntry)
  | best, [] => .ok best
  | best, r :: readers => do
    match ← r.get X fs encoded with
    | some entry =>
      bestEntry X fs encoded (if best.all fun b => entry.lsn > b.lsn then some entry else best) readers
    | none => bestEntry X fs encoded best readers

/-- Look up a single key. -/
def get (X : Externals) (fs : Fs) (s : Snapshot) (ns key : Bytes) :
    Except EdgestoreError (Option Bytes) := do
  let encoded ← encodeKey ns key
  match ← bestEntry X fs encoded none s.readers with
  | some e => return if e.op = .put then e.value else none
  | none => return none

/-- The entries of each reader in the range, in key order. -/
def perReader (fs : Fs) (s : Snapshot) (start «end» : Bytes) :
    Except EdgestoreError (List (List (Bytes × MemEntry))) :=
  s.readers.mapM fun r => do
    let seg ← r.rangeScan fs start «end»
    return seg.insertionSort fun p q => p.1 ≤ q.1

/-- Add the last entry of a key to the results, unless it is a tombstone. -/
def push (results : List (Bytes × Bytes)) (last : Bytes × MemEntry) :
    Except EdgestoreError (List (Bytes × Bytes)) :=
  if last.2.op ≠ .delete then do
    let (_, userKey) ← decodeKey last.1
    match last.2.value with
    | some val => return results ++ [(userKey, val)]
    | none => return results
  else .ok results

/-- Keep the highest LSN of each key. `last` is the best entry so far of the key at hand. -/
def collect : Option (Bytes × MemEntry) → List (Bytes × Bytes) →
    List (Except EdgestoreError (Bytes × MemEntry)) → Except EdgestoreError (List (Bytes × Bytes))
  | none, results, [] => .ok results
  | some last, results, [] => push results last
  | _, _, .error err :: _ => .error err
  | none, results, .ok item :: rest => collect (some item) results rest
  | some last, results, .ok item :: rest =>
    if last.1 = item.1 then
      collect (some (last.1, if item.2.lsn > last.2.lsn then item.2 else last.2)) results rest
    else do collect (some item) (← push results last) rest

/-- The live pairs of a namespace with `start ≤ key < end`. -/
def range (fs : Fs) (s : Snapshot) (ns start «end» : Bytes) :
    Except EdgestoreError (List (Bytes × Bytes)) := do
  let encStart ← encodeKey ns start
  let encEnd ← encodeKey ns «end»
  let segs ← s.perReader fs encStart encEnd
  let popped ← KWayMerge.merged MemEntry.lsn (segs.map fun seg => seg.map .ok)
  collect none [] popped

end Snapshot

/-- The snapshot that `Engine.snapshot` returns. -/
def Engine.newSnapshot (e : Engine) : Snapshot := ⟨e.snapshotRegistry.nextId, e.segmentStore.readers⟩

/-! ### What a snapshot returns -/

namespace Snapshot

variable {segs : List SegmentMeta} {readers : List SegmentReader}

/-- The better of two entries: the later one, if its LSN is higher. -/
theorem bestEntry_some (h : Readers fs segs readers)
    (hwf : ∀ m ∈ segs, SegmentWf X (fs.segs m.segmentId)) (key : Bytes) (b : MemEntry) :
    bestEntry X fs key (some b) readers =
      .ok (some ((segs.filterMap fun m => find (fs.segs m.segmentId).table key).foldl
        (fun b v => if v.lsn > b.lsn then v else b) b)) := by
  induction h generalizing b with
  | nil => rfl
  | @cons m r segs readers hopen _ ih =>
    obtain ⟨img, himg⟩ := hwf m List.mem_cons_self
    rw [himg, img.openReader_files] at hopen
    cases hopen
    have ih' := ih fun m hm => hwf m (List.mem_cons_of_mem _ hm)
    rw [bestEntry, img.get_reader himg, List.filterMap_cons, himg, img.table_files]
    cases hfind : find (Dat.table img.dat) key with
    | none => exact ih' b
    | some e =>
      rw [List.foldl_cons, ← ih']
      show bestEntry X fs key (if decide (e.lsn > b.lsn) = true then some e else some b) readers = _
      by_cases hlt : e.lsn > b.lsn <;> simp [hlt]

/-- The readers find the first of the records with the highest LSN. -/
theorem bestEntry_none (h : Readers fs segs readers)
    (hwf : ∀ m ∈ segs, SegmentWf X (fs.segs m.segmentId)) (key : Bytes) :
    bestEntry X fs key none readers =
      .ok (bestOf MemEntry.lsn (segs.filterMap fun m => find (fs.segs m.segmentId).table key)) := by
  induction h with
  | nil => rfl
  | @cons m r segs readers hopen hrest ih =>
    obtain ⟨img, himg⟩ := hwf m List.mem_cons_self
    rw [himg, img.openReader_files] at hopen
    cases hopen
    have hwf' : ∀ m ∈ segs, SegmentWf X (fs.segs m.segmentId) :=
      fun m hm => hwf m (List.mem_cons_of_mem _ hm)
    rw [bestEntry, img.get_reader himg, List.filterMap_cons, himg, img.table_files]
    cases hfind : find (Dat.table img.dat) key with
    | none => exact ih hwf'
    | some e => exact bestEntry_some hrest hwf' key e

/-- **A lookup in a snapshot** returns the first of the records with the highest LSN. -/
theorem get_eq {s : SegmentStore} (h : StoreInv X R s fs) (sid : ℕ) {ns key k : Bytes}
    (hk : encodeKey ns key = .ok k) :
    (Snapshot.mk sid s.readers).get X fs ns key =
      .ok ((bestOf MemEntry.lsn (recordsOf X fs k)).bind MemEntry.live) := by
  have hbest := bestEntry_none h.readers h.wf k
  have hrecords : ((registered X fs).filterMap fun m => find (fs.segs m.segmentId).table k) =
      recordsOf X fs k := by
    simp only [recordsOf, layers, registeredIds, List.map_map, List.filterMap_map]
    rfl
  rw [hrecords] at hbest
  rw [get, hk]
  show (bestEntry X fs k none s.readers >>= fun best => _) = _
  rw [hbest]
  cases bestOf MemEntry.lsn (recordsOf X fs k) with
  | none => rfl
  | some e =>
    -- an entry that is no put is a tombstone
    show Except.ok (if e.op = .put then e.value else none) = Except.ok (e.live)
    rw [MemEntry.live]
    cases e.op <;> rfl

/-- Every reader yields the entries of its segment in the range. -/
theorem perReader_eq (h : Readers fs segs readers)
    (hwf : ∀ m ∈ segs, SegmentWf X (fs.segs m.segmentId)) (sid : ℕ) (a b : Bytes) :
    (Snapshot.mk sid readers).perReader fs a b =
      .ok (segs.map fun m => within a b (fs.segs m.segmentId).table) := by
  rw [perReader]
  induction h with
  | nil => rfl
  | @cons m r segs readers hopen _ ih =>
    obtain ⟨img, himg⟩ := hwf m List.mem_cons_self
    rw [himg, img.openReader_files] at hopen
    cases hopen
    have ih' := ih fun m hm => hwf m (List.mem_cons_of_mem _ hm)
    have hsorted : (within a b (Dat.table img.dat)).Pairwise fun p q => p.1 ≤ q.1 :=
      (img.sorted.filter _).le
    rw [List.mapM_cons, img.rangeScan_reader himg, ih', List.map_cons, himg, img.table_files]
    show Except.ok ((within a b (Dat.table img.dat)).insertionSort _ :: _) = _
    rw [hsorted.insertionSort_eq]

/-- Adding the last entry of a key adds what a scan of the engine emits. -/
theorem push_eq {ns key : Bytes} {p : Bytes × MemEntry} (h : encodeKey ns key = .ok p.1)
    (results : List (Bytes × Bytes)) :
    push results p = .ok (results ++ ([p].filterMap (Engine.emitted ns))) := by
  have hemitted : Engine.emitted ns p = p.2.live.map fun v => (rawKey ns p.1, v) := rfl
  rw [push, decodeKey_encodeKey h]
  cases hop : p.2.op with
  | delete =>
    have hlive : p.2.live = none := by rw [MemEntry.live, if_pos hop]
    simp [hemitted, hlive]
  | put =>
    have hlive : p.2.live = p.2.value := by simp [MemEntry.live, hop]
    rw [if_pos (by simp)]
    cases hv : p.2.value <;> simp [hemitted, hlive, hv, rawKey_encodeKey h]

theorem collect_some {ns : Bytes} {b : Bytes × MemEntry} {results : List (Bytes × Bytes)}
    {l : List (Bytes × MemEntry)} (h : ∀ p ∈ b :: l, ∃ key, encodeKey ns key = .ok p.1) :
    collect (some b) results (l.map .ok) =
      .ok (results ++ (newestFrom MemEntry.lsn b l).filterMap (Engine.emitted ns)) := by
  induction l generalizing b results with
  | nil =>
    obtain ⟨key, hkey⟩ := h b List.mem_cons_self
    exact push_eq hkey results
  | cons p l ih =>
    obtain ⟨key, hkey⟩ := h b List.mem_cons_self
    have hrest : ∀ q ∈ p :: l, ∃ key, encodeKey ns key = .ok q.1 :=
      fun q hq => h q (List.mem_cons_of_mem _ hq)
    rw [List.map_cons, collect, newestFrom]
    by_cases hk : b.1 = p.1
    · rw [if_pos hk, if_pos hk]
      refine ih fun q hq => ?_
      rcases List.mem_cons.mp hq with rfl | hq
      · exact ⟨key, hkey⟩
      · exact hrest q (List.mem_cons_of_mem _ hq)
    · rw [if_neg hk, if_neg hk, push_eq hkey, List.filterMap_cons]
      show collect (some p) _ _ = _
      rw [ih hrest]
      cases hb : Engine.emitted ns b <;> simp [hb]

theorem collect_none {ns : Bytes} {l : List (Bytes × MemEntry)}
    (h : ∀ p ∈ l, ∃ key, encodeKey ns key = .ok p.1) :
    collect none [] (l.map .ok) = .ok ((newest MemEntry.lsn l).filterMap (Engine.emitted ns)) := by
  cases l with
  | nil => rfl
  | cons p l =>
    rw [List.map_cons, collect, collect_some h]
    rfl

/-- **A range of a snapshot** returns the live records with the highest LSNs. -/
theorem range_eq {s : SegmentStore} (h : StoreInv X R s fs) (sid : ℕ) {ns : Bytes}
    (hns : ns.length ≤ maxNsLen) (start «end» : Bytes) :
    ∃ l, Scanned X fs (encoded ns start) (encoded ns «end») l ∧
      (Snapshot.mk sid s.readers).range fs ns start «end» = .ok (l.filterMap (Engine.emitted ns)) := by
  set a := encoded ns start with ha
  set b := encoded ns «end» with hb
  have hsegs : ∀ t ∈ (registered X fs).map fun m => within a b (fs.segs m.segmentId).table,
      t.Pairwise fun p q => p.1 ≤ q.1 := by
    intro t ht
    obtain ⟨m, hm, rfl⟩ := List.mem_map.mp ht
    exact ((h.wf m hm).sorted.filter _).le
  obtain ⟨out, hout, hperm, hsorted⟩ := KWayMerge.merged_eq MemEntry.lsn (ε := EdgestoreError) hsegs
  rw [← List.flatMap_def] at hperm
  have hscanned := scanned_newest h.wf hperm hsorted
  have hkeys : ∀ p ∈ out, ∃ key, encodeKey ns key = .ok p.1 := by
    intro p hp
    obtain ⟨hstart, hend, -⟩ := (mem_entriesWithin h.wf).mp (hperm.mem_iff.mp hp)
    exact encodeKey_of_between (encodeKey_eq_encoded hns start) (encodeKey_eq_encoded hns «end»)
      hstart hend
  refine ⟨_, hscanned, ?_⟩
  rw [range, encodeKey_eq_encoded hns, encodeKey_eq_encoded hns]
  show ((Snapshot.mk sid s.readers).perReader fs a b >>= fun segs => _) = _
  rw [perReader_eq h.readers h.wf]
  show (KWayMerge.merged MemEntry.lsn (KWayMerge.okStreams EdgestoreError _) >>= collect none []) = _
  rw [hout]
  exact collect_none hkeys

/-! ### Only the pinned files matter -/

theorem bestEntry_congr {fs' : Fs} {key : Bytes} {best : Option MemEntry}
    (h : ∀ r ∈ readers, fs'.segs r.segmentId = fs.segs r.segmentId) :
    bestEntry X fs' key best readers = bestEntry X fs key best readers := by
  induction readers generalizing best with
  | nil => rfl
  | cons r readers ih =>
    have hr : r.get X fs' key = r.get X fs key := by
      rw [SegmentReader.get, SegmentReader.get, h r List.mem_cons_self]
    rw [bestEntry, bestEntry, hr]
    congr 1
    funext found
    cases found <;> exact ih fun r hr => h r (List.mem_cons_of_mem _ hr)

theorem mapM_rangeScan_congr {fs' : Fs} {a b : Bytes}
    {k : List (Bytes × MemEntry) → Except EdgestoreError (List (Bytes × MemEntry))}
    (h : ∀ r ∈ readers, fs'.segs r.segmentId = fs.segs r.segmentId) :
    (readers.mapM fun r => r.rangeScan fs' a b >>= k) = readers.mapM fun r => r.rangeScan fs a b >>= k := by
  induction readers with
  | nil => rfl
  | cons r readers ih =>
    have hr : r.rangeScan fs' a b = r.rangeScan fs a b := by
      rw [SegmentReader.rangeScan, SegmentReader.rangeScan, h r List.mem_cons_self]
    rw [List.mapM_cons, List.mapM_cons, hr, ih fun r hr => h r (List.mem_cons_of_mem _ hr)]

variable {s : Snapshot} {fs' : Fs}

/-- A lookup reads the pinned files only. -/
theorem get_congr (h : ∀ id ∈ s.segmentIds, fs'.segs id = fs.segs id) (ns key : Bytes) :
    s.get X fs' ns key = s.get X fs ns key := by
  have hreaders : ∀ r ∈ s.readers, fs'.segs r.segmentId = fs.segs r.segmentId :=
    fun r hr => h _ (List.mem_map_of_mem hr)
  simp only [get, bestEntry_congr hreaders]

/-- A range reads the pinned files only. -/
theorem range_congr (h : ∀ id ∈ s.segmentIds, fs'.segs id = fs.segs id) (ns start «end» : Bytes) :
    s.range fs' ns start «end» = s.range fs ns start «end» := by
  have hreaders : ∀ r ∈ s.readers, fs'.segs r.segmentId = fs.segs r.segmentId :=
    fun r hr => h _ (List.mem_map_of_mem hr)
  simp only [range, perReader, mapM_rangeScan_congr hreaders]

end Snapshot

/-! ### Snapshots that capture all layers -/

namespace Engine

variable {e : Engine}

/-- What the engine reads for a key, its entry in the memtable or else the record registered last, is
what the records with the highest LSN in the segments say. -/
def Captured (X : Externals) (e : Engine) (fs : Fs) : Prop :=
  ∀ ns key k, encodeKey ns key = .ok k → LatestValue (recordsOf X fs k)
    (((e.memtable.get k).or (recordsOf X fs k).getLast?).bind MemEntry.live)

/-- All writes are recorded in segments: an entry of the memtable repeats the records with the highest
LSN, or is a tombstone of a key without records; and where the memtable has no entry, the record with the
highest LSN is the one registered last. -/
structure AllRecorded (X : Externals) (e : Engine) (fs : Fs) : Prop where
  unwritten : ∀ k m, e.memtable.get k = some m → recordsOf X fs k = [] → m.op = .delete
  repeated : ∀ k m r, e.memtable.get k = some m → IsNewest (recordsOf X fs k) r →
    r.op = m.op ∧ r.value = m.value
  last : ∀ k r, e.memtable.get k = none → IsNewest (recordsOf X fs k) r →
    (recordsOf X fs k).getLast? = some r

/-- With an empty memtable and records in the order of their LSNs, all writes are recorded. -/
theorem allRecorded_of_flushed (hmem : ∀ k, e.memtable.get k = none)
    (hord : ∀ k, InLsnOrder (recordsOf X fs k)) : AllRecorded X e fs where
  unwritten k m hm := by
    rw [hmem] at hm
    cases hm
  repeated k m r hm := by
    rw [hmem] at hm
    cases hm
  last k _ _ hr := (hord k).eq_getLast hr

/-- **Segments in which all writes are recorded** say what the engine says. -/
theorem AllRecorded.captured (h : AllRecorded X e fs) : Captured X e fs := by
  intro ns key k _
  cases hm : e.memtable.get k with
  | some m =>
    rw [Option.some_or, Option.bind_some]
    refine ⟨fun hnil => ?_, fun r hr => ?_⟩
    · rw [MemEntry.live, if_pos (h.unwritten k m hm hnil)]
    · obtain ⟨hop, hvalue⟩ := h.repeated k m r hm hr
      rw [MemEntry.live, MemEntry.live, hop, hvalue]
  | none =>
    rw [Option.none_or]
    refine ⟨fun hnil => by rw [hnil]; rfl, fun r hr => ?_⟩
    rw [h.last k r hm hr]
    rfl

/-- A new snapshot finds what the engine finds. -/
theorem Captured.get_eq (hc : Captured X e fs) (h : StoreInv X R e.segmentStore fs)
    (ns key : Bytes) : e.newSnapshot.get X fs ns key = e.get X fs ns key := by
  cases hk : encodeKey ns key with
  | error err =>
    rw [Snapshot.get, get, hk]
    rfl
  | ok k =>
    rw [newSnapshot, Snapshot.get_eq h _ hk, Engine.get_eq h hk]
    congr 1
    obtain ⟨hnil, hnewest⟩ := hc ns key k hk
    cases hbest : bestOf MemEntry.lsn (recordsOf X fs k) with
    | none => exact (hnil (bestOf_eq_none hbest)).symm
    | some b => exact (hnewest b (bestOf_spec hbest)).symm

/-- Unless segments hold two records of one key under one LSN, lookups agree in captured states only. -/
theorem captured_iff (h : StoreInv X R e.segmentStore fs) (hone : OneRecordPerLsn X fs) :
    Captured X e fs ↔ ∀ ns key, e.newSnapshot.get X fs ns key = e.get X fs ns key := by
  refine ⟨fun hc => hc.get_eq h, fun heq ns key k hk => ?_⟩
  have hlookup := heq ns key
  rw [newSnapshot, Snapshot.get_eq h _ hk, Engine.get_eq h hk, Except.ok.injEq] at hlookup
  rw [← hlookup]
  refine ⟨fun hnil => by rw [hnil]; rfl, fun r hr => ?_⟩
  cases hbest : bestOf MemEntry.lsn (recordsOf X fs k) with
  | none =>
    have hmem := hr.1
    rw [bestOf_eq_none hbest] at hmem
    cases hmem
  | some b =>
    rw [IsNewest.unique hone (bestOf_spec hbest) hr]
    rfl

/-- What a captured range shows for a key is what a record with the highest LSN says. -/
theorem Captured.find_visible (hc : Captured X e fs) (h : StoreInv X R e.segmentStore fs)
    {ns key start «end» : Bytes} (hns : ns.length ≤ maxNsLen) (hstart : start ≤ key)
    (hend : key < «end») :
    LatestValue (recordsOf X fs (encoded ns key)) (find (e.visible fs ns start «end») key) := by
  obtain ⟨items, hitems, hfind⟩ := Engine.range_eq (e := e) h hns start «end»
  obtain rfl : items = e.visible fs ns start «end» :=
    Except.ok.inj (hitems.symm.trans (range_eq_visible h hns start «end»))
  obtain ⟨o, hscan, hread⟩ := hfind key _ (encodeKey_eq_encoded hns key) hstart hend
  have hlatest := hc ns key _ (encodeKey_eq_encoded hns key)
  suffices hread : find (e.visible fs ns start «end») key =
      ((e.memtable.get (encoded ns key)).or (recordsOf X fs (encoded ns key)).getLast?).bind
        MemEntry.live by rwa [hread]
  rcases hread with ⟨ho, -, hnone⟩ | ⟨r, hr, hfound⟩
  case inl =>
    -- nothing is shown: there is no record, or the newest one is a tombstone
    rw [hnone]
    rcases hscan with ⟨hnil, -⟩ | ⟨d, hd, hdel⟩
    · exact (hlatest.1 hnil).symm
    · have hop : d.op = .delete := by
        by_contra hop
        rw [ho, if_neg hop] at hdel
        cases hdel
      rw [hlatest.2 d hd, MemEntry.live, if_pos hop]
  case inr =>
    rw [hfound]
    rcases List.mem_append.mp hr.1 with hmem | hmem
    · rcases hscan with ⟨-, rfl⟩ | ⟨d, hd, rfl⟩
      · cases hmem
      · by_cases hop : d.op = .delete
        · rw [if_pos hop] at hmem
          cases hmem
        · rw [if_neg hop, Option.toList_some, List.mem_singleton] at hmem
          rw [hmem, hlatest.2 d hd]
    · rw [Option.mem_toList] at hmem
      rw [hmem]
      rfl

/-- A new snapshot shows what the engine shows. -/
theorem Captured.range_eq (hc : Captured X e fs) (h : StoreInv X R e.segmentStore fs)
    (ns start «end» : Bytes) : e.newSnapshot.range fs ns start «end» = e.range fs ns start «end» := by
  by_cases hns : ns.length ≤ maxNsLen
  case neg =>
    rw [Snapshot.range, range, rangeCore, encodeKey, if_neg hns]
    rfl
  case pos =>
    obtain ⟨l, hl, hrange⟩ := Snapshot.range_eq h e.snapshotRegistry.nextId hns start «end»
    rw [newSnapshot, hrange, range_eq_visible h hns]
    congr 1
    have hkeys : ∀ p ∈ l, ∃ key, encodeKey ns key = .ok p.1 := fun p hp =>
      encodeKey_of_between (encodeKey_eq_encoded hns start) (encodeKey_eq_encoded hns «end»)
        (hl.range p hp).1 (hl.range p hp).2
    refine (keySorted_emitted hl.sorted hkeys).ext (keySorted_visible h hns) fun key => ?_
    rw [find_emitted hl.sorted hkeys (encodeKey_eq_encoded hns key)]
    by_cases hin : start ≤ key ∧ key < «end»
    · obtain ⟨hnil, hnewest⟩ := hc.find_visible h hns hin.1 hin.2
      cases hfind : find l (encoded ns key) with
      | none =>
        exact (hnil (hl.all _ (encoded_le_iff.mpr hin.1) (encoded_lt_iff.mpr hin.2) hfind)).symm
      | some r => exact (hnewest r (hl.newest _ r hfind)).symm
    · have hout : ¬ (encoded ns start ≤ encoded ns key ∧ encoded ns key < encoded ns «end») := by
        rwa [encoded_le_iff, encoded_lt_iff]
      have hnone : find (e.visible fs ns start «end») key = none :=
        find_eq_none_iff.mpr fun q hq heq => hin (heq ▸ visible_range h hns q hq)
      rw [hl.find_eq_none hout, hnone]
      rfl

end Engine
