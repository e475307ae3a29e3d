import Edgestore.Engine.StoreSpec
import Edgestore.Strip
import Edgestore.Compactor.Spec
import Edgestore.Segment.Metadata

/-!
# Compactions, strips and imports keep the segment store in step

A compaction rewrites the segments and opens the store anew; a strip replaces a segment by one
without the records of an index; an import registers the file of a peer under a new id. All keep the
invariant of the store and the discipline of `StoreEffect`.

## Main definitions

* `IndexKind.Flags`: an index whose flag is one of the two of the metadata
* `IndexKind.Rewrites`: a strip finds something to rewrite
* `Engine.Rewritten`: what a strip has made of a segment

## Main results

* `Engine.wp_compactOnce`: what a compaction does to the registered segments
* `Engine.wp_stripIndex`: what a strip does to the registered segments
* `Engine.wp_importSegment`: an import keeps the invariant
-/

variable {X : Externals} {R : List SegmentId} {fs : Fs}

/-- An index whose flag is one of the two of the metadata. -/
def IndexKind.Flags (kind : IndexKind) : Prop :=
  ∀ m, ∃ t v, kind.setStripped m = { m with textIndexStripped := t, vectorIndexStripped := v }

theorem textIndex_flags : textIndex.Flags := fun m => ⟨true, m.vectorIndexStripped, rfl⟩

theorem vectorIndex_flags : vectorIndex.Flags := fun m => ⟨m.textIndexStripped, true, rfl⟩

/-- What the reader of a registered segment reads. -/
theorem StoreInv.readerFor {s : SegmentStore} {id : SegmentId} {r : SegmentReader}
    (h : StoreInv X R s fs) (hr : s.readerFor id = some r) :
    id ∈ registeredIds X fs ∧ ∃ img : SegmentImage X, fs.segs id = img.files ∧ r = img.reader id := by
  have hmem := List.mem_of_find?_eq_some hr
  have hid : r.segmentId = id := by simpa using List.find?_some hr
  obtain ⟨m, hm, hopen⟩ := h.readers.exists_of_mem hmem
  have hmid : m.segmentId = id := (openReader_segmentId hopen).symm.trans hid
  have hreg : id ∈ registeredIds X fs := hmid ▸ mem_registeredIds hm
  obtain ⟨img, himg⟩ := (h.disk.wf id hreg).2
  refine ⟨hreg, img, himg, ?_⟩
  rw [hmid, himg, img.openReader_files] at hopen
  exact (Except.ok.inj hopen).symm

theorem DiskInv.find?_registered (h : DiskInv X fs) {m : SegmentMeta} (hm : m ∈ registered X fs) :
    (registered X fs).find? (fun m' => m'.segmentId = m.segmentId) = some m := by
  cases hfound : (registered X fs).find? fun m' => m'.segmentId = m.segmentId with
  | none => exact absurd (List.find?_eq_none.mp hfound m hm) (by simp)
  | some m' =>
    have hid : m'.segmentId = m.segmentId := by simpa using List.find?_some hfound
    exact congrArg some
      (List.inj_on_of_nodup_map h.nodup (List.mem_of_find?_eq_some hfound) hm hid)

theorem Readers.exists_reader {segs : List SegmentMeta} {readers : List SegmentReader}
    (h : Readers fs segs readers) {m : SegmentMeta} (hm : m ∈ segs) :
    ∃ r ∈ readers, openReader m.segmentId (fs.segs m.segmentId) = .ok r := by
  induction h with
  | nil => cases hm
  | cons hr _ ih =>
    rcases List.mem_cons.mp hm with rfl | hm
    · exact ⟨_, List.mem_cons_self, hr⟩
    · obtain ⟨r, hr', hopen⟩ := ih hm
      exact ⟨r, List.mem_cons_of_mem _ hr', hopen⟩

/-- Every registered segment has a reader. -/
theorem StoreInv.exists_readerFor {s : SegmentStore} {id : SegmentId} (h : StoreInv X R s fs)
    (hid : id ∈ registeredIds X fs) : ∃ r, s.readerFor id = some r := by
  obtain ⟨m, hm, rfl⟩ := List.mem_map.mp hid
  obtain ⟨r, hr, hopen⟩ := h.readers.exists_reader hm
  cases hfound : s.readerFor m.segmentId with
  | some r' => exact ⟨r', rfl⟩
  | none =>
    have hne := List.find?_eq_none.mp hfound r hr
    rw [openReader_segmentId hopen] at hne
    simp at hne

/-- A strip finds something to rewrite: the segment is registered and not yet stripped, and some but
not all of its records are in the namespaces of the index. -/
def IndexKind.Rewrites (X : Externals) (kind : IndexKind) (id : SegmentId) (fs : Fs) : Prop :=
  ∃ m ∈ registered X fs, m.segmentId = id ∧ kind.isStripped m = false ∧
    let kept := (within [] stripScanKey (fs.segs id).table).filter fun p => kind.keeps p.1
    kept.length ≠ m.recordCount ∧ kept ≠ []

instance (X : Externals) (kind : IndexKind) (id : SegmentId) (fs : Fs) :
    Decidable (kind.Rewrites X id fs) := inferInstanceAs (Decidable (∃ m ∈ _, _))

namespace Engine

variable {e : Engine} {clock : ℕ → ℕ}

/-- The compactor of an engine. -/
def compactor (e : Engine) : Compactor :=
  ⟨e.config.compactionWriteBudgetBytes, e.config.cohortWindowSecs⟩

/-- **A compaction** runs a cycle over the segments no snapshot pins, and opens the store anew. -/
theorem wp_compactOnce {order : HashOrder} (h : Inv X R e fs) (hc : Covered X R fs) :
    Prog.wp (compactOnce (X := X) order)
      ⟨fun _ q fs' => Inv X R q.state fs' ∧
          q.state = { e with segmentStore := q.state.segmentStore } ∧
          ∃ written, CohortRuns X e.compactor (asI64 (clock 0)) e.snapshotRegistry.pinnedIds
            (identifyCohorts order ((registered X fs).filter fun m =>
              m.segmentId ∉ e.snapshotRegistry.pinnedIds) (asI64 (clock 0))) 0 fs written fs',
        fun _ _ _ => False, CompactRely X R, StoreEffect X R⟩ ⟨e, clock⟩ fs := by
  simp only [compactOnce, Prog.wp_bind, Exec.wp_now, Exec.wp_get]
  refine Prog.wp_imp (Compactor.wp_keeps h.store.disk hc (Manifest.wp_open (.inr h.store.synced.log)))
    ?_ (fun _ _ _ he => he.1)
  rintro m p₁ fs₁ ⟨⟨rfl, hsync, -, -, hsame⟩, -, -⟩
  obtain rfl : fs = fs₁ := by
    obtain ⟨xs, rest, hman, -⟩ := h.store.synced.log
    exact (hsame (by simp [hman])).symm
  rw [Exec.wp_within]
  refine Prog.wp_imp (Compactor.wp_compactCycle h.store.disk hsync hc h.window) ?_
    (fun _ _ _ he => he)
  rintro stats p₂ fs₂ ⟨hd₂, hlog₂, hc₂, hsteps⟩
  refine Prog.wp_mono (SegmentStore.wp_open (R := R) hd₂ (.inr hlog₂) hc₂ h.window) ?_
    (fun _ _ _ he => he) (fun _ _ hr => hr.1) (fun _ _ _ hg => hg)
  rintro s p₃ fs₃ ⟨rfl, hstore, -, -, hsame₃⟩
  obtain rfl : fs₂ = fs₃ := by
    obtain ⟨xs, rest, hman, -⟩ := hlog₂
    exact (hsame₃ (by simp [hman])).symm
  simp only [Exec.wp_modify, Prog.wp_pure]
  exact ⟨⟨hstore, h.window⟩, trivial, _, hsteps⟩

/-- What a strip of segment `id` may leave: the registered segments as they were, or the segment
replaced by one with the records that stay. -/
def Stripped (X : Externals) (kind : IndexKind) (id : SegmentId) (fs fs' : Fs) : Prop :=
  SameStore fs fs' ∨
  ∃ m, id ∈ registeredIds X fs ∧ m.segmentId ∉ registeredIds X fs ∧
    registered X fs' = (registered X fs).filter (fun m' => m'.segmentId ≠ id) ++ [m] ∧
    (fs'.segs m.segmentId).table =
      ((within [] stripScanKey (fs.segs id).table).filter fun p => kind.keeps p.1).map storedEntry ∧
    ∀ j, j ≠ id → j ≠ m.segmentId → fs'.segs j = fs.segs j

theorem keySorted_within {start «end» : Bytes} {l : List (Bytes × MemEntry)} (h : KeySorted l) :
    KeySorted (within start «end» l) := h.filter _

/-- A strip that finds nothing to rewrite does nothing. -/
theorem wp_stripIndex_idle {kind : IndexKind} {id : SegmentId} (h : Inv X R e fs)
    (hidle : ¬ kind.Rewrites X id fs) :
    Prog.wp (stripIndex (X := X) kind id)
      ⟨fun m q fs' => m.segmentId = id ∧ q.state = e ∧ fs' = fs, fun _ q fs' => q.state = e ∧ fs' = fs,
        fun _ _ => True, fun _ _ => False⟩ ⟨e, clock⟩ fs := by
  simp only [stripIndex, Prog.wp_bind, Exec.wp_get]
  split
  case h_1 => simp
  case h_2 oldMeta hfind =>
    have hid : oldMeta.segmentId = id := by simpa using List.find?_some hfind
    simp only [Prog.wp_ite, Prog.wp_pure]
    split
    case isTrue => exact ⟨hid, trivial, trivial⟩
    case isFalse hstripped =>
      split
      case h_1 => simp
      case h_2 r hr =>
        obtain ⟨-, img, himg, rfl⟩ := h.store.readerFor hr
        simp only [Prog.wp_bind, Exec.wp_fs, Prog.wp_lift, img.rangeScan_reader himg,
          Prog.result_ok, Prog.wp_ite, Prog.wp_pure]
        split
        case isTrue => exact ⟨hid, trivial, trivial⟩
        case isFalse hne =>
          obtain ⟨hcount, hnil⟩ := not_or.mp hne
          refine absurd ⟨oldMeta, ?_, hid, by simpa using hstripped, ?_⟩ hidle
          · rw [← h.store.synced.segments]
            exact List.mem_of_find?_eq_some hfind
          · rw [himg, img.table_files]
            exact ⟨hcount, hnil⟩

/-- A strip that finds something to rewrite has put a segment with the records that stay in place of
segment `id`. -/
structure Rewritten (X : Externals) (kind : IndexKind) (id : SegmentId) (m : SegmentMeta) (fs fs' : Fs) :
    Prop where
  old : id ∈ registeredIds X fs
  fresh : m.segmentId ∉ registeredIds X fs
  segments : registered X fs' = (registered X fs).filter (fun m' => m'.segmentId ≠ id) ++ [m]
  table : (fs'.segs m.segmentId).table =
    ((within [] stripScanKey (fs.segs id).table).filter fun p => kind.keeps p.1).map storedEntry
  segs : ∀ j, j ≠ id → j ≠ m.segmentId → fs'.segs j = fs.segs j
  made : ∃ newId window bucket nanos, m = kind.setStripped (segmentMetaFor X newId window
    ((within [] stripScanKey (fs.segs id).table).filter fun p => kind.keeps p.1)
    (writeDatAndIndex X ((within [] stripScanKey (fs.segs id).table).filter fun p => kind.keeps p.1))
    bucket nanos)

/-- A strip that finds something to rewrite. -/
theorem wp_stripIndex_rewrites {kind : IndexKind} (hk : kind.Flags) {id : SegmentId} (h : Inv X R e fs)
    (hrewrites : kind.Rewrites X id fs) :
    Prog.wp (stripIndex (X := X) kind id)
      ⟨fun m q fs' => Inv X R q.state fs' ∧ Rewritten X kind id m fs fs' ∧
          e.segmentStore.nextSegmentId ≤ m.segmentId ∧
          q.state = { e with segmentStore := q.state.segmentStore },
        fun _ _ _ => False, StoreRely X, StoreEffect X R⟩ ⟨e, clock⟩ fs := by
  obtain ⟨m, hm, hmid, hflag, hcount, hnil⟩ := hrewrites
  have hreg : id ∈ registeredIds X fs := hmid ▸ mem_registeredIds hm
  have hfind : e.segmentStore.manifest.segments.find? (fun m => m.segmentId = id) = some m := by
    rw [h.store.synced.segments, ← hmid]
    exact h.store.disk.find?_registered hm
  obtain ⟨r, hr⟩ := h.store.exists_readerFor hreg
  obtain ⟨-, img, himg, rfl⟩ := h.store.readerFor hr
  rw [himg, img.table_files] at hcount hnil
  simp only [stripIndex, Prog.wp_bind, Exec.wp_get, hfind, hflag, Bool.false_eq_true, if_false, hr,
    Exec.wp_fs, Prog.wp_lift, img.rangeScan_reader himg, Prog.result_ok]
  set filtered := (within [] stripScanKey (Dat.table img.dat)).filter fun p => kind.keeps p.1
    with hfiltered
  rw [if_neg (not_or.mpr ⟨hcount, hnil⟩)]
  have hsorted : KeySorted filtered := (keySorted_within img.sorted).filter _
  obtain ⟨hinv, hR⟩ := h.store.reserve
  have hnew := (hinv.reserved e.segmentStore.nextSegmentId List.mem_cons_self).2
  simp only [Prog.wp_bind, onStore, Exec.wp_zoom, SegmentStore.wp_allocSegmentId, Exec.wp_get]
  refine Prog.wp_imp (wp_segmentFlush_new hsorted hnew hR) ?_ ?_
  · rintro written ⟨e₁, clock₁⟩ fs₁ ⟨⟨rfl, hflushed⟩, hout⟩
    obtain ⟨t, v, hflags⟩ := hk written
    have hid : (kind.setStripped written).segmentId = e.segmentStore.nextSegmentId := by
      rw [hflags]
      exact hflushed.segmentId
    have hinv₁ := (hinv.anti fun j hj => List.mem_cons_of_mem _ hj).outside hout hnew
    have hreg₁ : Registrable X R fs₁ (kind.setStripped written).segmentId := by
      rw [hid]
      refine ⟨hflushed.segmentId ▸ hflushed.fits.1, hflushed.wf, ?_, hR⟩
      rwa [hout.registeredIds_eq]
    obtain ⟨r', hr'⟩ := hflushed.wf.openReader e.segmentStore.nextSegmentId
    simp only [Exec.wp_fs, Prog.wp_lift, hr', Prog.result_ok, Prog.wp_pure]
    refine Prog.wp_imp (SegmentStore.wp_replaceSegment hinv₁
      (hout.registeredIds_eq (X := X) ▸ hreg) hreg₁ ?_ ?_ ?_) ?_ (fun _ _ _ he => he.elim)
    · rw [hid]
      exact Nat.lt_succ_self _
    · rw [hflags]
      exact hflushed.fits.2 t v
    · rw [hid]
      exact hr'
    rintro _ ⟨s₂, clock₂⟩ fs₂ ⟨hinv₂, hreg₂, hsegs₂⟩
    refine ⟨⟨hinv₂, h.window⟩, ⟨hreg, hid ▸ hnew, ?_, ?_, fun j hj hj' => ?_, ?_⟩, hid.ge, trivial⟩
    · rw [hreg₂, hout.registered_eq]
    · have hne' : (kind.setStripped written).segmentId ≠ id := by
        rintro rfl
        exact hnew (hid ▸ hreg)
      rw [hsegs₂ _ hne', hid, hflushed.table, himg]
      rfl
    · rw [hsegs₂ j hj, hout.segs j (hid ▸ hj')]
    · obtain ⟨bucket, nanos, hmade⟩ := hflushed.made
      rw [hmade, himg]
      exact ⟨_, _, bucket, nanos, rfl⟩
  · rintro _ q fs₁ ⟨⟨-, hempty | hzero⟩, -⟩
    · exact absurd hempty hnil
    · exact absurd hzero h.window

/-- **A strip** replaces a segment by one without the records of the index, or leaves all as it
was. -/
theorem wp_stripIndex {kind : IndexKind} (hk : kind.Flags) {id : SegmentId} (h : Inv X R e fs) :
    Prog.wp (stripIndex (X := X) kind id)
      ⟨fun _ q fs' => Inv X R q.state fs' ∧ Stripped X kind id fs fs' ∧
          q.state = { e with segmentStore := q.state.segmentStore },
        fun _ q fs' => q.state = e ∧ fs' = fs, StoreRely X, StoreEffect X R⟩ ⟨e, clock⟩ fs := by
  by_cases hrewrites : kind.Rewrites X id fs
  · refine Prog.wp_imp (wp_stripIndex_rewrites hk h hrewrites) ?_ (fun _ _ _ he => he.elim)
    rintro m q fs' ⟨hq, hr, -, hstate⟩
    exact ⟨hq, .inr ⟨m, hr.old, hr.fresh, hr.segments, hr.table, hr.segs⟩, hstate⟩
  · refine Prog.wp_mono (wp_stripIndex_idle h hrewrites) ?_ (fun _ _ _ he => he)
      (fun _ _ _ => trivial) fun _ _ _ he => he.elim
    rintro _ q fs' ⟨-, hstate, rfl⟩
    exact ⟨hstate ▸ h, .inl ⟨rfl, rfl, rfl⟩, by rw [hstate]⟩

/-! ### Imports -/

/-- What an import knows of the entries it has seen. Its bounds of LSNs start from those of `u64`. -/
structure Observed (g : ImportProgress) (seen : List (Bytes × MemEntry)) : Prop where
  keys : g.segmentKeys = seen.map Prod.fst
  minKey : (seen = [] ∧ g.minKey = none) ∨ ∃ k, g.minKey = some k ∧ IsLeast (keysOf seen) k
  maxKey : (seen = [] ∧ g.maxKey = none) ∨ ∃ k, g.maxKey = some k ∧ IsGreatest (keysOf seen) k
  minLsn : IsLeast (insert (2 ^ 64 - 1) (lsnsOf seen)) g.minLsn
  maxLsn : IsGreatest (insert 0 (lsnsOf seen)) g.maxLsn

theorem Observed.nil : Observed {} [] := ⟨rfl, .inl ⟨rfl, rfl⟩, .inl ⟨rfl, rfl⟩, by simp, by simp⟩

theorem Observed.observe {g : ImportProgress} {seen : List (Bytes × MemEntry)}
    {p : Bytes × MemEntry} (h : Observed g seen) : Observed (g.observe p) (seen ++ [p]) := by
  refine ⟨by simp [ImportProgress.observe, h.keys], .inr ?_, .inr ?_, ?_, ?_⟩
  · rw [keysOf_concat]
    rcases h.minKey with ⟨rfl, hnone⟩ | ⟨k, hsome, hleast⟩
    · exact ⟨p.1, by simp [ImportProgress.observe, hnone], by simp⟩
    · refine ⟨min k p.1, by simp [ImportProgress.observe, hsome], ?_⟩
      rw [min_comm]
      exact hleast.insert p.1
  · rw [keysOf_concat]
    rcases h.maxKey with ⟨rfl, hnone⟩ | ⟨k, hsome, hgreatest⟩
    · exact ⟨p.1, by simp [ImportProgress.observe, hnone], by simp⟩
    · refine ⟨max k p.1, by simp [ImportProgress.observe, hsome], ?_⟩
      rw [max_comm]
      exact hgreatest.insert p.1
  · rw [lsnsOf_concat, Set.insert_comm, ImportProgress.observe, min_comm]
    exact h.minLsn.insert p.2.lsn
  · rw [lsnsOf_concat, Set.insert_comm, ImportProgress.observe, max_comm]
    exact h.maxLsn.insert p.2.lsn

theorem Observed.bounds {g : ImportProgress} {seen : List (Bytes × MemEntry)} (h : Observed g seen)
    {p : Bytes × MemEntry} (hp : p ∈ seen) : g.minKey.getD [] ≤ p.1 ∧ p.1 ≤ g.maxKey.getD [] := by
  have hne : seen ≠ [] := List.ne_nil_of_mem hp
  constructor
  · rcases h.minKey with ⟨hnil, -⟩ | ⟨k, hsome, hleast⟩
    · exact absurd hnil hne
    · rw [hsome]
      exact hleast.2 (mem_keysOf hp)
  · rcases h.maxKey with ⟨hnil, -⟩ | ⟨k, hsome, hgreatest⟩
    · exact absurd hnil hne
    · rw [hsome]
      exact hgreatest.2 (mem_keysOf hp)

/-- Counting a key leaves what is known of the entries. -/
theorem Observed.congr {g g' : ImportProgress} {seen : List (Bytes × MemEntry)} (h : Observed g seen)
    (hk : g'.segmentKeys = g.segmentKeys) (hlo : g'.minKey = g.minKey) (hhi : g'.maxKey = g.maxKey)
    (hlolsn : g'.minLsn = g.minLsn) (hhilsn : g'.maxLsn = g.maxLsn) :
    Observed g' seen := by
  obtain ⟨hkeys, hmin, hmax, hminLsn, hmaxLsn⟩ := h
  rw [← hlo] at hmin
  rw [← hhi] at hmax
  rw [← hlolsn] at hminLsn
  rw [← hhilsn] at hmaxLsn
  exact ⟨hk.trans hkeys, hmin, hmax, hminLsn, hmaxLsn⟩

/-- Entries of which an import computes the right metadata: their keys have a namespace, some LSN is
below `u64::MAX`, and none dies after the death time that an import writes, which is zero. -/
structure ImportDescribes (window : ℕ) (l : List (Bytes × MemEntry)) : Prop where
  keys : ∀ p ∈ l, (decodeKey p.1).isOk = true
  lsns : l ≠ [] → ∃ p ∈ l, p.2.lsn < 2 ^ 64 - 1
  deathTimes : ∀ p ∈ l, deathTimeFor p.2.timestamp p.2.ttl window ≤ 0

instance (window : ℕ) (l : List (Bytes × MemEntry)) : Decidable (ImportDescribes window l) :=
  decidable_of_iff ((∀ p ∈ l, (decodeKey p.1).isOk = true) ∧
      (l ≠ [] → ∃ p ∈ l, p.2.lsn < 2 ^ 64 - 1) ∧
      ∀ p ∈ l, deathTimeFor p.2.timestamp p.2.ttl window ≤ 0)
    ⟨fun ⟨h₁, h₂, h₃⟩ => ⟨h₁, h₂, h₃⟩, fun ⟨h₁, h₂, h₃⟩ => ⟨h₁, h₂, h₃⟩⟩

/-- The metadata of an import describes such entries. -/
theorem Observed.describes {g : ImportProgress} {l : List (Bytes × MemEntry)} {window : ℕ}
    (hg : Observed g l)
    (hcount : (∀ p ∈ l, (decodeKey p.1).isOk = true) → g.keysWritten + g.keysSkipped = l.length)
    (h : ImportDescribes window l) (id : SegmentId) (hash : Bytes) (size : ℕ) (nanos : ℤ) :
    (importedMeta id hash size g nanos).Describes window l := by
  refine ⟨fun hne => ?_, fun hne => ?_, fun hne => ?_, fun hne => ?_, hcount h.keys, h.deathTimes⟩
  · rcases hg.minKey with ⟨hnil, -⟩ | ⟨k, hsome, hleast⟩
    · exact absurd hnil hne
    · simpa [importedMeta, hsome] using hleast
  · rcases hg.maxKey with ⟨hnil, -⟩ | ⟨k, hsome, hgreatest⟩
    · exact absurd hnil hne
    · simpa [importedMeta, hsome] using hgreatest
  · -- some LSN is below the initial bound, so the bound is one of theirs
    obtain ⟨p, hp, hlt⟩ := h.lsns hne
    have hle : g.minLsn ≤ p.2.lsn := hg.minLsn.2 (.inr (mem_lsnsOf hp))
    have hbelow : g.minLsn ≠ 2 ^ 64 - 1 := (hle.trans_lt hlt).ne
    have hmem : g.minLsn ∈ lsnsOf l := hg.minLsn.1.resolve_left hbelow
    simp only [importedMeta, if_neg hbelow]
    exact ⟨hmem, fun n hn => hg.minLsn.2 (.inr hn)⟩
  · obtain ⟨p, hp, -⟩ := h.lsns hne
    refine ⟨?_, fun n hn => hg.maxLsn.2 (.inr hn)⟩
    change g.maxLsn ∈ lsnsOf l
    rcases hg.maxLsn.1 with hzero | hmem
    · have hle : p.2.lsn ≤ g.maxLsn := hg.maxLsn.2 (.inr (mem_lsnsOf hp))
      have heq : g.maxLsn = p.2.lsn := le_antisymm (hzero.trans_le (Nat.zero_le _)) hle
      rw [heq]
      exact mem_lsnsOf hp
    · exact hmem

/-- Applying one incoming entry. Its key is counted if it has a namespace. -/
theorem Inv.wp_importEntry {g : ImportProgress} {p : Bytes × MemEntry} {seen : List (Bytes × MemEntry)}
    (h : Inv X R e fs) (hg : Observed g seen) :
    Prog.wp (importEntry (X := X) g p)
      ⟨fun g' q fs' => Inv X R q.state fs' ∧ SameStore fs fs' ∧ Observed g' (seen ++ [p]) ∧
          ((decodeKey p.1).isOk = true →
            g'.keysWritten + g'.keysSkipped = g.keysWritten + g.keysSkipped + 1),
        fun _ q fs' => Inv X R q.state fs' ∧ SameStore fs fs', StoreRely X, StoreEffect X R⟩
      ⟨e, clock⟩ fs := by
  have hg' := hg.observe (p := p)
  have hsame : SameStore fs fs := ⟨rfl, rfl, rfl⟩
  simp only [importEntry, Prog.wp_bind, Exec.wp_get, Exec.wp_fs, Prog.wp_ite, Prog.wp_pure]
  split
  case isTrue =>
    split
    · rw [Prog.wp_bind]
      refine Prog.wp_imp (h.wp_write (putWithTimestamp_frame _ _ _ _)) ?_ (fun _ _ _ he => he)
      rintro _ q fs' ⟨hq, hsame⟩
      exact (Prog.wp_pure _).mpr ⟨hq, hsame, hg'.congr rfl rfl rfl rfl rfl, fun _ => Nat.add_right_comm _ _ _⟩
    · exact (Prog.wp_pure _).mpr ⟨h, hsame, hg'.congr rfl rfl rfl rfl rfl, fun _ => rfl⟩
    · rw [Prog.wp_bind]
      refine Prog.wp_imp (h.wp_write (deleteWithTimestamp_frame _ _ _)) ?_ (fun _ _ _ he => he)
      rintro _ q fs' ⟨hq, hsame⟩
      exact (Prog.wp_pure _).mpr ⟨hq, hsame, hg'.congr rfl rfl rfl rfl rfl, fun _ => Nat.add_right_comm _ _ _⟩
    case h_4 hdec =>
      refine (Prog.wp_pure _).mpr ⟨h, hsame, hg', fun hok => ?_⟩
      rw [hdec] at hok
      cases hok
  case isFalse => exact ⟨h, hsame, hg'.congr rfl rfl rfl rfl rfl, fun _ => rfl⟩

theorem parseDatEntries_eq {dat : Dat} (h : ∀ b ∈ dat, b.Readable) :
    parseDatEntries dat = .ok (Dat.table dat) := by
  induction dat with
  | nil => rfl
  | cons b dat ih =>
    obtain ⟨size, es, rfl, hsize, -⟩ := h b (by simp)
    rw [parseDatEntries, if_neg (by omega), ih fun b hb => h b (by simp [hb])]
    rfl

theorem findBlockOffset_first (q : Bytes) : findBlockOffset [([], 0)] q = 0 := by
  rw [findBlockOffset]
  by_cases h : ([] : Bytes) ≤ q <;> simp [h]

/-- The image of an imported segment. -/
def importImage (X : Externals) {dat : Dat} {g : ImportProgress} (m : SegmentMeta)
    (hg : Observed g (Dat.table dat)) (hread : ∀ b ∈ dat, b.Readable)
    (hsorted : KeySorted (Dat.table dat)) (hmin : m.minKey = g.minKey.getD [])
    (hmax : m.maxKey = g.maxKey.getD [])
    (hxf : (X.buildFilter g.segmentKeys).fingerprints.length ≤ maxFingerprints) : SegmentImage X where
  dat := dat
  idx := [([], 0)]
  xf := X.buildFilter g.segmentKeys
  segMeta := m
  readable := hread
  sorted := hsorted
  index_sound q p hp := by
    rw [findBlockOffset_first] at hp
    simp at hp
  filter_complete p hp := by
    refine X.filterContains_build _ _ ?_
    rw [hg.keys]
    exact List.mem_map_of_mem hp
  bounds p hp := by
    rw [hmin, hmax]
    exact hg.bounds hp
  idx_le := by decide
  xf_le := hxf

/-- Writing the sidecar files. -/
theorem wp_writeSidecars {id : SegmentId} {g : ImportProgress} {m : SegmentMeta}
    {p : Process Engine} (hid : id ∉ registeredIds X fs) (hR : id ∉ R) :
    Prog.wp (writeSidecars (X := X) id g m)
      ⟨fun _ q fs' => q = p ∧ Outside id fs fs' ∧
          fs'.segs id = { fs.segs id with
            idx := .whole [([], 0)], xf := .whole (X.buildFilter g.segmentKeys), segMeta := .whole m } ∧
          FitsManifest X m ∧ (X.buildFilter g.segmentKeys).fingerprints.length ≤ maxFingerprints,
        fun _ _ _ => False, StoreRely X, StoreEffect X R⟩ p fs := by
  have hwp : Prog.wp (writeSidecars (X := X) id g m)
      ⟨fun _ q fs' => q = p ∧
          fs'.segs id = { fs.segs id with
            idx := .whole [([], 0)], xf := .whole (X.buildFilter g.segmentKeys), segMeta := .whole m } ∧
          FitsManifest X m ∧ (X.buildFilter g.segmentKeys).fingerprints.length ≤ maxFingerprints,
        fun _ _ _ => False, StoreRely X, fun e _ => WritesSegment id e⟩ p fs := by
    simp only [writeSidecars, Prog.wp_bind, Exec.wp_effect, WritesSegment, true_and]
    intro _ _ hxf _ hmeta _
    refine ⟨?_, hmeta.1, hxf.1⟩
    simp [applyEffect]
  refine Prog.wp_imp (Prog.wp_inv (I := Outside id fs) (G := StoreEffect X R) ?_ hwp .refl)
    (fun _ _ _ hq => ⟨hq.1.1, hq.2, hq.1.2⟩) (fun _ _ _ he => he.1)
  exact fun e d _ hw hI => ⟨hI.writes_store hw hid hR, hI.trans (.writes hw)⟩

/-- An import has registered a segment with the records `l` behind all others. Its metadata are those
of its file, and describe the records if an import can. -/
structure RegistersTable (X : Externals) (l : List (Bytes × MemEntry)) (m : SegmentMeta)
    (fs fs' : Fs) : Prop where
  registered : registered X fs' = registered X fs ++ [m]
  table : (fs'.segs m.segmentId).table = l
  stored : (fs'.segs m.segmentId).segMeta = .whole m
  describes : ∀ window, ImportDescribes window l → m.Describes window l
  segs : ∀ id ∈ registeredIds X fs, fs'.segs id = fs.segs id

/-- The registered segments and their files are as they were. -/
structure SameRegistered (X : Externals) (fs fs' : Fs) : Prop where
  registered : registered X fs' = registered X fs
  segs : ∀ id ∈ registeredIds X fs, fs'.segs id = fs.segs id

theorem SameRegistered.of_eq {fs' : Fs} (hman : fs'.manifest = fs.manifest) (hsegs : fs'.segs = fs.segs) :
    SameRegistered X fs fs' := ⟨registered_congr hman, fun _ _ => by rw [hsegs]⟩

theorem RegistersTable.of_same {fs₁ fs' : Fs} {l : List (Bytes × MemEntry)} {m : SegmentMeta}
    (h : RegistersTable X l m fs₁ fs') (hman : fs₁.manifest = fs.manifest) (hsegs : fs₁.segs = fs.segs) :
    RegistersTable X l m fs fs' := by
  have hreg := registered_congr (X := X) hman
  refine ⟨hreg ▸ h.registered, h.table, h.stored, h.describes, fun id hid => ?_⟩
  have hids : registeredIds X fs₁ = registeredIds X fs := congrArg (List.map SegmentMeta.segmentId) hreg
  rw [h.segs id (hids ▸ hid), hsegs]

/-- What an import does when its entries have been applied: it adopts the staged file, writes the sidecar files, and
registers the segment. -/
def adoptStaged (size : ℕ) (hash : Bytes) (g : ImportProgress) : Exec X Engine ImportResult := do
  let newId ← onStore SegmentStore.allocSegmentId
  Exec.effect (.stageAdopt hash newId)
  onWal WalWriter.fsync
  let nanos ← Exec.now
  let segMeta := importedMeta newId hash size g (asI64 nanos)
  writeSidecars newId g segMeta
  let reader ← Prog.lift (openReader newId ((← Exec.fs).segs newId))
  onStore (SegmentStore.addImportedSegment segMeta reader)
  return .applied g.keysWritten g.keysSkipped

/-- **Adopting the staged file** registers its table. -/
theorem Inv.wp_adoptStaged {dat : Dat} {size : ℕ} {hash : Bytes} {g : ImportProgress}
    {seen : List (Bytes × MemEntry)} (h : Inv X R e fs) (hstaged : (fs.staged hash).dat = .whole dat)
    (hparsed : parseDatEntries dat = .ok seen) (hobs : Observed g seen)
    (hcount : (∀ p ∈ seen, (decodeKey p.1).isOk = true) → g.keysWritten + g.keysSkipped = seen.length) :
    Prog.wp (adoptStaged (X := X) size hash g)
      ⟨fun _ q fs' => Inv X R q.state fs' ∧
          ∃ m, RegistersTable X (Dat.table dat) m fs fs' ∧ ∀ b ∈ dat, b.Readable,
        fun _ _ _ => False, StoreRely X, StoreEffect X R⟩ ⟨e, clock⟩ fs := by
  obtain ⟨hinv, hR⟩ := h.store.reserve
  have hnew := (hinv.reserved e.segmentStore.nextSegmentId List.mem_cons_self).2
  simp only [adoptStaged, onStore, Exec.wp_zoom, SegmentStore.wp_allocSegmentId, Exec.wp_effect, onWal,
    WalWriter.fsync, Prog.wp_bind, Exec.wp_get, Exec.wp_now]
  rintro ⟨hheld, -⟩
  simp only [WithinLimits, hstaged] at hheld
  obtain ⟨hread, hsorted⟩ := hheld
  obtain rfl : Dat.table dat = seen := by
    rw [parseDatEntries_eq hread] at hparsed
    exact Except.ok.inj hparsed
  refine ⟨StoreEffect.of_target rfl hnew hR, fun _ => ⟨fun id hid => (by cases hid), ?_⟩⟩
  set newId := e.segmentStore.nextSegmentId with hnewId
  -- the file of the peer is in place, the sidecar files are still to be written
  set fs₁ := applyEffect X (.sync (.wal e.wal.name)) (applyEffect X (.stageAdopt hash newId) fs) with hfs₁
  have hout₁ : Outside newId fs fs₁ :=
    ⟨rfl, rfl, fun j hj => segs_apply_of_ne (X := X) (e := .stageAdopt hash newId)
      (by rintro ⟨⟩; exact hj rfl)⟩
  have hdat₁ : (fs₁.segs newId).dat = .whole dat := by
    simp [hfs₁, applyEffect, Fs.setStaged, hstaged]
  have hnew₁ : newId ∉ registeredIds X fs₁ := by rwa [hout₁.registeredIds_eq]
  refine Prog.wp_imp (wp_writeSidecars hnew₁ hR) ?_ (fun _ _ _ he => he.elim)
  rintro _ q fs₂ ⟨rfl, hout₂, hfiles, hfits, hxf⟩
  have hinv₂ := ((hinv.anti fun j hj => List.mem_cons_of_mem _ hj).outside hout₁ hnew).outside
    hout₂ hnew₁
  have hwf : SegmentWf X (fs₂.segs newId) := by
    refine ⟨importImage X (importedMeta newId hash size g (asI64 (clock 0))) hobs hread
      hsorted rfl rfl hxf, hfiles.trans ?_⟩
    change SegmentFiles.mk (fs₁.segs newId).dat _ _ _ = _
    rw [hdat₁]
    rfl
  obtain ⟨r, hr⟩ := hwf.openReader newId
  simp only [Exec.wp_fs, Prog.wp_lift, hr, Prog.result_ok, Prog.wp_pure]
  have hnew₂ : newId ∉ registeredIds X fs₂ := by rwa [hout₂.registeredIds_eq]
  refine Prog.wp_imp (SegmentStore.wp_addImportedSegment (R := R) hinv₂
    ⟨hfits.1, hwf, hnew₂, hR⟩ (Nat.lt_succ_self _) hr) ?_ ?_
  · rintro _ ⟨s₃, clock₃⟩ fs₃ ⟨hinv₃, hreg₃, hsegs₃⟩
    refine ⟨⟨hinv₃, h.window⟩, importedMeta newId hash size g (asI64 (clock 0)), ⟨?_, ?_, ?_,
      fun window hl => hobs.describes hcount hl _ _ _ _, fun id hid => ?_⟩, hread⟩
    · rw [hreg₃, hout₂.registered_eq, hout₁.registered_eq]
    · rw [hsegs₃]
      change (fs₂.segs newId).table = _
      rw [hfiles, SegmentFiles.table, hdat₁]
    · rw [hsegs₃]
      change (fs₂.segs newId).segMeta = _
      rw [hfiles]
    · have hne : id ≠ newId := by
        rintro rfl
        exact hnew hid
      rw [hsegs₃, hout₂.segs id hne, hout₁.segs id hne]
  · rintro _ q fs₃ ⟨hbig, -⟩
    exact absurd hfits.length_le (by omega)

/-- **An import** keeps the invariant, and registers the segment if it is applied. -/
theorem Inv.wp_importSegment {dat : Dat} {size : ℕ} {hash : Bytes} (h : Inv X R e fs) :
    Prog.wp (importSegment (X := X) dat size hash)
      ⟨fun r q fs' => Inv X R q.state fs' ∧
          ((hash ∉ (registered X fs).map SegmentMeta.segmentHash ∧ X.datHash dat = hash ∧
              ∃ m, RegistersTable X (Dat.table dat) m fs fs' ∧ ∀ b ∈ dat, b.Readable) ∨
            (∀ written skipped, r ≠ .applied written skipped) ∧ SameRegistered X fs fs'),
        fun _ q fs' => Inv X R q.state fs' ∧ SameRegistered X fs fs', StoreRely X, StoreEffect X R⟩
      ⟨e, clock⟩ fs := by
  simp only [importSegment, Prog.wp_bind, Exec.wp_get, Prog.wp_ite, Prog.wp_pure, Exec.wp_effect]
  split
  case isTrue => exact ⟨h, .inr ⟨by simp, .of_eq rfl rfl⟩⟩
  case isFalse hunknown =>
    split
    case isTrue => exact ⟨h, .inr ⟨by simp, .of_eq rfl rfl⟩⟩
    case isFalse hhash =>
      refine fun _ => ⟨fun id hid => (by cases hid), fun _ => ⟨fun id hid => (by cases hid), ?_⟩⟩
      set fs₁ := applyEffect X (.stageRename hash) (applyEffect X (.stageWrite hash dat) fs) with hfs₁
      have h₁ : Inv X R e fs₁ := ⟨h.store.congr rfl fun _ _ => rfl, h.window⟩
      have hstaged : (fs₁.staged hash).dat = .whole dat := by
        simp [hfs₁, applyEffect, Fs.setStaged, setAt]
      split
      case h_1 => exact (Prog.wp_pure _).mpr ⟨h₁, .inr ⟨by simp, .of_eq rfl rfl⟩⟩
      case h_2 => exact (Prog.wp_pure _).mpr ⟨h₁, .inr ⟨by simp, .of_eq rfl rfl⟩⟩
      case h_3 parsed hparsed =>
        rw [Prog.wp_bind]
        -- the loop has applied the entries before those still to come, and counted them
        refine Prog.wp_foldlM (fun rest g (q : Process Engine) (fs' : Fs) => ∃ seen,
            seen ++ rest = parsed ∧ Inv X R q.state fs' ∧ SameStore fs₁ fs' ∧ Observed g seen ∧
              ((∀ p ∈ seen, (decodeKey p.1).isOk = true) → g.keysWritten + g.keysSkipped = seen.length))
          ?step ?done parsed {} ⟨[], rfl, h₁, ⟨rfl, rfl, rfl⟩, .nil, fun _ => rfl⟩
        case step =>
          rintro p rest g ⟨e', clock'⟩ fs' ⟨seen, hall, hinv, hsame, hobs, hcount⟩
          refine Prog.wp_imp (Inv.wp_importEntry hinv hobs) ?_ fun _ _ _ he =>
            ⟨he.1, .of_eq (hsame.trans he.2).manifest (hsame.trans he.2).segs⟩
          rintro g' q fs'' ⟨hinv', hsame', hobs', hcount'⟩
          refine ⟨seen ++ [p], by simp [← hall], hinv', hsame.trans hsame', hobs', fun hkeys => ?_⟩
          rw [hcount' (hkeys p (by simp)), hcount fun q hq => hkeys q (List.mem_append_left _ hq),
            List.length_append, List.length_singleton]
        case done =>
          rintro g ⟨e₂, clock₂⟩ fs₂ ⟨seen, hall, h₂, hsame₂, hobs, hcount⟩
          obtain rfl : seen = parsed := by simpa using hall
          have hstaged₂ : (fs₂.staged hash).dat = .whole dat := by rw [hsame₂.staged, hstaged]
          refine Prog.wp_imp (h₂.wp_adoptStaged hstaged₂ hparsed hobs hcount) ?_ fun _ _ _ he => he.elim
          rintro r q fs₃ ⟨hinv₃, m, hregisters, hread⟩
          refine ⟨hinv₃, .inl ⟨?_, Decidable.not_not.mp hhash, m,
            hregisters.of_same hsame₂.manifest hsame₂.segs, hread⟩⟩
          rw [← h.store.synced.segments]
          simpa using hunknown

end Engine
