import Edgestore.Engine.Frames
import Edgestore.Segment.StoreInv

/-!
# The engine keeps its segment store in step

The writes of the engine leave the segment store alone, and its flushes keep the invariant of the
store and the discipline of `StoreEffect`.

## Main definitions

* `Engine.Inv X R e fs`: the segment store of an engine is in step with the directory
* `FlushWork.Wf`, `FlushWork.Written`: a flush in flight, before and after its files are written

## Main results

* `Engine.wp_open`: opening an engine
* `Engine.wp_beginFlush`, `Engine.wp_finalizeFlush`: the phases of a flush
* `Engine.wp_flushToSegments`: a flush registers a segment with the entries of the memtable
-/

variable {X : Externals} {σ : Type} {R : List SegmentId} {fs : Fs}

/-- The segment store of an engine is in step with the directory, with the ids `R` reserved. -/
structure Engine.Inv (X : Externals) (R : List SegmentId) (e : Engine) (fs : Fs) : Prop where
  store : StoreInv X R e.segmentStore fs
  window : asI64 e.config.cohortWindowSecs ≠ 0

/-- A flush in flight: it has entries, in order, and a cohort window that divides. -/
structure FlushWork.Wf (w : FlushWork) : Prop where
  sorted : KeySorted w.entries
  ne_nil : w.entries ≠ []
  window : asI64 w.cohortWindowSecs ≠ 0

/-- The files of a flush are written, with metadata `m`. -/
def FlushWork.Written (X : Externals) (fs : Fs) (w : FlushWork) (m : SegmentMeta) : Prop :=
  Flushed X w.segmentId w.cohortWindowSecs w.entries m (fs.segs w.segmentId)

/-- The directory differs in WAL files at most. -/
structure SameStore (fs fs' : Fs) : Prop where
  manifest : fs'.manifest = fs.manifest
  segs : fs'.segs = fs.segs
  staged : fs'.staged = fs.staged

/-- A program that touches only WAL files keeps the discipline. -/
theorem wp_wal {T α : Type} {g : σ → T} {m : Exec X σ α} {p : Process σ}
    (hf : Exec.Frame Effect.IsLog g m) :
    Prog.wp m
      ⟨fun _ q fs' => g q.state = g p.state ∧ SameStore fs fs',
        fun _ q fs' => g q.state = g p.state ∧ SameStore fs fs', StoreRely X, StoreEffect X R⟩
      p fs := by
  refine Prog.wp_inv (I := SameStore fs) ?_ (hf.wp _) ⟨rfl, rfl, rfl⟩
  rintro e d - he ⟨hman, hsegs, hstaged⟩
  obtain ⟨hman', hsegs', hstaged'⟩ := he.isWal.apply (X := X) d
  refine ⟨?_, hman'.trans hman, hsegs'.trans hsegs, hstaged'.trans hstaged⟩
  cases e <;> first | exact he.elim | exact fun id hid => (by cases hid)

theorem SameStore.trans {fs₁ fs₂ : Fs} (h₁ : SameStore fs fs₁) (h₂ : SameStore fs₁ fs₂) :
    SameStore fs fs₂ :=
  ⟨h₂.manifest.trans h₁.manifest, h₂.segs.trans h₁.segs, h₂.staged.trans h₁.staged⟩

theorem SameStore.registered_eq {fs' : Fs} (h : SameStore fs fs') :
    registered X fs' = registered X fs := registered_congr h.manifest

theorem SameStore.registeredIds_eq {fs' : Fs} (h : SameStore fs fs') :
    registeredIds X fs' = registeredIds X fs :=
  congrArg (List.map SegmentMeta.segmentId) h.registered_eq

theorem DiskInv.congr {fs' : Fs} (h : DiskInv X fs) (hfs : SameStore fs fs') : DiskInv X fs' := by
  refine ⟨hfs.registeredIds_eq (X := X) ▸ h.nodup, fun id hid => ?_⟩
  rw [hfs.registeredIds_eq] at hid
  rw [hfs.segs]
  exact h.wf id hid

namespace Engine

variable {e : Engine} {clock : ℕ → ℕ} {α : Type}

theorem Inv.congr {e' : Engine} {fs' : Fs} (h : Inv X R e fs) (he : e'.storePart = e.storePart)
    (hfs : SameStore fs fs') : Inv X R e' fs' := by
  obtain ⟨hstore, hconfig, -⟩ : e'.segmentStore = e.segmentStore ∧ e'.config = e.config ∧
      e'.snapshotRegistry = e.snapshotRegistry := by
    simpa [storePart] using he
  refine ⟨?_, by rw [hconfig]; exact h.window⟩
  rw [hstore]
  exact h.store.congr hfs.manifest fun j _ => by rw [hfs.segs]

/-- A write keeps the invariant. -/
theorem Inv.wp_write {m : Exec X Engine α} (h : Inv X R e fs)
    (hf : Exec.Frame Effect.IsLog storePart m) :
    Prog.wp m
      ⟨fun _ q fs' => Inv X R q.state fs' ∧ SameStore fs fs',
        fun _ q fs' => Inv X R q.state fs' ∧ SameStore fs fs', StoreRely X, StoreEffect X R⟩
      ⟨e, clock⟩ fs :=
  Prog.wp_imp (wp_wal hf) (fun _ _ _ hq => ⟨h.congr hq.1 hq.2, hq.2⟩)
    fun _ _ _ hq => ⟨h.congr hq.1 hq.2, hq.2⟩

/-- **Opening an engine** on a well-formed directory keeps it; if it succeeds, its store is in step. -/
theorem wp_open {config : EdgestoreConfig} {p : Process σ} (hd : DiskInv X fs)
    (hlog : fs.manifest = none ∨ ∃ xs, ManifestLog X fs xs)
    (hR : ∀ id ∈ R, id ∉ registeredIds X fs ∧ ∃ id' ∈ registeredIds X fs, id ≤ id')
    (hw : asI64 config.cohortWindowSecs ≠ 0) :
    Prog.wp (Engine.open (X := X) (σ := σ) config)
      ⟨fun e _ fs' => Inv X R e fs' ∧ registered X fs' = registered X fs ∧ fs'.segs = fs.segs,
        fun _ _ fs' => SameStore fs fs', StoreRely X, StoreEffect X R⟩ p fs := by
  simp only [Engine.open, Prog.wp_bind, Exec.wp_fs, Prog.wp_lift]
  cases hrec : recoverFromWal X fs .empty with
  | error err => exact ⟨rfl, rfl, rfl⟩
  | ok r =>
    simp only [Prog.result_ok]
    refine Prog.wp_imp (wp_wal (openWal_frame config r.2.maxLsn fun s => s)) ?_
      (fun _ _ _ he => he.2)
    rintro wal ⟨_, clock₁⟩ fs₁ ⟨rfl, hsame⟩
    refine Prog.wp_imp (SegmentStore.wp_open (R := R) (hd.congr hsame) ?_ ?_ hw) ?_
      (fun _ _ _ he => he.elim)
    · rcases hlog with hnone | ⟨xs, hxs⟩
      · exact .inl (hsame.manifest.trans hnone)
      · exact .inr ⟨xs, hxs.congr hsame.manifest⟩
    · rw [hsame.registeredIds_eq]
      exact hR
    · rintro s q fs₂ ⟨-, hstore, hreg, hsegs, -⟩
      simp only [Prog.wp_pure]
      exact ⟨⟨hstore, hw⟩, hreg.trans hsame.registered_eq, hsegs.trans hsame.segs⟩

/-! ### Flushing -/

/-- The work that a flush of the memtable takes away. -/
structure Begun (e e' : Engine) (w : FlushWork) : Prop where
  entries : w.entries = e.memtable.entries
  maxLsn : w.flushedMaxLsn = maxOr 0 (w.entries.map fun p => p.2.lsn)
  engine : e' = { e with segmentStore :=
    { e.segmentStore with nextSegmentId := e.segmentStore.nextSegmentId + 1 } }
  id : w.segmentId = e.segmentStore.nextSegmentId
  window : w.cohortWindowSecs = e.segmentStore.cohortWindowSecs
  wf : w.Wf

/-- **Beginning a flush** reserves a new id. -/
theorem wp_beginFlush (h : Inv X R e fs) :
    Prog.wp (beginFlush (X := X))
      ⟨fun work q fs' => fs' = fs ∧ match work with
          | none => e.memtable.entries = [] ∧ q.state = e
          | some w => Begun e q.state w ∧ Inv X (w.segmentId :: R) q.state fs ∧ w.segmentId ∉ R,
        fun _ _ _ => False, StoreRely X, StoreEffect X R⟩ ⟨e, clock⟩ fs := by
  simp only [beginFlush, Prog.wp_bind, Exec.wp_get, Prog.wp_ite, Prog.wp_pure]
  split
  case isTrue hempty => exact ⟨trivial, MemTable.isEmpty_iff.mp hempty, trivial⟩
  case isFalse hne =>
    have hnil : e.memtable.entries ≠ [] := fun hnil => hne (MemTable.isEmpty_iff.mpr hnil)
    simp only [onStore, Exec.wp_zoom, SegmentStore.prepareFlush, MemTable.iter, hnil, if_false,
      Prog.wp_bind, SegmentStore.wp_allocSegmentId, Exec.wp_get, Prog.wp_pure, true_and]
    obtain ⟨hstore, hfree⟩ := h.store.reserve
    exact ⟨⟨rfl, rfl, rfl, rfl, rfl, e.memtable.sorted, hnil, h.store.window⟩, ⟨hstore, h.window⟩, hfree⟩

/-- The WAL files that retiring leaves: the current one. -/
def retired (current : Lsn) (fs : Fs) : Fs :=
  { fs with wals := fs.wals.filter fun p => p.1 = current }

/-- Retiring WAL files unlinks all but the current one. -/
theorem wp_retireWals :
    Prog.wp (retireWals (X := X))
      ⟨fun _ q fs' => q = ⟨e, clock⟩ ∧ fs' = retired e.wal.name fs, fun _ _ _ => False,
        fun _ _ => True, fun f _ => ∃ n ≠ e.wal.name, f = .walUnlink n⟩ ⟨e, clock⟩ fs := by
  simp only [retireWals, Prog.wp_bind, Exec.wp_get, Exec.wp_fs]
  set names := (fs.wals.entries.map Prod.fst).filter fun n => n ≠ e.wal.name with hnames
  -- the loop has unlinked the files before those still to come
  refine Prog.wp_forM (fun rest q (fs' : Fs) => ∃ before, before ++ rest = names ∧ q = ⟨e, clock⟩ ∧
      fs' = { fs with wals := fs.wals.filter fun p => p.1 ∉ before }) ?step ?done names
    ⟨[], rfl, rfl, ?init⟩
  case init =>
    have : (fs.wals.filter fun p => p.1 ∉ []) = fs.wals :=
      SortedMap.ext_get fun k => by
        rw [SortedMap.get_filter]
        cases fs.wals.get k <;> simp
    rw [this]
  case step =>
    rintro n rest q fs' ⟨before, hall, hq, hfs⟩
    have hn : n ∈ names := by simp [← hall]
    simp only [Exec.wp_effect, forall_const]
    refine ⟨⟨n, by simpa using (List.mem_filter.mp hn).2, rfl⟩, before ++ [n], by simp [← hall],
      hq, ?_⟩
    simp only [hfs, applyEffect]
    congr 1
    refine SortedMap.ext_get fun k => ?_
    rw [SortedMap.get_erase, SortedMap.get_filter, SortedMap.get_filter]
    by_cases hk : n = k
    · subst hk
      cases fs.wals.get n <;> simp
    · cases fs.wals.get k <;> simp [hk, Ne.symm hk]
  case done =>
    rintro q fs' ⟨before, hall, hq, hfs⟩
    obtain rfl : before = names := by simpa using hall
    refine ⟨hq, hfs.trans ?_⟩
    rw [retired]
    congr 1
    refine SortedMap.ext_get fun k => ?_
    rw [SortedMap.get_filter, SortedMap.get_filter]
    cases hk : fs.wals.get k with
    | none => rfl
    | some bs =>
      have hmem : k ∈ fs.wals.entries.map Prod.fst :=
        List.mem_map_of_mem (SortedMap.mem_entries_of_get hk)
      by_cases hc : k = e.wal.name
      · simp [hnames, hc]
      · simp [hnames, hc, hmem]

/-- **Finishing a flush** registers the segment, keeps the memtable entries above the flushed LSNs,
and retires WAL files. -/
theorem wp_finalizeFlush {w : FlushWork} {m : SegmentMeta} (h : Inv X R e fs)
    (hw : w.Written X fs m) (hnew : w.segmentId ∉ registeredIds X fs) (hR : w.segmentId ∉ R)
    (hlt : w.segmentId < e.segmentStore.nextSegmentId) :
    Prog.wp (finalizeFlush (X := X) m w.flushedMaxLsn)
      ⟨fun _ q fs' => Inv X R q.state fs' ∧ registered X fs' = registered X fs ++ [m] ∧
          fs'.segs = fs.segs ∧
          q.state = { e with
            segmentStore := q.state.segmentStore
            memtable := e.memtable.filter fun p => p.2.lsn > w.flushedMaxLsn },
        fun _ _ _ => False, StoreRely X, StoreEffect X R⟩ ⟨e, clock⟩ fs := by
  have hr : Registrable X R fs m.segmentId := by
    rw [hw.segmentId]
    exact ⟨hw.segmentId ▸ hw.fits.1, hw.wf, hnew, hR⟩
  rw [finalizeFlush, onStore, Prog.wp_bind, Exec.wp_zoom]
  refine Prog.wp_imp (SegmentStore.wp_finalizeSegment h.store hr (hw.segmentId ▸ hlt)) ?_ ?_
  · rintro _ p fs₁ ⟨hstore, hreg, hsegs⟩
    simp only [Prog.wp_bind, Exec.wp_modify]
    refine Prog.wp_mono wp_retireWals ?_ (fun _ _ _ he => he.elim) (fun _ _ _ => trivial) ?_
    · rintro _ q fs₂ ⟨rfl, rfl⟩
      refine ⟨⟨hstore.congr rfl fun _ _ => rfl, h.window⟩, hreg, hsegs, rfl⟩
    · rintro f d - ⟨n, -, rfl⟩
      exact fun id hid => (by cases hid)
  · rintro _ p fs₁ ⟨hbig, -⟩
    exact absurd hw.fits.length_le (by omega)

/-- **A flush** registers a segment with the entries of the memtable. -/
theorem wp_flushToSegments (h : Inv X R e fs) :
    Prog.wp (flushToSegments (X := X))
      ⟨fun m q fs' => Inv X R q.state fs' ∧ ∃ w e', Begun e e' w ∧
          registered X fs' = registered X fs ++ [m] ∧ w.Written X fs' m ∧
          (∀ j ≠ w.segmentId, fs'.segs j = fs.segs j) ∧
          q.state = { e with
            segmentStore := q.state.segmentStore
            memtable := e.memtable.filter fun p => p.2.lsn > w.flushedMaxLsn },
        fun _ q fs' => e.memtable.entries = [] ∧ q.state = e ∧ fs' = fs,
        StoreRely X, StoreEffect X R⟩ ⟨e, clock⟩ fs := by
  rw [flushToSegments, Prog.wp_bind]
  refine Prog.wp_imp (wp_beginFlush h) ?_ (fun _ _ _ he => he.elim)
  rintro work ⟨e₁, clock₁⟩ fs₁ ⟨rfl, hwork⟩
  cases work with
  | none => simpa using ⟨hwork.1, hwork.2⟩
  | some w =>
    obtain ⟨hbegun, hinv, hR⟩ := hwork
    have hnew : w.segmentId ∉ registeredIds X fs₁ := (hinv.store.reserved _ (by simp)).2
    simp only [Prog.wp_bind, FlushWork.execute]
    refine Prog.wp_imp (wp_segmentFlush_new hbegun.wf.sorted hnew hR) ?_ ?_
    · rintro m ⟨e₂, clock₂⟩ fs₂ ⟨⟨rfl, hflushed⟩, hout⟩
      have hinv₂ : Inv X R e₂ fs₂ :=
        ⟨(hinv.store.anti fun id hid => List.mem_cons_of_mem _ hid).outside hout hnew, hinv.window⟩
      have hnew₂ : w.segmentId ∉ registeredIds X fs₂ := by rwa [hout.registeredIds_eq]
      refine Prog.wp_imp (wp_finalizeFlush hinv₂ hflushed hnew₂ hR
        (hinv.store.reserved _ (by simp)).1) ?_ (fun _ _ _ he => he.elim)
      rintro _ q fs₃ ⟨hinv₃, hreg, hsegs, hq⟩
      simp only [Prog.wp_pure]
      refine ⟨hinv₃, w, e₂, hbegun, ?_, ?_, fun j hj => ?_, ?_⟩
      · rw [hreg, hout.registered_eq]
      · rw [FlushWork.Written, hsegs]
        exact hflushed
      · rw [hsegs, hout.segs j hj]
      · have he := hbegun.engine
        simp only at he
        rw [he] at hq
        exact hq
    · rintro _ q fs₂ ⟨⟨-, hnil | hzero⟩, -⟩
      · exact absurd hnil hbegun.wf.ne_nil
      · exact absurd hzero hbegun.wf.window

/-- At most one segment has been registered, and it has been flushed under the given window. -/
def AddsFlushed (X : Externals) (window : ℕ) (fs fs' : Fs) : Prop :=
  SameStore fs fs' ∨
  ∃ m entries, m.segmentId ∉ registeredIds X fs ∧ registered X fs' = registered X fs ++ [m] ∧
    Flushed X m.segmentId window entries m (fs'.segs m.segmentId) ∧
    ∀ j ≠ m.segmentId, fs'.segs j = fs.segs j

theorem AddsFlushed.of_same {window : ℕ} {fs₁ fs' : Fs} (hsame : SameStore fs fs₁)
    (h : AddsFlushed X window fs₁ fs') : AddsFlushed X window fs fs' := by
  rcases h with h | ⟨m, entries, hnew, hreg, hflushed, hsegs⟩
  · exact .inl (hsame.trans h)
  · refine .inr ⟨m, entries, ?_, ?_, hflushed, fun j hj => ?_⟩
    · rwa [← hsame.registeredIds_eq]
    · rw [hreg, hsame.registered_eq]
    · rw [hsegs j hj, hsame.segs]

/-- What a flush has left is one segment more. -/
theorem Begun.addsFlushed {e' : Engine} {w : FlushWork} {m : SegmentMeta} {fs' : Fs}
    (hbegun : Begun e e' w) (h : Inv X R e fs) (hreg : registered X fs' = registered X fs ++ [m])
    (hwritten : w.Written X fs' m) (hsegs : ∀ j ≠ w.segmentId, fs'.segs j = fs.segs j) :
    AddsFlushed X e.segmentStore.cohortWindowSecs fs fs' := by
  have hid : m.segmentId = w.segmentId := hwritten.segmentId
  refine .inr ⟨m, w.entries, fun hmem => ?_, hreg, ?_, hid ▸ hsegs⟩
  · exact (h.store.next _ hmem).ne (hid.trans hbegun.id)
  · rw [hid, ← hbegun.window]
    exact hwritten

/-- A put keeps the invariant, with the flush it may trigger. -/
theorem Inv.wp_put {ns key val : Bytes} (h : Inv X R e fs) :
    Prog.wp (put (X := X) ns key val)
      ⟨fun _ q fs' => Inv X R q.state fs' ∧ AddsFlushed X e.segmentStore.cohortWindowSecs fs fs',
        fun _ q fs' => Inv X R q.state fs' ∧ AddsFlushed X e.segmentStore.cohortWindowSecs fs fs',
        StoreRely X, StoreEffect X R⟩ ⟨e, clock⟩ fs := by
  rw [put, Prog.wp_bind]
  refine Prog.wp_imp (wp_wal (checkPut_frame ns)) ?_ fun _ _ _ he => ⟨h.congr he.1 he.2, .inl he.2⟩
  rintro _ ⟨e₁, clock₁⟩ fs₁ ⟨he₁, hsame₁⟩
  rw [Prog.wp_bind]
  refine Prog.wp_imp (wp_wal (writeEntry_frame ns key val 0)) ?_ fun _ _ _ he =>
    ⟨h.congr (he.1.trans he₁) (hsame₁.trans he.2), .inl (hsame₁.trans he.2)⟩
  rintro lsn ⟨e₂, clock₂⟩ fs₂ ⟨he₂, hsame₂⟩
  have hpart : e₂.storePart = e.storePart := he₂.trans he₁
  have hsame : SameStore fs fs₂ := hsame₁.trans hsame₂
  have h₂ : Inv X R e₂ fs₂ := h.congr hpart hsame
  simp only [Prog.wp_bind, Exec.wp_get, Prog.wp_ite, Prog.wp_pure]
  split
  · have hwindow : e₂.segmentStore = e.segmentStore := congrArg Prod.fst hpart
    refine Prog.wp_imp (wp_flushToSegments h₂) ?_ ?_
    · rintro m q fs₃ ⟨hq, w, e₃, hbegun, hreg, hwritten, hsegs, -⟩
      refine ⟨hq, .of_same hsame ?_⟩
      rw [← hwindow]
      exact hbegun.addsFlushed h₂ hreg hwritten hsegs
    · rintro _ q fs₃ ⟨-, hq, rfl⟩
      rw [hq]
      exact ⟨h₂, .inl hsame⟩
  · exact ⟨h₂, .inl hsame⟩

end Engine
