import Edgestore.Segment.Discipline
import Edgestore.Segment.Store

/-!
# The invariant of the segment store

A segment store in use is in step with its directory: its manifest handle is at the end of the
file, its readers are those of the registered segments, and its counter of ids is above every id in
use. Every method keeps this invariant and the discipline of `StoreEffect`.

## Main definitions

* `Manifest.Synced X m fs`: an open manifest is in step with the file
* `StoreInv X R s fs`: a segment store is in step with the directory, with the ids `R` reserved

## Main results

* `wp_addSegment`, `wp_removeSegments`: the manifest calls
* `SegmentStore.wp_open`, `SegmentStore.wp_finalizeSegment`, `SegmentStore.wp_replaceSegment`,
  `SegmentStore.wp_addImportedSegment`: the methods of the store
-/

variable {X : Externals} {σ : Type} {R : List SegmentId} {fs : Fs}

/-- An open manifest is in step with its file: its handle is at the end, and the list in memory is
what a replay yields. -/
structure Manifest.Synced (X : Externals) (m : Manifest) (fs : Fs) : Prop where
  log : ∃ xs, ManifestLog X fs xs
  pos : m.pos = (fs.manifest.getD []).length
  segments : m.segments = registered X fs

theorem Manifest.Synced.congr {m : Manifest} {fs' : Fs} (h : m.Synced X fs)
    (hman : fs'.manifest = fs.manifest) : m.Synced X fs' := by
  obtain ⟨⟨xs, hlog⟩, hpos, hsegs⟩ := h
  exact ⟨⟨xs, hlog.congr hman⟩, by rw [hman, hpos], by rw [registered_congr hman, hsegs]⟩

/-- The readers of segments. -/
def Readers (fs : Fs) (segs : List SegmentMeta) (readers : List SegmentReader) : Prop :=
  List.Forall₂ (fun m r => openReader m.segmentId (fs.segs m.segmentId) = .ok r) segs readers

/-- A segment store is in step with the directory, with the ids `R` reserved by others. -/
structure StoreInv (X : Externals) (R : List SegmentId) (s : SegmentStore) (fs : Fs) : Prop where
  disk : DiskInv X fs
  synced : s.manifest.Synced X fs
  readers : Readers fs (registered X fs) s.readers
  next : ∀ id ∈ registeredIds X fs, id < s.nextSegmentId
  reserved : ∀ id ∈ R, id < s.nextSegmentId ∧ id ∉ registeredIds X fs
  window : asI64 s.cohortWindowSecs ≠ 0

/-! ### The manifest calls -/

section Manifest

variable {m : Manifest} {clock : ℕ → ℕ}

/-- A frame of the store, written at the end of the manifest. -/
theorem Manifest.wp_storeFrame {e : ManifestEntry} (hlog : ∃ xs, ManifestLog X fs xs)
    (hpos : m.pos = (fs.manifest.getD []).length) (hf : StoreFrame X R fs e) :
    Prog.wp (Manifest.writeFramedEntry (X := X) e)
      ⟨fun _ p fs' => (∃ xs, ManifestLog X fs' xs) ∧ p.state.pos = (fs'.manifest.getD []).length ∧
          p.state.segments = m.segments ∧ registered X fs' = applyEntry (registered X fs) e ∧
          fs'.segs = fs.segs,
        fun _ p fs' => maxEntryLen < (X.manifestJson e).length ∧ p.state = m ∧ fs' = fs,
        StoreRely X, StoreEffect X R⟩ ⟨m, clock⟩ fs := by
  rw [Manifest.writeFramedEntry, Prog.wp_ite]
  split
  case isTrue hbig => exact (Prog.wp_throw _).mpr ⟨hbig, rfl, rfl⟩
  case isFalse hsmall =>
    have hjson : (X.manifestJson e).length ≤ maxEntryLen := Nat.le_of_not_lt hsmall
    have heff : StoreEffect X R (.manifestAppend m.pos e) fs := ⟨hlog, hpos, hjson, hf⟩
    simp only [Prog.wp_bind, Exec.wp_get, Exec.wp_effect, Exec.wp_modify]
    rintro ⟨-, hclean⟩
    refine ⟨heff, ?_, ?_, trivial, registered_apply heff hclean, rfl⟩
    · obtain ⟨xs, hxs⟩ := hlog
      exact ⟨_, (hxs.append hclean hjson hpos).1⟩
    · obtain ⟨xs, rest, hfs, -⟩ := hlog
      rw [hpos, hfs, Option.getD_some, manifest_manifestAppend hfs]
      simp only [Option.getD_some, List.length_append]

/-- Registering a segment. -/
theorem Manifest.wp_addSegment {sm : SegmentMeta} (h : m.Synced X fs)
    (hr : Registrable X R fs sm.segmentId) :
    Prog.wp (Manifest.addSegment (X := X) sm)
      ⟨fun _ p fs' => p.state.Synced X fs' ∧ registered X fs' = registered X fs ++ [sm] ∧
          fs'.segs = fs.segs,
        fun _ p fs' => maxEntryLen < (X.manifestJson (addEntry sm)).length ∧ p.state = m ∧ fs' = fs,
        StoreRely X, StoreEffect X R⟩ ⟨m, clock⟩ fs := by
  rw [Manifest.addSegment, Prog.wp_bind]
  refine Prog.wp_imp (Manifest.wp_storeFrame h.log h.pos (.inl ⟨sm, rfl, hr⟩)) ?_
    (fun _ _ _ he => he)
  rintro _ p fs' ⟨hlog, hpos, hmem, hreg, hsegs⟩
  simp only [Prog.wp_bind, Exec.wp_effect, Exec.wp_modify]
  intro _
  refine ⟨fun id hid => (by cases hid), ⟨hlog, hpos, ?_⟩, hreg, hsegs⟩
  simp only [hmem, h.segments]
  exact hreg.symm

/-- Removing segments. -/
theorem Manifest.wp_removeSegments {ids : List SegmentId} (h : m.Synced X fs)
    (hids : ∀ id ∈ ids, id < 2 ^ 64) :
    Prog.wp (Manifest.removeSegments (X := X) ids)
      ⟨fun _ p fs' => p.state.Synced X fs' ∧
          registered X fs' = (registered X fs).filter (fun sm => sm.segmentId ∉ ids) ∧
          fs'.segs = fs.segs,
        fun _ _ _ => False, StoreRely X, StoreEffect X R⟩ ⟨m, clock⟩ fs := by
  rw [Manifest.removeSegments, Prog.wp_bind]
  -- the loop has removed the ids before those still to come
  refine Prog.wp_forM (fun rest p (fs' : Fs) => ∃ before, before ++ rest = ids ∧
      (∃ xs, ManifestLog X fs' xs) ∧ p.state.pos = (fs'.manifest.getD []).length ∧
      p.state.segments = m.segments ∧
      registered X fs' = (registered X fs).filter (fun sm => sm.segmentId ∉ before) ∧
      fs'.segs = fs.segs) ?step ?done ids ⟨[], rfl, h.log, h.pos, rfl, by simp, rfl⟩
  case step =>
    rintro id rest p fs' ⟨before, hall, hlog, hpos, hmem, hreg, hsegs⟩
    refine Prog.wp_imp (Manifest.wp_storeFrame hlog hpos (.inr ⟨id, rfl⟩)) ?_ ?_
    · rintro _ p' fs'' ⟨hlog', hpos', hmem', hreg', hsegs'⟩
      refine ⟨before ++ [id], by simp [← hall], hlog', hpos', hmem'.trans hmem, ?_,
        hsegs'.trans hsegs⟩
      rw [hreg', hreg, applyEntry_remove, List.filter_filter]
      congr 1
      ext sm
      simp [Bool.and_comm]
    · rintro _ p' fs'' ⟨hbig, -, -⟩
      have hid : id < 2 ^ 64 := hids id (by simp [← hall])
      exact absurd (fits_removeEntry (X := X) hid) (by omega)
  case done =>
    rintro p fs' ⟨before, hall, hlog, hpos, hmem, hreg, hsegs⟩
    obtain rfl : before = ids := by simpa using hall
    simp only [Prog.wp_bind, Exec.wp_effect, Exec.wp_modify]
    intro _
    refine ⟨fun id hid => (by cases hid), ⟨hlog, hpos, ?_⟩, hreg, hsegs⟩
    simp only [hmem, h.segments]
    exact hreg.symm

/-- Opening the manifest. -/
theorem Manifest.wp_open {p : Process σ} (h : fs.manifest = none ∨ ∃ xs, ManifestLog X fs xs) :
    Prog.wp (Manifest.open (X := X) (σ := σ))
      ⟨fun m q fs' => q = p ∧ m.Synced X fs' ∧ registered X fs' = registered X fs ∧
          fs'.segs = fs.segs ∧ (fs.manifest ≠ none → fs' = fs),
        fun _ _ _ => False, StoreRely X, StoreEffect X R⟩ p fs := by
  rcases h with hnone | ⟨xs, hlog⟩
  · have hhead : (applyEffect X .manifestHeader (applyEffect X .manifestCreate fs)).manifest =
        some manifestHeader := rfl
    simp only [Manifest.open, Prog.wp_bind, Exec.wp_fs, hnone, Exec.wp_effect, Prog.wp_pure]
    refine fun _ => ⟨hnone, fun _ => ⟨rfl, fun _ => ⟨fun id hid => (by cases hid), trivial, ?_⟩⟩⟩
    have hreg := registered_header (X := X) hhead
    exact ⟨⟨⟨[], [], hhead, FramedLog.framed_nil⟩, rfl, hreg.symm⟩,
      hreg.trans (registered_none hnone).symm, rfl, fun hsome => absurd rfl hsome⟩
  · obtain ⟨rest, hfs, hrest⟩ := id hlog
    have hreg : replay (FramedLog.read (manifestFormat X) ((manifestHeader ++ rest).drop 8)) =
        registered X fs := by rw [registered, hfs, Option.getD_some]
    simp only [Manifest.open, Prog.wp_bind, Exec.wp_fs, hfs, Prog.wp_lift,
      checkManifestHeader_header, Prog.result_ok, Prog.wp_pure, true_and, and_true, implies_true]
    exact ⟨⟨_, hlog⟩, by rw [hfs, Option.getD_some], hreg⟩

end Manifest

/-! ### Reading the registered segments -/

theorem openReader_segmentId {id : SegmentId} {files : SegmentFiles} {r : SegmentReader}
    (h : openReader id files = .ok r) : r.segmentId = id := by
  rw [openReader] at h
  cases hm : files.segMeta.read "meta parse" with
  | error e => rw [hm] at h; cases h
  | ok m =>
    rw [hm] at h
    cases hx : readXfFile files.xf with
    | error e => rw [hx] at h; cases h
    | ok x =>
      rw [hx] at h
      cases hi : readIdxFile files.idx with
      | error e => rw [hi] at h; cases h
      | ok i =>
        rw [hi] at h
        cases h
        rfl

theorem SegmentWf.openReader {f : SegmentFiles} (h : SegmentWf X f) (id : SegmentId) :
    ∃ r, openReader id f = .ok r := by
  obtain ⟨img, rfl⟩ := h
  exact ⟨_, img.openReader_files id⟩

/-- A loop whose steps all succeed collects their results. -/
theorem mapM_eq_ok {α β ε : Type} {f : α → Except ε β} {l : List α}
    (h : ∀ a ∈ l, ∃ b, f a = .ok b) :
    ∃ bs, l.mapM f = .ok bs ∧ List.Forall₂ (fun a b => f a = .ok b) l bs := by
  induction l with
  | nil => exact ⟨[], rfl, .nil⟩
  | cons a l ih =>
    obtain ⟨b, hb⟩ := h a (by simp)
    obtain ⟨bs, hbs, hall⟩ := ih fun a ha => h a (by simp [ha])
    refine ⟨b :: bs, ?_, .cons hb hall⟩
    rw [List.mapM_cons, hb]
    change (l.mapM f >>= fun bs => pure (b :: bs)) = _
    rw [hbs]
    rfl

theorem mem_registeredIds {m : SegmentMeta} (h : m ∈ registered X fs) :
    m.segmentId ∈ registeredIds X fs := List.mem_map_of_mem h

theorem Readers.congr {segs : List SegmentMeta} {readers : List SegmentReader} {fs' : Fs}
    (h : Readers fs segs readers)
    (hsegs : ∀ m ∈ segs, fs'.segs m.segmentId = fs.segs m.segmentId) : Readers fs' segs readers := by
  induction h with
  | nil => exact .nil
  | cons hr _ ih =>
    refine .cons ?_ (ih fun m hm => hsegs m (List.mem_cons_of_mem _ hm))
    rw [hsegs _ List.mem_cons_self]
    exact hr

/-- The readers are those of the segments, in their order. -/
theorem Readers.map_segmentId {segs : List SegmentMeta} {readers : List SegmentReader}
    (h : Readers fs segs readers) :
    readers.map SegmentReader.segmentId = segs.map SegmentMeta.segmentId := by
  induction h with
  | nil => rfl
  | cons hr _ ih => rw [List.map_cons, List.map_cons, ih, openReader_segmentId hr]

theorem Readers.exists_of_mem {segs : List SegmentMeta} {readers : List SegmentReader}
    {r : SegmentReader} (h : Readers fs segs readers) (hr : r ∈ readers) :
    ∃ m ∈ segs, openReader m.segmentId (fs.segs m.segmentId) = .ok r := by
  induction h with
  | nil => simp at hr
  | @cons m r' _ _ hopen _ ih =>
    rcases List.mem_cons.mp hr with rfl | hr
    · exact ⟨m, List.mem_cons_self, hopen⟩
    · obtain ⟨m', hm', hopen'⟩ := ih hr
      exact ⟨m', List.mem_cons_of_mem _ hm', hopen'⟩

theorem Readers.concat {segs : List SegmentMeta} {readers : List SegmentReader} {m : SegmentMeta}
    {r : SegmentReader} (h : Readers fs segs readers)
    (hr : openReader m.segmentId (fs.segs m.segmentId) = .ok r) :
    Readers fs (segs ++ [m]) (readers ++ [r]) := List.rel_append h (.cons hr .nil)

/-- Removing a segment and its reader. -/
theorem Readers.filter {segs : List SegmentMeta} {readers : List SegmentReader}
    (h : Readers fs segs readers) (id : SegmentId) :
    Readers fs (segs.filter fun m => m.segmentId ≠ id)
      (readers.filter fun r => r.segmentId ≠ id) := by
  induction h with
  | nil => exact .nil
  | @cons m r _ _ hr _ ih =>
    have hid := openReader_segmentId hr
    by_cases hm : m.segmentId = id
    · rw [List.filter_cons_of_neg (by simpa using hm),
        List.filter_cons_of_neg (by simpa [hid] using hm)]
      exact ih
    · rw [List.filter_cons_of_pos (by simpa using hm),
        List.filter_cons_of_pos (by simpa [hid] using hm)]
      exact .cons hr ih

/-! ### Opening the store -/

theorem foldl_nextId (segs : List SegmentMeta) (n : SegmentId) :
    n ≤ segs.foldl (fun next m => if m.segmentId ≥ next then m.segmentId + 1 else next) n ∧
      ∀ m ∈ segs, m.segmentId <
        segs.foldl (fun next m => if m.segmentId ≥ next then m.segmentId + 1 else next) n := by
  induction segs generalizing n with
  | nil => simp
  | cons m segs ih =>
    obtain ⟨hle, hlt⟩ := ih (if m.segmentId ≥ n then m.segmentId + 1 else n)
    simp only [List.foldl_cons]
    have hm : n ≤ (if m.segmentId ≥ n then m.segmentId + 1 else n) ∧
        m.segmentId < (if m.segmentId ≥ n then m.segmentId + 1 else n) := by
      by_cases hge : m.segmentId ≥ n
      · rw [if_pos hge]
        exact ⟨Nat.le_succ_of_le hge, Nat.lt_succ_self _⟩
      · rw [if_neg hge]
        exact ⟨le_rfl, not_le.mp hge⟩
    refine ⟨hm.1.trans hle, fun m' hm' => ?_⟩
    rcases List.mem_cons.mp hm' with rfl | hm'
    · exact hm.2.trans_le hle
    · exact hlt m' hm'

namespace SegmentStore

/-- **Opening the store** succeeds on a well-formed directory. Its counter passes the reserved ids
if the manifest lists an id at least as high. -/
theorem wp_open {window : ℕ} {p : Process σ} (hd : DiskInv X fs)
    (h : fs.manifest = none ∨ ∃ xs, ManifestLog X fs xs)
    (hR : ∀ id ∈ R, id ∉ registeredIds X fs ∧ ∃ id' ∈ registeredIds X fs, id ≤ id')
    (hw : asI64 window ≠ 0) :
    Prog.wp (SegmentStore.open (X := X) (σ := σ) window)
      ⟨fun s q fs' => q = p ∧ StoreInv X R s fs' ∧ registered X fs' = registered X fs ∧
          fs'.segs = fs.segs ∧ (fs.manifest ≠ none → fs' = fs),
        fun _ _ _ => False, StoreRely X, StoreEffect X R⟩ p fs := by
  rw [SegmentStore.open, Prog.wp_bind]
  refine Prog.wp_imp (Manifest.wp_open h) ?_ (fun _ _ _ he => he)
  rintro m q fs' ⟨rfl, hsync, hreg, hsegs, hsame⟩
  have hd' : DiskInv X fs' := by
    refine ⟨?_, fun id hid => ?_⟩
    · rw [registeredIds, hreg]
      exact hd.nodup
    · rw [registeredIds, hreg] at hid
      rw [hsegs]
      exact hd.wf id hid
  obtain ⟨readers, hmap, hreaders⟩ := mapM_eq_ok
    (f := fun m : SegmentMeta => openReader m.segmentId (fs'.segs m.segmentId))
    (l := registered X fs') fun m hm => (hd'.wf _ (mem_registeredIds hm)).2.openReader _
  simp only [Prog.wp_bind, Exec.wp_fs, Prog.wp_lift, hsync.segments, hmap, Prog.result_ok,
    Prog.wp_pure, true_and]
  obtain ⟨-, hnext⟩ := foldl_nextId (registered X fs') 0
  have hnext' : ∀ id ∈ registeredIds X fs', id < (registered X fs').foldl
      (fun next m => if m.segmentId ≥ next then m.segmentId + 1 else next) 0 := by
    intro id hid
    obtain ⟨m, hm, rfl⟩ := List.mem_map.mp hid
    exact hnext m hm
  refine ⟨⟨hd', hsync, hreaders, hnext', fun id hid => ?_, hw⟩, hreg, hsegs, hsame⟩
  obtain ⟨hfree, id', hid', hle⟩ := hR id hid
  rw [registeredIds, ← hreg] at hfree hid'
  exact ⟨hle.trans_lt (hnext' id' hid'), hfree⟩

end SegmentStore

/-! ### Effects on one segment -/

/-- Only the files of segment `id` differ, and staged ones. -/
structure Outside (id : SegmentId) (fs fs' : Fs) : Prop where
  manifest : fs'.manifest = fs.manifest
  wals : fs'.wals = fs.wals
  segs : ∀ j ≠ id, fs'.segs j = fs.segs j

section Outside

variable {id : SegmentId} {fs' : Fs} {s : SegmentStore}

theorem Outside.refl : Outside id fs fs := ⟨rfl, rfl, fun _ _ => rfl⟩

theorem Outside.trans {fs'' : Fs} (h : Outside id fs fs') (h' : Outside id fs' fs'') :
    Outside id fs fs'' :=
  ⟨h'.manifest.trans h.manifest, h'.wals.trans h.wals,
    fun j hj => (h'.segs j hj).trans (h.segs j hj)⟩

theorem Outside.registered_eq (h : Outside id fs fs') : registered X fs' = registered X fs :=
  registered_congr h.manifest

theorem Outside.registeredIds_eq (h : Outside id fs fs') : registeredIds X fs' = registeredIds X fs :=
  congrArg (List.map SegmentMeta.segmentId) h.registered_eq

/-- The invariant depends on the manifest and on the files of registered segments. -/
theorem StoreInv.congr (h : StoreInv X R s fs) (hman : fs'.manifest = fs.manifest)
    (hsegs : ∀ j ∈ registeredIds X fs, fs'.segs j = fs.segs j) : StoreInv X R s fs' := by
  have hreg : registered X fs' = registered X fs := registered_congr hman
  have hids : registeredIds X fs' = registeredIds X fs :=
    congrArg (List.map SegmentMeta.segmentId) hreg
  refine ⟨⟨hids ▸ h.disk.nodup, fun j hj => ?_⟩, h.synced.congr hman, ?_, hids ▸ h.next,
    hids ▸ h.reserved, h.window⟩
  · rw [hids] at hj
    rw [hsegs j hj]
    exact h.disk.wf j hj
  · rw [hreg]
    exact h.readers.congr fun m hm => hsegs _ (mem_registeredIds hm)

theorem StoreInv.outside (h : StoreInv X R s fs) (ho : Outside id fs fs')
    (hid : id ∉ registeredIds X fs) : StoreInv X R s fs' :=
  h.congr ho.manifest fun j hj => ho.segs j fun hji => hid (hji ▸ hj)

/-- Writing files of a segment. -/
theorem Outside.writes {e : Effect} (he : WritesSegment id e) :
    Outside id fs (applyEffect X e fs) := by
  refine ⟨?_, ?_, fun j hj => segs_apply_of_ne ?_⟩
  · cases e <;> first | exact he.elim | rfl
  · cases e <;> first | exact he.elim | rfl
  · cases e <;> first | exact he.elim | (rintro ⟨⟩; exact hj he) | rintro ⟨⟩

theorem StoreEffect.of_target {e : Effect} (ht : e.target = some id)
    (hid : id ∉ registeredIds X fs) (hR : id ∉ R) : StoreEffect X R e fs := by
  cases e <;>
    first
    | (cases ht; done)
    | (intro j hj
       obtain rfl := Option.some_injective _ (hj.symm.trans ht)
       exact ⟨hid, hR⟩)

/-- Writing files of a segment that is neither registered nor reserved. -/
theorem Outside.writes_store {e : Effect} (ho : Outside id fs fs') (he : WritesSegment id e)
    (hid : id ∉ registeredIds X fs) (hR : id ∉ R) : StoreEffect X R e fs' := by
  have hid' : id ∉ registeredIds X fs' := by rwa [ho.registeredIds_eq]
  cases e <;>
    first
    | exact he.elim
    | exact StoreEffect.of_target (congrArg some he) hid' hR
    | exact fun _ h => (by cases h)

end Outside

/-! ### The methods of the store -/

/-- A flush to a new segment keeps the discipline. -/
theorem wp_segmentFlush_new {id : SegmentId} {window : ℕ} {entries : List (Bytes × MemEntry)}
    {p : Process σ} (hs : KeySorted entries) (hid : id ∉ registeredIds X fs) (hR : id ∉ R) :
    Prog.wp (segmentFlush (X := X) id window entries)
      ⟨fun m q fs' => (q.state = p.state ∧ Flushed X id window entries m (fs'.segs id)) ∧
          Outside id fs fs',
        fun _ q fs' => (q.state = p.state ∧ (entries = [] ∨ asI64 window = 0)) ∧ Outside id fs fs',
        StoreRely X, StoreEffect X R⟩ p fs := by
  have hwp := Prog.wp_inv (I := Outside id fs) (G := StoreEffect X R) (fun e d _ hw hI => ?_)
    (wp_segmentFlush hs : Prog.wp (segmentFlush (X := X) id window entries) _ p fs) .refl
  · exact Prog.wp_mono hwp (fun _ _ _ h => ⟨⟨h.1.1, h.1.2.2⟩, h.2⟩) (fun _ _ _ h => h)
      (fun _ _ h => h.1) (fun _ _ _ h => h)
  · exact ⟨hI.writes_store hw hid hR, hI.trans (.writes hw)⟩

/-- Unlinking a segment that is neither registered nor reserved. -/
theorem wp_unlinkSegment {id : SegmentId} {p : Process σ} (hid : id ∉ registeredIds X fs)
    (hR : id ∉ R) :
    Prog.wp (unlinkSegment (X := X) id)
      ⟨fun _ q fs' => q.state = p.state ∧ Outside id fs fs', fun _ _ _ => False, StoreRely X,
        StoreEffect X R⟩ p fs := by
  refine Prog.wp_forM (fun _ q fs' => q.state = p.state ∧ Outside id fs fs') ?_ (fun _ _ h => h) _
    ⟨rfl, .refl⟩
  rintro ext _ q d ⟨hq, hI⟩
  simp only [Prog.wp_bind, Exec.wp_fs, Prog.wp_ite, Exec.wp_effect, Prog.wp_pure]
  split
  · intro _
    have hid' : id ∉ registeredIds X d := by rwa [hI.registeredIds_eq]
    refine ⟨StoreEffect.of_target rfl hid' hR, hq, hI.trans ⟨rfl, rfl, fun j hj => ?_⟩⟩
    exact segs_apply_of_ne (X := X) (e := .segUnlink id ext) (by rintro ⟨⟩; exact hj rfl)
  · exact ⟨hq, hI⟩

variable {s : SegmentStore} {sm : SegmentMeta}

/-- The store after a registration. -/
theorem StoreInv.register {fs' : Fs} {r : SegmentReader} {man : Manifest} (h : StoreInv X R s fs)
    (hr : Registrable X R fs sm.segmentId) (hlt : sm.segmentId < s.nextSegmentId)
    (hman : man.Synced X fs') (hreg : registered X fs' = registered X fs ++ [sm])
    (hsegs : fs'.segs = fs.segs) (hreader : openReader sm.segmentId (fs.segs sm.segmentId) = .ok r) :
    StoreInv X R { s with manifest := man, readers := s.readers ++ [r] } fs' := by
  have hids : registeredIds X fs' = registeredIds X fs ++ [sm.segmentId] := by
    rw [registeredIds, hreg, List.map_append]
    rfl
  refine ⟨⟨?_, fun id hid => ?_⟩, hman, ?_, fun id hid => ?_, fun id hid => ?_, h.window⟩
  · rw [hids]
    refine List.nodup_append.mpr ⟨h.disk.nodup, List.nodup_singleton _, fun a ha b hb hab => ?_⟩
    exact hr.fresh (List.mem_singleton.mp hb ▸ hab ▸ ha)
  · rw [hsegs]
    rw [hids] at hid
    rcases List.mem_append.mp hid with hid | hid
    · exact h.disk.wf id hid
    · obtain rfl := List.mem_singleton.mp hid
      exact ⟨hr.lt, hr.wf⟩
  · rw [hreg]
    refine Readers.concat (h.readers.congr fun m _ => by rw [hsegs]) ?_
    rw [hsegs]
    exact hreader
  · rw [hids] at hid
    rcases List.mem_append.mp hid with hid | hid
    · exact h.next id hid
    · rw [List.mem_singleton.mp hid]
      exact hlt
  · obtain ⟨hlt', hfree⟩ := h.reserved id hid
    refine ⟨hlt', fun hmem => ?_⟩
    rw [hids] at hmem
    rcases List.mem_append.mp hmem with hmem | hmem
    · exact hfree hmem
    · exact hr.free (List.mem_singleton.mp hmem ▸ hid)

/-- The store after a removal. -/
theorem StoreInv.unregister {fs' : Fs} {id : SegmentId} {man : Manifest}
    (h : StoreInv X R s fs) (hman : man.Synced X fs')
    (hreg : registered X fs' = (registered X fs).filter (fun m => m.segmentId ∉ [id]))
    (hsegs : fs'.segs = fs.segs) :
    StoreInv X R
      { s with manifest := man, readers := s.readers.filter fun r => r.segmentId ≠ id } fs' ∧
      registeredIds X fs' = (registeredIds X fs).filter (· ≠ id) := by
  have hreg' : registered X fs' = (registered X fs).filter (fun m => m.segmentId ≠ id) := by
    simpa using hreg
  have hids : registeredIds X fs' = (registeredIds X fs).filter (· ≠ id) := by
    rw [registeredIds, hreg', registeredIds, List.filter_map]
    rfl
  have hsub : ∀ j ∈ registeredIds X fs', j ∈ registeredIds X fs := by
    intro j hj
    rw [hids] at hj
    exact (List.mem_filter.mp hj).1
  refine ⟨⟨⟨?_, fun j hj => ?_⟩, hman, ?_, fun j hj => h.next j (hsub j hj), fun j hj =>
    ⟨(h.reserved j hj).1, fun hmem => (h.reserved j hj).2 (hsub j hmem)⟩, h.window⟩, hids⟩
  · rw [hids]
    exact h.disk.nodup.filter _
  · rw [hsegs]
    exact h.disk.wf j (hsub j hj)
  · rw [hreg']
    exact (h.readers.filter id).congr fun m _ => by rw [hsegs]

/-- The next id is in nobody's use. -/
theorem StoreInv.reserve (h : StoreInv X R s fs) :
    StoreInv X (s.nextSegmentId :: R) { s with nextSegmentId := s.nextSegmentId + 1 } fs ∧
      s.nextSegmentId ∉ R := by
  refine ⟨⟨h.disk, h.synced, h.readers, fun id hid => (h.next id hid).trans (Nat.lt_succ_self _),
    fun id hid => ?_, h.window⟩, fun hmem => (h.reserved _ hmem).1.ne rfl⟩
  rcases List.mem_cons.mp hid with rfl | hid
  · exact ⟨Nat.lt_succ_self _, fun hmem => (h.next _ hmem).ne rfl⟩
  · exact ⟨(h.reserved id hid).1.trans (Nat.lt_succ_self _), (h.reserved id hid).2⟩

/-- Fewer ids may be reserved. -/
theorem StoreInv.anti {R' : List SegmentId} (h : StoreInv X R s fs) (hR : ∀ id ∈ R', id ∈ R) :
    StoreInv X R' s fs := { h with reserved := fun id hid => h.reserved id (hR id hid) }

namespace SegmentStore

variable {clock : ℕ → ℕ}

/-- Taking an id. -/
theorem wp_allocSegmentId {Q : Prog.Post (disk X) (Process SegmentStore) EdgestoreError SegmentId}
    {p : Process SegmentStore} :
    Prog.wp (allocSegmentId (X := X)) Q p fs ↔ Q.ok p.state.nextSegmentId
      ⟨{ p.state with nextSegmentId := p.state.nextSegmentId + 1 }, p.clock⟩ fs := by
  simp [allocSegmentId]

/-- Registering a flushed segment. -/
theorem wp_finalizeSegment (h : StoreInv X R s fs) (hr : Registrable X R fs sm.segmentId)
    (hlt : sm.segmentId < s.nextSegmentId) :
    Prog.wp (finalizeSegment (X := X) sm)
      ⟨fun _ q fs' => StoreInv X R q.state fs' ∧ registered X fs' = registered X fs ++ [sm] ∧
          fs'.segs = fs.segs,
        fun _ q fs' => maxEntryLen < (X.manifestJson (addEntry sm)).length ∧ q.state = s ∧ fs' = fs,
        StoreRely X, StoreEffect X R⟩ ⟨s, clock⟩ fs := by
  rw [finalizeSegment, onManifest, Prog.wp_bind, Exec.wp_zoom]
  refine Prog.wp_imp (Manifest.wp_addSegment h.synced hr) ?_ ?_
  · rintro _ p fs' ⟨hman, hreg, hsegs⟩
    obtain ⟨r, hreader⟩ := hr.wf.openReader sm.segmentId
    simp only [Prog.wp_bind, Exec.wp_fs, Prog.wp_lift, hsegs, hreader, Prog.result_ok,
      Exec.wp_modify, and_true]
    exact ⟨h.register hr hlt hman hreg hsegs hreader, hreg⟩
  · rintro _ p fs' ⟨hbig, hp, hfs⟩
    exact ⟨hbig, by rw [hp], hfs⟩

/-- Registering an imported segment. -/
theorem wp_addImportedSegment {r : SegmentReader} (h : StoreInv X R s fs)
    (hr : Registrable X R fs sm.segmentId) (hlt : sm.segmentId < s.nextSegmentId)
    (hreader : openReader sm.segmentId (fs.segs sm.segmentId) = .ok r) :
    Prog.wp (addImportedSegment (X := X) sm r)
      ⟨fun _ q fs' => StoreInv X R q.state fs' ∧ registered X fs' = registered X fs ++ [sm] ∧
          fs'.segs = fs.segs,
        fun _ q fs' => maxEntryLen < (X.manifestJson (addEntry sm)).length ∧ q.state = s ∧ fs' = fs,
        StoreRely X, StoreEffect X R⟩ ⟨s, clock⟩ fs := by
  rw [addImportedSegment, onManifest, Prog.wp_bind, Exec.wp_zoom]
  refine Prog.wp_imp (Manifest.wp_addSegment h.synced hr) ?_ ?_
  · rintro _ p fs' ⟨hman, hreg, hsegs⟩
    simp only [Exec.wp_modify]
    exact ⟨h.register hr hlt hman hreg hsegs hreader, hreg, hsegs⟩
  · rintro _ p fs' ⟨hbig, hp, hfs⟩
    exact ⟨hbig, by rw [hp], hfs⟩

/-- **Replacing a segment** by a rewritten one. -/
theorem wp_replaceSegment {oldId : SegmentId} {r : SegmentReader} (h : StoreInv X R s fs)
    (hold : oldId ∈ registeredIds X fs) (hr : Registrable X R fs sm.segmentId)
    (hlt : sm.segmentId < s.nextSegmentId)
    (hfits : (X.manifestJson (addEntry sm)).length ≤ maxEntryLen)
    (hreader : openReader sm.segmentId (fs.segs sm.segmentId) = .ok r) :
    Prog.wp (replaceSegment (X := X) oldId sm r)
      ⟨fun _ q fs' => StoreInv X R q.state fs' ∧
          registered X fs' = (registered X fs).filter (fun m => m.segmentId ≠ oldId) ++ [sm] ∧
          ∀ j ≠ oldId, fs'.segs j = fs.segs j,
        fun _ _ _ => False, StoreRely X, StoreEffect X R⟩ ⟨s, clock⟩ fs := by
  rw [replaceSegment, onManifest, Prog.wp_bind, Exec.wp_zoom]
  have hids : ∀ id ∈ [oldId], id < 2 ^ 64 := by
    intro id hid
    rw [List.mem_singleton.mp hid]
    exact (h.disk.wf oldId hold).1
  refine Prog.wp_imp (Manifest.wp_removeSegments h.synced hids) ?_ (fun _ _ _ he => he)
  rintro _ p fs₁ ⟨hman₁, hreg₁, hsegs₁⟩
  obtain ⟨h₁, hids₁⟩ := h.unregister hman₁ hreg₁ hsegs₁
  have hr₁ : Registrable X R fs₁ sm.segmentId := by
    refine ⟨hr.lt, hsegs₁ ▸ hr.wf, fun hmem => hr.fresh ?_, hr.free⟩
    rw [hids₁] at hmem
    exact (List.mem_filter.mp hmem).1
  simp only [Prog.wp_bind, Exec.wp_modify, onManifest, Exec.wp_zoom]
  refine Prog.wp_imp (Manifest.wp_addSegment (m := p.state) hman₁ hr₁) ?_ ?_
  · rintro _ q fs₂ ⟨hman₂, hreg₂, hsegs₂⟩
    have hreader₁ : openReader sm.segmentId (fs₁.segs sm.segmentId) = .ok r := hsegs₁ ▸ hreader
    have h₂ := h₁.register hr₁ hlt hman₂ hreg₂ hsegs₂ hreader₁
    have hfree : oldId ∉ registeredIds X fs₂ := by
      rw [registeredIds, hreg₂, List.map_append]
      intro hmem
      rcases List.mem_append.mp hmem with hmem | hmem
      · change oldId ∈ registeredIds X fs₁ at hmem
        rw [hids₁] at hmem
        simpa using (List.mem_filter.mp hmem).2
      · have : oldId = sm.segmentId := by simpa using hmem
        exact hr.fresh (this ▸ hold)
    refine Prog.wp_imp (wp_unlinkSegment hfree fun hmem => (h.reserved oldId hmem).2 hold) ?_
      (fun _ _ _ he => he)
    rintro _ q' fs₃ ⟨hq', hout⟩
    refine ⟨?_, ?_, fun j hj => ?_⟩
    · rw [hq']
      exact h₂.outside hout hfree
    · rw [hout.registered_eq, hreg₂, hreg₁]
      simp
    · rw [hout.segs j hj, hsegs₂, hsegs₁]
  · rintro _ q fs₂ ⟨hbig, -⟩
    omega

end SegmentStore
