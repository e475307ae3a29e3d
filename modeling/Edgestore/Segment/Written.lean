import Edgestore.Segment.Metadata

/-!
# Segments that the writer has made

The files of a segment and its metadata as `SegmentWriter::flush` leaves them, with no limit on what it
writes. Such a segment need not be readable: a block may be too large, and so may its filter or its
sparse index. A segment whose blocks are not too large is well formed as soon as a reader opens it.

## Main definitions

* `writtenFiles`: the four files of a flush
* `SegmentWritten`: metadata and files of a flush of sorted entries

## Main results

* `wp_segmentFlush_written`: a flush that succeeds leaves them, and touches no other segment
* `SegmentWritten.segmentWf`: what a reader opens is well formed, unless a block is too large
-/

variable {X : Externals} {σ : Type} {window : ℕ} {entries : List (Bytes × MemEntry)} {m : SegmentMeta}
  {files : SegmentFiles}

/-- The files that a flush leaves. -/
def writtenFiles (X : Externals) (entries : List (Bytes × MemEntry)) (m : SegmentMeta) :
    SegmentFiles where
  dat := .whole (writeDatAndIndex X entries).blocks
  idx := .whole (writeDatAndIndex X entries).index
  xf := .whole (X.buildFilter (entries.map Prod.fst))
  segMeta := .whole m

/-- The metadata and the files of a segment that the writer has made of sorted entries, under a cohort
window. -/
structure SegmentWritten (X : Externals) (window : ℕ) (entries : List (Bytes × MemEntry))
    (m : SegmentMeta) (files : SegmentFiles) : Prop where
  sorted : KeySorted entries
  made : ∃ bucket nanos, m =
    segmentMetaFor X m.segmentId window entries (writeDatAndIndex X entries) bucket nanos
  files : files = writtenFiles X entries m

namespace SegmentWritten

theorem table (h : SegmentWritten X window entries m files) :
    files.table = entries.map storedEntry := by
  rw [h.files]
  exact table_writeDatAndIndex h.sorted

theorem keySorted_table (h : SegmentWritten X window entries m files) : KeySorted files.table := by
  rw [h.table]
  exact keySorted_map_storedEntry.mpr h.sorted

theorem has (h : SegmentWritten X window entries m files) (ext : SegmentExt) : files.has ext = true := by
  rw [h.files]
  cases ext <;> rfl

theorem recordCount (h : SegmentWritten X window entries m files) : m.recordCount = entries.length := by
  obtain ⟨bucket, nanos, hm⟩ := h.made
  rw [hm]
  rfl

/-- The metadata describe the segment. -/
theorem describes {window' : ℕ} (h : SegmentWritten X window entries m files)
    (hw : asI64 window' ≤ asI64 window) : m.Describes window' files.table := by
  obtain ⟨bucket, nanos, hm⟩ := h.made
  rw [h.table, hm]
  exact (describes_segmentMetaFor h.sorted hw _ _ bucket nanos).map_storedEntry

/-- **What a reader opens** is well formed, unless a block is too large. -/
theorem segmentWf (h : SegmentWritten X window entries m files)
    (hdat : ∀ b ∈ (writeDatAndIndex X entries).blocks, b.size ≤ maxBlockDecompressed) {id : SegmentId}
    {r : SegmentReader} (hr : openReader id files = .ok r) : SegmentWf X files := by
  obtain ⟨bucket, nanos, hm⟩ := h.made
  have hmin : m.minKey = (entries.head?.map Prod.fst).getD [] := by rw [hm]; rfl
  have hmax : m.maxKey = (entries.getLast?.map Prod.fst).getD [] := by rw [hm]; rfl
  -- a filter or a sparse index that is too large keeps the reader from opening
  rw [h.files] at hr
  unfold openReader readXfFile readIdxFile at hr
  have hxf : (X.buildFilter (entries.map Prod.fst)).fingerprints.length ≤ maxFingerprints := by
    by_contra hbig
    simp only [writtenFiles, File.read, bind, Except.bind, if_pos (not_le.mp hbig)] at hr
    cases hr
  have hidx : (writeDatAndIndex X entries).index.length ≤ maxIndexCount := by
    by_contra hbig
    simp only [writtenFiles, File.read, bind, Except.bind, if_neg (not_lt.mpr hxf),
      if_pos (not_le.mp hbig)] at hr
    cases hr
  exact ⟨flushImage X h.sorted m hmin hmax hdat hidx hxf, h.files⟩

end SegmentWritten

/-- **A flush that succeeds** leaves the files of a segment, and touches no other. -/
theorem wp_segmentFlush_written {id : SegmentId} {p : Process σ} {fs : Fs} (hs : KeySorted entries) :
    Prog.wp (segmentFlush (X := X) id window entries)
      ⟨fun m q fs' => q.state = p.state ∧ m.segmentId = id ∧
          SegmentWritten X window entries m (fs'.segs id) ∧ ∀ j ≠ id, fs'.segs j = fs.segs j,
        fun _ _ _ => True, fun _ _ => True, fun e _ => WritesSegment id e⟩ p fs := by
  cases entries with
  | nil => exact (Prog.wp_throw _).mpr trivial
  | cons first rest =>
    simp only [segmentFlush]
    cases cohortBucketFor first.2.timestamp first.2.ttl window with
    | error e => simp [WritesSegment]
    | ok bucket =>
      simp only [Prog.wp_bind, Exec.wp_effect, Exec.wp_now, Prog.wp_lift, Prog.wp_pure,
        WritesSegment, true_and, forall_const, Prog.result_ok, applyEffect, Fs.setSegment_setSegment,
        Fs.segs_setSegment_self]
      refine ⟨rfl, ⟨hs, ⟨bucket, _, rfl⟩, rfl⟩, fun j hj => ?_⟩
      exact Fs.segs_setSegment_of_ne _ fs hj
