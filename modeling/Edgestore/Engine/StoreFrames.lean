import Edgestore.Compactor
import Edgestore.Strip
import Edgestore.Engine.Frames

/-!
# What segment writes leave alone

The methods of the segment store, flushes, compactions and strips touch only the manifest and the
files of segments, and they never sync a `.meta` file. In memory they leave the WAL writer, the
memtable and the counters alone.

## Main definitions

* `Effect.IsSegment`: effects on the manifest and on segments, without the syncs of `.meta` files
* `Engine.walPart`: the part of an engine that these methods leave alone
* `Engine.settings`: what an engine was opened with, which none of its methods changes

## Main results

* `segmentFlush_frame`, `Compactor.compactCycle_frame`, `Engine.stripIndex_frame`: frames
-/

variable {X : Externals} {σ T : Type}

/-- Effects on the manifest and on the files of segments, without the syncs of `.meta` files. -/
def Effect.IsSegment : Effect → Prop
  | .manifestCreate => True
  | .manifestHeader => True
  | .manifestAppend _ _ => True
  | .datWrite _ _ => True
  | .idxWrite _ _ => True
  | .xfWrite _ _ => True
  | .metaWrite _ _ => True
  | .segUnlink _ _ => True
  | .sync .manifest => True
  | .sync (.seg _ .dat) => True
  | .sync (.seg _ .idx) => True
  | .sync (.seg _ .xf) => True
  | _ => False

theorem Effect.IsSegment.not_isWal {e : Effect} (h : e.IsSegment) : ¬ e.IsWal := by
  intro hw
  cases e with
  | sync f => cases f <;> first | exact h | exact hw
  | _ => first | exact h | exact hw

theorem Effect.IsSegment.wals {e : Effect} (h : e.IsSegment) (fs : Fs) :
    (applyEffect X e fs).wals = fs.wals := wals_apply_of_not_isWal h.not_isWal fs

/-! ### Segments and the manifest -/

theorem segmentFlush_frame (id : SegmentId) (window : ℕ) (entries : List (Bytes × MemEntry))
    (g : σ → T) : Exec.Frame Effect.IsSegment g (segmentFlush (X := X) id window entries) := by
  unfold segmentFlush
  split
  · exact .throw _
  · exact .bind (.effect trivial) fun _ => .bind (.effect trivial) fun _ =>
      .bind (.effect trivial) fun _ => .bind (.effect trivial) fun _ =>
      .bind (.effect trivial) fun _ => .bind (.effect trivial) fun _ =>
      .bind (.lift _) fun _ => .bind .now fun _ => .bind (.effect trivial) fun _ => .pure _

theorem FlushWork.execute_frame (w : FlushWork) (g : σ → T) :
    Exec.Frame Effect.IsSegment g (w.execute (X := X)) := segmentFlush_frame _ _ _ g

theorem unlinkSegment_frame (id : SegmentId) (g : σ → T) :
    Exec.Frame Effect.IsSegment g (unlinkSegment (X := X) id) :=
  .forM fun _ _ => .bind .fs fun _ => .ite (fun _ => .effect trivial) fun _ => .pure _

namespace Manifest

theorem open_frame (g : σ → T) : Exec.Frame Effect.IsSegment g (Manifest.open (X := X)) := by
  refine .bind .fs fun fs => ?_
  split
  · exact .bind (.effect trivial) fun _ => .bind (.effect trivial) fun _ =>
      .bind (.effect trivial) fun _ => .pure _
  · exact .bind (.lift _) fun _ => .pure _

theorem writeFramedEntry_frame (e : ManifestEntry) :
    Exec.Frame Effect.IsSegment (fun _ => ()) (writeFramedEntry (X := X) e) :=
  .ite (fun _ => .throw _) fun _ => .bind .get fun _ => .bind (.effect trivial) fun _ =>
    .modify fun _ => rfl

theorem addSegment_frame (m : SegmentMeta) :
    Exec.Frame Effect.IsSegment (fun _ => ()) (addSegment (X := X) m) :=
  .bind (writeFramedEntry_frame _) fun _ => .bind (.effect trivial) fun _ => .modify fun _ => rfl

theorem removeSegments_frame (ids : List SegmentId) :
    Exec.Frame Effect.IsSegment (fun _ => ()) (removeSegments (X := X) ids) :=
  .bind (.forM fun _ _ => writeFramedEntry_frame _) fun _ => .bind (.effect trivial) fun _ =>
    .modify fun _ => rfl

end Manifest

namespace SegmentStore

theorem open_frame (window : ℕ) (g : σ → T) :
    Exec.Frame Effect.IsSegment g (SegmentStore.open (X := X) window) :=
  .bind (Manifest.open_frame g) fun _ => .bind .fs fun _ => .bind (.lift _) fun _ => .pure _

theorem onManifest_frame {α : Type} {m : Exec X Manifest α}
    (h : Exec.Frame Effect.IsSegment (fun _ => ()) m) :
    Exec.Frame Effect.IsSegment cohortWindowSecs (onManifest m) :=
  .zoom h fun _ _ _ => rfl

theorem allocSegmentId_frame (P : Effect → Prop) :
    Exec.Frame P cohortWindowSecs (allocSegmentId (X := X)) :=
  .bind .get fun _ => .bind (.modify fun _ => rfl) fun _ => .pure _

theorem prepareFlush_frame (P : Effect → Prop) (m : MemTable) :
    Exec.Frame P cohortWindowSecs (prepareFlush (X := X) m) :=
  .ite (fun _ => .pure _) fun _ => .bind (allocSegmentId_frame P) fun _ => .bind .get fun _ =>
    .pure _

theorem finalizeSegment_frame (m : SegmentMeta) :
    Exec.Frame Effect.IsSegment cohortWindowSecs (finalizeSegment (X := X) m) :=
  .bind (onManifest_frame (Manifest.addSegment_frame m)) fun _ => .bind .fs fun _ =>
    .bind (.lift _) fun _ => .modify fun _ => rfl

theorem addImportedSegment_frame (m : SegmentMeta) (reader : SegmentReader) :
    Exec.Frame Effect.IsSegment cohortWindowSecs (addImportedSegment (X := X) m reader) :=
  .bind (onManifest_frame (Manifest.addSegment_frame m)) fun _ => .modify fun _ => rfl

theorem replaceSegment_frame (oldId : SegmentId) (m : SegmentMeta) (reader : SegmentReader) :
    Exec.Frame Effect.IsSegment cohortWindowSecs (replaceSegment (X := X) oldId m reader) :=
  .bind (onManifest_frame (Manifest.removeSegments_frame _)) fun _ =>
    .bind (.modify fun _ => rfl) fun _ =>
    .bind (onManifest_frame (Manifest.addSegment_frame m)) fun _ =>
    .bind (.modify fun _ => rfl) fun _ => unlinkSegment_frame _ _

end SegmentStore

/-! ### Compaction -/

namespace Compactor

theorem mergeSegment_frame (merged : MemTable) (id : SegmentId) :
    Exec.Frame Effect.IsSegment (fun _ => ()) (mergeSegment (X := X) merged id) :=
  .bind .fs fun _ => .bind (.lift _) fun _ => .bind (.lift _) fun _ => .pure _

theorem dropCohort_frame (cohort : CohortInfo) (stats : CompactionStats) :
    Exec.Frame Effect.IsSegment (fun _ => ()) (dropCohort (X := X) cohort stats) :=
  .bind (Manifest.removeSegments_frame _) fun _ =>
    .bind (.forM fun _ _ => unlinkSegment_frame _ _) fun _ => .pure _

theorem compactPartialCohort_frame (c : Compactor) (cohort : CohortInfo) (now : ℤ)
    (next : SegmentId) (stats : CompactionStats) :
    Exec.Frame Effect.IsSegment (fun _ => ())
      (c.compactPartialCohort (X := X) cohort now next stats) :=
  .bind (.foldlM (fun _ _ => mergeSegment_frame _ _) _ _) fun _ =>
    .ite (fun _ => dropCohort_frame _ _) fun _ => .bind (segmentFlush_frame _ _ _ _) fun _ =>
      .bind (Manifest.addSegment_frame _) fun _ => .bind (Manifest.removeSegments_frame _) fun _ =>
      .bind (.forM fun _ _ => unlinkSegment_frame _ _) fun _ => .pure _

theorem compactCohort_frame (c : Compactor) (now : ℤ) (pinned : List SegmentId)
    (acc : CompactionStats × SegmentId) (cohort : CohortInfo) :
    Exec.Frame Effect.IsSegment (fun _ => ()) (c.compactCohort (X := X) now pinned acc cohort) :=
  .ite (fun _ => .pure _) fun _ => .ite (fun _ => .pure _) fun _ =>
    .ite (fun _ => .bind (dropCohort_frame _ _) fun _ => .pure _)
      fun _ => .bind (compactPartialCohort_frame _ _ _ _ _) fun _ => .pure _

theorem compactCycle_frame (c : Compactor) (order : HashOrder) (now : ℤ)
    (pinned : List SegmentId) :
    Exec.Frame Effect.IsSegment (fun _ => ()) (c.compactCycle (X := X) order now pinned) :=
  .bind .get fun _ => .bind (.foldlM (fun _ _ => compactCohort_frame _ _ _ _ _) _ _) fun _ =>
    .pure _

end Compactor

/-! ### The engine -/

namespace Engine

/-- The part of an engine that segment writes leave alone: all but the segment store. -/
def walPart (e : Engine) : EdgestoreConfig × WalWriter × MemTable × Lsn × ℕ × SnapshotRegistry :=
  (e.config, e.wal, e.memtable, e.lsnCounter, e.txidCounter, e.snapshotRegistry)

theorem eq_of_walPart {e e' : Engine} (h : e'.walPart = e.walPart) :
    e' = { e with segmentStore := e'.segmentStore } := by
  cases e
  cases e'
  simpa [walPart] using h

theorem onStore_frame {α : Type} {P : Effect → Prop} {g : SegmentStore → T} {m : Exec X SegmentStore α}
    (h : Exec.Frame P g m) : Exec.Frame P walPart (onStore m) :=
  .zoom h fun _ _ _ => rfl

theorem beginFlush_frame (P : Effect → Prop) : Exec.Frame P walPart (beginFlush (X := X)) :=
  .bind .get fun _ => .ite (fun _ => .pure _) fun _ =>
    onStore_frame (SegmentStore.prepareFlush_frame P _)

theorem compactOnce_frame (order : HashOrder) :
    Exec.Frame Effect.IsSegment walPart (compactOnce (X := X) order) :=
  .bind .now fun _ => .bind .get fun _ => .bind (Manifest.open_frame _) fun _ =>
    .bind (.within (Compactor.compactCycle_frame _ _ _ _)) fun _ =>
    .bind (SegmentStore.open_frame _ _) fun _ => .bind (.modify fun _ => rfl) fun _ => .pure _

theorem stripIndex_frame (kind : IndexKind) (id : SegmentId) :
    Exec.Frame Effect.IsSegment walPart (stripIndex (X := X) kind id) := by
  refine .bind .get fun e => ?_
  dsimp only
  split
  · exact .throw _
  · refine .ite (fun _ => .pure _) fun _ => ?_
    split
    · exact .throw _
    · exact .bind .fs fun _ => .bind (.lift _) fun _ => .ite (fun _ => .pure _) fun _ =>
        .bind (onStore_frame (SegmentStore.allocSegmentId_frame _)) fun _ => .bind .get fun _ =>
        .bind (segmentFlush_frame _ _ _ _) fun _ => .bind .fs fun _ => .bind (.lift _) fun _ =>
        .bind (onStore_frame (SegmentStore.replaceSegment_frame _ _ _)) fun _ => .pure _

end Engine

/-! ### Settings -/

namespace Engine

variable {α : Type} {P : Effect → Prop}

/-- What an engine was opened with: its configuration, and the cohort window of its store. -/
def settings (e : Engine) : EdgestoreConfig × ℕ := (e.config, e.segmentStore.cohortWindowSecs)

theorem settings_of_storePart {m : Exec X Engine α} (h : Exec.Frame P storePart m) :
    Exec.Frame (fun _ => True) settings m :=
  (h.comp fun s => (s.2.1, s.1.cohortWindowSecs)).mono fun _ _ => trivial

theorem settings_of_store {m : Exec X SegmentStore α}
    (h : Exec.Frame P SegmentStore.cohortWindowSecs m) :
    Exec.Frame (fun _ => True) settings (onStore m) :=
  (Exec.Frame.zoom h fun _ _ hw => Prod.ext rfl hw : Exec.Frame P settings (onStore m)).mono
    fun _ _ => trivial

theorem beginFlush_settings : Exec.Frame (fun _ => True) settings (beginFlush (X := X)) :=
  .bind .get fun _ => .ite (fun _ => .pure _) fun _ =>
    settings_of_store (SegmentStore.prepareFlush_frame (fun _ => True) _)

theorem finalizeFlush_settings (m : SegmentMeta) (flushed : Lsn) :
    Exec.Frame (fun _ => True) settings (finalizeFlush (X := X) m flushed) :=
  .bind (settings_of_store (SegmentStore.finalizeSegment_frame m)) fun _ =>
    .bind (.modify fun _ => rfl) fun _ => (retireWals_frame settings).mono fun _ _ => trivial

theorem flushToSegments_settings :
    Exec.Frame (fun _ => True) settings (flushToSegments (X := X)) := by
  refine .bind beginFlush_settings fun work => ?_
  cases work with
  | none => exact .throw _
  | some w =>
    exact .bind ((w.execute_frame settings).mono fun _ _ => trivial) fun m =>
      .bind (finalizeFlush_settings m _) fun _ => .pure _

theorem put_settings (ns key val : Bytes) :
    Exec.Frame (fun _ => True) settings (put (X := X) ns key val) :=
  .bind (settings_of_storePart (checkPut_frame ns)) fun _ =>
    .bind (settings_of_storePart (writeEntry_frame ns key val 0)) fun _ => .bind .get fun _ =>
      .ite (fun _ => .bind flushToSegments_settings fun _ => .pure _) fun _ => .pure _

theorem stripIndex_settings (kind : IndexKind) (id : SegmentId) :
    Exec.Frame (fun _ => True) settings (stripIndex (X := X) kind id) := by
  refine .bind .get fun e => ?_
  dsimp only
  split
  · exact .throw _
  · refine .ite (fun _ => .pure _) fun _ => ?_
    split
    · exact .throw _
    · exact .bind .fs fun _ => .bind (.lift _) fun _ => .ite (fun _ => .pure _) fun _ =>
        .bind (settings_of_store (SegmentStore.allocSegmentId_frame fun _ => True)) fun _ =>
        .bind .get fun _ => .bind ((segmentFlush_frame _ _ _ settings).mono fun _ _ => trivial) fun _ =>
        .bind .fs fun _ => .bind (.lift _) fun _ =>
        .bind (settings_of_store (SegmentStore.replaceSegment_frame _ _ _)) fun _ => .pure _

theorem writeSidecars_settings (id : SegmentId) (g : ImportProgress) (m : SegmentMeta) :
    Exec.Frame (fun _ => True) settings (writeSidecars (X := X) id g m) :=
  .bind (.effect trivial) fun _ => .bind (.effect trivial) fun _ => .bind (.effect trivial) fun _ =>
    .bind (.effect trivial) fun _ => .bind (.effect trivial) fun _ => .effect trivial

theorem importSegment_settings (dat : Dat) (size : ℕ) (hash : Bytes) :
    Exec.Frame (fun _ => True) settings (importSegment (X := X) dat size hash) := by
  refine .bind .get fun e => .ite (fun _ => .pure _) fun _ => .ite (fun _ => .pure _) fun _ =>
    .bind (.effect trivial) fun _ => .bind (.effect trivial) fun _ => ?_
  split
  case h_1 => exact .pure _
  case h_2 => exact .pure _
  case h_3 parsed _ =>
    exact .bind (.foldlM (fun g q => settings_of_storePart (importEntry_frame g q)) parsed {}) fun g =>
      .bind (settings_of_store (SegmentStore.allocSegmentId_frame fun _ => True)) fun id =>
      .bind (.effect trivial) fun _ => .bind (settings_of_storePart flush_frame) fun _ =>
      .bind .now fun _ => .bind (writeSidecars_settings _ _ _) fun _ => .bind .fs fun _ =>
      .bind (.lift _) fun _ =>
      .bind (settings_of_store (SegmentStore.addImportedSegment_frame _ _)) fun _ => .pure _

end Engine

/-- A segment store has the cohort window it was opened with. -/
theorem SegmentStore.wp_open_window (window : ℕ) {p : Process σ} {fs : Fs} :
    Prog.wp (SegmentStore.open (X := X) (σ := σ) window)
      ⟨fun s _ _ => s.cohortWindowSecs = window, fun _ _ _ => True, fun _ _ => True, fun _ _ => True⟩
      p fs := by
  rw [SegmentStore.open, Prog.wp_bind]
  refine Prog.wp_imp (wp_keepsPart (Manifest.open_frame fun s => s)) (fun m q fs₁ _ => ?_)
    fun _ _ _ _ => trivial
  simp only [Prog.wp_bind, Exec.wp_fs, Prog.wp_lift]
  cases m.segments.mapM fun sm => openReader sm.segmentId (fs₁.segs sm.segmentId) with
  | error err => trivial
  | ok readers => exact (Prog.wp_pure _).mpr rfl

namespace Engine

/-- An engine has the settings it was opened with. -/
theorem wp_open_settings {config : EdgestoreConfig} {p : Process σ} {fs : Fs} :
    Prog.wp (Engine.open (X := X) (σ := σ) config)
      ⟨fun e _ _ => e.settings = (config, config.cohortWindowSecs), fun _ _ _ => True,
        fun _ _ => True, fun _ _ => True⟩ p fs := by
  simp only [Engine.open, Prog.wp_bind, Exec.wp_fs, Prog.wp_lift]
  cases recoverFromWal X fs .empty with
  | error err => trivial
  | ok res =>
    refine Prog.wp_imp (wp_keepsPart (openWal_frame config res.2.maxLsn fun s => s))
      (fun wal q fs₁ _ => ?_) fun _ _ _ _ => trivial
    refine Prog.wp_imp (SegmentStore.wp_open_window config.cohortWindowSecs) ?_ fun _ _ _ _ => trivial
    rintro s q fs₂ hs
    exact (Prog.wp_pure _).mpr (Prod.ext rfl hs)

/-- A compaction opens the store anew, with the cohort window of the configuration. -/
theorem wp_compactOnce_settings {order : HashOrder} {e : Engine} {clock : ℕ → ℕ} {fs : Fs} :
    Prog.wp (compactOnce (X := X) order)
      ⟨fun _ q _ => q.state.settings = (e.config, e.config.cohortWindowSecs), fun _ q _ => q.state = e,
        fun _ _ => True, fun _ _ => True⟩ ⟨e, clock⟩ fs := by
  simp only [compactOnce, Prog.wp_bind, Exec.wp_now, Exec.wp_get]
  refine Prog.wp_imp (wp_keepsPart (Manifest.open_frame fun s => s)) ?_ fun _ _ _ hq => hq
  rintro m ⟨e₁, clock₁⟩ fs₁ rfl
  simp only [Exec.wp_within]
  refine Prog.wp_imp (wp_keepsPart (Compactor.compactCycle_frame _ _ _ _)) ?_ fun _ _ _ _ => trivial
  rintro stats p₂ fs₂ -
  refine Prog.wp_mono (Prog.wp_and (wp_keepsPart (SegmentStore.open_frame _ fun s => s))
    (SegmentStore.wp_open_window _)) ?_ (fun _ _ _ hq => hq.1) (fun _ _ _ => ⟨trivial, trivial⟩)
    fun _ _ _ _ => trivial
  rintro s ⟨e₃, clock₃⟩ fs₃ ⟨hstate, hwindow⟩
  simp only at hstate hwindow
  simp only [Exec.wp_modify, Prog.wp_pure, settings, hstate, hwindow]

end Engine

/-! ### Errors -/

open Prog (Throws Fails)

/-- Segment writes never report that a file exists. -/
def NotExists (err : EdgestoreError) : Prop := err ≠ .io .alreadyExists

theorem fails_fileRead {α : Type} (f : File α) (label : String) : Fails NotExists (f.read label) := by
  cases f <;> first | exact .ok _ | exact .error (by simp [NotExists])

theorem fails_openReader (id : SegmentId) (files : SegmentFiles) :
    Fails NotExists (openReader id files) :=
  .bind (fails_fileRead _ _) fun _ =>
    .bind (.bind (fails_fileRead _ _) fun _ => .ite (.error (by simp [NotExists])) (.ok _)) fun _ =>
    .bind (.bind (fails_fileRead _ _) fun _ => .ite (.error (by simp [NotExists])) (.ok _)) fun _ =>
    .ok _

theorem fails_checkManifestHeader (bs : Bytes) : Fails NotExists (checkManifestHeader bs) :=
  .ite (.error (by simp [NotExists])) (.ite (.error (by simp [NotExists]))
    (.ite (.error (by simp [NotExists])) (.ok _)))

theorem fails_cohortBucketFor (t : ℤ) (ttl window : ℕ) :
    Fails NotExists (cohortBucketFor t ttl window) := by
  simp only [cohortBucketFor]
  exact .ite (.error (by simp [NotExists])) (.ite (.ok _) (.ok _))

/-- The basic steps never fail. -/
theorem throws_get {E : EdgestoreError → Prop} : Throws E (Exec.get : Exec X σ σ) :=
  .bind .mem fun _ => .pure _

theorem throws_now {E : EdgestoreError → Prop} : Throws E (Exec.now : Exec X σ ℕ) :=
  .bind .mem fun _ => .bind (.modify _) fun _ => .pure _

theorem throws_zoom {τ α : Type} {E : EdgestoreError → Prop} {get : σ → τ} {set : τ → σ → σ}
    {n : Exec X τ α} (h : Throws E n) : Throws E (Exec.zoom get set n) := .zoom h

theorem segmentFlush_throws (id : SegmentId) (window : ℕ) (entries : List (Bytes × MemEntry)) :
    Throws NotExists (segmentFlush (X := X) (σ := σ) id window entries) := by
  unfold segmentFlush
  split
  · exact .throw (by simp [NotExists])
  · exact .bind (.emit _) fun _ => .bind (.emit _) fun _ => .bind (.emit _) fun _ =>
      .bind (.emit _) fun _ => .bind (.emit _) fun _ => .bind (.emit _) fun _ =>
      .bind (.lift (fails_cohortBucketFor _ _ _)) fun _ => .bind throws_now fun _ =>
      .bind (.emit _) fun _ => .pure _

theorem Manifest.open_throws : Throws NotExists (Manifest.open (X := X) (σ := σ)) := by
  refine .bind .disk fun fs => ?_
  split
  · exact .bind (.emit _) fun _ => .bind (.emit _) fun _ => .bind (.emit _) fun _ => .pure _
  · exact .bind (.lift (fails_checkManifestHeader _)) fun _ => .pure _

theorem Manifest.addSegment_throws (m : SegmentMeta) :
    Throws NotExists (Manifest.addSegment (X := X) m) :=
  .bind (.ite (.throw (by simp [NotExists])) (.bind throws_get fun _ => .bind (.emit _) fun _ =>
    .modify _)) fun _ => .bind (.emit _) fun _ => .modify _

theorem SegmentStore.open_throws (window : ℕ) :
    Throws NotExists (SegmentStore.open (X := X) (σ := σ) window) :=
  .bind Manifest.open_throws fun _ => .bind .disk fun _ =>
    .bind (.lift (.mapM (fun _ => fails_openReader _ _) _)) fun _ => .pure _

namespace Engine

theorem finalizeFlush_throws (m : SegmentMeta) (flushed : Lsn) :
    Throws NotExists (finalizeFlush (X := X) m flushed) :=
  .bind (throws_zoom (.bind (throws_zoom (Manifest.addSegment_throws m)) fun _ =>
    .bind .disk fun _ => .bind (.lift (fails_openReader _ _)) fun _ => .modify _)) fun _ =>
    .bind (.modify _) fun _ => .bind throws_get fun _ => .bind .disk fun _ =>
      .forM (fun _ => .emit _) _

theorem beginFlush_throws : Throws NotExists (beginFlush (X := X)) :=
  .bind throws_get fun _ => .ite (.pure _) (throws_zoom (.ite (.pure _)
    (.bind (.bind throws_get fun _ => .bind (.modify _) fun _ => .pure _) fun _ =>
      .bind throws_get fun _ => .pure _)))

theorem flushToSegments_throws : Throws NotExists (flushToSegments (X := X)) := by
  refine .bind beginFlush_throws fun work => ?_
  cases work with
  | none => exact .throw (by simp [NotExists])
  | some w =>
    exact .bind (segmentFlush_throws _ _ _) fun _ => .bind (finalizeFlush_throws _ _) fun _ =>
      .pure _

end Engine
