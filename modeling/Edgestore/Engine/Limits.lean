import Edgestore.Engine.Commit
import Edgestore.Engine.StoreSpec

/-!
# Writes within the limits of readers

Writers have no limits where readers have: on the size of a block, on the keys of a sparse index, on the
fingerprints of a filter, on the length of a WAL record. The manifest has one on the length of a frame.
From a memtable and a record that keep to them, everything a call writes can be read.

## Main definitions

* `FitsReaders X id window entries nanos`: the segment of these entries is one its readers accept
* `Engine.FlushFits X e nanos`: the segment of the memtable is
* `Effect.Fits X e`: what an effect writes is

## Main results

* `Engine.wp_flushToSegments_fits`, `Engine.wp_put_fits`, `Engine.wp_putWithTtl_fits`,
  `Engine.wp_delete_fits`, `Engine.all_fits_runTransaction`: what calls write
-/

variable {X : Externals} {fs : Fs} {σ α : Type}

/-- The segment of `entries`, with metadata stamped at `nanos`, is one its readers accept, and the manifest
can hold it. -/
structure FitsReaders (X : Externals) (id : SegmentId) (window : ℕ) (entries : List (Bytes × MemEntry))
    (nanos : ℕ) : Prop where
  blocks : ∀ b ∈ (writeDatAndIndex X entries).blocks, b.size ≤ maxBlockDecompressed
  index : (writeDatAndIndex X entries).index.length ≤ maxIndexCount
  fingerprints : (X.buildFilter (entries.map Prod.fst)).fingerprints.length ≤ maxFingerprints
  frame : ∀ first ∈ entries.head?,
    ∀ bucket ∈ (cohortBucketFor first.2.timestamp first.2.ttl window).toOption,
      FitsManifest X (segmentMetaFor X id window entries (writeDatAndIndex X entries) bucket (asI64 nanos))

instance (X : Externals) (id : SegmentId) (window : ℕ) (entries : List (Bytes × MemEntry)) (nanos : ℕ) :
    Decidable (FitsReaders X id window entries nanos) :=
  decidable_of_iff
    ((∀ b ∈ (writeDatAndIndex X entries).blocks, b.size ≤ maxBlockDecompressed) ∧
      (writeDatAndIndex X entries).index.length ≤ maxIndexCount ∧
      (X.buildFilter (entries.map Prod.fst)).fingerprints.length ≤ maxFingerprints ∧
      ∀ first ∈ entries.head?,
        ∀ bucket ∈ (cohortBucketFor first.2.timestamp first.2.ttl window).toOption,
          FitsManifest X
            (segmentMetaFor X id window entries (writeDatAndIndex X entries) bucket (asI64 nanos)))
    ⟨fun ⟨h₁, h₂, h₃, h₄⟩ => ⟨h₁, h₂, h₃, h₄⟩, fun ⟨h₁, h₂, h₃, h₄⟩ => ⟨h₁, h₂, h₃, h₄⟩⟩

/-- The segment of the memtable is one its readers accept. -/
def Engine.FlushFits (X : Externals) (e : Engine) (nanos : ℕ) : Prop :=
  FitsReaders X e.segmentStore.nextSegmentId e.segmentStore.cohortWindowSecs e.memtable.entries nanos

instance (X : Externals) (e : Engine) (nanos : ℕ) : Decidable (e.FlushFits X nanos) :=
  inferInstanceAs (Decidable (FitsReaders ..))

/-- What an effect writes is what its readers accept. -/
def Effect.Fits (X : Externals) : Effect → Prop
  | .datWrite _ dat => ∀ b ∈ dat, b.size ≤ maxBlockDecompressed
  | .idxWrite _ idx => idx.length ≤ maxIndexCount
  | .xfWrite _ xf => xf.fingerprints.length ≤ maxFingerprints
  | .metaWrite _ m => FitsManifest X m
  | .walAppend _ r => r.Fits X
  | .stageAdopt _ _ => False
  | _ => True

theorem Effect.Fits.withinLimits {e : Effect} (h : e.Fits X) : WithinLimits X e fs := by
  cases e with
  | datWrite id dat => exact h
  | idxWrite id idx => exact h
  | xfWrite id xf => exact h
  | metaWrite id m => exact h
  | stageAdopt hash id => exact h.elim
  | _ => trivial

/-- A program writes what readers accept. -/
abbrev WritesFit (X : Externals) (ok : α → Process σ → Fs → Prop) :
    Prog.Post (disk X) (Process σ) EdgestoreError α :=
  ⟨ok, fun _ _ _ => True, fun _ _ => True, fun e _ => e.Fits X⟩

theorem wp_writesFit_of_frame {T : Type} {P : Effect → Prop} {g : σ → T} {m : Exec X σ α}
    {p : Process σ} (hf : Exec.Frame P g m) (hP : ∀ e, P e → e.Fits X) :
    Prog.wp m (WritesFit X fun _ q _ => g q.state = g p.state) p fs :=
  Prog.wp_mono (hf.wp fun _ _ => True) (fun _ _ _ h => h) (fun _ _ _ _ => trivial) (fun _ _ h => h)
    fun e _ _ he => hP e he

/-! ### Flushes -/

theorem wp_segmentFlush_fits {id : SegmentId} {window : ℕ} {entries : List (Bytes × MemEntry)}
    {p : Process σ} (h : FitsReaders X id window entries (p.clock 0)) :
    Prog.wp (segmentFlush (X := X) id window entries)
      (WritesFit X fun _ q _ => q.state = p.state) p fs := by
  cases entries with
  | nil => exact (Prog.wp_throw _).mpr trivial
  | cons first rest =>
    simp only [segmentFlush]
    cases hbucket : cohortBucketFor first.2.timestamp first.2.ttl window with
    | error err =>
      simp only [Prog.wp_bind, Exec.wp_effect, Prog.wp_lift, Effect.Fits, Prog.result_error]
      exact fun _ => ⟨h.blocks, fun _ => ⟨trivial, fun _ => ⟨h.index, fun _ => ⟨trivial,
        fun _ => ⟨h.fingerprints, fun _ => ⟨trivial, trivial⟩⟩⟩⟩⟩⟩
    | ok bucket =>
      simp only [Prog.wp_bind, Exec.wp_effect, Prog.wp_lift, Effect.Fits, Prog.result_ok, Exec.wp_now,
        Prog.wp_pure]
      exact fun _ => ⟨h.blocks, fun _ => ⟨trivial, fun _ => ⟨h.index, fun _ => ⟨trivial,
        fun _ => ⟨h.fingerprints, fun _ => ⟨trivial,
          fun _ => ⟨h.frame first rfl bucket (by rw [hbucket]; rfl), trivial⟩⟩⟩⟩⟩⟩⟩

namespace Engine

variable {e : Engine} {clock : ℕ → ℕ} {record : WalRecord}

/-- Registering a segment writes a frame of the manifest. -/
theorem wp_finalizeFlush_fits (m : SegmentMeta) (flushed : Lsn) {p : Process Engine} :
    Prog.wp (finalizeFlush (X := X) m flushed) (WritesFit X fun _ _ _ => True) p fs := by
  simp only [finalizeFlush, onStore, SegmentStore.finalizeSegment, SegmentStore.onManifest,
    Manifest.addSegment, Manifest.writeFramedEntry, Prog.wp_bind, Exec.wp_zoom, Prog.wp_ite,
    Prog.wp_throw, Exec.wp_get, Exec.wp_effect, Exec.wp_modify, Exec.wp_fs, Prog.wp_lift, Effect.Fits]
  split
  · trivial
  · refine fun _ => ⟨trivial, fun _ => ⟨trivial, ?_⟩⟩
    generalize openReader _ _ = reader
    cases reader with
    | error err => trivial
    | ok reader =>
      refine Prog.wp_imp (wp_writesFit_of_frame (retireWals_frame fun s => s) fun f hf => ?_)
        (fun _ _ _ _ => trivial) fun _ _ _ h => h
      cases f with
      | walUnlink n => trivial
      | _ => exact hf.elim

/-- **A flush** of a memtable that fits its readers. -/
theorem wp_flushToSegments_fits {p : Process Engine} (h : ∀ i, p.state.FlushFits X (p.clock i)) :
    Prog.wp (flushToSegments (X := X)) (WritesFit X fun _ _ _ => True) p fs := by
  simp only [flushToSegments, beginFlush, Prog.wp_bind, Exec.wp_get, Prog.wp_ite, Prog.wp_pure]
  split
  case isTrue => exact (Prog.wp_throw _).mpr trivial
  case isFalse hne =>
    have hnil : p.state.memtable.entries ≠ [] := fun hnil => hne (MemTable.isEmpty_iff.mpr hnil)
    simp only [onStore, Exec.wp_zoom, SegmentStore.prepareFlush, MemTable.iter, hnil, if_false,
      Prog.wp_bind, SegmentStore.wp_allocSegmentId, Exec.wp_get, Prog.wp_pure]
    refine Prog.wp_imp (wp_segmentFlush_fits (p := ⟨_, p.clock⟩) (h 0)) ?_ fun _ _ _ h => h
    exact fun m q fs₁ _ => Prog.wp_imp (wp_finalizeFlush_fits m _) (fun _ _ _ _ => trivial)
      fun _ _ _ h => h

/-! ### Writes -/

/-- The memtable with the entry of a record. -/
def applied (e : Engine) (r : WalRecord) : Engine :=
  { e with memtable := e.memtable.insert r.encodedKey (r.toEntry r.encodedKey) }

/-- A rotation writes a header. -/
theorem wp_rotateWalIfNeeded_fits {p : Process Engine} :
    Prog.wp (rotateWalIfNeeded (X := X))
      (WritesFit X fun _ q _ => q.state = { p.state with wal := q.state.wal } ∧
        ∀ i, ∃ j, q.clock i = p.clock j) p fs := by
  simp only [rotateWalIfNeeded, Prog.wp_bind, Exec.wp_now, Exec.wp_get, Prog.wp_ite, onWal,
    Exec.wp_zoom, WalWriter.fsync, Exec.wp_effect, Prog.wp_pure, WalWriter.create, Exec.wp_fs,
    Prog.wp_throw, Exec.wp_modify, Effect.Fits]
  split
  · refine fun _ => ⟨trivial, ?_⟩
    split
    · trivial
    · exact fun _ => ⟨trivial, fun _ => ⟨trivial, trivial, fun i => ⟨i + 1 + 1, rfl⟩⟩⟩
  · exact ⟨trivial, fun i => ⟨i + 1, rfl⟩⟩

/-- **A write** of a record that the reader of the WAL accepts. -/
theorem wp_writeRecord_fits {p : Process Engine} (h : record.Fits X) :
    Prog.wp (writeRecord (X := X) record)
      (WritesFit X fun _ q _ => q.state = { p.state.applied record with wal := q.state.wal } ∧
        ∀ i, ∃ j, q.clock i = p.clock j) p fs := by
  simp only [writeRecord, onWal, WalWriter.append, Prog.wp_bind, Exec.wp_zoom, Exec.wp_get,
    Exec.wp_effect, Exec.wp_modify, Effect.Fits]
  refine fun _ => ⟨h, Prog.wp_imp wp_rotateWalIfNeeded_fits ?_ fun _ _ _ h => h⟩
  rintro _ q fs₁ ⟨hq, hclock⟩
  simp only [encodeKey_record h.nsBytes_le, Prog.wp_lift, Prog.result_ok, Prog.wp_pure]
  refine ⟨?_, hclock⟩
  rw [hq]
  rfl

theorem wp_writeEntry_fits {ns key val : Bytes} {ttl : ℕ}
    (h : (putRecord X (e.lsnCounter + 1) (asI64 (clock 0)) ttl ns key val).Fits X) :
    Prog.wp (writeEntry (X := X) ns key val ttl)
      (WritesFit X fun _ q _ => (∃ lsn wal, q.state =
          { e.applied (putRecord X (e.lsnCounter + 1) (asI64 (clock 0)) ttl ns key val) with
            lsnCounter := lsn
            wal := wal }) ∧
        ∀ i, ∃ j, q.clock i = clock j) ⟨e, clock⟩ fs := by
  simp only [writeEntry, nextLsn, Prog.wp_bind, Exec.wp_modify, Exec.wp_get, Prog.wp_pure, Exec.wp_now]
  refine Prog.wp_imp (wp_writeRecord_fits h) ?_ fun _ _ _ h => h
  rintro _ q fs₁ ⟨hq, hclock⟩
  exact ⟨⟨_, _, hq⟩, fun i => (hclock i).imp' (· + 1) fun _ hj => hj⟩

theorem wp_checkPut_fits {ns : Bytes} {p : Process Engine} :
    Prog.wp (checkPut (X := X) ns) (WritesFit X fun _ q _ => q = p) p fs := by
  simp only [checkPut, Prog.wp_bind, Exec.wp_get, Prog.wp_ite, Prog.wp_throw, Prog.wp_pure]
  split
  · trivial
  · split
    · trivial
    · trivial

/-- **A put** of a record that the reader of the WAL accepts. If the memtable is flushed, its segment has
to fit as well. -/
theorem wp_put_fits {ns key val : Bytes}
    (h : (putRecord X (e.lsnCounter + 1) (asI64 (clock 0)) 0 ns key val).Fits X)
    (hflush : let e' := e.applied (putRecord X (e.lsnCounter + 1) (asI64 (clock 0)) 0 ns key val)
      e'.memtable.len * avgEntrySizeEstimate ≥ e.config.memtableMaxBytes →
        ∀ i, e'.FlushFits X (clock i)) :
    Prog.wp (put (X := X) ns key val) (WritesFit X fun _ _ _ => True) ⟨e, clock⟩ fs := by
  rw [put, Prog.wp_bind]
  refine Prog.wp_imp wp_checkPut_fits ?_ fun _ _ _ h => h
  rintro _ _ fs₁ rfl
  rw [Prog.wp_bind]
  refine Prog.wp_imp (wp_writeEntry_fits h) ?_ fun _ _ _ h => h
  rintro lsn ⟨e₁, clock₁⟩ fs₂ ⟨⟨lsn', wal, rfl⟩, hclock⟩
  simp only [Prog.wp_bind, Exec.wp_get, Prog.wp_ite, Prog.wp_pure]
  split
  case isTrue hdue =>
    refine Prog.wp_imp (wp_flushToSegments_fits fun i => ?_) (fun _ _ _ _ => trivial) fun _ _ _ h => h
    obtain ⟨j, hj⟩ := hclock i
    rw [hj]
    exact hflush hdue j
  case isFalse => trivial

theorem wp_putWithTtl_fits {ns key val : Bytes} {ttl : ℕ}
    (h : (putRecord X (e.lsnCounter + 1) (asI64 (clock 0)) ttl ns key val).Fits X) :
    Prog.wp (putWithTtl (X := X) ns key val ttl) (WritesFit X fun _ _ _ => True) ⟨e, clock⟩ fs := by
  rw [putWithTtl, Prog.wp_bind]
  refine Prog.wp_imp wp_checkPut_fits ?_ fun _ _ _ h => h
  rintro _ _ fs₁ rfl
  exact Prog.wp_imp (wp_writeEntry_fits h) (fun _ _ _ _ => trivial) fun _ _ _ h => h

theorem wp_delete_fits {ns key : Bytes}
    (h : (deleteRecord X (e.lsnCounter + 1) (asI64 (clock 0)) ns key).Fits X) :
    Prog.wp (delete (X := X) ns key) (WritesFit X fun _ _ _ => True) ⟨e, clock⟩ fs := by
  simp only [delete, Prog.wp_bind, Exec.wp_get, Prog.wp_ite, Prog.wp_throw, nextLsn, Exec.wp_modify,
    Prog.wp_pure, Exec.wp_now]
  split
  · trivial
  · exact Prog.wp_imp (wp_writeRecord_fits h) (fun _ _ _ _ => trivial) fun _ _ _ h => h

/-- **A transaction** of records that the reader of the WAL accepts. -/
theorem all_fits_runTransaction {ops : List TxOp} (h : ∀ r ∈ e.txRecords X ops, r.Fits X) :
    (disk X).All (fun f _ => f.Fits X) ((runTransaction (X := X) ops).run ⟨e, clock⟩ fs).2.2 fs := by
  have hend : ∀ p : Process Engine, ∀ d,
      Prog.wp (commitEnd (X := X)) (WritesFit X fun _ _ _ => True) p d := by
    intro p d
    simp only [commitEnd, Prog.wp_bind, Exec.wp_get, onWal, Exec.wp_zoom, WalWriter.fsync,
      Exec.wp_effect, Effect.Fits]
    exact fun _ => ⟨trivial, Prog.wp_imp wp_rotateWalIfNeeded_fits
      (fun _ _ _ _ => (Prog.wp_pure _).mpr trivial) fun _ _ _ h => h⟩
  rw [run_runTransaction, Prog.run_bind_ok
    (run_commitRecords (nsBytes_le_of_stamped fun r hr => (h r hr).nsBytes_le))]
  refine Device.all_append.mpr ⟨?_, Prog.wp_guar (hend _ _) Device.all_true⟩
  have hrecords : ∀ f ∈ (e.txRecords X ops).map (Effect.walAppend e.wal.name), f.Fits X := by
    intro f hf
    obtain ⟨r, hr, rfl⟩ := List.mem_map.mp hf
    exact h r hr
  exact (Device.safe_of_forall hrecords).all Device.all_true

/-- Opening an engine writes headers. -/
theorem open_frame_fits (config : EdgestoreConfig) :
    Exec.Frame (Effect.Fits X) (fun _ : σ => ()) (Engine.open (X := X) config) := by
  have hcreate : ∀ n : Lsn,
      Exec.Frame (Effect.Fits X) (fun _ : σ => ()) (WalWriter.create (X := X) n config) := fun n =>
    .bind .fs fun _ => .ite (fun _ => .throw _) fun _ => .bind (.effect trivial) fun _ =>
      .bind (.effect trivial) fun _ => .bind .now fun _ => .pure _
  have hwal : ∀ n : Lsn, Exec.Frame (Effect.Fits X) (fun _ : σ => ()) (openWal (X := X) config n) := by
    intro n
    refine .bind .fs fun fs => ?_
    split
    · exact hcreate _
    · refine .bind (.bind .fs fun fs => ?_) fun _ => .bind .now fun _ =>
        .ite (fun _ => hcreate _) fun _ => .pure _
      split
      · exact .throw _
      · exact .bind (.lift _) fun _ => .bind .now fun _ => .pure _
  have hmanifest : Exec.Frame (Effect.Fits X) (fun _ : σ => ()) (Manifest.open (X := X)) := by
    refine .bind .fs fun fs => ?_
    split
    · exact .bind (.effect trivial) fun _ => .bind (.effect trivial) fun _ =>
        .bind (.effect trivial) fun _ => .pure _
    · exact .bind (.lift _) fun _ => .pure _
  exact .bind .fs fun _ => .bind (.lift _) fun _ => .bind (hwal _) fun _ =>
    .bind (.bind hmanifest fun _ => .bind .fs fun _ => .bind (.lift _) fun _ => .pure _) fun _ => .pure _

end Engine
