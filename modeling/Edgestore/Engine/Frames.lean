import Edgestore.Import

/-!
# What writes leave alone

The methods of the engine that write records touch only WAL files in the directory, and in memory
they leave the segment store and the configuration alone. The methods of the segment store leave the
WAL alone.

## Main definitions

* `Effect.IsWal`, `Effect.IsLog`, `Effect.IsUnlink`: effects on WAL files
* `Engine.storePart`: the part of an engine that writes leave alone

## Main results

* `Engine.writeRecord_frame`, `Engine.commitTransaction_frame`: frames of the write path
-/

variable {X : Externals} {σ T : Type}

/-- Effects on WAL files. -/
def Effect.IsWal : Effect → Prop
  | .walCreate _ => True
  | .walHeader _ => True
  | .walAppend _ _ => True
  | .walUnlink _ => True
  | .sync (.wal _) => True
  | _ => False

/-- Effects on WAL files, other than to unlink them. -/
def Effect.IsLog : Effect → Prop
  | .walCreate _ => True
  | .walHeader _ => True
  | .walAppend _ _ => True
  | .sync (.wal _) => True
  | _ => False

/-- To unlink a WAL file. -/
def Effect.IsUnlink : Effect → Prop
  | .walUnlink _ => True
  | _ => False

theorem Effect.IsLog.isWal {e : Effect} (h : e.IsLog) : e.IsWal := by
  cases e with
  | sync f => cases f <;> first | exact h.elim | trivial
  | _ => first | exact h.elim | trivial

theorem Effect.IsLog.not_isUnlink {e : Effect} (h : e.IsLog) : ¬ e.IsUnlink := by
  cases e <;> first | exact h.elim | exact id

/-- An effect on WAL files leaves the manifest and the segments. -/
theorem Effect.IsWal.apply {e : Effect} (h : e.IsWal) (fs : Fs) :
    (applyEffect X e fs).manifest = fs.manifest ∧ (applyEffect X e fs).segs = fs.segs ∧
      (applyEffect X e fs).staged = fs.staged := by
  cases e <;> first | exact h.elim | exact ⟨rfl, rfl, rfl⟩

/-- An effect on other files leaves the WAL. -/
theorem wals_apply_of_not_isWal {e : Effect} (h : ¬ e.IsWal) (fs : Fs) :
    (applyEffect X e fs).wals = fs.wals := by
  cases e <;> first | exact absurd trivial h | rfl

/-- A frame as a specification that relies on nothing. -/
theorem wp_keepsPart {α : Type} {P : Effect → Prop} {g : σ → T} {m : Exec X σ α} {p : Process σ}
    {fs : Fs} (hf : Exec.Frame P g m) :
    Prog.wp m
      ⟨fun _ q _ => g q.state = g p.state, fun _ q _ => g q.state = g p.state, fun _ _ => True,
        fun _ _ => True⟩ p fs :=
  Prog.wp_mono (hf.wp fun _ _ => True) (fun _ _ _ h => h) (fun _ _ _ h => h) (fun _ _ h => h)
    fun _ _ _ _ => trivial

namespace WalWriter

theorem create_frame (n : Lsn) (config : EdgestoreConfig) (g : σ → T) :
    Exec.Frame Effect.IsLog g (create (X := X) n config) :=
  .bind .fs fun _ => .ite (fun _ => .throw _) fun _ =>
    .bind (.effect trivial) fun _ => .bind (.effect trivial) fun _ => .bind .now fun _ => .pure _

theorem open_frame (n : Lsn) (config : EdgestoreConfig) (g : σ → T) :
    Exec.Frame Effect.IsLog g (WalWriter.open (X := X) n config) := by
  refine .bind .fs fun fs => ?_
  split
  · exact .throw _
  · exact .bind (.lift _) fun _ => .bind .now fun _ => .pure _

theorem fsync_frame (g : WalWriter → T) : Exec.Frame Effect.IsLog g (fsync (X := X)) :=
  .bind .get fun _ => .effect trivial

end WalWriter

namespace Engine

/-- The part of an engine that writes leave alone. -/
def storePart (e : Engine) : SegmentStore × EdgestoreConfig × SnapshotRegistry :=
  (e.segmentStore, e.config, e.snapshotRegistry)

theorem onWal_frame {α : Type} {P : Effect → Prop} {m : Exec X WalWriter α}
    (h : Exec.Frame P (fun _ => ()) m) : Exec.Frame P storePart (onWal m) :=
  .zoom h fun _ _ _ => rfl

theorem appendWal_frame (r : WalRecord) :
    Exec.Frame Effect.IsLog storePart (onWal (X := X) (WalWriter.append r)) :=
  onWal_frame (.bind .get fun _ => .bind (.effect trivial) fun _ => .modify fun _ => rfl)

theorem rotateWalIfNeeded_frame : Exec.Frame Effect.IsLog storePart (rotateWalIfNeeded (X := X)) :=
  .bind .now fun _ => .bind .get fun _ => .ite
    (fun _ => .bind (onWal_frame (WalWriter.fsync_frame _)) fun _ => .bind .get fun _ =>
      .bind (WalWriter.create_frame _ _ _) fun _ => .modify fun _ => rfl)
    fun _ => .pure _

theorem openWal_frame (config : EdgestoreConfig) (lsn : Lsn) (g : σ → T) :
    Exec.Frame Effect.IsLog g (openWal (X := X) config lsn) := by
  refine .bind .fs fun fs => ?_
  split
  · exact WalWriter.create_frame _ _ _
  · exact .bind (WalWriter.open_frame _ _ _) fun _ => .bind .now fun _ =>
      .ite (fun _ => WalWriter.create_frame _ _ _) fun _ => .pure _

theorem nextLsn_frame : Exec.Frame Effect.IsLog storePart (nextLsn (X := X)) :=
  .bind (.modify fun _ => rfl) fun _ => .bind .get fun _ => .pure _

theorem writeRecord_frame (r : WalRecord) :
    Exec.Frame Effect.IsLog storePart (writeRecord (X := X) r) :=
  .bind (appendWal_frame r) fun _ => .bind rotateWalIfNeeded_frame fun _ => .bind (.lift _) fun _ =>
    .bind (.modify fun _ => rfl) fun _ => .pure _

theorem writeEntry_frame (ns key val : Bytes) (ttlSecs : ℕ) :
    Exec.Frame Effect.IsLog storePart (writeEntry (X := X) ns key val ttlSecs) :=
  .bind nextLsn_frame fun _ => .bind .now fun _ => writeRecord_frame _

theorem checkPut_frame (ns : Bytes) : Exec.Frame Effect.IsLog storePart (checkPut (X := X) ns) :=
  .bind .get fun _ => .ite (fun _ => .throw _) fun _ => .ite (fun _ => .throw _) fun _ => .pure _

theorem putWithTtl_frame (ns key val : Bytes) (ttlSecs : ℕ) :
    Exec.Frame Effect.IsLog storePart (putWithTtl (X := X) ns key val ttlSecs) :=
  .bind (checkPut_frame ns) fun _ => writeEntry_frame _ _ _ _

theorem delete_frame (ns key : Bytes) : Exec.Frame Effect.IsLog storePart (delete (X := X) ns key) :=
  .bind .get fun _ => .ite (fun _ => .throw _) fun _ => .bind nextLsn_frame fun _ =>
    .bind .now fun _ => writeRecord_frame _

theorem commitRecord_frame (r : WalRecord) :
    Exec.Frame Effect.IsLog storePart (commitRecord (X := X) r) :=
  .bind nextLsn_frame fun _ => .bind (appendWal_frame _) fun _ => .bind (.lift _) fun _ =>
    .modify fun _ => rfl

theorem commitTransaction_frame (tx : Transaction) :
    Exec.Frame Effect.IsLog storePart (commitTransaction (X := X) tx) :=
  .bind (.lift _) fun _ => .bind (.forM fun _ _ => commitRecord_frame _) fun _ => .bind .get fun _ =>
    .bind (onWal_frame (WalWriter.fsync_frame _)) fun _ => .bind rotateWalIfNeeded_frame fun _ =>
      .pure _

theorem flush_frame : Exec.Frame Effect.IsLog storePart (flush (X := X)) :=
  onWal_frame (WalWriter.fsync_frame _)

/-- Retiring WAL files unlinks files, and does nothing else. -/
theorem retireWals_frame (g : Engine → T) :
    Exec.Frame Effect.IsUnlink g (retireWals (X := X)) :=
  .bind .get fun _ => .bind .fs fun _ => .forM fun _ _ => .effect trivial

theorem putWithTimestamp_frame (ns key val : Bytes) (timestamp : ℤ) :
    Exec.Frame Effect.IsLog storePart (putWithTimestamp (X := X) ns key val timestamp) :=
  .ite (fun _ => .throw _) fun _ => .bind nextLsn_frame fun _ => writeRecord_frame _

theorem deleteWithTimestamp_frame (ns key : Bytes) (timestamp : ℤ) :
    Exec.Frame Effect.IsLog storePart (deleteWithTimestamp (X := X) ns key timestamp) :=
  .bind nextLsn_frame fun _ => writeRecord_frame _

theorem importEntry_frame (g : ImportProgress) (q : Bytes × MemEntry) :
    Exec.Frame Effect.IsLog storePart (importEntry (X := X) g q) := by
  refine .bind .get fun _ => .bind .fs fun _ => .ite (fun _ => ?_) fun _ => .pure _
  split
  · exact .bind (putWithTimestamp_frame _ _ _ _) fun _ => .pure _
  · exact .pure _
  · exact .bind (deleteWithTimestamp_frame _ _ _) fun _ => .pure _
  · exact .pure _

end Engine
