import Edgestore.Reopen
import Edgestore.Engine.Commit
import Edgestore.PlainExternals
import Edgestore.Vector.Records

/-!
# Read-only engines

An engine that is opened read-only rejects the writes of clients, and changes only by what it imports.
The check stands in each method that writes, and not in the write path that they share: the commit of a
transaction has none.

## Main definitions

* `ClientWrite`: the write methods of clients, those of the vector API among them
* `ClientWrite.Rejected`: the call returns `ReadOnly` and leaves the engine and its files
* `ReplicaOp`, `World.replicaStep`: runs of a read-only engine
* `World.RejectsWrites`, `World.OnlyImportsShow`: what a read-only engine promises

## Main results

* `ClientWrite.rejected_iff`: which writes are rejected
* `World.replica_run`: what holds in the runs of a read-only engine
* `World.commit_not_rejected`: a read-only engine commits a transaction
-/

variable {X : Externals} {fs : Fs} {e : Engine} {clock : ℕ → ℕ}

/-! ### Client writes -/

/-- The write methods of clients. A commit begins a transaction, fills it and commits it. -/
inductive ClientWrite
  | put (ns key val : Bytes)
  | putWithTtl (ns key val : Bytes) (ttlSecs : ℕ)
  | delete (ns key : Bytes)
  | vectorPut (ns key : Bytes) (dims : ℕ) (dtype : Dtype) (data : Bytes)
  | vectorDelete (ns key : Bytes)
  | commit (ops : List TxOp)

namespace ClientWrite

/-- The method of the engine. -/
def run : ClientWrite → Exec X Engine Lsn
  | put ns key val => Engine.put ns key val
  | putWithTtl ns key val ttlSecs => Engine.putWithTtl ns key val ttlSecs
  | delete ns key => Engine.delete ns key
  | vectorPut ns key dims dtype data => Engine.vectorPut ns key dims dtype data
  | vectorDelete ns key => Engine.vectorDelete ns key
  | commit ops => Engine.runTransaction ops

/-- A rejected write: it returns `ReadOnly`, and the engine and its files are as they were. -/
def Rejected (X : Externals) (cw : ClientWrite) (e : Engine) (clock : ℕ → ℕ) (fs : Fs) : Prop :=
  (cw.run (X := X)).run ⟨e, clock⟩ fs = (.error .readOnly, ⟨e, clock⟩, [])

/-- The writes that come to a check for read-only engines: no commits, and no vectors whose data has not
the length of their dimensions. -/
def Guarded : ClientWrite → Prop
  | vectorPut _ _ dims dtype data => data.length = dims * dtype.elementSize
  | commit _ => False
  | _ => True

instance : DecidablePred Guarded := fun cw => by
  unfold Guarded
  split <;> infer_instance

end ClientWrite

open Prog (Throws Fails)

/-- The errors of a commit. -/
abbrev NotReadOnly (err : EdgestoreError) : Prop := err ≠ .readOnly

theorem fails_encodeKey (ns key : Bytes) : Fails NotReadOnly (encodeKey ns key) := by
  unfold encodeKey
  exact .ite (.ok _) (.error (by simp))

theorem fails_addAll (tx : Transaction) (ops : List TxOp) :
    Fails NotReadOnly (TxOp.addAll X tx ops) := by
  induction ops generalizing tx with
  | nil => exact .ok _
  | cons o ops ih => exact .bind (.ite (.error (by simp)) (.ok _)) ih

theorem WalWriter.create_throws {σ : Type} (n : Lsn) (config : EdgestoreConfig) :
    Throws NotReadOnly (WalWriter.create (X := X) (σ := σ) n config) :=
  .bind .disk fun _ => .ite (.throw (by simp)) (.bind (.emit _) fun _ => .bind (.emit _) fun _ =>
    .bind throws_now fun _ => .pure _)

theorem WalWriter.fsync_throws : Throws NotReadOnly (WalWriter.fsync (X := X)) :=
  .bind throws_get fun _ => .emit _

namespace Engine

theorem rotateWalIfNeeded_throws : Throws NotReadOnly (rotateWalIfNeeded (X := X)) :=
  .bind throws_now fun _ => .bind throws_get fun _ => .ite
    (.bind (throws_zoom WalWriter.fsync_throws) fun _ => .bind throws_get fun _ =>
      .bind (WalWriter.create_throws _ _) fun _ => .modify _)
    (.pure _)

theorem commitRecord_throws (r : WalRecord) : Throws NotReadOnly (commitRecord (X := X) r) :=
  .bind (.bind (.modify _) fun _ => .bind throws_get fun _ => .pure _) fun _ =>
    .bind (throws_zoom (.bind throws_get fun _ => .bind (.emit _) fun _ => .modify _)) fun _ =>
      .bind (.lift (fails_encodeKey _ _)) fun _ => .modify _

/-- A commit never asks whether the engine is read-only. -/
theorem runTransaction_throws (ops : List TxOp) : Throws NotReadOnly (runTransaction (X := X) ops) := by
  refine .bind (.bind (.modify _) fun _ => .bind throws_get fun _ => .pure _) fun tx =>
    .bind (.lift (fails_addAll tx ops)) fun tx => .bind (.lift ?_) fun rs =>
      .bind (.forM commitRecord_throws rs) fun _ => .bind throws_get fun _ =>
        .bind (throws_zoom WalWriter.fsync_throws) fun _ => .bind rotateWalIfNeeded_throws fun _ =>
          .pure _
  unfold Transaction.takePending
  cases tx.state with
  | active => exact .ok _
  | committed => exact .error (by simp)
  | rolledBack => exact .error (by simp)

theorem run_put_readonly (he : e.config.readonly = true) (ns key val : Bytes) :
    (put (X := X) ns key val).run ⟨e, clock⟩ fs = (.error .readOnly, ⟨e, clock⟩, []) := by
  refine Prog.run_bind_error ((Prog.run_bind_ok rfl).trans ?_)
  rw [if_pos he]
  rfl

theorem run_putWithTtl_readonly (he : e.config.readonly = true) (ns key val : Bytes) (ttlSecs : ℕ) :
    (putWithTtl (X := X) ns key val ttlSecs).run ⟨e, clock⟩ fs =
      (.error .readOnly, ⟨e, clock⟩, []) := by
  refine Prog.run_bind_error ((Prog.run_bind_ok rfl).trans ?_)
  rw [if_pos he]
  rfl

theorem run_delete_readonly (he : e.config.readonly = true) (ns key : Bytes) :
    (delete (X := X) ns key).run ⟨e, clock⟩ fs = (.error .readOnly, ⟨e, clock⟩, []) := by
  refine (Prog.run_bind_ok rfl).trans ?_
  rw [if_pos he]
  rfl

/-- The length of a vector is checked before the engine is. -/
theorem run_vectorPut_readonly (he : e.config.readonly = true) (ns key : Bytes) (dims : ℕ)
    (dtype : Dtype) (data : Bytes) :
    (vectorPut (X := X) ns key dims dtype data).run ⟨e, clock⟩ fs =
      (.error (if data.length = dims * dtype.elementSize then .readOnly
        else .dimensionMismatch (dims * dtype.elementSize) data.length), ⟨e, clock⟩, []) := by
  unfold vectorPut
  by_cases hlen : data.length = dims * dtype.elementSize
  · simp only [hlen, ne_eq, not_true_eq_false, if_false, if_true]
    have hencode : (Prog.lift (encodeVectorRecord ⟨dims, dtype, data⟩) : Exec X Engine Bytes).run
        ⟨e, clock⟩ fs = (.ok (beBytes 2 dims ++ dtype.toByte :: data), ⟨e, clock⟩, []) := by
      simp only [encodeVectorRecord, hlen, ne_eq, not_true_eq_false, if_false]
      rfl
    rw [Prog.run_bind_ok hencode, run_put_readonly he]
    rfl
  · simp only [hlen, ne_eq, not_false_eq_true, if_true, if_false]
    rfl

end Engine

/-- **The rejected writes** of a read-only engine are those that come to its check. -/
theorem ClientWrite.rejected_iff (cw : ClientWrite) (he : e.config.readonly = true) :
    cw.Rejected X e clock fs ↔ cw.Guarded := by
  cases cw with
  | put ns key val => exact iff_of_true (Engine.run_put_readonly he ns key val) trivial
  | putWithTtl ns key val ttlSecs =>
    exact iff_of_true (Engine.run_putWithTtl_readonly he ns key val ttlSecs) trivial
  | delete ns key => exact iff_of_true (Engine.run_delete_readonly he ns key) trivial
  | vectorPut ns key dims dtype data =>
    have hrun : ((vectorPut ns key dims dtype data).run (X := X)).run ⟨e, clock⟩ fs = _ :=
      Engine.run_vectorPut_readonly he ns key dims dtype data
    by_cases hlen : data.length = dims * dtype.elementSize
    · rw [if_pos hlen] at hrun
      exact iff_of_true hrun hlen
    · rw [if_neg hlen] at hrun
      refine iff_of_false (fun h => ?_) hlen
      cases hrun.symm.trans h
  | vectorDelete ns key => exact iff_of_true (Engine.run_delete_readonly he _ key) trivial
  | commit ops =>
    exact iff_of_false (fun h => Engine.runTransaction_throws ops _ _ _ (congrArg Prod.fst h) rfl) id

/-! ### The configuration -/

namespace Engine

theorem config_of_settings {α : Type} {P : Effect → Prop} {m : Exec X Engine α}
    (h : Exec.Frame P settings m) : Exec.Frame P config m := h.comp Prod.fst

theorem runTransaction_config (ops : List TxOp) :
    Exec.Frame (fun _ => True) config (runTransaction (X := X) ops) :=
  .bind (.bind (.modify fun _ => rfl) fun _ => .bind .get fun _ => .pure _) fun _ =>
    .bind (.lift _) fun tx => config_of_settings (settings_of_storePart (commitTransaction_frame tx))

end Engine

/-- A read-only engine stays read-only, also when it commits. -/
theorem ClientWrite.readonly_run (cw : ClientWrite) (he : e.config.readonly = true) :
    ((cw.run (X := X)).run ⟨e, clock⟩ fs).2.1.state.config.readonly = true := by
  cases cw with
  | put ns key val => rw [run, Engine.run_put_readonly he, he]
  | putWithTtl ns key val ttlSecs => rw [run, Engine.run_putWithTtl_readonly he, he]
  | delete ns key => rw [run, Engine.run_delete_readonly he, he]
  | vectorPut ns key dims dtype data => rw [run, Engine.run_vectorPut_readonly he, he]
  | vectorDelete ns key => rw [run, Engine.vectorDelete, Engine.run_delete_readonly he, he]
  | commit ops =>
    exact (congrArg EdgestoreConfig.readonly (Engine.runTransaction_config ops ⟨e, clock⟩ fs).2).trans he

/-- An engine has the configuration it was opened with. -/
theorem Engine.config_of_open {σ : Type} {config : EdgestoreConfig} {p p' : Process σ} {e : Engine}
    {es : List Effect} (h : (Engine.open (X := X) (σ := σ) config).run p fs = (.ok e, p', es)) :
    e.config = config := by
  have hopen : Prog.wp (Engine.open (X := X) (σ := σ) config) _ p fs := Engine.wp_open_settings
  have hres := Prog.wp_result hopen Device.all_true
  rw [h] at hres
  exact congrArg Prod.fst hres

/-! ### Runs of a read-only engine -/

/-- Open an engine in read-only mode. -/
def Op.openReadonly (config : EdgestoreConfig) : Op := .open { config with readonly := true }

/-- The calls on a read-only engine. A reopening closes it, and opens a read-only engine anew. -/
inductive ReplicaOp
  | write (cw : ClientWrite)
  | importSegment (dat : Dat) (size : ℕ) (hash : Bytes)
  | flushToSegments
  | reopen (config : EdgestoreConfig)

/-- A call with its clock readings. -/
structure ReplicaCall where
  op : ReplicaOp
  clock : ℕ → ℕ := fun _ => 0

namespace World

variable {w : World} {c : ReplicaCall}

/-- Make a call on a read-only engine. -/
def replicaStep (X : Externals) (w : World) (c : ReplicaCall) : World :=
  match c.op with
  | .write cw => w.land X (w.onEngine X c.clock cw.run)
  | .importSegment dat size hash => w.step X ⟨.importSegment dat size hash, c.clock, none⟩
  | .flushToSegments => w.step X ⟨.flushToSegments, c.clock, none⟩
  | .reopen config =>
    (w.step X ⟨.close, c.clock, none⟩).step X ⟨.openReadonly config, c.clock, none⟩

/-- The open engine rejects the writes of clients. -/
def RejectsWrites (X : Externals) (w : World) (c : ReplicaCall) : Prop :=
  match c.op with
  | .write cw => ∀ e, w.engine = some e → cw.Rejected X e c.clock w.fs
  | _ => True

/-- What the engine returns changes by imports only. -/
def OnlyImportsShow (X : Externals) (w : World) (c : ReplicaCall) : Prop :=
  match c.op with
  | .importSegment _ _ _ => True
  | _ => ∀ ns key v, (w.replicaStep X c).Shows X ns key v ↔ w.Shows X ns key v

/-- The writes come to the check for read-only engines. -/
def WritesGuarded (w : World) (c : ReplicaCall) : Prop :=
  match c.op with
  | .write cw => ∀ e, w.engine = some e → cw.Guarded
  | _ => True

/-- Every key is settled. -/
def AllSettled (X : Externals) (w : World) : Prop := ∀ k, ∃ v, w.Settles X k v

/-- The calls on a read-only engine that keep what it returns: writes come to the check, and keys are
settled when a memtable is flushed or dropped. -/
def ReplicaAdmitted (X : Externals) (w : World) (c : ReplicaCall) : Prop :=
  let meets (w : World) (op : Op) : Prop :=
    w.Admitted X ⟨op, c.clock, none⟩ ∧ w.WalAdmitted X ⟨op, c.clock, none⟩
  match c.op with
  | .write cw => cw.Guarded
  | .importSegment dat size hash => meets w (.importSegment dat size hash)
  | .flushToSegments => meets w .flushToSegments ∧
      ((∀ e, w.engine = some e → e.memtable.isEmpty = true) ∨ w.AllSettled X)
  | .reopen config => meets w .close ∧
      meets (w.step X ⟨.close, c.clock, none⟩) (.openReadonly config) ∧ w.AllSettled X

/-! ### Rejected writes -/

/-- The open engine is read-only. -/
def ReadOnly (w : World) : Prop := ∀ e, w.engine = some e → e.config.readonly = true

theorem readOnly_onEngine {α : Type} {m : Exec X Engine α}
    (hm : ∀ e, w.engine = some e →
      (m.run ⟨e, clock⟩ w.fs).2.1.state.config.readonly = true) {e' : Engine}
    (he' : (w.onEngine X clock m).engine = some e') : e'.config.readonly = true := by
  cases he : w.engine with
  | none =>
    rw [onEngine_none he] at he'
    cases he.symm.trans he'
  | some e =>
    rw [(onEngine_some he).2.1] at he'
    obtain rfl := Option.some.inj he'
    exact hm e he

theorem ReadOnly.of_frame {α : Type} {m : Exec X Engine α} (h : w.ReadOnly)
    (hm : Exec.Frame (fun _ => True) Engine.config m) {e' : Engine}
    (he' : (w.onEngine X clock m).engine = some e') : e'.config.readonly = true :=
  readOnly_onEngine (fun e he =>
    (congrArg EdgestoreConfig.readonly (hm ⟨e, clock⟩ w.fs).2).trans (h e he)) he'

/-- A read-only engine stays read-only. -/
theorem ReadOnly.replicaStep (h : w.ReadOnly) : (w.replicaStep X c).ReadOnly := by
  intro e' he'
  obtain ⟨op, clock⟩ := c
  cases op with
  | write cw => exact readOnly_onEngine (fun e he => cw.readonly_run (h e he)) he'
  | importSegment dat size hash =>
    exact h.of_frame (Engine.config_of_settings (Engine.importSegment_settings dat size hash)) he'
  | flushToSegments => exact h.of_frame (Engine.config_of_settings Engine.flushToSegments_settings) he'
  | reopen config =>
    simp only [World.replicaStep, Op.openReadonly, step, perform] at he'
    generalize hr : (Engine.open (X := X) (σ := Unit) { config with readonly := true }).run ⟨(), clock⟩ _
      = r at he'
    obtain ⟨_ | e, q, es⟩ := r
    · cases he'
    · obtain rfl : e = e' := Option.some.inj he'
      rw [Engine.config_of_open hr]

/-- A read-only engine rejects a write if and only if the write comes to its check. -/
theorem ReadOnly.rejectsWrites_iff (h : w.ReadOnly) : w.RejectsWrites X c ↔ w.WritesGuarded c := by
  obtain ⟨op, clock⟩ := c
  cases op with
  | write cw => exact forall₂_congr fun e he => cw.rejected_iff (h e he)
  | _ => exact Iff.rfl

/-- **Which writes the runs of a read-only engine reject.** -/
theorem ReadOnly.all_rejectsWrites_iff {calls : List ReplicaCall} (h : w.ReadOnly) :
    Run.All (World.replicaStep X) (RejectsWrites X) w calls ↔
      Run.All (World.replicaStep X) WritesGuarded w calls := by
  constructor
  · intro hall
    exact hall.imp_of_invariant (fun _ _ hw _ => ReadOnly.replicaStep hw)
      (fun _ _ hw hc => (rejectsWrites_iff hw).mp hc) h
  · intro hall
    exact hall.imp_of_invariant (fun _ _ hw _ => ReadOnly.replicaStep hw)
      (fun _ _ hw hc => (rejectsWrites_iff hw).mpr hc) h

/-! ### What a read-only engine returns -/

/-- Where keys are settled and stay so, an engine returns what it did. -/
theorem AllSettled.shows_iff {w' : World} {e e' : Engine} {ns key : Bytes} {v : Option Bytes}
    (hall : w.AllSettled X) (hw : WorldInv X w) (hw' : WorldInv X w') (he : w.engine = some e)
    (he' : w'.engine = some e') (hs : ∀ k v, w.Settles X k v → w'.Settles X k v) :
    w'.Shows X ns key v ↔ w.Shows X ns key v := by
  cases hk : encodeKey ns key with
  | error err =>
    have hnone : ∀ w : World, ¬ w.Shows X ns key v := by
      rintro w ⟨e, -, hget, -⟩
      rw [Engine.get, hk] at hget
      cases hget
    exact iff_of_false (hnone w') (hnone w)
  | ok k =>
    obtain ⟨v', hv'⟩ := hall k
    have hshow := shows_of_settles hw he hv' hk
    have hshow' := shows_of_settles hw' he' (hs k v' hv') hk
    constructor
    · intro h
      rwa [h.unique hshow']
    · intro h
      rwa [h.unique hshow]

/-- A flush of an empty memtable does nothing. -/
theorem step_flushToSegments_of_isEmpty {e : Engine} (he : w.engine = some e)
    (hm : e.memtable.isEmpty = true) : w.step X ⟨.flushToSegments, clock, none⟩ = w := by
  have hrun : (Engine.flushToSegments (X := X)).run ⟨e, clock⟩ w.fs =
      (.error (.segmentCorrupt "memtable is empty"), ⟨e, clock⟩, []) := by
    have hbegin : (Engine.beginFlush (X := X)).run ⟨e, clock⟩ w.fs = (.ok none, ⟨e, clock⟩, []) := by
      refine (Prog.run_bind_ok rfl).trans ?_
      rw [if_pos hm]
      rfl
    rw [Engine.flushToSegments, Prog.run_bind_ok hbegin]
    rfl
  obtain ⟨fs, engine, flights, acked⟩ := w
  obtain rfl : engine = some e := he
  simp only [step, perform, onEngine, hrun]
  rfl

/-- A rejected write does nothing. -/
theorem land_of_rejected {cw : ClientWrite} {e : Engine} (he : w.engine = some e)
    (h : cw.Rejected X e clock w.fs) : w.land X (w.onEngine X clock cw.run) = w := by
  obtain ⟨fs, engine, flights, acked⟩ := w
  obtain rfl : engine = some e := he
  have hrun : (cw.run (X := X)).run ⟨e, clock⟩ fs = _ := h
  simp only [land, onEngine, hrun]
  rfl

/-- The invariant of a read-only engine. -/
structure ReplicaInv (X : Externals) (w : World) : Prop where
  inv : WorldInv X w
  wal : WalInv X w
  readonly : w.ReadOnly
  isOpen : ∃ e, w.engine = some e

/-- **A call on a read-only engine** keeps the invariant, and what the engine returns changes by imports
only. -/
theorem ReplicaInv.step (h : ReplicaInv X w) (hc : w.ReplicaAdmitted X c) :
    ReplicaInv X (w.replicaStep X c) ∧ w.OnlyImportsShow X c := by
  obtain ⟨hw, hwal, hreadonly, e, he⟩ := h
  have hreadonly' := hreadonly.replicaStep (X := X) (c := c)
  obtain ⟨op, clock⟩ := c
  cases op with
  | write cw =>
    have hsame : w.replicaStep X ⟨.write cw, clock⟩ = w :=
      land_of_rejected he ((cw.rejected_iff (hreadonly e he)).mpr hc)
    refine ⟨?_, fun ns key v => by rw [hsame]⟩
    rw [hsame]
    exact ⟨hw, hwal, hreadonly, e, he⟩
  | importSegment dat size hash =>
    exact ⟨⟨hw.step hc.1, hwal.step hc.2, hreadonly', _, (onEngine_some he).2.1⟩, trivial⟩
  | flushToSegments =>
    obtain ⟨⟨hadm, hadm'⟩, hsettled⟩ := hc
    refine ⟨⟨hw.step hadm, hwal.step hadm', hreadonly', _, (onEngine_some he).2.1⟩, ?_⟩
    rcases hsettled with hempty | hall
    · have hsame : w.replicaStep X ⟨.flushToSegments, clock⟩ = w :=
        step_flushToSegments_of_isEmpty he (hempty e he)
      exact fun ns key v => by rw [hsame]
    · exact fun ns key v => hall.shows_iff hw (hw.step hadm) he (onEngine_some he).2.1
        fun k v hs => settles_step hw hwal hadm hadm' trivial hs
  | reopen config =>
    obtain ⟨⟨hclose, hclose'⟩, ⟨hopen, hopen'⟩, hall⟩ := hc
    have hw₁ := hw.step hclose
    have hwal₁ := hwal.step hclose'
    obtain ⟨hnone, hheader⟩ := headersWhole_close clock hwal he
    obtain ⟨e', he', -⟩ :=
      opens hw₁ hwal₁.log.files hnone hopen (WalAdmitted.opensFresh hnone hopen') hheader
    refine ⟨⟨hw₁.step hopen, hwal₁.step hopen', hreadonly', e', he'⟩, fun ns key v => ?_⟩
    exact hall.shows_iff hw (hw₁.step hopen) he he' fun k v hs =>
      settles_step hw₁ hwal₁ hopen hopen' trivial (settles_step hw hwal hclose hclose' trivial hs)

/-- **The runs of a read-only engine.** Whatever has been called and stopped before, it rejects exactly the writes that
come to its check. Where they all do, no call has been cut short, and keys are settled when a memtable is flushed or
dropped, what it returns changes by imports only. -/
theorem replica_run {before : List Call} {config : EdgestoreConfig} {calls : List ReplicaCall}
    (hclosed : (Run.from (World.step X) {} before).engine = none) :
    let w := Run.from (World.step X) {} (before ++ [⟨.openReadonly config, clock, none⟩])
    (Run.All (replicaStep X) (RejectsWrites X) w calls ↔
        Run.All (replicaStep X) WritesGuarded w calls) ∧
      (w.engine.isSome = true →
        Run.All (World.step X) (fun w c => w.Admitted X c ∧ w.WalAdmitted X c) {}
          (before ++ [⟨.openReadonly config, clock, none⟩]) →
        Run.All (replicaStep X) (ReplicaAdmitted X) w calls →
        Run.All (replicaStep X) (fun w c => w.RejectsWrites X c ∧ w.OnlyImportsShow X c) w calls) := by
  intro w
  have hreadonly : w.ReadOnly := by
    intro e' he'
    simp only [w, Run.from_append, Run.from_cons, Run.from_nil, step, perform, hclosed, Op.openReadonly] at he'
    generalize hr : (Engine.open (X := X) (σ := Unit) { config with readonly := true }).run ⟨(), clock⟩ _
      = r at he'
    obtain ⟨_ | e, q, es⟩ := r
    · cases he'
    · obtain rfl : e = e' := Option.some.inj he'
      rw [Engine.config_of_open hr]
  refine ⟨hreadonly.all_rejectsWrites_iff, fun hopened hbefore hcalls => ?_⟩
  have hinv : WorldInv X w := worldInv_run (hbefore.mono fun _ _ h => h.1)
  have hwal : WalInv X w := walInv_run (hbefore.mono fun _ _ h => h.2)
  refine hcalls.imp_of_invariant (I := ReplicaInv X) (fun _ _ h hc => (h.step hc).1)
    (fun w c h hc => ?_) ⟨hinv, hwal, hreadonly, Option.isSome_iff_exists.mp hopened⟩
  refine ⟨h.readonly.rejectsWrites_iff.mpr ?_, (h.step hc).2⟩
  obtain ⟨op, clock⟩ := c
  cases op with
  | write cw => exact fun _ _ => hc
  | _ => trivial

/-- Flushes and restarts keep keys settled. -/
theorem AllSettled.step {c : Call} (hall : w.AllSettled X) (hw : WorldInv X w) (hwal : WalInv X w)
    (hc : w.Admitted X c) (hc' : w.WalAdmitted X c) (hop : c.op.Flushes) : (w.step X c).AllSettled X :=
  fun k => (hall k).imp fun _ hv => settles_step hw hwal hc hc' hop hv

/-- Without segments, an engine that has just recovered its memtable has settled keys. -/
theorem allSettled_of_recovered (he : w.engine.isSome = true)
    (hm : ∀ e ∈ w.engine, e.memtable = replayed .empty (walSequence X w.fs))
    (hreg : registered X w.fs = []) : w.AllSettled X := by
  intro k
  obtain ⟨e, he⟩ := Option.isSome_iff_exists.mp he
  refine ⟨(replayedEntry X w.fs k).bind MemEntry.live, ?_⟩
  rw [Settles, he, heldMemtable, Option.elim_some, hm e he]
  exact settled_of_recovered hreg k

/-- A put before the engine is opened read-only. -/
def beforeReplica : List Call :=
  [{ op := .open {} }, { op := .put [1] [1] [1] }, { op := .close }]

/-- Writes that are rejected, a flush, and a restart. -/
def replicaCalls : List ReplicaCall :=
  [{ op := .write (.put [1] [1] [2]) }, { op := .write (.vectorPut [1] [1] 2 .i8 [3, 4]) },
    { op := .flushToSegments }, { op := .reopen {} }]

/-- The world in which the engine has been opened read-only. -/
def openedReplica : World :=
  Run.from (World.step plainExternals) {} (beforeReplica ++ [{ op := .openReadonly {} }])

theorem replica_run_replicaCalls :
    Run.All (replicaStep plainExternals)
      (fun w c => w.RejectsWrites plainExternals c ∧ w.OnlyImportsShow plainExternals c) openedReplica
      replicaCalls := by
  have hbefore : Run.All (World.step plainExternals)
      (fun w c => w.Admitted plainExternals c ∧ w.WalAdmitted plainExternals c) {}
      (beforeReplica ++ [{ op := .openReadonly {} }]) := by
    decide +kernel
  refine (replica_run (Option.isNone_iff_eq_none.mp (by decide +kernel))).2 (by decide +kernel) hbefore ?_
  have hw : WorldInv plainExternals openedReplica := worldInv_run (hbefore.mono fun _ _ h => h.1)
  have hwal : WalInv plainExternals openedReplica := walInv_run (hbefore.mono fun _ _ h => h.2)
  have hall : openedReplica.AllSettled plainExternals :=
    allSettled_of_recovered (by decide +kernel) (by decide +kernel) (by decide +kernel)
  have hflush : openedReplica.Admitted plainExternals { op := .flushToSegments } ∧
      openedReplica.WalAdmitted plainExternals { op := .flushToSegments } := by
    decide +kernel
  have hopen : openedReplica.engine.isSome = true := by decide +kernel
  have hreadonly : ∀ e ∈ openedReplica.engine, e.config.readonly = true := by decide +kernel
  obtain ⟨e, he⟩ := Option.isSome_iff_exists.mp hopen
  have hsame : ∀ cw : ClientWrite, cw.Guarded →
      openedReplica.replicaStep plainExternals { op := .write cw } = openedReplica := fun cw hcw =>
    land_of_rejected he ((cw.rejected_iff (hreadonly e he)).mpr hcw)
  change Run.All _ _ openedReplica replicaCalls
  refine ⟨trivial, ?_⟩
  rw [hsame (.put _ _ _) trivial]
  refine ⟨rfl, ?_⟩
  rw [hsame (.vectorPut _ _ 2 .i8 [3, 4]) rfl]
  refine ⟨⟨hflush, .inr hall⟩, ⟨by decide +kernel, by decide +kernel, ?_⟩, trivial⟩
  simp only [replicaStep]
  exact hall.step hw hwal hflush.1 hflush.2 trivial

/-- **A read-only engine commits a transaction**: the call is not rejected, and what the engine returns
has changed. -/
theorem commit_not_rejected :
    let c : ReplicaCall := { op := .write (.commit [{ op := .put, ns := [1], key := [2], val := [3] }]) }
    ¬ Run.All (replicaStep plainExternals) (RejectsWrites plainExternals) openedReplica [c] ∧
      openedReplica.get plainExternals [1] [2] = some (.ok none) ∧
      (openedReplica.replicaStep plainExternals c).get plainExternals [1] [2] = some (.ok (some [3])) := by
  refine ⟨fun h => ?_, by decide +kernel, by decide +kernel⟩
  have hopen : openedReplica.engine.isSome = true := by decide +kernel
  obtain ⟨e, he⟩ := Option.isSome_iff_exists.mp hopen
  exact Engine.runTransaction_throws _ _ _ _ (congrArg Prod.fst (h.1 e he)) rfl

end World
