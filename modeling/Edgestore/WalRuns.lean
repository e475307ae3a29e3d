import Edgestore.Engine.WalCalls
import Edgestore.WorldInv

/-!
# The log in runs

In a run in which every rotation finds the LSN counter above the name of the current WAL file, the
WAL files stay a log in the order of LSNs, whatever crashes cut calls short.

## Main definitions

* `World.RotatesAhead X w c`: a rotation in a call finds the LSN counter ahead
* `World.WalAdmitted X w c`: the calls that keep the log
* `World.WalInv X w`: the invariant

## Main results

* `World.WalInv.kept`: the effects of an admitted call keep the discipline of the log
* `World.WalInv.step`, `World.walInv_run`: admitted calls, crashed or not, keep the invariant
-/

open FramedLog

variable {X : Externals} {w : World} {c : Call}

/-! ### Conditions -/

instance (X : Externals) (r : WalRecord) : Decidable (r.Fits X) :=
  decidable_of_iff
    ((r.txid < 256 ^ 8 ∧ r.lsn < 256 ^ 8 ∧ asI64 r.timestamp = r.timestamp ∧ r.ttl < 256 ^ 4 ∧
      r.nsLen = r.nsBytes.length ∧ r.nsBytes.length < 256 ^ 2 ∧ r.keyBytes.length < 256 ^ 4 ∧
      r.valueHash.length = 32 ∧ r.valueBytes.length < 256 ^ 4) ∧
      (X.compress (serializeRecord r)).length ≤ maxCompressedLen)
    ⟨fun ⟨⟨h₁, h₂, h₃, h₄, h₅, h₆, h₇, h₈, h₉⟩, h⟩ => ⟨⟨h₁, h₂, h₃, h₄, h₅, h₆, h₇, h₈, h₉⟩, h⟩,
      fun ⟨⟨h₁, h₂, h₃, h₄, h₅, h₆, h₇, h₈, h₉⟩, h⟩ => ⟨⟨h₁, h₂, h₃, h₄, h₅, h₆, h₇, h₈, h₉⟩, h⟩⟩

instance (X : Externals) (e : Engine) (fs : Fs) : Decidable (e.EndsWhole X fs) :=
  inferInstanceAs (Decidable (∀ bs ∈ _, _))

instance (X : Externals) : ∀ e fs, Decidable (FitsWal X e fs)
  | .walAppend _ r, _ => inferInstanceAs (Decidable (r.Fits X))
  | .walCreate _, _ | .walHeader _, _ | .walUnlink _, _ | .manifestCreate, _ | .manifestHeader, _
  | .manifestAppend _ _, _ | .datWrite _ _, _ | .idxWrite _ _, _ | .xfWrite _ _, _
  | .metaWrite _ _, _ | .segUnlink _ _, _ | .stageWrite _ _, _ | .stageRename _, _
  | .stageAdopt _ _, _ | .sync _, _ => .isTrue trivial

/-- The WAL is due for rotation after records are appended. -/
def Engine.dueAfter (X : Externals) (e : Engine) (rs : List WalRecord) (nanos : ℕ) : Prop :=
  (e.wal.appended X rs).needsRotation (unixSecs nanos) = true

instance (X : Externals) (e : Engine) (rs : List WalRecord) (nanos : ℕ) :
    Decidable (e.dueAfter X rs nanos) := inferInstanceAs (Decidable (_ = true))

/-- The records of a transaction, under the LSNs they get. -/
def Engine.txRecords (X : Externals) (e : Engine) (ops : List TxOp) : List WalRecord :=
  stamped e.lsnCounter (ops.map (TxOp.record X (e.txidCounter + 1)))

namespace World

/-- If the WAL is due for rotation in a call, the LSN counter has passed the name of the current
file: after a write the new LSN is above that name, and so is the last LSN of a transaction. When a
segment is imported, the LSN counter has reached that name before. -/
def RotatesAhead (X : Externals) (w : World) (c : Call) : Prop :=
  match w.engine, c.op with
  | none, .open config => OpensAhead X w.fs config c.clock
  | some e, .put ns key val =>
    e.dueAfter X [Engine.putRecord X (e.lsnCounter + 1) (asI64 (c.clock 0)) 0 ns key val] (c.clock 1) →
      e.wal.name ≤ e.lsnCounter
  | some e, .putWithTtl ns key val ttl =>
    e.dueAfter X [Engine.putRecord X (e.lsnCounter + 1) (asI64 (c.clock 0)) ttl ns key val] (c.clock 1) →
      e.wal.name ≤ e.lsnCounter
  | some e, .delete ns key =>
    e.dueAfter X [Engine.deleteRecord X (e.lsnCounter + 1) (asI64 (c.clock 0)) ns key] (c.clock 1) →
      e.wal.name ≤ e.lsnCounter
  | some e, .commit ops =>
    e.dueAfter X (e.txRecords X ops) (c.clock 0) → e.wal.name < e.lsnCounter + ops.length
  | some e, .importSegment _ _ _ => e.wal.name ≤ e.lsnCounter
  | _, _ => True

instance (X : Externals) (fs : Fs) (config : EdgestoreConfig) (clock : ℕ → ℕ) :
    Decidable (OpensAhead X fs config clock) :=
  inferInstanceAs (Decidable (∀ p ∈ _, _ ∧ _))

instance (X : Externals) (w : World) (c : Call) : Decidable (w.RotatesAhead X c) := by
  obtain ⟨fs, engine, flights, acked⟩ := w
  obtain ⟨op, clock, stop⟩ := c
  unfold RotatesAhead
  rcases engine <;> rcases op <;> infer_instance

/-- A call whose rotations find the LSN counter ahead, and whose records are within the limits of
their reader. -/
structure WalAdmitted (X : Externals) (w : World) (c : Call) : Prop where
  fits : ∀ r ∈ appendedRecords (w.effects X c), r.Fits X
  ahead : w.RotatesAhead X c

instance (X : Externals) (w : World) (c : Call) : Decidable (w.WalAdmitted X c) :=
  decidable_of_iff ((∀ r ∈ appendedRecords (w.effects X c), r.Fits X) ∧ w.RotatesAhead X c)
    ⟨fun ⟨h₁, h₂⟩ => ⟨h₁, h₂⟩, fun ⟨h₁, h₂⟩ => ⟨h₁, h₂⟩⟩

/-- The WAL files are a log, and the writer of the open engine is at its end. -/
structure WalInv (X : Externals) (w : World) : Prop where
  log : WalLog X w.fs
  engine : ∀ e, w.engine = some e → e.WalInv X w.fs

end World

theorem all_fitsWal {es : List Effect} {fs : Fs} (h : ∀ r ∈ appendedRecords es, r.Fits X) :
    (disk X).All (FitsWal X) es fs := by
  induction es generalizing fs with
  | nil => trivial
  | cons e es ih =>
    have hes : ∀ r ∈ appendedRecords es, r.Fits X := fun r hr => h r (by
      rw [appendedRecords, List.filterMap_cons]
      split
      · exact hr
      · exact List.mem_cons_of_mem _ hr)
    refine ⟨?_, ih hes⟩
    cases e with
    | walAppend n r => exact h r (by simp [appendedRecords])
    | _ => trivial

/-- An outcome that keeps the discipline of the log, and the engine at its end. -/
structure Outcome.WalKept (X : Externals) (w : World) (o : Outcome) : Prop where
  guar : (disk X).All (WalEffect X) o.effects w.fs
  engine : ∀ e, o.engine = some e → e.WalInv X ((disk X).run o.effects w.fs)

theorem WalLog.run {es : List Effect} {fs : Fs} (h : WalLog X fs)
    (hes : (disk X).All (WalEffect X) es fs) : WalLog X ((disk X).run es fs) :=
  hes.run (fun _ _ he hlog => hlog.apply he) h

namespace World.WalInv

theorem kept_idle {ok : Bool} (h : WalInv X w) : (w.idle ok).WalKept X w :=
  ⟨trivial, fun e he => h.engine e he⟩

/-- A method of the engine. -/
theorem kept_onEngine {α : Type} {m : Exec X Engine α} {clock : ℕ → ℕ} {land : α → List Flight}
    (h : WalInv X w)
    (hwp : ∀ e, w.engine = some e → e.WalInv X w.fs → Prog.wp m
      ⟨fun _ q fs' => q.state.WalInv X fs', fun _ q fs' => q.state.WalInv X fs', FitsWal X,
        WalEffect X⟩ ⟨e, clock⟩ w.fs)
    (hfits : ∀ r ∈ appendedRecords (w.onEngine X clock m land).effects, r.Fits X) :
    (w.onEngine X clock m land).WalKept X w := by
  cases he : w.engine with
  | none =>
    simp only [onEngine, he]
    exact h.kept_idle
  | some e =>
    have hm := hwp e he (h.engine e he)
    simp only [onEngine, he] at hfits ⊢
    rcases hr : m.run ⟨e, clock⟩ w.fs with ⟨res, ⟨e', clock'⟩, es⟩
    rw [hr] at hfits
    have hall : (disk X).All (FitsWal X) es w.fs := by
      cases res <;> exact all_fitsWal hfits
    have hguar := Prog.wp_guar hm (by rw [hr]; exact hall)
    have hres := Prog.wp_result hm (by rw [hr]; exact hall)
    rw [hr] at hguar hres
    cases res with
    | ok a => exact ⟨hguar, fun e he => (by cases he; exact hres)⟩
    | error err => exact ⟨hguar, fun e he => (by cases he; exact hres)⟩

theorem kept_open {config : EdgestoreConfig} {clock : ℕ → ℕ} (h : WalInv X w)
    (hopens : w.engine = none → OpensAhead X w.fs config clock)
    (hfits : ∀ r ∈ appendedRecords (w.perform X (.open config) clock).effects, r.Fits X) :
    (w.perform X (.open config) clock).WalKept X w := by
  cases he : w.engine with
  | some e =>
    simp only [perform, he]
    exact h.kept_idle
  | none =>
    have hm := Engine.wp_open_wal (σ := Unit) (p := ⟨(), clock⟩) h.log (hopens he)
    simp only [perform, he] at hfits ⊢
    have hall : (disk X).All (FitsWal X) _ w.fs := all_fitsWal hfits
    have hguar := Prog.wp_guar hm hall
    have hres := Prog.wp_result hm hall
    refine ⟨hguar, fun e he => ?_⟩
    generalize (Engine.open (X := X) (σ := Unit) config).run ⟨(), clock⟩ w.fs = r at hres he ⊢
    obtain ⟨_ | e', q, es⟩ := r
    · cases he
    · cases he
      exact hres.inv

theorem kept_execute {i : ℕ} {clock : ℕ → ℕ} (h : WalInv X w) :
    (w.perform X (.execute i) clock).WalKept X w := by
  simp only [perform, executeFlight]
  cases w.flights[i]? with
  | none => exact h.kept_idle
  | some f =>
    have hf := (f.work.execute_frame (X := X) fun _ : Unit => ()) ⟨(), clock⟩ w.fs
    have hguar : (disk X).All (WalEffect X) ((f.work.execute (X := X)).run ⟨(), clock⟩ w.fs).2.2 w.fs ∧
        ((disk X).run ((f.work.execute (X := X)).run ⟨(), clock⟩ w.fs).2.2 w.fs).wals = w.fs.wals := by
      have hwp : Prog.wp (f.work.execute (X := X)) _ ⟨(), clock⟩ w.fs := Engine.wp_keepsWal
        ((f.work.execute_frame (X := X) fun _ : Unit => ()).mono fun _ he => .of_isSegment he)
      have hall : (disk X).All (FitsWal X) ((f.work.execute (X := X)).run ⟨(), clock⟩ w.fs).2.2
          w.fs := by
        refine all_fitsWal fun r hr => ?_
        obtain ⟨e, he, her⟩ := List.mem_filterMap.mp hr
        have := hf.1 e he
        cases e <;> first | exact this.elim | cases her
      refine ⟨Prog.wp_guar hwp hall, ?_⟩
      have hres := Prog.wp_result hwp hall
      generalize ((f.work.execute (X := X)).run ⟨(), clock⟩ w.fs).1 = r at hres
      cases r with
      | ok m => exact hres.2
      | error err => exact hres.2
    simp only
    generalize (f.work.execute (X := X)).run ⟨(), clock⟩ w.fs = r at hguar ⊢
    obtain ⟨_ | m, q, es⟩ := r
    · exact ⟨hguar.1, fun e he => (h.engine e he).congr rfl hguar.2⟩
    · exact ⟨hguar.1, fun e he => (h.engine e he).congr rfl hguar.2⟩

theorem kept_finalizeFlush {i : ℕ} {clock : ℕ → ℕ} (h : WalInv X w)
    (hfits : ∀ r ∈ appendedRecords (w.perform X (.finalizeFlush i) clock).effects, r.Fits X) :
    (w.perform X (.finalizeFlush i) clock).WalKept X w := by
  simp only [perform] at hfits ⊢
  split
  case h_1 e work m he hf =>
    simp only [he, hf] at hfits
    obtain ⟨hguar, hengine⟩ := h.kept_onEngine (m := Engine.finalizeFlush m work.flushedMaxLsn)
      (fun e _ he => Prog.wp_imp (he.wp_finalizeFlush m work.flushedMaxLsn)
        (fun _ _ _ hq => hq.inv) (fun _ _ _ hq => he.congr hq.walPart hq.wals)) hfits
    exact ⟨hguar, hengine⟩
  case h_2 => exact h.kept_idle

/-- **Every admitted call** keeps the discipline of the log. -/
theorem kept (h : WalInv X w) (hc : w.WalAdmitted X c) : (w.perform X c.op c.clock).WalKept X w := by
  obtain ⟨op, clock, stop⟩ := c
  obtain ⟨hfits, hahead⟩ := hc
  simp only [effects] at hfits
  cases op with
  | «open» config =>
    refine h.kept_open (fun he => ?_) hfits
    simpa only [RotatesAhead, he] using hahead
  | close =>
    obtain ⟨hguar, -⟩ := h.kept_onEngine (m := Engine.flush) (fun e _ he => he.wp_flush) hfits
    exact ⟨hguar, fun e he => (by cases he)⟩
  | put ns key val =>
    refine h.kept_onEngine (fun e he hinv => ?_) hfits
    simp only [RotatesAhead, he] at hahead
    refine Prog.wp_imp (hinv.wp_put hahead) (fun _ _ _ hq => hq.inv) fun _ _ _ hq => ?_
    rcases hq.2 with ⟨hq, hfs⟩ | hq
    · rw [hq, hfs]
      exact hinv
    · exact hq.inv
  | putWithTtl ns key val ttl =>
    refine h.kept_onEngine (fun e he hinv => ?_) hfits
    simp only [RotatesAhead, he] at hahead
    refine Prog.wp_imp (hinv.wp_putWithTtl hahead) (fun _ _ _ hq => hq.inv) fun _ _ _ hq => ?_
    rw [hq.1, hq.2.1]
    exact hinv
  | delete ns key =>
    refine h.kept_onEngine (fun e he hinv => ?_) hfits
    simp only [RotatesAhead, he] at hahead
    refine Prog.wp_imp (hinv.wp_delete hahead) (fun _ _ _ hq => hq.inv) fun _ _ _ hq => ?_
    rw [hq.1, hq.2.1]
    exact hinv
  | commit ops =>
    refine h.kept_onEngine (fun e he hinv => ?_) hfits
    simp only [RotatesAhead, he] at hahead
    exact Prog.wp_imp (hinv.wp_runTransaction ops hahead) (fun _ _ _ hq => hq.1.inv)
      (fun _ _ _ he => he.elim)
  | flush => exact h.kept_onEngine (fun e _ he => he.wp_flush) hfits
  | flushToSegments =>
    refine h.kept_onEngine (fun e _ he => Prog.wp_imp he.wp_flushToSegments ?_
      (fun _ _ _ hq => he.congr hq.walPart hq.wals)) hfits
    rintro _ q fs' ⟨_, hq⟩
    exact hq.inv
  | beginFlush =>
    exact h.kept_onEngine (fun e _ he => he.wp_keeps (Engine.beginFlush_frame _)) hfits
  | execute i => exact h.kept_execute
  | finalizeFlush i => exact h.kept_finalizeFlush hfits
  | abandon i => exact ⟨trivial, fun e he => h.engine e he⟩
  | compactOnce order =>
    exact h.kept_onEngine (fun e _ he =>
      he.wp_keeps ((Engine.compactOnce_frame order).mono fun _ he => .of_isSegment he)) hfits
  | stripTextIndex id =>
    exact h.kept_onEngine (fun e _ he =>
      he.wp_keeps ((Engine.stripIndex_frame textIndex id).mono fun _ he => .of_isSegment he)) hfits
  | stripVectorIndex id =>
    exact h.kept_onEngine (fun e _ he =>
      he.wp_keeps ((Engine.stripIndex_frame vectorIndex id).mono fun _ he => .of_isSegment he)) hfits
  | importSegment dat size hash =>
    refine h.kept_onEngine (fun e he hinv => ?_) hfits
    simp only [RotatesAhead, he] at hahead
    exact Prog.wp_imp (Engine.Ahead.wp_importSegment ⟨hinv, hahead⟩ dat size hash)
      (fun _ _ _ hq => hq.1) (fun _ _ _ hq => hq.1)
  | snapshot =>
    refine h.kept_onEngine (fun e _ he => ?_) hfits
    simp only [Engine.snapshot, Prog.wp_bind, Exec.wp_get, Exec.wp_modify, Prog.wp_pure]
    exact ⟨he.log, he.atEnd, he.counter, he.memtable⟩
  | dropSnapshot id =>
    refine h.kept_onEngine (fun e _ he => ?_) hfits
    simp only [Engine.dropSnapshot, Exec.wp_modify]
    exact ⟨he.log, he.atEnd, he.counter, he.memtable⟩

/-- **Admitted calls, crashed or not**, keep the invariant. -/
theorem step (h : WalInv X w) (hc : w.WalAdmitted X c) : WalInv X (w.step X c) := by
  obtain ⟨hguar, hengine⟩ := h.kept hc
  obtain ⟨op, clock, _ | ⟨n, m⟩⟩ := c
  · exact ⟨h.log.run hguar, hengine⟩
  · refine ⟨?_, fun e he => (by cases he)⟩
    exact hguar.cut (fun _ _ he hlog => hlog.apply he) (fun _ _ he hlog m => hlog.tear he m) h.log n m

end World.WalInv

namespace World

theorem walInv_empty : WalInv X {} := by
  refine ⟨⟨fun p hp => ?_, ?_⟩, fun e he => (by cases he)⟩
  · cases hp
  · exact List.Pairwise.nil

/-- The invariant holds after every run of admitted calls. -/
theorem walInv_run {calls : List Call} (h : Run.All (World.step X) (WalAdmitted X) {} calls) :
    WalInv X (Run.from (World.step X) {} calls) :=
  h.invariant (fun _ _ hw hc => hw.step hc) walInv_empty

end World
