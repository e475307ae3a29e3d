import Edgestore.LsnRestarts

/-!
# Records behind a torn tail

A crash may leave a torn frame at the end of the last WAL file. Recovery stops in front of it. When the
store is opened, the writer goes on at the end of the file, behind the torn frame, and what it appends
there is never read.

## Main definitions

* `World.tearWal k w`: the process stops, and the last WAL file is cut to `k` bytes
* `completeRecords X k fs`: the records that are complete at such a cut
* `World.AppendsWhole X w c`: openings, and writes behind a whole frame
* `World.RecoversBehindCut X w k calls`: recovery finds the complete records and all that followed

## Main results

* `walSequence_tearWal`: a cut keeps the complete records
* `World.recovered_tearWal`: when all writes after the cut find a whole frame, recovery returns the
  complete records and the ones that were acknowledged since
* `World.put_behind_torn_frame`: a put behind a torn frame is lost
-/

open FramedLog

variable {X : Externals} {α : Type}

/-! ### Cutting the last WAL file -/

/-- Cut the last WAL file to `k` bytes. -/
def Fs.tearWal (k : ℕ) (fs : Fs) : Fs :=
  match fs.wals.entries.getLast? with
  | none => fs
  | some p => { fs with wals := fs.wals.insert p.1 (p.2.take k) }

/-- The records that are complete when the last WAL file is cut to `k` bytes. -/
def completeRecords (X : Externals) (k : ℕ) (fs : Fs) : List WalRecord :=
  (fs.wals.entries.dropLast.flatMap fun p => fileRecords X p.2) ++
    (fs.wals.entries.getLast?.elim [] fun p =>
      complete (walFormat X) (fileRecords X p.2) (k - walHeader.length))

/-- A WAL file that is cut behind its header holds its complete records. -/
theorem WalHolds.take {bs : Bytes} {rs : List WalRecord} (h : WalHolds X bs rs) {k : ℕ}
    (hk : walHeader.length ≤ k) :
    WalHolds X (bs.take k) (complete (walFormat X) rs (k - walHeader.length)) := by
  obtain ⟨body, rfl, hbody, hfits⟩ := h
  refine ⟨body.take (k - walHeader.length), ?_, hbody.take _, fun r hr => ?_⟩
  · rw [List.take_append, List.take_of_length_le hk]
  · exact hfits r ((complete_isPrefix rs _).subset hr)

section Cut

variable {fs : Fs} {pre : List (Lsn × Bytes)} {n : Lsn} {bs : Bytes} {k : ℕ}

theorem entries_tearWal (h : fs.wals.entries = pre ++ [(n, bs)]) :
    (fs.tearWal k).wals.entries = pre ++ [(n, bs.take k)] := by
  have hlast : fs.wals.entries.getLast? = some (n, bs) := by simp [h]
  have htear : fs.tearWal k = { fs with wals := fs.wals.insert n (bs.take k) } := by
    rw [Fs.tearWal, hlast]
  rw [htear]
  exact SortedMap.entries_insert_of_top h (Fs.lt_of_entries h) _

/-- The records of a file that is cut behind its header. -/
theorem fileRecords_take (h : WalFile X bs) (hk : walHeader.length ≤ k) :
    fileRecords X (bs.take k) =
      complete (walFormat X) (fileRecords X bs) (k - walHeader.length) := by
  rcases h with hshort | ⟨rs, hholds⟩
  · rw [List.take_of_length_le (hshort.le.trans hk), fileRecords_short hshort]
    rfl
  · rw [(hholds.take hk).fileRecords_eq, hholds.fileRecords_eq]

theorem WalFile.take (h : WalFile X bs) (hk : walHeader.length ≤ k) : WalFile X (bs.take k) := by
  rcases h with hshort | ⟨rs, hholds⟩
  · rw [List.take_of_length_le (hshort.le.trans hk)]
    exact .inl hshort
  · exact .inr ⟨_, hholds.take hk⟩

/-- **A cut keeps the complete records.** -/
theorem walSequence_tearWal (hlog : WalLog X fs) (hk : walHeader.length ≤ k) :
    walSequence X (fs.tearWal k) = completeRecords X k fs := by
  cases hlast : fs.wals.entries.getLast? with
  | none =>
    have hnil : fs.wals.entries = [] := List.getLast?_eq_none_iff.mp hlast
    simp [Fs.tearWal, completeRecords, walSequence, hnil]
  | some p =>
    obtain ⟨n, bs⟩ := p
    obtain ⟨pre, h⟩ := List.getLast?_eq_some_iff.mp hlast
    rw [walSequence_of_entries (entries_tearWal h),
      fileRecords_take (hlog.files (n, bs) (by simp [h])) hk, completeRecords, hlast, h,
      List.dropLast_concat]
    rfl

theorem completeRecords_sublist : (completeRecords X k fs).Sublist (walSequence X fs) := by
  cases hlast : fs.wals.entries.getLast? with
  | none => simp [completeRecords, List.getLast?_eq_none_iff.mp hlast]
  | some p =>
    obtain ⟨n, bs⟩ := p
    obtain ⟨pre, h⟩ := List.getLast?_eq_some_iff.mp hlast
    rw [walSequence_of_entries h, completeRecords, hlast, h, List.dropLast_concat]
    exact (List.Sublist.refl _).append (complete_isPrefix _ _).sublist

/-- A cut keeps the log. -/
theorem WalLog.tearWal (hlog : WalLog X fs) (hk : walHeader.length ≤ k) : WalLog X (fs.tearWal k) := by
  refine ⟨?_, ?_⟩
  · cases hlast : fs.wals.entries.getLast? with
    | none =>
      have htear : fs.tearWal k = fs := by rw [Fs.tearWal, hlast]
      rw [htear]
      exact hlog.files
    | some p =>
      obtain ⟨n, bs⟩ := p
      obtain ⟨pre, heq⟩ := List.getLast?_eq_some_iff.mp hlast
      intro p hp
      rw [entries_tearWal heq] at hp
      rcases List.mem_append.mp hp with hp | hp
      · exact hlog.files p (by simp [heq, hp])
      · rw [List.mem_singleton.mp hp]
        exact (hlog.files (n, bs) (by simp [heq])).take hk
  · rw [walSequence_tearWal hlog hk]
    exact hlog.ordered.sublist completeRecords_sublist

end Cut

/-! ### The log after a call -/

/-- Effects that keep the discipline and unlink nothing append their records to the log. -/
theorem walSequence_run_grows {es : List Effect} {fs : Fs}
    (h : (disk X).All (fun e fs => WalEffect X e fs ∧ ¬ e.IsUnlink) es fs) :
    walSequence X ((disk X).run es fs) = walSequence X fs ++ appendedRecords es := by
  induction es generalizing fs with
  | nil => exact (List.append_nil _).symm
  | cons e es ih =>
    obtain ⟨⟨heffect, hunlink⟩, hes⟩ := h
    rw [Device.run_cons, ih hes, heffect.walSequence_apply]
    cases e with
    | walAppend n r => rw [logAfter, List.append_assoc]; rfl
    | walUnlink n => exact absurd trivial hunlink
    | _ => rfl

/-- An outcome after which the log has grown by the records that are acknowledged. -/
structure Outcome.LogsExactly (X : Externals) (w : World) (o : Outcome) : Prop where
  log : WalLog X ((disk X).run o.effects w.fs)
  sequence : walSequence X ((disk X).run o.effects w.fs) =
    walSequence X w.fs ++ if o.ok then appendedRecords o.effects else []
  engine : ∀ e, o.engine = some e → e.WalPlaced X ((disk X).run o.effects w.fs)

namespace Engine

variable {e : Engine} {fs : Fs} {clock : ℕ → ℕ}

/-- A put into a memtable that stays small logs its record, or fails without an effect. -/
theorem WalInv.wp_put_small (h : WalInv X e fs) {ns key val : Bytes}
    (hahead : (e.wal.appended X [putRecord X (e.lsnCounter + 1) (asI64 (clock 0)) 0 ns key val]
      ).needsRotation (unixSecs (clock 1)) = true → e.wal.name ≤ e.lsnCounter)
    (hsmall : (e.memtable.len + 1) * avgEntrySizeEstimate < e.config.memtableMaxBytes) :
    Prog.wp (put (X := X) ns key val)
      ⟨fun _ q fs' => WalPlaced X q.state fs', fun _ q fs' => q.state = e ∧ fs' = fs, FitsWal X,
        fun eff fs => WalEffect X eff fs ∧ ¬ eff.IsUnlink⟩ ⟨e, clock⟩ fs := by
  rw [put, Prog.wp_bind]
  refine Prog.wp_imp wp_checkPut ?_ fun err _ _ he => ⟨by rw [he.1], he.2.1⟩
  rintro _ _ _ ⟨rfl, rfl, -, -⟩
  rw [Prog.wp_bind]
  refine Prog.wp_mono (Prog.wp_and (h.wp_writeEntry hahead)
    ((writeEntry_frame ns key val 0).wp fun _ _ => True)) ?_ (fun _ _ _ he => he.1.elim)
    (fun _ _ hr => ⟨hr, trivial⟩) fun _ _ _ hg => ⟨hg.1, hg.2.not_isUnlink⟩
  rintro lsn ⟨e₁, clock₁⟩ fs₁ ⟨⟨-, hlogged, -⟩, -⟩
  simp only [Prog.wp_bind, Exec.wp_get, Prog.wp_ite, Prog.wp_pure]
  -- one more entry does not fill the memtable
  have hengine := hlogged.engine
  simp only at hengine
  have hlen : e₁.memtable.len ≤ e.memtable.len + 1 := by
    rw [hengine]
    exact length_insertEntry_le _ _ _
  have hconfig : e₁.config = e.config := by rw [hengine]
  rw [if_neg]
  · exact hlogged.inv.placed
  · rw [hconfig]
    exact fun hge => absurd (hge.trans (Nat.mul_le_mul_right _ hlen)) (Nat.not_le_of_lt hsmall)

end Engine

/-! ### Calls -/

namespace World

/-- The WAL files are a log, and the writer of the open engine is in the last one. -/
structure Placed (X : Externals) (w : World) : Prop where
  log : WalLog X w.fs
  engine : ∀ e, w.engine = some e → e.WalPlaced X w.fs

/-- The process stops, and the last WAL file is cut to `k` bytes. -/
def tearWal (k : ℕ) (w : World) : World :=
  { w with fs := w.fs.tearWal k, engine := none, flights := [] }

/-- A write finds a whole frame at the end of the current WAL file, and a rotation finds the LSN counter
ahead. -/
def WritesBehindWhole (X : Externals) (w : World) (c : Call) : Prop :=
  (∀ e ∈ w.engine, e.EndsWhole X w.fs) ∧ w.RotatesAhead X c

instance (X : Externals) (fs : Fs) (config : EdgestoreConfig) (clock : ℕ → ℕ) :
    Decidable (DueAhead X fs config clock) :=
  inferInstanceAs (Decidable (∀ p ∈ _, _ → _))

instance (X : Externals) (w : World) (c : Call) : Decidable (w.WritesBehindWhole X c) :=
  inferInstanceAs (Decidable (_ ∧ _))

/-- An opening, a closing, a sync, or a write behind a whole frame that does not fill the memtable. -/
def CallsBehindWhole (X : Externals) (w : World) (c : Call) : Prop :=
  match c.op with
  | .open config => w.engine = none → DueAhead X w.fs config c.clock
  | .put _ _ _ => w.WritesBehindWhole X c ∧
      ∀ e ∈ w.engine, (e.memtable.len + 1) * avgEntrySizeEstimate < e.config.memtableMaxBytes
  | .putWithTtl _ _ _ _ => w.WritesBehindWhole X c
  | .delete _ _ => w.WritesBehindWhole X c
  | .commit _ => w.WritesBehindWhole X c
  | .close => True
  | .flush => True
  | _ => False

instance (X : Externals) (w : World) (c : Call) : Decidable (w.CallsBehindWhole X c) := by
  obtain ⟨op, clock, stop⟩ := c
  unfold CallsBehindWhole
  rcases op <;> infer_instance

/-- Calls that append behind a whole frame, to the end. A rotation finds the LSN counter ahead, and
records are within the limits of their reader. -/
structure AppendsWhole (X : Externals) (w : World) (c : Call) : Prop where
  stop : c.stop = none
  fits : ∀ r ∈ appendedRecords (w.effects X c), r.Fits X
  call : w.CallsBehindWhole X c

instance (X : Externals) (w : World) (c : Call) : Decidable (w.AppendsWhole X c) :=
  decidable_of_iff (c.stop = none ∧ (∀ r ∈ appendedRecords (w.effects X c), r.Fits X) ∧
    w.CallsBehindWhole X c) ⟨fun ⟨h₁, h₂, h₃⟩ => ⟨h₁, h₂, h₃⟩, fun ⟨h₁, h₂, h₃⟩ => ⟨h₁, h₂, h₃⟩⟩

variable {w : World} {c : Call} {clock : ℕ → ℕ}

theorem Placed.tearWal (h : WalLog X w.fs) {k : ℕ} (hk : walHeader.length ≤ k) :
    Placed X (w.tearWal k) := ⟨h.tearWal hk, fun e he => by cases he⟩

theorem logsExactly_idle {ok : Bool} (h : Placed X w) : (w.idle ok).LogsExactly X w := by
  refine ⟨h.log, ?_, h.engine⟩
  cases ok <;> exact (List.append_nil _).symm

/-- A method of the engine that logs its records, or fails and leaves the log. -/
theorem logsExactly_onEngine {m : Exec X Engine α} (h : Placed X w)
    (hwp : ∀ e, w.engine = some e → Prog.wp m
      ⟨fun _ q fs' => q.state.WalPlaced X fs',
        fun _ q fs' => q.state.WalPlaced X fs' ∧ walSequence X fs' = walSequence X w.fs, FitsWal X,
        fun eff fs => WalEffect X eff fs ∧ ¬ eff.IsUnlink⟩ ⟨e, clock⟩ w.fs)
    (hfits : ∀ r ∈ appendedRecords (w.onEngine X clock m).effects, r.Fits X) :
    (w.onEngine X clock m).LogsExactly X w := by
  cases he : w.engine with
  | none =>
    simp only [onEngine, he]
    exact logsExactly_idle h
  | some e =>
    have hm := hwp e he
    simp only [onEngine, he] at hfits ⊢
    rcases hr : m.run ⟨e, clock⟩ w.fs with ⟨res, ⟨e', clock'⟩, es⟩
    rw [hr] at hfits
    have hall : (disk X).All (FitsWal X) es w.fs := by
      cases res <;> exact all_fitsWal hfits
    have hguar := Prog.wp_guar hm (by rw [hr]; exact hall)
    have hres := Prog.wp_result hm (by rw [hr]; exact hall)
    rw [hr] at hguar hres
    have hlog : WalLog X ((disk X).run es w.fs) := h.log.run (hguar.mono fun _ _ hg => hg.1)
    have hgrows := walSequence_run_grows hguar
    cases res with
    | ok a => exact ⟨hlog, hgrows, fun e he => by cases he; exact hres⟩
    | error err => exact ⟨hlog, by rw [hres.2]; exact (List.append_nil _).symm, fun e he => by
        cases he
        exact hres.1⟩

/-- A write that logs its records, or fails without an effect. -/
theorem logsExactly_write {m : Exec X Engine α} (h : Placed X w)
    (hwhole : ∀ e ∈ w.engine, e.EndsWhole X w.fs)
    (hframe : Exec.Frame Effect.IsLog Engine.storePart m)
    (hwp : ∀ e, w.engine = some e → e.WalInv X w.fs → Prog.wp m
      ⟨fun _ q fs' => q.state.WalInv X fs', fun _ q fs' => q.state = e ∧ fs' = w.fs, FitsWal X,
        WalEffect X⟩ ⟨e, clock⟩ w.fs)
    (hfits : ∀ r ∈ appendedRecords (w.onEngine X clock m).effects, r.Fits X) :
    (w.onEngine X clock m).LogsExactly X w := by
  refine logsExactly_onEngine h (fun e he => ?_) hfits
  have hplaced := h.engine e he
  refine Prog.wp_mono (Prog.wp_and (hwp e he (hplaced.inv (hwhole e he)))
    (hframe.wp fun _ _ => True)) (fun _ _ _ hq => hq.1.placed) ?_ (fun _ _ hr => ⟨hr, trivial⟩)
    fun _ _ _ hg => ⟨hg.1, hg.2.not_isUnlink⟩
  rintro _ q fs' ⟨⟨hq, rfl⟩, -⟩
  refine ⟨?_, rfl⟩
  rw [hq]
  exact hplaced

theorem logsExactly_flush (h : Placed X w)
    (hfits : ∀ r ∈ appendedRecords (w.onEngine X clock Engine.flush).effects, r.Fits X) :
    (w.onEngine X clock Engine.flush).LogsExactly X w := by
  refine logsExactly_onEngine h (fun e he => ?_) hfits
  refine Prog.wp_mono (Prog.wp_and (Engine.wp_keepsWal Engine.syncWal_frame)
    (Engine.flush_frame.wp fun _ _ => True)) ?_ ?_ (fun _ _ hr => ⟨hr, trivial⟩)
    fun _ _ _ hg => ⟨hg.1, hg.2.not_isUnlink⟩
  · exact fun _ q fs' hq => (h.engine e he).congr hq.1.1 hq.1.2
  · exact fun _ q fs' hq => ⟨(h.engine e he).congr hq.1.1 hq.1.2, walSequence_congr hq.1.2⟩

theorem logsExactly_open {config : EdgestoreConfig} (h : Placed X w)
    (hdue : w.engine = none → DueAhead X w.fs config clock)
    (hfits : ∀ r ∈ appendedRecords (w.perform X (.open config) clock).effects, r.Fits X) :
    (w.perform X (.open config) clock).LogsExactly X w := by
  cases he : w.engine with
  | some e =>
    simp only [perform, he]
    exact logsExactly_idle h
  | none =>
    have hm := Engine.wp_open_placed (σ := Unit) (p := ⟨(), clock⟩) h.log (hdue he)
    have hnone := appendedRecords_eq_nil (Engine.open_appendsNone (X := X) config (fun _ : Unit => ())
      ⟨(), clock⟩ w.fs).1
    simp only [perform, he] at hfits ⊢
    have hall : (disk X).All (FitsWal X) _ w.fs := all_fitsWal hfits
    have hguar := Prog.wp_guar hm hall
    have hres := Prog.wp_result hm hall
    have hlog := h.log.run hguar
    generalize (Engine.open (X := X) (σ := Unit) config).run ⟨(), clock⟩ w.fs = r at hnone hres hlog ⊢
    have hseq : walSequence X ((disk X).run r.2.2 w.fs) = walSequence X w.fs ++
        if r.1.isOk then appendedRecords r.2.2 else [] := by
      rw [hnone, ite_self, List.append_nil]
      obtain ⟨_ | e, q, es⟩ := r
      · exact hres.2.1
      · exact hres.1.sequence
    refine ⟨hlog, hseq, fun e he => ?_⟩
    obtain ⟨_ | e', q, es⟩ := r
    · cases he
    · cases he
      exact hres.1.placed

/-- **Every call** that appends behind whole frames logs exactly what it acknowledges. -/
theorem logsExactly_perform (h : Placed X w) (hc : w.AppendsWhole X c) :
    (w.perform X c.op c.clock).LogsExactly X w := by
  obtain ⟨op, clock, stop⟩ := c
  obtain ⟨-, hfits, hcall⟩ := hc
  simp only [effects] at hfits
  simp only [CallsBehindWhole] at hcall
  cases op with
  | «open» config => exact logsExactly_open h hcall hfits
  | close =>
    obtain ⟨hlog, hseq, -⟩ := logsExactly_flush h hfits
    exact ⟨hlog, hseq, fun e he => by cases he⟩
  | flush => exact logsExactly_flush h hfits
  | put ns key val =>
    obtain ⟨⟨hwhole, hahead⟩, hsmall⟩ := hcall
    refine logsExactly_onEngine h (fun e he => ?_) hfits
    simp only [RotatesAhead, he] at hahead
    have hplaced := h.engine e he
    refine Prog.wp_imp ((hplaced.inv (hwhole e he)).wp_put_small hahead (hsmall e he))
      (fun _ _ _ hq => hq) ?_
    rintro _ q fs' ⟨hq, rfl⟩
    refine ⟨?_, rfl⟩
    rw [hq]
    exact hplaced
  | putWithTtl ns key val ttl =>
    obtain ⟨hwhole, hahead⟩ := hcall
    refine logsExactly_write h hwhole (Engine.putWithTtl_frame _ _ _ _) (fun e he hinv => ?_) hfits
    simp only [RotatesAhead, he] at hahead
    exact Prog.wp_imp (hinv.wp_putWithTtl hahead) (fun _ _ _ hq => hq.inv)
      fun _ _ _ hq => ⟨by rw [hq.1], hq.2.1⟩
  | delete ns key =>
    obtain ⟨hwhole, hahead⟩ := hcall
    refine logsExactly_write h hwhole (Engine.delete_frame _ _) (fun e he hinv => ?_) hfits
    simp only [RotatesAhead, he] at hahead
    exact Prog.wp_imp (hinv.wp_delete hahead) (fun _ _ _ hq => hq.inv)
      fun _ _ _ hq => ⟨by rw [hq.1], hq.2.1⟩
  | commit ops =>
    obtain ⟨hwhole, hahead⟩ := hcall
    refine logsExactly_write h hwhole (runTransaction_frame _) (fun e he hinv => ?_) hfits
    simp only [RotatesAhead, he] at hahead
    exact Prog.wp_imp (hinv.wp_runTransaction ops hahead) (fun _ _ _ hq => hq.1.inv)
      fun _ _ _ hq => hq.elim
  | _ => exact hcall.elim

/-! ### Runs -/

/-- **A call** that appends behind whole frames grows the log by what it acknowledges. -/
theorem Placed.step (h : Placed X w) (hc : w.AppendsWhole X c) :
    Placed X (w.step X c) ∧
      walSequence X (w.step X c).fs = walSequence X w.fs ++ w.newlyAcked X c := by
  have hexact := logsExactly_perform h hc
  obtain ⟨op, clock, stop⟩ := c
  obtain rfl : stop = none := hc.stop
  exact ⟨⟨hexact.log, hexact.engine⟩, hexact.sequence⟩

/-- **A run** of such calls grows the log by what it acknowledges. -/
theorem Placed.run {calls : List Call} (h : Placed X w)
    (hcalls : Run.All (World.step X) (AppendsWhole X) w calls) :
    Placed X (Run.from (World.step X) w calls) ∧
      ∃ rs, (Run.from (World.step X) w calls).acked = w.acked ++ rs ∧
        walSequence X (Run.from (World.step X) w calls).fs = walSequence X w.fs ++ rs := by
  induction calls generalizing w with
  | nil => exact ⟨h, [], by simp, by simp⟩
  | cons c calls ih =>
    obtain ⟨hc, hcalls⟩ := hcalls
    obtain ⟨hplaced, hseq⟩ := h.step hc
    obtain ⟨hplaced', rs, hacked, hseq'⟩ := ih hplaced hcalls
    refine ⟨hplaced', w.newlyAcked X c ++ rs, ?_, ?_⟩
    · rw [Run.from_cons, hacked, acked_step, List.append_assoc]
    · rw [Run.from_cons, hseq', hseq, List.append_assoc]

/-- Recovery after calls that follow a cut of the last WAL file returns exactly the records that were
complete at the cut, followed by the ones that were acknowledged since. -/
def RecoversBehindCut (X : Externals) (w : World) (k : ℕ) (after : List Call) : Prop :=
  ∃ rs, (Run.from (World.step X) (w.tearWal k) after).acked = w.acked ++ rs ∧
    recovered X (Run.from (World.step X) (w.tearWal k) after).fs =
      .ok (replayed .empty (completeRecords X k w.fs ++ rs))

/-- **Records behind a torn tail** are recovered, wherever behind its header the last WAL file is cut, if
every write after the crash finds a whole frame at the end of the current WAL file. -/
theorem recovered_tearWal {before after : List Call} {k : ℕ}
    (hbefore : Run.All (World.step X) (WalAdmitted X) {} before) (hk : walHeader.length ≤ k)
    (hafter : Run.All (World.step X) (AppendsWhole X) ((Run.from (World.step X) {} before).tearWal k)
      after) :
    (Run.from (World.step X) {} before).RecoversBehindCut X k after := by
  have hlog := (walInv_run hbefore).log
  obtain ⟨hplaced, rs, hacked, hseq⟩ := (Placed.tearWal hlog hk).run hafter
  refine ⟨rs, hacked, ?_⟩
  rw [recovered_eq fun r hr => (hplaced.log.files.fits r hr).nsBytes_le, hseq]
  exact congrArg (fun l => Except.ok (replayed .empty (l ++ rs))) (walSequence_tearWal hlog hk)

/-- Two puts. A crash tears the last one. -/
def tornRun : List Call :=
  [{ op := .open {} }, { op := .put [1] [1] [1] }, { op := .put [1] [2] [2] }]

/-- A put behind a cut. -/
def behindRun : List Call := [{ op := .open {} }, { op := .put [1] [3] [3] }, { op := .close }]

/-- A cut between the frames, which have 82 bytes each behind a header of 8 bytes. -/
theorem recovered_tearWal_between :
    (Run.from (World.step plainExternals) {} tornRun).RecoversBehindCut plainExternals 90 behindRun :=
  recovered_tearWal (by decide +kernel) (by decide) (by decide +kernel)

/-- **A put behind a torn frame is lost**: it is acknowledged, and recovery stops in front of it. -/
theorem put_behind_torn_frame :
    ¬ (Run.from (World.step plainExternals) {} tornRun).RecoversBehindCut plainExternals 100
      behindRun := by
  rintro ⟨rs, hacked, hrecovered⟩
  have hrs : rs = (Run.from (World.step plainExternals)
      ((Run.from (World.step plainExternals) {} tornRun).tearWal 100) behindRun).acked.drop
        (Run.from (World.step plainExternals) {} tornRun).acked.length := by
    rw [hacked, List.drop_left]
  have hlost : ((recovered plainExternals (Run.from (World.step plainExternals)
      ((Run.from (World.step plainExternals) {} tornRun).tearWal 100) behindRun).fs).map fun m =>
        m.len) = .ok 1 := by
    decide +kernel
  rw [hrecovered, hrs] at hlost
  revert hlost
  decide +kernel

end World
