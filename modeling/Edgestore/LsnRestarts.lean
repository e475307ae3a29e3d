import Edgestore.Engine.StoreFrames
import Edgestore.WalOrder

/-!
# The LSN counter

An engine stamps every record it logs with the next LSN, so within a session LSNs grow. A restart finds
the counter anew, as the greatest LSN in the WAL files; segments are not asked.

## Main definitions

* `Engine.Stamps m`: the records that a method logs get LSNs above the counter
* `OpensAt X fs e fs'`: what opening finds
* `World.newlyAcked`: the records that a call acknowledges

## Main results

* `World.stamped_perform`: every call stamps its records
* `World.opensAt_of_step`: an engine that is opened takes its counter from the WAL files
-/

variable {X : Externals} {σ T α β : Type}

/-! ### What recovery finds -/

theorem maxLsn_replay {rs : List WalRecord} {acc acc' : MemTable × RecoveryResult}
    (h : rs.foldlM replayRecord acc = .ok acc') :
    acc'.2.maxLsn = (rs.map WalRecord.lsn).foldl max acc.2.maxLsn := by
  induction rs generalizing acc with
  | nil =>
    cases h
    rfl
  | cons r rs ih =>
    rw [List.foldlM_cons, replayRecord] at h
    cases hk : encodeKey r.nsBytes r.keyBytes with
    | error err =>
      rw [hk] at h
      cases h
    | ok k =>
      rw [hk] at h
      exact ih h

/-- A recovery that succeeds reports the greatest LSN in the WAL files. -/
theorem maxLsn_recoverFromWal {fs : Fs} {m m' : MemTable} {res : RecoveryResult}
    (h : recoverFromWal X fs m = .ok (m', res)) : res.maxLsn = topLsn (walSequence X fs) := by
  have hfiles : ∀ (files : List (Lsn × Bytes)) (acc acc' : MemTable × RecoveryResult),
      files.foldlM (fun acc p => replayWal X acc p.2) acc = .ok acc' →
      acc'.2.maxLsn =
        ((files.flatMap fun p => fileRecords X p.2).map WalRecord.lsn).foldl max acc.2.maxLsn := by
    intro files
    induction files with
    | nil =>
      intro acc acc' hrun
      cases hrun
      rfl
    | cons p files ih =>
      intro acc acc' hrun
      rw [List.foldlM_cons] at hrun
      cases hp : replayWal X acc p.2 with
      | error err =>
        rw [hp] at hrun
        cases hrun
      | ok acc₁ =>
        rw [hp] at hrun
        have hlsn : acc₁.2.maxLsn = ((fileRecords X p.2).map WalRecord.lsn).foldl max acc.2.maxLsn := by
          unfold replayWal at hp
          unfold fileRecords
          cases hv : readAndValidateHeader p.2 with
          | error err =>
            simp only [hv] at hp ⊢
            cases hp
            rfl
          | ok _ =>
            simp only [hv] at hp ⊢
            have hmax := maxLsn_replay hp
            exact hmax
        rw [ih acc₁ acc' hrun, hlsn, List.flatMap_cons, List.map_append, List.foldl_append]
  exact hfiles fs.wals.entries (m, {}) (m', res) h

/-! ### Stamping records -/

/-- The effect appends no record to the WAL. -/
def Effect.AppendsNone (e : Effect) : Prop := ∀ n r, e ≠ .walAppend n r

/-- A record that the effect appends has the LSN. -/
def Effect.AppendsAs (lsn : Lsn) (e : Effect) : Prop := ∀ n r, e = .walAppend n r → r.lsn = lsn

theorem Effect.AppendsNone.appendsAs {e : Effect} (h : e.AppendsNone) (lsn : Lsn) : e.AppendsAs lsn :=
  fun n r he => absurd he (h n r)

theorem Effect.IsSegment.appendsNone {e : Effect} (h : e.IsSegment) : e.AppendsNone := by
  rintro n r rfl
  exact h

theorem Effect.KeepsWal.appendsNone {e : Effect} (h : e.KeepsWal) : e.AppendsNone := by
  rintro n r rfl
  exact h

theorem Effect.IsUnlink.appendsNone {e : Effect} (h : e.IsUnlink) : e.AppendsNone := by
  rintro n r rfl
  exact h

theorem mem_appendedRecords {es : List Effect} {r : WalRecord} :
    r ∈ appendedRecords es ↔ ∃ n, Effect.walAppend n r ∈ es := by
  rw [appendedRecords, List.mem_filterMap]
  constructor
  · rintro ⟨e, he, hr⟩
    cases e <;> cases hr
    exact ⟨_, he⟩
  · rintro ⟨n, he⟩
    exact ⟨_, he, rfl⟩

theorem appendedRecords_append (es es' : List Effect) :
    appendedRecords (es ++ es') = appendedRecords es ++ appendedRecords es' := List.filterMap_append

theorem appendedRecords_eq_nil {es : List Effect} (h : ∀ e ∈ es, Effect.AppendsNone e) :
    appendedRecords es = [] := by
  refine List.eq_nil_iff_forall_not_mem.mpr fun r hr => ?_
  obtain ⟨n, he⟩ := mem_appendedRecords.mp hr
  exact h _ he n r rfl

namespace Engine

/-- The counter never falls, and the records that the method logs have LSNs above the counter before it
and not above the counter after it. -/
def Stamps (m : Exec X Engine α) : Prop :=
  ∀ p d, p.state.lsnCounter ≤ (m.run p d).2.1.state.lsnCounter ∧
    ∀ r ∈ appendedRecords (m.run p d).2.2,
      p.state.lsnCounter < r.lsn ∧ r.lsn ≤ (m.run p d).2.1.state.lsnCounter

theorem frame_lsnCounter {E : Effect → Prop} {m : Exec X Engine α} (h : Exec.Frame E walPart m) :
    Exec.Frame E lsnCounter m := fun p d => ⟨(h p d).1, congrArg (fun q => q.2.2.2.1) (h p d).2⟩

namespace Stamps

variable {m : Exec X Engine α} {k : α → Exec X Engine β}

theorem of_frame {E : Effect → Prop} (h : Exec.Frame E lsnCounter m)
    (hE : ∀ e, E e → e.AppendsNone) : Stamps m := by
  intro p d
  obtain ⟨hes, hlsn⟩ := h p d
  have hnil := appendedRecords_eq_nil fun e he => hE e (hes e he)
  refine ⟨hlsn.ge, fun r hr => ?_⟩
  rw [hnil] at hr
  cases hr

/-- A method that leaves the WAL and the counters alone. -/
theorem of_walPart {E : Effect → Prop} (h : Exec.Frame E walPart m)
    (hE : ∀ e, E e → e.AppendsNone) : Stamps m := of_frame (frame_lsnCounter h) hE

theorem silent (h : Exec.Frame (fun _ => False) lsnCounter m) : Stamps m :=
  of_frame h fun _ he => he.elim

theorem bind (hm : Stamps m) (hk : ∀ a, Stamps (k a)) : Stamps (m >>= k) := by
  intro p d
  obtain ⟨hle, hrecords⟩ := hm p d
  rcases hrun : m.run p d with ⟨res, p', es⟩
  rw [hrun] at hle hrecords
  cases res with
  | error err =>
    rw [Prog.run_bind_error hrun]
    exact ⟨hle, hrecords⟩
  | ok a =>
    rw [Prog.run_bind_ok hrun]
    obtain ⟨hle', hrecords'⟩ := hk a p' ((disk X).run es d)
    refine ⟨hle.trans hle', fun r hr => ?_⟩
    rw [appendedRecords_append] at hr
    rcases List.mem_append.mp hr with hr | hr
    · obtain ⟨hlt, hge⟩ := hrecords r hr
      exact ⟨hlt, hge.trans hle'⟩
    · obtain ⟨hlt, hge⟩ := hrecords' r hr
      exact ⟨hle.trans_lt hlt, hge⟩

/-- **Stamping**: what is logged under the next LSN. -/
theorem stamp {k : Lsn → Exec X Engine β}
    (hk : ∀ lsn, Exec.Frame (Effect.AppendsAs lsn) lsnCounter (k lsn)) : Stamps (nextLsn >>= k) := by
  intro p d
  have hnext : (nextLsn (X := X)).run p d = (.ok (p.state.lsnCounter + 1),
      ⟨{ p.state with lsnCounter := p.state.lsnCounter + 1 }, p.clock⟩, []) := rfl
  rw [Prog.run_bind_ok hnext]
  obtain ⟨hes, hlsn⟩ := hk (p.state.lsnCounter + 1)
    ⟨{ p.state with lsnCounter := p.state.lsnCounter + 1 }, p.clock⟩ ((disk X).run [] d)
  generalize (k (p.state.lsnCounter + 1)).run _ _ = q at hes hlsn ⊢
  simp only [List.nil_append] at hlsn ⊢
  refine ⟨by rw [hlsn]; exact Nat.le_succ _, fun r hr => ?_⟩
  obtain ⟨n, he⟩ := mem_appendedRecords.mp hr
  rw [hes _ he n r rfl, hlsn]
  exact ⟨Nat.lt_succ_self _, le_rfl⟩

theorem ite {c : Prop} [Decidable c] {m' : Exec X Engine α} (hm : Stamps m) (hm' : Stamps m') :
    Stamps (if c then m else m') := by
  split
  · exact hm
  · exact hm'

theorem pure (a : α) : Stamps (Pure.pure a : Exec X Engine α) := silent (.pure a)

theorem forM {f : β → Exec X Engine PUnit} (hf : ∀ b, Stamps (f b)) (l : List β) :
    Stamps (l.forM f) := by
  induction l with
  | nil => exact .pure _
  | cons b l ih => exact .bind (hf b) fun _ => ih

theorem foldlM {γ : Type} {f : γ → β → Exec X Engine γ} (hf : ∀ c b, Stamps (f c b)) (l : List β)
    (c : γ) : Stamps (l.foldlM f c) := by
  induction l generalizing c with
  | nil => exact .pure _
  | cons b l ih => exact .bind (hf c b) fun c => ih c

end Stamps

/-! ### Writes -/

theorem stamps_checkPut (ns : Bytes) : Stamps (checkPut (X := X) ns) :=
  .silent (.bind .get fun _ => .ite (fun _ => .throw _) fun _ => .ite (fun _ => .throw _) fun _ => .pure _)

theorem onWal_lsnCounter {E : Effect → Prop} {m : Exec X WalWriter α}
    (h : Exec.Frame E (fun _ => ()) m) : Exec.Frame E lsnCounter (onWal m) :=
  .zoom h fun _ _ _ => rfl

theorem createWal_appendsNone (n : Lsn) (config : EdgestoreConfig) (g : σ → T) :
    Exec.Frame Effect.AppendsNone g (WalWriter.create (X := X) n config) :=
  .bind .fs fun _ => .ite (fun _ => .throw _) fun _ => .bind (.effect fun _ _ he => by cases he)
    fun _ => .bind (.effect fun _ _ he => by cases he) fun _ => .bind .now fun _ => .pure _

/-- A rotation appends no record. -/
theorem rotateWalIfNeeded_appendsNone :
    Exec.Frame Effect.AppendsNone lsnCounter (rotateWalIfNeeded (X := X)) := by
  have hsync : Exec.Frame Effect.AppendsNone lsnCounter (onWal (X := X) WalWriter.fsync) :=
    (frame_lsnCounter syncWal_frame).mono fun _ he => he.appendsNone
  exact .bind .now fun _ => .bind .get fun _ => .ite
    (fun _ => .bind hsync fun _ => .bind .get fun _ => .bind (createWal_appendsNone _ _ _) fun _ =>
      .modify fun _ => rfl) fun _ => .pure _

theorem append_appendsAs (r : WalRecord) :
    Exec.Frame (Effect.AppendsAs r.lsn) lsnCounter (onWal (X := X) (WalWriter.append r)) := by
  refine onWal_lsnCounter (.bind .get fun w => .bind (.effect ?_) fun _ => .modify fun _ => rfl)
  rintro n r' ⟨⟩
  rfl

theorem writeRecord_appendsAs (r : WalRecord) :
    Exec.Frame (Effect.AppendsAs r.lsn) lsnCounter (writeRecord (X := X) r) :=
  .bind (append_appendsAs r) fun _ =>
    .bind (rotateWalIfNeeded_appendsNone.mono fun _ he => he.appendsAs _) fun _ => .bind (.lift _)
      fun _ => .bind (.modify fun _ => rfl) fun _ => .pure _

theorem stamps_writeEntry (ns key val : Bytes) (ttl : ℕ) :
    Stamps (writeEntry (X := X) ns key val ttl) :=
  .stamp fun _ => .bind .now fun _ => writeRecord_appendsAs _

/-- Retiring WAL files appends no record. -/
theorem stamps_finalizeFlush (m : SegmentMeta) (flushed : Lsn) :
    Stamps (finalizeFlush (X := X) m flushed) :=
  .bind (.of_walPart (onStore_frame (SegmentStore.finalizeSegment_frame m)) fun _ he => he.appendsNone)
    fun _ => .bind (.silent (.modify fun _ => rfl)) fun _ =>
      .of_frame (retireWals_frame _) fun _ he => he.appendsNone

theorem stamps_flushToSegments : Stamps (flushToSegments (X := X)) := by
  refine .bind (.of_walPart (beginFlush_frame fun _ => False) fun _ he => he.elim) fun work => ?_
  cases work with
  | none => exact .silent (.throw _)
  | some w =>
    exact .bind (.of_frame (w.execute_frame _) fun _ he => he.appendsNone) fun _ =>
      .bind (stamps_finalizeFlush _ _) fun _ => .pure _

theorem stamps_put (ns key val : Bytes) : Stamps (put (X := X) ns key val) :=
  .bind (stamps_checkPut ns) fun _ => .bind (stamps_writeEntry _ _ _ _) fun _ =>
    .bind (.silent .get) fun _ => .ite (.bind stamps_flushToSegments fun _ => .pure _) (.pure _)

theorem stamps_putWithTtl (ns key val : Bytes) (ttl : ℕ) :
    Stamps (putWithTtl (X := X) ns key val ttl) :=
  .bind (stamps_checkPut ns) fun _ => stamps_writeEntry _ _ _ _

theorem stamps_delete (ns key : Bytes) : Stamps (delete (X := X) ns key) :=
  .bind (.silent .get) fun _ => .ite (.silent (.throw _)) (.stamp fun _ => .bind .now fun _ =>
    writeRecord_appendsAs _)

theorem stamps_syncWal : Stamps (onWal (X := X) WalWriter.fsync) :=
  .of_walPart syncWal_frame fun _ he => he.appendsNone

theorem stamps_flush : Stamps (flush (X := X)) := stamps_syncWal

theorem stamps_snapshot : Stamps (snapshot (X := X)) :=
  .bind (.silent .get) fun _ => .bind (.silent (.modify fun _ => rfl)) fun _ => .pure _

theorem stamps_dropSnapshot (id : ℕ) : Stamps (dropSnapshot (X := X) id) :=
  .silent (.modify fun _ => rfl)

theorem stamps_commitRecord (r : WalRecord) : Stamps (commitRecord (X := X) r) :=
  .stamp fun lsn => .bind (append_appendsAs { r with lsn := lsn }) fun _ => .bind (.lift _) fun _ =>
    .modify fun _ => rfl

theorem stamps_runTransaction (ops : List TxOp) : Stamps (runTransaction (X := X) ops) :=
  .bind (.silent (.bind (.modify fun _ => rfl) fun _ => .bind .get fun _ => .pure _)) fun _ =>
    .bind (.silent (.lift _)) fun _ => .bind (.silent (.lift _)) fun _ =>
      .bind (.forM stamps_commitRecord _) fun _ => .bind (.silent .get) fun _ =>
      .bind stamps_syncWal fun _ => .bind (.of_frame rotateWalIfNeeded_appendsNone fun _ he => he)
        fun _ => .pure _

/-- Opening appends no record. -/
theorem open_appendsNone (config : EdgestoreConfig) (g : σ → T) :
    Exec.Frame Effect.AppendsNone g (Engine.open (X := X) config) := by
  have hwal : ∀ n : Lsn, Exec.Frame Effect.AppendsNone g (openWal (X := X) config n) := by
    intro n
    refine .bind .fs fun fs => ?_
    split
    · exact createWal_appendsNone _ _ _
    · refine .bind (.bind .fs fun fs => ?_) fun _ => .bind .now fun _ =>
        .ite (fun _ => createWal_appendsNone _ _ _) fun _ => .pure _
      split
      · exact .throw _
      · exact .bind (.lift _) fun _ => .bind .now fun _ => .pure _
  exact .bind .fs fun _ => .bind (.lift _) fun _ => .bind (hwal _) fun _ =>
    .bind ((SegmentStore.open_frame _ _).mono fun _ he => he.appendsNone) fun _ => .pure _

theorem stamps_importEntry (g : ImportProgress) (q : Bytes × MemEntry) :
    Stamps (importEntry (X := X) g q) := by
  refine .bind (.silent .get) fun _ => .bind (.silent .fs) fun _ => .ite ?_ (.pure _)
  split
  · exact .bind (.ite (.silent (.throw _)) (.stamp fun _ => writeRecord_appendsAs _)) fun _ => .pure _
  · exact .pure _
  · exact .bind (.stamp fun _ => writeRecord_appendsAs _) fun _ => .pure _
  · exact .pure _

theorem stamps_importSegment (dat : Dat) (size : ℕ) (hash : Bytes) :
    Stamps (importSegment (X := X) dat size hash) := by
  have hnone : ∀ e : Effect, e.AppendsNone → Stamps (Exec.effect e : Exec X Engine Unit) :=
    fun e he => .of_frame (E := Effect.AppendsNone) (.effect he) fun _ h => h
  refine .bind (.silent .get) fun _ => .ite (.pure _) (.ite (.pure _) (.bind (hnone _ ?_) fun _ =>
    .bind (hnone _ ?_) fun _ => ?_))
  · simp [Effect.AppendsNone]
  · simp [Effect.AppendsNone]
  split
  · exact .pure _
  · exact .pure _
  · exact .bind (.foldlM stamps_importEntry _ _) fun g =>
      .bind (.of_walPart (onStore_frame (SegmentStore.allocSegmentId_frame fun _ => False))
        fun _ he => he.elim) fun id => .bind (hnone _ (by simp [Effect.AppendsNone])) fun _ =>
      .bind stamps_syncWal fun _ => .bind (.silent .now) fun _ =>
      .bind (.of_walPart (writeSidecars_frame _ _ _) fun _ he => he.appendsNone) fun _ =>
      .bind (.silent .fs) fun _ => .bind (.silent (.lift _)) fun _ =>
      .bind (.of_walPart (onStore_frame (SegmentStore.addImportedSegment_frame _ _))
        fun _ he => he.appendsNone) fun _ => .pure _

end Engine

/-! ### Opening -/

/-- A record in a registered segment. -/
def InSegments (X : Externals) (fs : Fs) (r : MemEntry) : Prop :=
  ∃ id ∈ registeredIds X fs, ∃ p ∈ (fs.segs id).table, p.2 = r

/-- What opening finds: the counter is the greatest LSN in the WAL files, and the WAL records and the
registered segments are those of the directory before. -/
structure OpensAt (X : Externals) (fs : Fs) (e : Engine) (fs' : Fs) : Prop where
  counter : e.lsnCounter = topLsn (walSequence X fs)
  records : ∀ r, InWal X fs' r → InWal X fs r
  registered : registered X fs' = registered X fs
  segs : fs'.segs = fs.segs

/-- A WAL file that is created holds no record. -/
theorem inWal_created {fs : Fs} {n : Lsn} {r : WalRecord}
    (h : InWal X (applyEffect X (.walHeader n) (applyEffect X (.walCreate n) fs)) r) : InWal X fs r := by
  obtain ⟨p, hp, hr⟩ := h
  have hget : (fs.wals.insert n []).get n = some [] := SortedMap.get_insert_self _ _ _
  simp only [applyEffect, Fs.appendWal, hget, Option.getD_some, List.nil_append] at hp
  rcases mem_insertEntry hp with rfl | hp
  · rw [WalHolds.header.fileRecords_eq] at hr
    cases hr
  rcases mem_insertEntry hp with rfl | hp
  · rw [fileRecords_short (by simp [walHeader])] at hr
    cases hr
  exact ⟨p, hp, hr⟩

theorem wp_openWal_records (config : EdgestoreConfig) (n : Lsn) {p : Process σ} {fs : Fs} :
    Prog.wp (Engine.openWal (X := X) config n)
      ⟨fun _ _ fs' => (∀ r, InWal X fs' r → InWal X fs r) ∧ fs'.manifest = fs.manifest ∧
          fs'.segs = fs.segs,
        fun _ _ _ => True, fun _ _ => True, fun _ _ => True⟩ p fs := by
  have hcreate : ∀ (n : Lsn) (p : Process σ), Prog.wp (WalWriter.create (X := X) n config)
      ⟨fun _ _ fs' => (∀ r, InWal X fs' r → InWal X fs r) ∧ fs'.manifest = fs.manifest ∧
          fs'.segs = fs.segs,
        fun _ _ _ => True, fun _ _ => True, fun _ _ => True⟩ p fs := by
    intro n p
    simp only [WalWriter.create, Prog.wp_bind, Exec.wp_fs, Prog.wp_ite, Prog.wp_throw,
      Exec.wp_effect, Exec.wp_now, Prog.wp_pure]
    split
    · trivial
    · exact fun _ => ⟨trivial, fun _ => ⟨trivial, fun _ => inWal_created, rfl, rfl⟩⟩
  simp only [Engine.openWal, Prog.wp_bind, Exec.wp_fs]
  split
  · exact hcreate n p
  · simp only [WalWriter.open, Prog.wp_bind, Exec.wp_fs]
    split
    · simp only [Prog.wp_throw]
    · simp only [Prog.wp_bind, Prog.wp_lift, Exec.wp_now, Prog.wp_pure, Prog.wp_ite]
      generalize readAndValidateHeader _ = v
      cases v with
      | error err => trivial
      | ok _ =>
        simp only [Prog.result_ok]
        split
        · exact hcreate _ _
        · exact ⟨fun _ h => h, trivial, trivial⟩

theorem wp_openStore_registered (window : ℕ) {p : Process σ} {fs : Fs} :
    Prog.wp (SegmentStore.open (X := X) window)
      ⟨fun _ _ fs' => registered X fs' = registered X fs ∧ fs'.segs = fs.segs ∧ fs'.wals = fs.wals,
        fun _ _ _ => True, fun _ _ => True, fun _ _ => True⟩ p fs := by
  have hmanifest : Prog.wp (Manifest.open (X := X) (σ := σ))
      ⟨fun _ _ fs' => registered X fs' = registered X fs ∧ fs'.segs = fs.segs ∧ fs'.wals = fs.wals,
        fun _ _ _ => True, fun _ _ => True, fun _ _ => True⟩ p fs := by
    simp only [Manifest.open, Prog.wp_bind, Exec.wp_fs]
    split
    case h_1 hnone =>
      simp only [Prog.wp_bind, Exec.wp_effect, Prog.wp_pure]
      refine fun _ => ⟨trivial, fun _ => ⟨trivial, fun _ => ⟨trivial, ?_, rfl, rfl⟩⟩⟩
      rw [registered_none hnone]
      exact registered_header rfl
    · simp only [Prog.wp_bind, Prog.wp_lift, Prog.wp_pure]
      generalize checkManifestHeader _ = v
      cases v with
      | error err => trivial
      | ok _ => exact ⟨rfl, rfl, rfl⟩
  simp only [SegmentStore.open, Prog.wp_bind]
  refine Prog.wp_imp hmanifest ?_ fun _ _ _ _ => trivial
  rintro m q fs' hsame
  simp only [Exec.wp_fs, Prog.wp_lift, Prog.wp_pure]
  generalize List.mapM (m := Except EdgestoreError) _ _ = v
  cases v with
  | error err => trivial
  | ok _ => exact hsame

/-- **Opening an engine** takes the counter from the WAL files. -/
theorem wp_open_opensAt (config : EdgestoreConfig) {p : Process σ} {fs : Fs} :
    Prog.wp (Engine.open (X := X) config)
      ⟨fun e _ fs' => OpensAt X fs e fs', fun _ _ _ => True, fun _ _ => True, fun _ _ => True⟩ p fs := by
  simp only [Engine.open, Prog.wp_bind, Exec.wp_fs, Prog.wp_lift]
  cases hrec : recoverFromWal X fs .empty with
  | error err => trivial
  | ok recovered =>
    obtain ⟨m, res⟩ := recovered
    simp only [Prog.result_ok]
    refine Prog.wp_imp (wp_openWal_records config res.maxLsn) ?_ fun _ _ _ _ => trivial
    rintro w q fs₁ ⟨hrecords, hmanifest, hsegs⟩
    refine Prog.wp_imp (wp_openStore_registered _) ?_ fun _ _ _ _ => trivial
    rintro s q₂ fs₂ ⟨hregistered, hsegs₂, hwals₂⟩
    refine (Prog.wp_pure _).mpr ⟨maxLsn_recoverFromWal hrec, fun r hr => hrecords r ?_, ?_,
      hsegs₂.trans hsegs⟩
    · rwa [InWal, hwals₂] at hr
    · exact hregistered.trans (registered_congr hmanifest)

/-! ### Calls -/

/-- What an outcome does to LSNs: records that are logged get LSNs above the counter, and the counter
grows to the LSNs. Without an engine nothing is logged. -/
structure Outcome.Stamped (w : World) (o : Outcome) : Prop where
  closed : w.engine = none → appendedRecords o.effects = []
  above : ∀ e, w.engine = some e → ∀ r ∈ appendedRecords o.effects, e.lsnCounter < r.lsn
  counter : ∀ e, w.engine = some e → ∀ e', o.engine = some e' → e.lsnCounter ≤ e'.lsnCounter ∧
    ∀ r ∈ appendedRecords o.effects, r.lsn ≤ e'.lsnCounter

namespace World

variable {w : World} {c : Call} {clock : ℕ → ℕ}

theorem stamped_idle (ok : Bool) : (w.idle ok).Stamped w := by
  refine ⟨fun _ => rfl, fun _ _ r hr => (by cases hr), fun e he e' he' => ⟨?_, fun r hr => (by cases hr)⟩⟩
  rw [show e' = e from Option.some.inj (he'.symm.trans he)]

theorem stamped_onEngine {m : Exec X Engine α} {land : α → List Flight} (hm : Engine.Stamps m) :
    (w.onEngine X clock m land).Stamped w := by
  cases he : w.engine with
  | none =>
    simp only [onEngine, he]
    exact stamped_idle false
  | some e =>
    obtain ⟨hle, hrecords⟩ := hm ⟨e, clock⟩ w.fs
    have hstamped : ∀ e₀, some e = some e₀ → e₀ = e := fun e₀ h => (Option.some.inj h).symm
    simp only [onEngine, he]
    split
    all_goals
      refine ⟨fun h => ?_, fun e₀ he₀ r hr => ?_, fun e₀ he₀ e' he' => ?_⟩
      · rw [he] at h
        cases h
      · rw [hstamped e₀ (he ▸ he₀)]
        exact (hrecords r hr).1
      · cases he'
        rw [hstamped e₀ (he ▸ he₀)]
        exact ⟨hle, fun r hr => (hrecords r hr).2⟩

/-- An outcome without records that leaves the engine or drops it. -/
theorem stamped_silent {o : Outcome} (hnone : ∀ e ∈ o.effects, Effect.AppendsNone e)
    (hengine : ∀ e, w.engine = some e → ∀ e', o.engine = some e' → e' = e) : o.Stamped w := by
  have hnil := appendedRecords_eq_nil hnone
  refine ⟨fun _ => hnil, fun _ _ r hr => ?_, fun e he e' he' => ⟨?_, fun r hr => ?_⟩⟩
  · rw [hnil] at hr
    cases hr
  · rw [hengine e he e' he']
  · rw [hnil] at hr
    cases hr

theorem stamped_open (config : EdgestoreConfig) : (w.perform X (.open config) clock).Stamped w := by
  simp only [perform]
  split
  · exact stamped_idle false
  case h_2 he =>
    refine stamped_silent (Engine.open_appendsNone (X := X) config (fun _ : Unit => ())
      ⟨(), clock⟩ w.fs).1 fun e he₀ => ?_
    rw [he] at he₀
    cases he₀

/-- **Every call** stamps its records. -/
theorem stamped_perform : (w.perform X c.op c.clock).Stamped w := by
  obtain ⟨op, clock, stop⟩ := c
  cases op with
  | «open» config => exact stamped_open config
  | close =>
    obtain ⟨hclosed, habove, -⟩ : (w.onEngine X clock Engine.flush).Stamped w :=
      stamped_onEngine Engine.stamps_flush
    exact ⟨hclosed, habove, fun _ _ _ he' => (by cases he')⟩
  | put ns key val => exact stamped_onEngine (Engine.stamps_put _ _ _)
  | putWithTtl ns key val ttl => exact stamped_onEngine (Engine.stamps_putWithTtl _ _ _ _)
  | delete ns key => exact stamped_onEngine (Engine.stamps_delete _ _)
  | commit ops => exact stamped_onEngine (Engine.stamps_runTransaction _)
  | flush =>
    show (w.onEngine X clock Engine.flush).Stamped w
    exact stamped_onEngine Engine.stamps_flush
  | flushToSegments => exact stamped_onEngine Engine.stamps_flushToSegments
  | beginFlush =>
    exact stamped_onEngine (.of_walPart (Engine.beginFlush_frame fun _ => False) fun _ he => he.elim)
  | execute i =>
    simp only [perform, executeFlight]
    split
    · exact stamped_idle false
    case h_2 f hf =>
      have hnone := (f.work.execute_frame (X := X) fun _ : Unit => ()) ⟨(), clock⟩ w.fs
      split
      all_goals
        exact stamped_silent (fun e he => (hnone.1 e he).appendsNone)
          fun e he e' he' => Option.some.inj (he'.symm.trans he)
  | finalizeFlush i =>
    simp only [perform]
    split
    case h_1 e work m he hf =>
      have hstamped : (w.onEngine X clock (Engine.finalizeFlush m work.flushedMaxLsn)).Stamped w :=
        stamped_onEngine (Engine.stamps_finalizeFlush m work.flushedMaxLsn)
      exact ⟨hstamped.closed, hstamped.above, hstamped.counter⟩
    · exact stamped_idle false
  | abandon i => exact stamped_silent (fun _ he => (by cases he)) fun e he e' he' =>
      Option.some.inj (he'.symm.trans he)
  | compactOnce order =>
    exact stamped_onEngine (.of_walPart (Engine.compactOnce_frame order) fun _ he => he.appendsNone)
  | stripTextIndex id =>
    exact stamped_onEngine (.of_walPart (Engine.stripIndex_frame _ _) fun _ he => he.appendsNone)
  | stripVectorIndex id =>
    exact stamped_onEngine (.of_walPart (Engine.stripIndex_frame _ _) fun _ he => he.appendsNone)
  | importSegment dat size hash => exact stamped_onEngine (Engine.stamps_importSegment _ _ _)
  | snapshot =>
    show (w.onEngine X clock Engine.snapshot).Stamped w
    exact stamped_onEngine Engine.stamps_snapshot
  | dropSnapshot id =>
    show (w.onEngine X clock (Engine.dropSnapshot id)).Stamped w
    exact stamped_onEngine (Engine.stamps_dropSnapshot id)

/-- An engine that was not open before a call was opened by it. -/
theorem opensAt_of_step {e : Engine} (he : w.engine = none) (he' : (w.step X c).engine = some e) :
    OpensAt X w.fs e (w.step X c).fs := by
  obtain ⟨op, clock, _ | cut⟩ := c
  rotate_left
  · cases he'
  cases op with
  | «open» config =>
    have hwp : Prog.wp (Engine.open (X := X) (σ := Unit) config) _ ⟨(), clock⟩ w.fs :=
      wp_open_opensAt config
    have hopen := Prog.wp_result hwp Device.all_true
    simp only [step, perform, he] at he' ⊢
    generalize (Engine.open (X := X) (σ := Unit) config).run ⟨(), clock⟩ w.fs = r at hopen he' ⊢
    obtain ⟨_ | e₁, q, es⟩ := r
    · cases he'
    · cases he'
      exact hopen
  | finalizeFlush i => simp [step, perform, idle, he] at he'
  | execute i =>
    simp only [step, perform, executeFlight] at he'
    split at he'
    · simp [idle, he] at he'
    · split at he' <;> simp [he] at he'
  | _ => simp [step, perform, onEngine, idle, he] at he'

/-! ### Runs -/

/-- The records that a call acknowledges. -/
def newlyAcked (X : Externals) (w : World) (c : Call) : List WalRecord :=
  match c.stop with
  | none => if (w.perform X c.op c.clock).ok then appendedRecords (w.effects X c) else []
  | some _ => []

theorem acked_step : (w.step X c).acked = w.acked ++ w.newlyAcked X c := by
  obtain ⟨op, clock, _ | cut⟩ := c
  · simp only [step, newlyAcked, effects]
    split <;> simp
  · exact (List.append_nil _).symm

theorem newlyAcked_eq_nil (he : w.engine = none) : w.newlyAcked X c = [] := by
  have hnone := (stamped_perform (X := X) (c := c)).closed he
  obtain ⟨op, clock, _ | cut⟩ := c
  · simp only [newlyAcked, effects]
    rw [hnone, ite_self]
  · rfl

theorem mem_newlyAcked {r : WalRecord} (hr : r ∈ w.newlyAcked X c) :
    c.stop = none ∧ r ∈ appendedRecords (w.perform X c.op c.clock).effects := by
  obtain ⟨op, clock, _ | cut⟩ := c
  · simp only [newlyAcked, effects] at hr
    split at hr
    · exact ⟨rfl, hr⟩
    · cases hr
  · cases hr

end World
