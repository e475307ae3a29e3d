import Edgestore.Engine.StoreFrames
import Edgestore.Engine.StoreSpec
import Edgestore.Wal.Log
import Edgestore.World

/-!
# The engine keeps the log in order

As long as a rotation finds the LSN counter above the name of the current WAL file, the engine writes
to the last WAL file, in the order of LSNs, and no new file takes the name of an old one.

## Main definitions

* `WalLog X fs`: the WAL files form a log in the order of LSNs
* `Engine.WalInv X e fs`: the writer of an engine is at the end of that log
* `Engine.Logged X e fs rs q fs'`: a call has logged the records `rs` and applied them

## Main results

* `Engine.WalInv.wp_writeRecord`, `Engine.WalInv.wp_commitRecords`: writes log their records
* `Engine.WalInv.wp_finalizeFlush`: a flush unlinks files from the front
* `wp_openWal`: opening the WAL finds the end of the log
-/

open FramedLog

variable {X : Externals} {σ T α : Type} {fs : Fs}

/-- The records that are appended to the WAL are within the limits of their reader. -/
def FitsWal (X : Externals) : Effect → Fs → Prop
  | .walAppend _ r, _ => r.Fits X
  | _, _ => True

/-- Effects that leave WAL files as they are. -/
def Effect.KeepsWal : Effect → Prop
  | .walCreate _ => False
  | .walHeader _ => False
  | .walAppend _ _ => False
  | .walUnlink _ => False
  | _ => True

namespace Effect.KeepsWal

variable {e : Effect}

theorem wals (h : e.KeepsWal) (fs : Fs) : (applyEffect X e fs).wals = fs.wals := by
  cases e <;> first | exact h.elim | rfl

theorem walEffect (h : e.KeepsWal) (fs : Fs) : WalEffect X e fs := by
  cases e <;> first | exact h.elim | trivial

theorem of_isSegment (h : e.IsSegment) : e.KeepsWal := by
  cases e <;> first | exact h.elim | trivial

end Effect.KeepsWal

theorem walSequence_congr {fs' : Fs} (h : fs'.wals = fs.wals) :
    walSequence X fs' = walSequence X fs := by
  rw [walSequence, h, walSequence]

/-- The WAL files form a log in the order of LSNs. -/
structure WalLog (X : Externals) (fs : Fs) : Prop where
  files : WalFiles X fs
  ordered : (walSequence X fs).Pairwise fun r r' => r.lsn < r'.lsn

namespace WalLog

variable {e : Effect}

theorem congr {fs' : Fs} (h : WalLog X fs) (hfs : fs'.wals = fs.wals) : WalLog X fs' := by
  refine ⟨?_, ?_⟩
  · rw [WalFiles, hfs]
    exact h.files
  · rw [walSequence_congr hfs]
    exact h.ordered

theorem ordered_append {n : Lsn} {r : WalRecord} (h : WalLog X fs)
    (he : WalEffect X (.walAppend n r) fs) :
    (walSequence X fs ++ [r]).Pairwise fun r r' => r.lsn < r'.lsn := by
  obtain ⟨-, -, -, -, -, -, hlt⟩ := he
  refine List.pairwise_append.mpr ⟨h.ordered, List.pairwise_singleton _ _, fun a ha b hb => ?_⟩
  rw [List.mem_singleton.mp hb]
  exact hlt a ha

/-- Effects that keep the discipline keep the log. -/
theorem apply (h : WalLog X fs) (he : WalEffect X e fs) : WalLog X (applyEffect X e fs) := by
  refine ⟨he.walFiles_apply h.files, ?_⟩
  rw [he.walSequence_apply]
  cases e with
  | walAppend n r => exact h.ordered_append he
  | walUnlink n => exact h.ordered.sublist (List.drop_sublist _ _)
  | _ => exact h.ordered

/-- Effects that keep the discipline keep the log when they are cut short. -/
theorem tear (h : WalLog X fs) (he : WalEffect X e fs) (m : ℕ) :
    WalLog X (tearEffect X e m fs) := by
  refine ⟨he.walFiles_tear h.files m, ?_⟩
  rw [he.walSequence_tear m]
  cases e with
  | walAppend n r =>
    simp only
    split
    · exact h.ordered
    · exact h.ordered_append he
  | _ => exact h.ordered

end WalLog

/-- The file `n` is the last WAL file and ends at the end of a frame. -/
def WalAtEnd (X : Externals) (fs : Fs) (n : Lsn) : Prop :=
  ∃ bs rs, fs.Latest n bs ∧ WalHolds X bs rs ∧ WalClean X bs

theorem WalAtEnd.congr {fs' : Fs} {n : Lsn} (h : WalAtEnd X fs n) (hfs : fs'.wals = fs.wals) :
    WalAtEnd X fs' n := by
  obtain ⟨bs, rs, hlatest, hrest⟩ := h
  refine ⟨bs, rs, ?_, hrest⟩
  rw [Fs.Latest, hfs]
  exact hlatest

theorem WalAtEnd.le {n : Lsn} (h : WalAtEnd X fs n) : ∀ p ∈ fs.wals.entries, p.1 ≤ n := by
  obtain ⟨bs, rs, hlatest, -⟩ := h
  exact hlatest.le

/-- **Creating a WAL file** behind all others puts it at the end of the log. -/
theorem WalWriter.wp_create {n : Lsn} {config : EdgestoreConfig} {p : Process σ} (h : WalLog X fs)
    (hn : ∀ q ∈ fs.wals.entries, q.1 < n) :
    Prog.wp (WalWriter.create (X := X) n config)
      ⟨fun w q fs' => w.name = n ∧ w.bytesWritten = walHeader.length ∧
          w.walMaxBytes = config.walMaxBytes ∧ w.walMaxAgeSecs = config.walMaxAgeSecs ∧
          q.state = p.state ∧ WalLog X fs' ∧ WalAtEnd X fs' n ∧ walSequence X fs' = walSequence X fs,
        fun _ _ _ => False, FitsWal X, WalEffect X⟩ p fs := by
  have hnone : fs.wals.get n = none := by
    rw [SortedMap.get, find_eq_none_iff]
    exact fun q hq => (hn q hq).ne
  have hcreate : WalEffect X (.walCreate n) fs := hn
  have hlatest : (applyEffect X (.walCreate n) fs).Latest n [] :=
    ⟨_, SortedMap.entries_insert_of_lt hn []⟩
  have hheader : WalEffect X (.walHeader n) (applyEffect X (.walCreate n) fs) := hlatest
  simp only [WalWriter.create, Prog.wp_bind, Exec.wp_fs, hnone, Option.isSome_none, Prog.wp_ite,
    Exec.wp_effect, Exec.wp_now, Prog.wp_pure, true_and]
  refine fun _ => ⟨hcreate, fun _ => ⟨hheader, (h.apply hcreate).apply hheader, ?_, ?_⟩⟩
  · obtain ⟨pre, heq⟩ := hlatest
    exact ⟨_, [], ⟨pre, Fs.entries_appendWal heq _⟩, .header, walClean_header⟩
  · rw [hheader.walSequence_apply]
    exact hcreate.walSequence_apply

/-- The writer after appending records. -/
def WalWriter.appended (X : Externals) (w : WalWriter) (rs : List WalRecord) : WalWriter :=
  { w with bytesWritten := w.bytesWritten + (frames (walFormat X) rs).length }

/-- The records under the LSNs that follow `lsn`. -/
def stamped (lsn : Lsn) : List WalRecord → List WalRecord
  | [] => []
  | r :: rs => { r with lsn := lsn + 1 } :: stamped (lsn + 1) rs

@[simp] theorem length_stamped (lsn : Lsn) (rs : List WalRecord) :
    (stamped lsn rs).length = rs.length := by
  induction rs generalizing lsn with
  | nil => rfl
  | cons r rs ih => simp [stamped, ih]

theorem nsBytes_stamped (lsn : Lsn) (rs : List WalRecord) :
    (stamped lsn rs).map WalRecord.nsBytes = rs.map WalRecord.nsBytes := by
  induction rs generalizing lsn with
  | nil => rfl
  | cons r rs ih => simp [stamped, ih]

/-- The record of an operation of a transaction, before it has an LSN. -/
def TxOp.record (X : Externals) (txid : ℕ) (o : TxOp) : WalRecord where
  txid := txid
  lsn := o.lsn
  timestamp := o.timestamp
  ttl := o.ttl
  nsLen := o.ns.length % 65536
  nsBytes := o.ns
  keyBytes := o.key
  op := o.op
  valueHash := X.blake3 o.val
  valueBytes := o.val

/-- Filling an active transaction. -/
theorem TxOp.addAll_eq (ops : List TxOp) (tx : Transaction) (h : tx.state = .active) :
    TxOp.addAll X tx ops =
      .ok { tx with pending := tx.pending ++ ops.map (TxOp.record X tx.txid) } := by
  induction ops generalizing tx with
  | nil => simp [TxOp.addAll]; rfl
  | cons o ops ih =>
    have hpush : tx.push X o.op o.ns o.key o.val o.ttl o.lsn o.timestamp =
        .ok { tx with pending := tx.pending ++ [TxOp.record X tx.txid o] } := by
      rw [Transaction.push, if_neg (by simp [h])]
      rfl
    rw [TxOp.addAll, List.foldlM_cons, hpush]
    refine (ih { tx with pending := tx.pending ++ [TxOp.record X tx.txid o] } h).trans ?_
    simp

namespace Engine

variable {e : Engine} {clock : ℕ → ℕ} {record : WalRecord}

/-- The writer of an engine is at the end of the log, and the LSN counter has reached all LSNs. -/
structure WalInv (X : Externals) (e : Engine) (fs : Fs) : Prop where
  log : WalLog X fs
  atEnd : WalAtEnd X fs e.wal.name
  counter : ∀ r ∈ walSequence X fs, r.lsn ≤ e.lsnCounter
  memtable : ∀ p ∈ e.memtable.entries, p.2.lsn ≤ e.lsnCounter

/-- The writer of an engine is in the last WAL file, which may end with a torn frame, and the LSN counter
has reached all LSNs. -/
structure WalPlaced (X : Externals) (e : Engine) (fs : Fs) : Prop where
  log : WalLog X fs
  placed : ∃ bs rs, fs.Latest e.wal.name bs ∧ WalHolds X bs rs
  counter : ∀ r ∈ walSequence X fs, r.lsn ≤ e.lsnCounter
  memtable : ∀ p ∈ e.memtable.entries, p.2.lsn ≤ e.lsnCounter

/-- The current WAL file ends at the end of a frame. -/
def EndsWhole (X : Externals) (e : Engine) (fs : Fs) : Prop :=
  ∀ bs ∈ fs.wals.get e.wal.name, WalClean X bs

namespace WalInv

/-- The invariant speaks about the WAL files and the part of the engine that writes them. -/
theorem congr {e' : Engine} {fs' : Fs} (h : WalInv X e fs) (he : e'.walPart = e.walPart)
    (hfs : fs'.wals = fs.wals) : WalInv X e' fs' := by
  rw [eq_of_walPart he]
  refine ⟨h.log.congr hfs, h.atEnd.congr hfs, ?_, h.memtable⟩
  rw [walSequence_congr hfs]
  exact h.counter

theorem placed (h : WalInv X e fs) : WalPlaced X e fs := by
  obtain ⟨bs, rs, hlatest, hholds, -⟩ := h.atEnd
  exact ⟨h.log, ⟨bs, rs, hlatest, hholds⟩, h.counter, h.memtable⟩

end WalInv

namespace WalPlaced

theorem inv (h : WalPlaced X e fs) (hwhole : EndsWhole X e fs) : WalInv X e fs := by
  obtain ⟨bs, rs, hlatest, hholds⟩ := h.placed
  exact ⟨h.log, ⟨bs, rs, hlatest, hholds, hwhole bs hlatest.get_eq⟩, h.counter, h.memtable⟩

theorem congr {e' : Engine} {fs' : Fs} (h : WalPlaced X e fs) (he : e'.walPart = e.walPart)
    (hfs : fs'.wals = fs.wals) : WalPlaced X e' fs' := by
  obtain ⟨bs, rs, hlatest, hholds⟩ := h.placed
  rw [eq_of_walPart he]
  refine ⟨h.log.congr hfs, ⟨bs, rs, ?_, hholds⟩, ?_, h.memtable⟩
  · rw [Fs.Latest, hfs]
    exact hlatest
  · rw [walSequence_congr hfs]
    exact h.counter

end WalPlaced

/-- A program that leaves the WAL files alone. -/
theorem wp_keepsWal {g : σ → T} {m : Exec X σ α} {p : Process σ}
    (hf : Exec.Frame Effect.KeepsWal g m) :
    Prog.wp m
      ⟨fun _ q fs' => g q.state = g p.state ∧ fs'.wals = fs.wals,
        fun _ q fs' => g q.state = g p.state ∧ fs'.wals = fs.wals, FitsWal X, WalEffect X⟩ p fs := by
  refine Prog.wp_inv (I := fun fs' : Fs => fs'.wals = fs.wals) ?_ (hf.wp _) rfl
  exact fun f d _ hf hd => ⟨hf.walEffect d, (hf.wals d).trans hd⟩

/-! ### Writes -/

/-- A call has logged the records `rs` and applied them to the memtable. -/
structure Logged (X : Externals) (e : Engine) (fs : Fs) (rs : List WalRecord) (e' : Engine)
    (fs' : Fs) : Prop where
  inv : WalInv X e' fs'
  sequence : walSequence X fs' = walSequence X fs ++ rs
  engine : e' = { e with
    wal := e'.wal
    memtable := replayed e.memtable rs
    lsnCounter := e.lsnCounter + rs.length }

/-- **Appending a record** under the next LSN. -/
theorem WalInv.wp_append (h : WalInv X e fs) (hlsn : record.lsn = e.lsnCounter + 1) :
    Prog.wp (onWal (X := X) (WalWriter.append record))
      ⟨fun _ q fs' => record.Fits X ∧
          q = ⟨{ e with
            lsnCounter := e.lsnCounter + 1
            wal := e.wal.appended X [record] }, clock⟩ ∧
          WalInv X q.state fs' ∧ walSequence X fs' = walSequence X fs ++ [record],
        fun _ _ _ => False, FitsWal X, WalEffect X⟩
      ⟨{ e with lsnCounter := e.lsnCounter + 1 }, clock⟩ fs := by
  obtain ⟨bs, rs, hlatest, hholds, hclean⟩ := h.atEnd
  simp only [onWal, Exec.wp_zoom, WalWriter.append, Prog.wp_bind, Exec.wp_get, Exec.wp_effect,
    Exec.wp_modify]
  intro hfits
  have heffect : WalEffect X (.walAppend e.wal.name record) fs :=
    ⟨bs, rs, hlatest, hholds, hclean, hfits,
      fun r hr => hlsn ▸ Nat.lt_succ_of_le (h.counter r hr)⟩
  have hseq : walSequence X (applyEffect X (.walAppend e.wal.name record) fs) =
      walSequence X fs ++ [record] := heffect.walSequence_apply
  obtain ⟨pre, heq⟩ := hlatest
  refine ⟨heffect, hfits, ?_, ⟨h.log.apply heffect, ?_, ?_, ?_⟩, hseq⟩
  · simp [WalWriter.appended]
  · exact ⟨_, _, ⟨pre, Fs.entries_appendWal heq _⟩, hholds.append hclean hfits⟩
  · intro r hr
    rw [hseq] at hr
    rcases List.mem_append.mp hr with hr | hr
    · exact (h.counter r hr).trans (Nat.le_succ _)
    · rw [List.mem_singleton.mp hr, hlsn]
  · exact fun p hp => (h.memtable p hp).trans (Nat.le_succ _)

/-- **A rotation** creates a file behind all others, if the LSN counter is above the name of the
current one. -/
theorem WalInv.wp_rotateWalIfNeeded (h : WalInv X e fs)
    (hahead : e.wal.needsRotation (unixSecs (clock 0)) = true → e.wal.name < e.lsnCounter) :
    Prog.wp (rotateWalIfNeeded (X := X))
      ⟨fun _ q fs' => WalInv X q.state fs' ∧ walSequence X fs' = walSequence X fs ∧
          q.state = { e with wal := q.state.wal } ∧
          (q.state.wal.name = e.wal.name ∨ q.state.wal.name = e.lsnCounter),
        fun _ _ _ => False, FitsWal X, WalEffect X⟩ ⟨e, clock⟩ fs := by
  simp only [rotateWalIfNeeded, Prog.wp_bind, Exec.wp_now, Exec.wp_get, Prog.wp_ite, onWal,
    Exec.wp_zoom, WalWriter.fsync, Exec.wp_effect, Prog.wp_pure]
  split
  case isTrue hdue =>
    refine fun _ => ⟨trivial, ?_⟩
    have hlt : ∀ q ∈ fs.wals.entries, q.1 < e.lsnCounter := fun q hq =>
      (h.atEnd.le q hq).trans_lt (hahead hdue)
    refine Prog.wp_imp (WalWriter.wp_create h.log hlt) ?_ (fun _ _ _ he => he)
    rintro w ⟨e', clock'⟩ fs' ⟨hname, -, -, -, rfl, hlog, hend, hseq⟩
    simp only [Exec.wp_modify, true_and]
    refine ⟨⟨hlog, by rwa [hname], ?_, h.memtable⟩, hseq, .inr hname⟩
    rw [hseq]
    exact h.counter
  case isFalse => exact ⟨h, trivial, trivial, .inl trivial⟩

/-- A rotation is due and asks for a file that exists. -/
def Collides (e : Engine) (fs : Fs) (nanos : ℕ) : Prop :=
  e.wal.needsRotation (unixSecs nanos) = true ∧ (fs.wals.get e.lsnCounter).isSome = true

/-- **Any rotation** leaves the log; it fails if it asks for a file that exists. -/
theorem wp_rotateWalIfNeeded_leaves :
    Prog.wp (rotateWalIfNeeded (X := X))
      ⟨fun _ q _ => q.state = { e with wal := q.state.wal } ∧ ¬ e.Collides fs (clock 0),
        fun _ q fs' => q.state = e ∧ fs' = fs ∧ e.Collides fs (clock 0),
        fun _ _ => True, LeavesLog X⟩ ⟨e, clock⟩ fs := by
  simp only [rotateWalIfNeeded, Prog.wp_bind, Exec.wp_now, Exec.wp_get, Prog.wp_ite, onWal,
    Exec.wp_zoom, WalWriter.fsync, Exec.wp_effect, Prog.wp_pure, WalWriter.create, Exec.wp_fs,
    Prog.wp_throw, Exec.wp_modify]
  split
  case isTrue hdue =>
    refine fun _ => ⟨⟨rfl, fun m => rfl⟩, ?_⟩
    split
    case isTrue htaken => exact ⟨trivial, rfl, hdue, htaken⟩
    case isFalse hfree =>
      have hnone : fs.wals.get e.lsnCounter = none := Option.not_isSome_iff_eq_none.mp hfree
      refine fun _ => ⟨.create hnone, fun _ => ⟨.header ?_, trivial, fun hc => hfree hc.2⟩⟩
      exact SortedMap.get_insert_self ..
  case isFalse hdue => exact ⟨trivial, fun hc => hdue hc.1⟩

theorem WalInv.insert (h : WalInv X e fs) {k : Bytes} {m : MemEntry} (hm : m.lsn ≤ e.lsnCounter) :
    WalInv X { e with memtable := e.memtable.insert k m } fs := by
  refine ⟨h.log, h.atEnd, h.counter, fun p hp => ?_⟩
  rcases mem_insertEntry hp with rfl | hp
  · exact hm
  · exact h.memtable p hp

/-- **A write** logs its record and applies it. -/
theorem WalInv.wp_writeRecord (h : WalInv X e fs) (hlsn : record.lsn = e.lsnCounter + 1)
    (hahead : (e.wal.appended X [record]).needsRotation (unixSecs (clock 0)) = true →
      e.wal.name ≤ e.lsnCounter) :
    Prog.wp (writeRecord (X := X) record)
      ⟨fun lsn q fs' => lsn = record.lsn ∧ Logged X e fs [record] q.state fs' ∧
          (q.state.wal.name = e.wal.name ∨ q.state.wal.name = e.lsnCounter + 1),
        fun _ _ _ => False, FitsWal X, WalEffect X⟩
      ⟨{ e with lsnCounter := e.lsnCounter + 1 }, clock⟩ fs := by
  rw [writeRecord, Prog.wp_bind]
  refine Prog.wp_imp (h.wp_append hlsn) ?_ (fun _ _ _ he => he)
  rintro _ q fs₁ ⟨hfits, rfl, h₁, hseq₁⟩
  rw [Prog.wp_bind]
  refine Prog.wp_imp (h₁.wp_rotateWalIfNeeded fun hdue => ?_) ?_ (fun _ _ _ he => he)
  · exact Nat.lt_succ_of_le (hahead hdue)
  · rintro _ ⟨e₂, clock₂⟩ fs₂ ⟨h₂, hseq₂, he₂, hname⟩
    simp only at he₂ hname
    have hlsn₂ : record.lsn ≤ e₂.lsnCounter := by
      rw [he₂, hlsn]
    simp only [Prog.wp_bind, encodeKey_record hfits.nsBytes_le, Prog.wp_lift, Prog.result_ok, Exec.wp_modify,
      Prog.wp_pure, true_and]
    refine ⟨⟨h₂.insert hlsn₂, by rw [hseq₂, hseq₁], ?_⟩, hname⟩
    rw [he₂]
    rfl

/-- **A commit** logs the records of the transaction one after the other. -/
theorem WalInv.wp_commitRecords (h : WalInv X e fs) (records : List WalRecord) :
    Prog.wp (records.forM (commitRecord (X := X)))
      ⟨fun _ q fs' => Logged X e fs (stamped e.lsnCounter records) q.state fs' ∧
          q.state.wal = e.wal.appended X (stamped e.lsnCounter records) ∧ q.clock = clock,
        fun _ _ _ => False, FitsWal X, WalEffect X⟩ ⟨e, clock⟩ fs := by
  induction records generalizing e fs with
  | nil =>
    refine (Prog.wp_pure _).mpr ⟨⟨h, by simp [stamped], ?_⟩, ?_, rfl⟩
    · simp [stamped]
    · simp [stamped, WalWriter.appended]
  | cons r records ih =>
    have hcons : (r :: records).forM (commitRecord (X := X)) =
        commitRecord r >>= fun _ => records.forM commitRecord := rfl
    rw [hcons, Prog.wp_bind]
    simp only [commitRecord, nextLsn, Prog.wp_bind, Exec.wp_modify, Exec.wp_get, Prog.wp_pure]
    refine Prog.wp_imp (h.wp_append (rfl : ({ r with lsn := e.lsnCounter + 1 } : WalRecord).lsn = _)) ?_
      (fun _ _ _ he => he)
    rintro _ q fs₁ ⟨hfits, rfl, h₁, hseq₁⟩
    have hkey : encodeKey r.nsBytes r.keyBytes = .ok r.encodedKey :=
      encodeKey_record (r := r) hfits.nsBytes_le
    simp only [hkey, Prog.wp_lift, Prog.result_ok]
    refine Prog.wp_imp (ih (h₁.insert le_rfl)) ?_ (fun _ _ _ he => he)
    rintro _ ⟨e₂, clock₂⟩ fs₂ ⟨⟨h₂, hseq₂, he₂⟩, hwal, hclock⟩
    simp only at he₂ hwal hclock hseq₂ ⊢
    refine ⟨⟨h₂, ?_, ?_⟩, ?_, hclock⟩
    · rw [hseq₂, hseq₁, stamped, List.append_assoc, List.singleton_append]
    · rw [he₂]
      simp only [stamped, replayed_cons, List.length_cons, length_stamped, Nat.add_assoc,
        Nat.add_comm 1]
      rfl
    · rw [hwal, stamped]
      simp [WalWriter.appended, Nat.add_assoc]

/-- **A transaction** logs and applies its records. -/
theorem WalInv.wp_runTransaction (h : WalInv X e fs) (ops : List TxOp)
    (hahead : (e.wal.appended X (stamped e.lsnCounter (ops.map (TxOp.record X (e.txidCounter + 1))))
      ).needsRotation (unixSecs (clock 0)) = true → e.wal.name < e.lsnCounter + ops.length) :
    Prog.wp (runTransaction (X := X) ops)
      ⟨fun _ q fs' => Logged X { e with txidCounter := e.txidCounter + 1 } fs
          (stamped e.lsnCounter (ops.map (TxOp.record X (e.txidCounter + 1)))) q.state fs' ∧
          (q.state.wal.name = e.wal.name ∨ q.state.wal.name = e.lsnCounter + ops.length),
        fun _ _ _ => False, FitsWal X, WalEffect X⟩ ⟨e, clock⟩ fs := by
  simp only [runTransaction, begin, commitTransaction, Prog.wp_bind, Exec.wp_modify, Exec.wp_get,
    Prog.wp_pure, Prog.wp_lift]
  rw [TxOp.addAll_eq ops _ rfl]
  simp only [Prog.result_ok, Transaction.takePending, List.nil_append]
  have h' : WalInv X { e with txidCounter := e.txidCounter + 1 } fs :=
    ⟨h.log, h.atEnd, h.counter, h.memtable⟩
  refine Prog.wp_imp (h'.wp_commitRecords _) ?_ (fun _ _ _ he => he)
  rintro _ ⟨e₁, clock₁⟩ fs₁ ⟨⟨h₁, hseq₁, he₁⟩, hwal, hclock⟩
  simp only at he₁ hwal hclock hseq₁
  simp only [Exec.wp_get, Prog.wp_bind, onWal, Exec.wp_zoom, WalWriter.fsync, Exec.wp_effect]
  refine fun _ => ⟨trivial, ?_⟩
  have hname₁ : e₁.wal.name = e.wal.name := by rw [hwal]; rfl
  have hlsn₁ : e₁.lsnCounter = e.lsnCounter + ops.length := by rw [he₁]; simp
  refine Prog.wp_imp (h₁.wp_rotateWalIfNeeded fun hdue => ?_) ?_
    (fun _ _ _ he => he)
  · rw [hname₁, hlsn₁]
    refine hahead ?_
    rw [← hwal, ← hclock]
    exact hdue
  · rintro _ ⟨e₂, clock₂⟩ fs₂ ⟨h₂, hseq₂, he₂, hname₂⟩
    simp only at he₂ hname₂ ⊢
    refine ⟨⟨h₂, hseq₂.trans hseq₁, ?_⟩, ?_⟩
    · rw [he₂, he₁]
    · rwa [hname₁, hlsn₁] at hname₂

end Engine
