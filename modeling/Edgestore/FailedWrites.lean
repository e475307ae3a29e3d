import Edgestore.Engine.Commit
import Edgestore.Engine.Reads
import Edgestore.PlainExternals

/-!
# Writes that fail

A write appends its record to the WAL before other steps that may fail: the rotation of the WAL, the
encoding of the key where no check came before, and the automatic flush. A call that fails in one of
them leaves its record in the log, or in the memtable. The append itself may fail too, when part of the
frame is in the file: then the LSN is taken, and the records of a transaction in front of it are written.

## Main definitions

* `World.NoTrace X w w'`: reads are the same, and nothing has become visible or replayable
* `Unreadable X r`: a reader of the WAL finds nothing in the frame of a record
* `World.FailsClean X w e c`: the failing calls that leave no trace
* `World.untilAppend X op k`: what a write does in front of its append number `k`
* `World.refused X w c k m`: a write whose append number `k` fails, behind `m` bytes of the frame

## Main results

* `World.noTrace_iff`: a failing write leaves no trace if and only if it fails before its append, in the
  append of its first record, or in front of the memtable and with an unreadable record
* `World.colliding_put_leaves_record`: a put that fails in a rotation, and is replayed later
-/

open FramedLog

variable {X : Externals} {fs : Fs} {e : Engine} {clock : ℕ → ℕ} {r : WalRecord}

/-! ### Reads -/

theorem SegmentStore.firstHit_congr {fs' : Fs} (h : fs'.segs = fs.segs) (key : Bytes)
    (readers : List SegmentReader) :
    SegmentStore.firstHit X fs' key readers = SegmentStore.firstHit X fs key readers := by
  induction readers with
  | nil => rfl
  | cons r readers ih =>
    have hget : r.get X fs' key = r.get X fs key := by
      have hsegs : ∀ d : Fs, r.get X d key = r.get X { segs := d.segs } key := fun _ => rfl
      rw [hsegs, h, ← hsegs]
    rw [SegmentStore.firstHit, SegmentStore.firstHit, hget, ih]

/-- `get` reads the memtable and the files of segments. -/
theorem Engine.get_congr {e' : Engine} {fs' : Fs} (hmem : e'.memtable = e.memtable)
    (hstore : e'.segmentStore = e.segmentStore) (h : fs'.segs = fs.segs) (ns key : Bytes) :
    e'.get X fs' ns key = e.get X fs ns key := by
  simp only [Engine.get, SegmentStore.get, hmem, hstore, SegmentStore.firstHit_congr h]

/-- `range` reads the memtable and the files of segments. -/
theorem Engine.range_congr {e' : Engine} {fs' : Fs} (hmem : e'.memtable = e.memtable)
    (hstore : e'.segmentStore = e.segmentStore) (h : fs'.segs = fs.segs) (ns start «end» : Bytes) :
    e'.range fs' ns start «end» = e.range fs ns start «end» := by
  have hscan : ∀ (d : Fs) (s : SegmentStore) (a b : Bytes) (m : Option ℕ),
      s.rangeScanBudgeted d a b m = s.rangeScanBudgeted { segs := d.segs } a b m :=
    fun _ _ _ _ _ => rfl
  simp only [Engine.range, Engine.rangeCore, hmem, hstore]
  simp only [hscan fs', hscan fs, h]

/-! ### Frames without a rely -/

theorem wp_sameStore {σ T α : Type} {g : σ → T} {m : Exec X σ α} {p : Process σ}
    (hf : Exec.Frame Effect.IsLog g m) :
    Prog.wp m
      ⟨fun _ q fs' => g q.state = g p.state ∧ SameStore fs fs',
        fun _ q fs' => g q.state = g p.state ∧ SameStore fs fs', fun _ _ => True,
        fun _ _ => True⟩ p fs := by
  refine Prog.wp_inv (I := SameStore fs) ?_ (hf.wp _) ⟨rfl, rfl, rfl⟩
  rintro e d - he ⟨hman, hsegs, hstaged⟩
  obtain ⟨hman', hsegs', hstaged'⟩ := he.isWal.apply (X := X) d
  exact ⟨trivial, hman'.trans hman, hsegs'.trans hsegs, hstaged'.trans hstaged⟩

/-! ### What a failed write leaves -/

/-- A reader of the WAL finds nothing in the frame of a record. -/
def Unreadable (X : Externals) (r : WalRecord) : Prop :=
  read (walFormat X) (frame (walFormat X) r) = []

instance (X : Externals) (r : WalRecord) : Decidable (Unreadable X r) :=
  inferInstanceAs (Decidable (_ = _))

/-- A reader of the WAL finds nothing in the first `m` bytes of the frame of a record. -/
def UnreadableCut (X : Externals) (r : WalRecord) (m : ℕ) : Prop :=
  read (walFormat X) ((frame (walFormat X) r).take m) = []

instance (X : Externals) (r : WalRecord) (m : ℕ) : Decidable (UnreadableCut X r m) :=
  inferInstanceAs (Decidable (_ = _))

namespace Engine

/-- The call has added `rs` to the log and has touched nothing else that reads depend on. -/
structure Stranded (X : Externals) (e : Engine) (fs : Fs) (rs : List WalRecord) (e' : Engine)
    (fs' : Fs) : Prop where
  memtable : e'.memtable = e.memtable
  store : e'.segmentStore = e.segmentStore
  same : SameStore fs fs'
  log : walSequence X fs' = walSequence X fs ++ rs

/-- The call has applied a write to the memtable. -/
def Applied (e e' : Engine) : Prop := ∃ p ∈ e'.memtable.entries, e.lsnCounter < p.2.lsn

theorem Stranded.refl : Stranded X e fs [] e fs :=
  ⟨rfl, rfl, ⟨rfl, rfl, rfl⟩, (List.append_nil _).symm⟩

/-- A rotation after an append asks for a file that exists. -/
def RotationCollides (X : Externals) (e : Engine) (fs : Fs) (r : WalRecord) (nanos : ℕ) : Prop :=
  e.dueAfter X [r] nanos ∧ (fs.wals.get (e.lsnCounter + 1)).isSome = true

instance (X : Externals) (e : Engine) (fs : Fs) (r : WalRecord) (nanos : ℕ) :
    Decidable (e.RotationCollides X fs r nanos) := inferInstanceAs (Decidable (_ ∧ _))

end Engine

/-- Appending any bytes adds to the log what a reader finds in them. -/
theorem WalAtEnd.walSequence_appendWal {n : Lsn} (h : WalAtEnd X fs n) (x : Bytes) :
    walSequence X (fs.appendWal n x) = walSequence X fs ++ read (walFormat X) x := by
  obtain ⟨bs, rs, ⟨pre, heq⟩, hholds, hclean⟩ := h
  rw [walSequence_of_entries heq, walSequence_of_entries (Fs.entries_appendWal heq _),
    hholds.fileRecords_eq, List.append_assoc]
  congr 1
  obtain ⟨body, rfl, hbody, -⟩ := hholds
  rw [WalClean, List.drop_left] at hclean
  rw [List.append_assoc, fileRecords, readAndValidateHeader_walHeader]
  simp only [readRecords, List.drop_left]
  exact hbody.read_append hclean _

/-- Appending any record adds to the log what a reader finds in its frame. -/
theorem WalAtEnd.walSequence_append {n : Lsn} (h : WalAtEnd X fs n) (r : WalRecord) :
    walSequence X (applyEffect X (.walAppend n r) fs) =
      walSequence X fs ++ read (walFormat X) (frame (walFormat X) r) := h.walSequence_appendWal _

/-- An append creates no file. -/
theorem WalAtEnd.isSome_append {n k : Lsn} (h : WalAtEnd X fs n) (r : WalRecord) :
    ((applyEffect X (.walAppend n r) fs).wals.get k).isSome = (fs.wals.get k).isSome := by
  obtain ⟨bs, rs, hlatest, -⟩ := h
  simp only [applyEffect, Fs.appendWal, SortedMap.get_insert]
  split
  case isTrue hk => rw [← hk, hlatest.get_eq]; rfl
  case isFalse => rfl

namespace Engine

/-- A rotation, whether it fails or not, leaves the log and everything but WAL files. -/
theorem wp_rotateWalIfNeeded_any :
    Prog.wp (rotateWalIfNeeded (X := X))
      ⟨fun _ q fs' => q.state = { e with wal := q.state.wal } ∧ ¬ e.Collides fs (clock 0) ∧
          SameStore fs fs' ∧ walSequence X fs' = walSequence X fs,
        fun _ q fs' => q.state = e ∧ fs' = fs ∧ e.Collides fs (clock 0),
        fun _ _ => True, fun _ _ => True⟩ ⟨e, clock⟩ fs := by
  have hlog : Prog.wp (rotateWalIfNeeded (X := X))
      ⟨fun _ q fs' => (q.state = { e with wal := q.state.wal } ∧ ¬ e.Collides fs (clock 0)) ∧
          walSequence X fs' = walSequence X fs,
        fun _ q fs' => (q.state = e ∧ fs' = fs ∧ e.Collides fs (clock 0)) ∧
          walSequence X fs' = walSequence X fs,
        fun _ _ => True, fun _ _ => True⟩ ⟨e, clock⟩ fs := by
    refine Prog.wp_inv (I := fun fs' : Fs => walSequence X fs' = walSequence X fs) ?_
      wp_rotateWalIfNeeded_leaves rfl
    exact fun _ _ _ he hI => ⟨trivial, he.1.trans hI⟩
  refine Prog.wp_mono (Prog.wp_and hlog (wp_sameStore rotateWalIfNeeded_frame)) ?_ ?_
    (fun _ _ _ => ⟨trivial, trivial⟩) (fun _ _ _ _ => trivial)
  · rintro _ q fs' ⟨⟨⟨hq, hfree⟩, hseq⟩, -, hsame⟩
    exact ⟨hq, hfree, hsame, hseq⟩
  · rintro _ q fs' ⟨⟨hq, -⟩, -⟩
    exact hq

/-- The engine and the directory behind the append of a record under the next LSN. -/
def appending (X : Externals) (e : Engine) (r : WalRecord) : Engine :=
  { e with lsnCounter := e.lsnCounter + 1, wal := e.wal.appended X [r] }

theorem WalInv.stranded_append (h : WalInv X e fs) :
    Stranded X e fs (read (walFormat X) (frame (walFormat X) r)) (e.appending X r)
      (applyEffect X (.walAppend e.wal.name r) fs) :=
  ⟨rfl, rfl, ⟨rfl, rfl, rfl⟩, h.atEnd.walSequence_append r⟩

theorem WalInv.collides_append (h : WalInv X e fs) {nanos : ℕ} :
    (e.appending X r).Collides (applyEffect X (.walAppend e.wal.name r) fs) nanos ↔
      e.RotationCollides X fs r nanos := by
  rw [Collides, RotationCollides, dueAfter, ← h.atEnd.isSome_append r]
  rfl

theorem encodeKey_error {ns key : Bytes} {err : EdgestoreError}
    (h : encodeKey ns key = .error err) : maxNsLen < ns.length := by
  by_contra hns
  rw [encodeKey_eq_ok.mpr ⟨not_lt.mp hns, rfl⟩] at h
  cases h

/-- Applying a record under the next LSN. -/
theorem applied_insert {m : MemTable} {k : Bytes} {v : MemEntry} (hv : e.lsnCounter < v.lsn) :
    ∃ p ∈ (m.insert k v).entries, e.lsnCounter < p.2.lsn :=
  ⟨(k, v), mem_of_find (SortedMap.get_insert_self m k v), hv⟩

/-- **A write of a record** that fails has appended it and not applied it. -/
theorem WalInv.wp_writeRecord_any (h : WalInv X e fs) (hr : r.lsn = e.lsnCounter + 1) :
    Prog.wp (writeRecord (X := X) r)
      ⟨fun _ q _ => Applied e q.state ∧ ¬ e.RotationCollides X fs r (clock 0),
        fun _ q fs' =>
          Stranded X e fs (read (walFormat X) (frame (walFormat X) r)) q.state fs' ∧
            (e.RotationCollides X fs r (clock 0) ∨ maxNsLen < r.nsBytes.length),
        fun _ _ => True, fun _ _ => True⟩ ⟨{ e with lsnCounter := e.lsnCounter + 1 }, clock⟩ fs := by
  have happend := h.stranded_append (r := r)
  have hwriter : { e with
      lsnCounter := e.lsnCounter + 1
      wal := { e.wal with
        bytesWritten := e.wal.bytesWritten + (frame (walFormat X) r).length } } =
      e.appending X r := by
    simp [appending, WalWriter.appended]
  simp only [writeRecord, onWal, Prog.wp_bind, Exec.wp_zoom, WalWriter.append, Exec.wp_get,
    Exec.wp_effect, Exec.wp_modify, hwriter]
  refine fun _ => ⟨trivial, ?_⟩
  refine Prog.wp_imp wp_rotateWalIfNeeded_any ?_ ?_
  · rintro _ ⟨e₁, clock₁⟩ fs₁ ⟨he₁, hfree, hsame, hseq⟩
    rw [h.collides_append] at hfree
    simp only at he₁
    cases hkey : encodeKey r.nsBytes r.keyBytes with
    | ok k =>
      simp only [Prog.wp_lift, Prog.result_ok, Prog.wp_pure]
      exact ⟨applied_insert (by simp [WalRecord.toEntry, hr]), hfree⟩
    | error err =>
      simp only [Prog.wp_lift, Prog.result_error]
      exact ⟨⟨by rw [he₁]; rfl, by rw [he₁]; rfl, ⟨hsame.manifest, hsame.segs, hsame.staged⟩,
        hseq.trans happend.log⟩, .inr (encodeKey_error hkey)⟩
  · rintro _ ⟨e₁, clock₁⟩ fs₁ ⟨rfl, rfl, hc⟩
    exact ⟨happend, .inl (h.collides_append.mp hc)⟩

/-! ### The writes -/

/-- How a put fails: before its append, in the rotation, or in the automatic flush. -/
def FailedPut (X : Externals) (e : Engine) (fs : Fs) (r : WalRecord) (nanos : ℕ) (e' : Engine)
    (fs' : Fs) : Prop :=
  ((e.config.readonly = true ∨ maxNsLen < r.nsBytes.length) ∧ Stranded X e fs [] e' fs') ∨
    (e.config.readonly = false ∧ r.nsBytes.length ≤ maxNsLen) ∧
      ((e.RotationCollides X fs r nanos ∧
          Stranded X e fs (read (walFormat X) (frame (walFormat X) r)) e' fs') ∨
        (¬ e.RotationCollides X fs r nanos ∧ Applied e e'))

theorem WalInv.wp_writeEntry_any (h : WalInv X e fs) {ns key val : Bytes} {ttl : ℕ} :
    let r := putRecord X (e.lsnCounter + 1) (asI64 (clock 0)) ttl ns key val
    Prog.wp (writeEntry (X := X) ns key val ttl)
      ⟨fun _ q _ => Applied e q.state ∧ ¬ e.RotationCollides X fs r (clock 1),
        fun _ q fs' =>
          Stranded X e fs (read (walFormat X) (frame (walFormat X) r)) q.state fs' ∧
            (e.RotationCollides X fs r (clock 1) ∨ maxNsLen < ns.length),
        fun _ _ => True, fun _ _ => True⟩ ⟨e, clock⟩ fs := by
  simp only [writeEntry, nextLsn, Prog.wp_bind, Exec.wp_modify, Exec.wp_get, Prog.wp_pure,
    Exec.wp_now]
  exact h.wp_writeRecord_any rfl

/-- A flush that fails leaves the memtable. -/
theorem wp_flushToSegments_any :
    Prog.wp (flushToSegments (X := X))
      ⟨fun _ _ _ => True, fun _ q _ => q.state.memtable = e.memtable, fun _ _ => True,
        fun _ _ => True⟩ ⟨e, clock⟩ fs := by
  have hmem : ∀ {e' : Engine}, e'.walPart = e.walPart → e'.memtable = e.memtable := by
    intro e' he
    rw [eq_of_walPart he]
  rw [flushToSegments, Prog.wp_bind]
  refine Prog.wp_imp (wp_keepsPart (beginFlush_frame fun _ => True)) ?_ fun _ _ _ hq => hmem hq
  rintro work ⟨e₁, clock₁⟩ fs₁ hpart
  cases work with
  | none => exact (Prog.wp_throw _).mpr (hmem hpart)
  | some w =>
    simp only [Prog.wp_bind, finalizeFlush, Exec.wp_modify, Prog.wp_pure]
    refine Prog.wp_imp (wp_keepsPart (w.execute_frame walPart)) ?_
      fun _ _ _ hq => hmem (hq.trans hpart)
    rintro m ⟨e₂, clock₂⟩ fs₂ hpart₂
    have hpart₂ : e₂.walPart = e.walPart := hpart₂.trans hpart
    refine Prog.wp_imp (wp_keepsPart (onStore_keepsWal (SegmentStore.finalizeSegment_frame m))) ?_
      fun _ _ _ hq => hmem (hq.trans hpart₂)
    rintro _ ⟨e₃, clock₃⟩ fs₃ -
    simp only [retireWals, Prog.wp_bind, Exec.wp_get, Exec.wp_fs]
    exact Prog.wp_forM (fun _ _ _ => True) (fun _ _ _ _ _ => by simp) (fun _ _ _ => trivial) _
      trivial

/-- **A put** that fails. -/
theorem WalInv.wp_put_any (h : WalInv X e fs) {ns key val : Bytes} :
    Prog.wp (put (X := X) ns key val)
      ⟨fun _ _ _ => True,
        fun _ q fs' => FailedPut X e fs
          (putRecord X (e.lsnCounter + 1) (asI64 (clock 0)) 0 ns key val) (clock 1) q.state fs',
        fun _ _ => True, fun _ _ => True⟩ ⟨e, clock⟩ fs := by
  rw [put, Prog.wp_bind]
  refine Prog.wp_imp wp_checkPut ?_ ?_
  · rintro _ _ _ ⟨rfl, rfl, hwritable, hns⟩
    rw [Prog.wp_bind]
    refine Prog.wp_imp h.wp_writeEntry_any ?_ ?_
    · rintro lsn ⟨e₁, clock₁⟩ fs₁ ⟨happlied, hfree⟩
      simp only [Prog.wp_bind, Exec.wp_get, Prog.wp_ite, Prog.wp_pure]
      split
      case isTrue =>
        refine Prog.wp_imp (wp_flushToSegments_any (e := e₁)) (fun _ _ _ h => h) ?_
        intro _ q _ hmem
        refine .inr ⟨⟨hwritable, hns⟩, .inr ⟨hfree, ?_⟩⟩
        rw [Applied, hmem]
        exact happlied
      case isFalse => trivial
    · rintro _ q fs₁ ⟨hstranded, hc⟩
      exact .inr ⟨⟨hwritable, hns⟩, .inl ⟨hc.resolve_right (not_lt.mpr hns), hstranded⟩⟩
  · rintro _ _ _ ⟨rfl, rfl, hcheck⟩
    exact .inl ⟨hcheck.imp And.left And.left, .refl⟩

/-- **A put with a TTL** that fails. -/
theorem WalInv.wp_putWithTtl_any (h : WalInv X e fs) {ns key val : Bytes} {ttl : ℕ} :
    Prog.wp (putWithTtl (X := X) ns key val ttl)
      ⟨fun _ _ _ => True,
        fun _ q fs' => FailedPut X e fs
          (putRecord X (e.lsnCounter + 1) (asI64 (clock 0)) ttl ns key val) (clock 1) q.state fs',
        fun _ _ => True, fun _ _ => True⟩ ⟨e, clock⟩ fs := by
  rw [putWithTtl, Prog.wp_bind]
  refine Prog.wp_imp wp_checkPut ?_ ?_
  · rintro _ _ _ ⟨rfl, rfl, hwritable, hns⟩
    refine Prog.wp_imp h.wp_writeEntry_any (fun _ _ _ _ => trivial) ?_
    rintro _ q fs₁ ⟨hstranded, hc⟩
    exact .inr ⟨⟨hwritable, hns⟩, .inl ⟨hc.resolve_right (not_lt.mpr hns), hstranded⟩⟩
  · rintro _ _ _ ⟨rfl, rfl, hcheck⟩
    exact .inl ⟨hcheck.imp And.left And.left, .refl⟩

/-- **A delete** that fails. -/
theorem WalInv.wp_delete_any (h : WalInv X e fs) {ns key : Bytes} :
    let r := deleteRecord X (e.lsnCounter + 1) (asI64 (clock 0)) ns key
    Prog.wp (delete (X := X) ns key)
      ⟨fun _ _ _ => True,
        fun _ q fs' => (e.config.readonly = true ∧ Stranded X e fs [] q.state fs') ∨
          e.config.readonly = false ∧
            Stranded X e fs (read (walFormat X) (frame (walFormat X) r)) q.state fs',
        fun _ _ => True, fun _ _ => True⟩ ⟨e, clock⟩ fs := by
  simp only [delete, nextLsn, Prog.wp_bind, Exec.wp_get, Prog.wp_ite, Prog.wp_throw, Exec.wp_modify,
    Prog.wp_pure, Exec.wp_now]
  split
  case isTrue hreadonly => exact .inl ⟨hreadonly, .refl⟩
  case isFalse hwritable =>
    refine Prog.wp_imp (h.wp_writeRecord_any rfl) (fun _ _ _ _ => trivial) ?_
    exact fun _ _ _ hq => .inr ⟨by simpa using hwritable, hq.1⟩

/-- How a commit fails: with nothing to write, in its first record, or behind it. -/
def FailedCommit (X : Externals) (e : Engine) (fs : Fs) (rs : List WalRecord) (e' : Engine)
    (fs' : Fs) : Prop :=
  match rs with
  | [] => Stranded X e fs [] e' fs'
  | r :: _ =>
    if maxNsLen < r.nsBytes.length then
      Stranded X e fs (read (walFormat X) (frame (walFormat X) r)) e' fs'
    else Applied e e'

theorem failedCommit_cons {o : TxOp} (ops : List TxOp) {e' : Engine} {fs' : Fs} :
    FailedCommit X e fs (e.txRecords X (o :: ops)) e' fs' ↔
      if maxNsLen < (o.record X (e.txidCounter + 1)).nsBytes.length then
        Stranded X e fs (read (walFormat X) (frame (walFormat X)
          { o.record X (e.txidCounter + 1) with lsn := e.lsnCounter + 1 })) e' fs'
      else Applied e e' := Iff.rfl

/-- A record of a commit keeps what was applied. -/
theorem wp_commitRecord_applied {e' : Engine} (h : Applied e e') (hlsn : e.lsnCounter ≤ e'.lsnCounter) :
    Prog.wp (commitRecord (X := X) r)
      ⟨fun _ q _ => Applied e q.state ∧ e.lsnCounter ≤ q.state.lsnCounter,
        fun _ q _ => Applied e q.state, fun _ _ => True, fun _ _ => True⟩ ⟨e', clock⟩ fs := by
  simp only [commitRecord, nextLsn, onWal, WalWriter.append, Prog.wp_bind, Exec.wp_modify, Exec.wp_get,
    Prog.wp_pure, Exec.wp_zoom, Exec.wp_effect]
  refine fun _ => ⟨trivial, ?_⟩
  cases encodeKey r.nsBytes r.keyBytes with
  | ok k =>
    simp only [Prog.wp_lift, Prog.result_ok]
    exact ⟨applied_insert (Nat.lt_succ_of_le hlsn), Nat.le_succ_of_le hlsn⟩
  | error err =>
    simp only [Prog.wp_lift, Prog.result_error]
    exact h

/-- The first record of a commit. -/
theorem WalInv.wp_firstRecord (h : WalInv X e fs) (r : WalRecord) {e₀ : Engine}
    (he₀ : e₀ = { e with txidCounter := e.txidCounter + 1 }) :
    Prog.wp (commitRecord (X := X) r)
      ⟨fun _ q _ => r.nsBytes.length ≤ maxNsLen ∧ Applied e q.state ∧ e.lsnCounter ≤ q.state.lsnCounter,
        fun _ q fs' => maxNsLen < r.nsBytes.length ∧
          Stranded X e fs (read (walFormat X)
            (frame (walFormat X) { r with lsn := e.lsnCounter + 1 })) q.state fs',
        fun _ _ => True, fun _ _ => True⟩ ⟨e₀, clock⟩ fs := by
  subst he₀
  simp only [commitRecord, nextLsn, onWal, WalWriter.append, Prog.wp_bind, Exec.wp_modify, Exec.wp_get,
    Prog.wp_pure, Exec.wp_zoom, Exec.wp_effect]
  refine fun _ => ⟨trivial, ?_⟩
  cases hkey : encodeKey r.nsBytes r.keyBytes with
  | ok k =>
    simp only [Prog.wp_lift, Prog.result_ok]
    exact ⟨(encodeKey_eq_ok.mp hkey).1, applied_insert (Nat.lt_succ_self _), Nat.le_succ _⟩
  | error err =>
    simp only [Prog.wp_lift, Prog.result_error]
    exact ⟨encodeKey_error hkey, rfl, rfl, ⟨rfl, rfl, rfl⟩, h.atEnd.walSequence_append _⟩

/-- **A transaction** that fails. -/
theorem WalInv.wp_runTransaction_any (h : WalInv X e fs) (ops : List TxOp) :
    Prog.wp (runTransaction (X := X) ops)
      ⟨fun _ _ _ => True, fun _ q fs' => FailedCommit X e fs (e.txRecords X ops) q.state fs',
        fun _ _ => True, fun _ _ => True⟩ ⟨e, clock⟩ fs := by
  rw [Prog.wp, run_runTransaction, ← Prog.wp, Prog.wp_bind]
  cases ops with
  | nil =>
    refine (Prog.wp_pure _).mpr ?_
    refine Prog.wp_mono wp_commitEnd (fun _ _ _ _ => trivial) ?_ (fun _ _ _ => trivial)
      (fun _ _ _ _ => trivial)
    rintro _ ⟨e', clock'⟩ fs' ⟨rfl, rfl⟩
    exact ⟨rfl, rfl, ⟨rfl, rfl, rfl⟩, (List.append_nil _).symm⟩
  | cons o ops =>
    have hcons : ((o :: ops).map (TxOp.record X (e.txidCounter + 1))).forM (commitRecord (X := X)) =
        commitRecord (o.record X (e.txidCounter + 1)) >>= fun _ =>
          (ops.map (TxOp.record X (e.txidCounter + 1))).forM commitRecord := rfl
    rw [hcons, Prog.wp_bind]
    refine Prog.wp_imp (h.wp_firstRecord (o.record X (e.txidCounter + 1)) rfl) ?_ ?_
    · rintro _ ⟨e₁, clock₁⟩ fs₁ ⟨hns, happlied, hlsn⟩
      have hfailed : ∀ e' fs', Applied e e' → FailedCommit X e fs (e.txRecords X (o :: ops)) e' fs' :=
        fun _ _ he' => (failedCommit_cons ops).mpr (by rwa [if_neg (not_lt.mpr hns)])
      refine Prog.wp_imp (Prog.wp_forM
        (Q := ⟨fun _ q _ => Applied e q.state, fun _ q _ => Applied e q.state, fun _ _ => True,
          fun _ _ => True⟩)
        (fun _ q _ => Applied e q.state ∧ e.lsnCounter ≤ q.state.lsnCounter)
        (fun _ _ _ _ hq => wp_commitRecord_applied hq.1 hq.2) (fun _ _ hq => hq.1) _
        ⟨happlied, hlsn⟩) ?_ (fun _ q fs' hq => hfailed q.state fs' hq)
      rintro _ ⟨e₂, clock₂⟩ fs₂ happlied₂
      refine Prog.wp_mono wp_commitEnd (fun _ _ _ _ => trivial) ?_ (fun _ _ _ => trivial)
        (fun _ _ _ _ => trivial)
      rintro _ ⟨e₃, clock₃⟩ fs₃ ⟨rfl, -⟩
      exact hfailed _ _ happlied₂
    · rintro _ q fs₁ ⟨hns, hstranded⟩
      exact (failedCommit_cons ops).mpr (by rwa [if_pos hns])

/-! ### Appends that fail -/

/-- A put, in front of the append of its record. -/
def putUntilAppend (ns key val : Bytes) (ttlSecs : ℕ) : Exec X Engine WalRecord := do
  checkPut ns
  let lsn ← nextLsn
  let nanos ← Exec.now
  return putRecord X lsn (asI64 nanos) ttlSecs ns key val

/-- A delete, in front of the append of its record. -/
def deleteUntilAppend (ns key : Bytes) : Exec X Engine WalRecord := do
  if (← Exec.get).config.readonly then Prog.throw .readOnly
  else
    let lsn ← nextLsn
    let nanos ← Exec.now
    return deleteRecord X lsn (asI64 nanos) ns key

/-- A transaction, in front of the append of its record number `k`, if it has so many. -/
def commitUntilAppend (ops : List TxOp) (k : ℕ) : Exec X Engine (Option WalRecord) := do
  let tx ← begin
  let tx ← Prog.lift (TxOp.addAll X tx ops)
  let records ← Prog.lift tx.takePending
  (records.take k).forM commitRecord
  match records[k]? with
  | none => return none
  | some record =>
    let lsn ← nextLsn
    return some { record with lsn := lsn }

/-- A put in front of its append has taken an LSN. -/
theorem wp_putUntilAppend {ns key val : Bytes} {ttl : ℕ} :
    Prog.wp (putUntilAppend (X := X) ns key val ttl)
      ⟨fun r q fs' => r = putRecord X (e.lsnCounter + 1) (asI64 (clock 0)) ttl ns key val ∧
          q.state = { e with lsnCounter := e.lsnCounter + 1 } ∧ fs' = fs,
        fun _ _ _ => True, fun _ _ => True, fun _ _ => True⟩ ⟨e, clock⟩ fs := by
  rw [putUntilAppend, Prog.wp_bind]
  refine Prog.wp_imp wp_checkPut ?_ fun _ _ _ _ => trivial
  rintro _ _ _ ⟨rfl, rfl, -, -⟩
  simp only [nextLsn, Prog.wp_bind, Exec.wp_modify, Exec.wp_get, Prog.wp_pure, Exec.wp_now, true_and]

/-- A delete in front of its append has taken an LSN. -/
theorem wp_deleteUntilAppend {ns key : Bytes} :
    Prog.wp (deleteUntilAppend (X := X) ns key)
      ⟨fun r q fs' => r = deleteRecord X (e.lsnCounter + 1) (asI64 (clock 0)) ns key ∧
          q.state = { e with lsnCounter := e.lsnCounter + 1 } ∧ fs' = fs,
        fun _ _ _ => True, fun _ _ => True, fun _ _ => True⟩ ⟨e, clock⟩ fs := by
  simp only [deleteUntilAppend, nextLsn, Prog.wp_bind, Exec.wp_get, Prog.wp_ite, Prog.wp_throw, Exec.wp_modify,
    Prog.wp_pure, Exec.wp_now, and_self, ite_self]

/-- A transaction in front of its first append has taken an LSN; in front of a later one it has applied a record. -/
theorem WalInv.wp_commitUntilAppend (h : WalInv X e fs) (ops : List TxOp) (k : ℕ) :
    Prog.wp (commitUntilAppend (X := X) ops k)
      ⟨fun r q fs' => ∀ r' ∈ r,
          if k = 0 then r' ∈ (e.txRecords X ops).head? ∧
            q.state = { e with txidCounter := e.txidCounter + 1, lsnCounter := e.lsnCounter + 1 } ∧ fs' = fs
          else Applied e q.state,
        fun _ _ _ => True, fun _ _ => True, fun _ _ => True⟩ ⟨e, clock⟩ fs := by
  simp only [commitUntilAppend, begin, Prog.wp_bind, Exec.wp_modify, Exec.wp_get, Prog.wp_pure, Prog.wp_lift]
  rw [TxOp.addAll_eq ops _ rfl]
  simp only [Prog.result_ok, Transaction.takePending, List.nil_append]
  obtain _ | ⟨o, ops⟩ := ops
  · -- there is no record
    simp only [List.map_nil, List.take_nil]
    refine (Prog.wp_pure _).mpr ?_
    exact (Prog.wp_pure _).mpr fun _ hr => by cases hr
  obtain _ | k := k
  · refine (Prog.wp_pure _).mpr ?_
    simp only [List.map_cons, List.getElem?_cons_zero, nextLsn, Prog.wp_bind, Exec.wp_modify, Exec.wp_get, Prog.wp_pure]
    rintro _ ⟨⟩
    exact ⟨rfl, trivial, trivial⟩
  · -- the first record is applied, and stays so
    have htake : ((o :: ops).map (TxOp.record X (e.txidCounter + 1))).take (k + 1) =
        o.record X (e.txidCounter + 1) :: (ops.map (TxOp.record X (e.txidCounter + 1))).take k := rfl
    have hcons : (o.record X (e.txidCounter + 1) :: (ops.map (TxOp.record X (e.txidCounter + 1))).take k).forM
        (commitRecord (X := X)) = commitRecord (o.record X (e.txidCounter + 1)) >>= fun _ =>
          ((ops.map (TxOp.record X (e.txidCounter + 1))).take k).forM commitRecord := rfl
    rw [htake, hcons, Prog.wp_bind]
    refine Prog.wp_imp (h.wp_firstRecord (o.record X (e.txidCounter + 1)) rfl) ?_ fun _ _ _ _ => trivial
    rintro _ ⟨e₁, clock₁⟩ fs₁ ⟨-, happlied, hlsn⟩
    refine Prog.wp_imp (Prog.wp_forM
      (Q := ⟨fun _ q _ => Applied e q.state, fun _ _ _ => True, fun _ _ => True, fun _ _ => True⟩)
      (fun _ q _ => Applied e q.state ∧ e.lsnCounter ≤ q.state.lsnCounter)
      (fun _ _ _ _ hq => Prog.wp_imp (wp_commitRecord_applied hq.1 hq.2) (fun _ _ _ h => h) fun _ _ _ _ => trivial)
      (fun _ _ hq => hq.1) _ ⟨happlied, hlsn⟩) ?_ fun _ _ _ _ => trivial
    rintro _ ⟨e₂, clock₂⟩ fs₂ happlied₂
    split
    · exact (Prog.wp_pure _).mpr fun _ hr => by cases hr
    · simp only [nextLsn, Prog.wp_bind, Exec.wp_modify, Exec.wp_get, Prog.wp_pure]
      rintro _ -
      exact happlied₂

end Engine

/-! ### Runs -/

namespace World

/-- **A call has left no trace**: reads return the same, nothing of it has become visible in the
memtable or in segments, nothing can be replayed, and a later opening recovers the same memtable. -/
structure NoTrace (X : Externals) (w w' : World) : Prop where
  get : ∀ ns key, w'.get X ns key = w.get X ns key
  range : ∀ ns start «end», w'.range ns start «end» = w.range ns start «end»
  memtable : w'.engine.map Engine.memtable = w.engine.map Engine.memtable
  store : SameStore w.fs w'.fs
  log : walSequence X w'.fs = walSequence X w.fs
  recovered : recovered X w'.fs = recovered X w.fs

/-- The four calls that write on behalf of a client. -/
def IsWrite : Op → Prop
  | .put _ _ _ => True
  | .putWithTtl _ _ _ _ => True
  | .delete _ _ => True
  | .commit _ => True
  | _ => False

/-- The failing calls that leave no trace: a put or a delete that is refused by a check in front of
its append, or whose record cannot be read and is not applied; a transaction without operations, or
one whose first record has no key and cannot be read. -/
def FailsClean (X : Externals) (fs : Fs) (e : Engine) (c : Call) : Prop :=
  match c.op with
  | .put ns key val =>
    let r := Engine.putRecord X (e.lsnCounter + 1) (asI64 (c.clock 0)) 0 ns key val
    (e.config.readonly = true ∨ maxNsLen < ns.length) ∨
      e.RotationCollides X fs r (c.clock 1) ∧ Unreadable X r
  | .putWithTtl ns key val ttl =>
    let r := Engine.putRecord X (e.lsnCounter + 1) (asI64 (c.clock 0)) ttl ns key val
    (e.config.readonly = true ∨ maxNsLen < ns.length) ∨
      e.RotationCollides X fs r (c.clock 1) ∧ Unreadable X r
  | .delete ns key =>
    e.config.readonly = true ∨
      Unreadable X (Engine.deleteRecord X (e.lsnCounter + 1) (asI64 (c.clock 0)) ns key)
  | .commit ops =>
    ∀ r ∈ (e.txRecords X ops).head?, maxNsLen < r.nsBytes.length ∧ Unreadable X r
  | _ => False

/-- The record that a write appends first. -/
def firstRecord (X : Externals) (e : Engine) (c : Call) : Option WalRecord :=
  match c.op with
  | .put ns key val => some (Engine.putRecord X (e.lsnCounter + 1) (asI64 (c.clock 0)) 0 ns key val)
  | .putWithTtl ns key val ttl => some (Engine.putRecord X (e.lsnCounter + 1) (asI64 (c.clock 0)) ttl ns key val)
  | .delete ns key => some (Engine.deleteRecord X (e.lsnCounter + 1) (asI64 (c.clock 0)) ns key)
  | .commit ops => (e.txRecords X ops).head?
  | _ => none

/-- What a write does in front of its append number `k`, with the record, if it has so many. -/
def untilAppend (X : Externals) (op : Op) (k : ℕ) : Exec X Engine (Option WalRecord) :=
  match op, k with
  | .put ns key val, 0 => do return some (← Engine.putUntilAppend ns key val 0)
  | .putWithTtl ns key val ttl, 0 => do return some (← Engine.putUntilAppend ns key val ttl)
  | .delete ns key, 0 => do return some (← Engine.deleteUntilAppend ns key)
  | .commit ops, k => Engine.commitUntilAppend ops k
  | _, _ => return none

/-- **A write whose append number `k` fails**, when the first `m` bytes of the frame are in the file: the call
returns the error, and the engine is as it was in front of the append. There is none if the call does not come
to that append. -/
def refused (X : Externals) (w : World) (c : Call) (k m : ℕ) : Option World :=
  match w.engine with
  | none => none
  | some e =>
    let r := (untilAppend X c.op k).run ⟨e, c.clock⟩ w.fs
    match r.1 with
    | .ok (some record) => some
      { w with
        fs := tearEffect X (.walAppend r.2.1.state.wal.name record) m ((disk X).run r.2.2 w.fs)
        engine := some r.2.1.state }
    | _ => none

variable {w : World} {c : Call}

/-- The engine and the directory after a method that fails. -/
theorem onEngine_failed {α : Type} {m : Exec X Engine α} {land : α → List Flight}
    {ok : α → Process Engine → Fs → Prop} {error : EdgestoreError → Process Engine → Fs → Prop}
    {guar : Effect → Fs → Prop} (he : w.engine = some e)
    (hwp : Prog.wp m ⟨ok, error, fun _ _ => True, guar⟩ ⟨e, clock⟩ w.fs)
    (hfail : (w.onEngine X clock m land).ok = false) :
    ∃ err q, (w.onEngine X clock m land).engine = some q.state ∧
      error err q ((disk X).run (w.onEngine X clock m land).effects w.fs) := by
  have hres := Prog.wp_result hwp Device.all_true
  simp only [onEngine, he] at hfail ⊢
  rcases hr : m.run ⟨e, clock⟩ w.fs with ⟨res, q, es⟩
  rw [hr] at hfail hres
  cases res with
  | ok a => simp at hfail
  | error err => exact ⟨err, q, rfl, hres⟩

/-- A call that has only touched the log leaves no trace if it has added nothing to it. -/
theorem noTrace_of_stranded (w' : World) {e' : Engine} {rs : List WalRecord}
    (he : w.engine = some e) (he' : w'.engine = some e')
    (h : Engine.Stranded X e w.fs rs e' w'.fs) : NoTrace X w w' ↔ rs = [] := by
  constructor
  · intro hno
    have hlog := h.log.symm.trans hno.log
    simpa using hlog
  · rintro rfl
    have hlog : walSequence X w'.fs = walSequence X w.fs := by simpa using h.log
    refine ⟨fun ns key => ?_, fun ns start «end» => ?_, ?_, h.same, hlog, recovered_congr hlog⟩
    · simp only [World.get, he, he', Option.map_some]
      rw [Engine.get_congr h.memtable h.store h.same.segs]
    · simp only [World.range, he, he', Option.map_some]
      rw [Engine.range_congr h.memtable h.store h.same.segs]
    · rw [he, he', Option.map_some, Option.map_some, h.memtable]

/-- A call that has applied a write leaves a trace. -/
theorem not_noTrace_of_applied (w' : World) {e' : Engine} (he : w.engine = some e)
    (he' : w'.engine = some e') (hinv : e.WalInv X w.fs) (h : e.Applied e') : ¬ NoTrace X w w' := by
  intro hno
  obtain ⟨p, hp, hlt⟩ := h
  have hmem : e'.memtable = e.memtable := by simpa [he, he'] using hno.memtable
  rw [hmem] at hp
  exact absurd (hinv.memtable p hp) (not_le.mpr hlt)

theorem noTrace_iff_of_failedPut (w' : World) {e' : Engine} {nanos : ℕ} (he : w.engine = some e)
    (he' : w'.engine = some e') (hinv : e.WalInv X w.fs)
    (h : e.FailedPut X w.fs r nanos e' w'.fs) :
    NoTrace X w w' ↔ (e.config.readonly = true ∨ maxNsLen < r.nsBytes.length) ∨
      e.RotationCollides X w.fs r nanos ∧ Unreadable X r := by
  rcases h with ⟨hcheck, hstranded⟩ | ⟨⟨hwritable, hns⟩, ⟨hc, hstranded⟩ | ⟨hc, happlied⟩⟩
  · exact iff_of_true ((noTrace_of_stranded w' he he' hstranded).mpr rfl) (.inl hcheck)
  · rw [noTrace_of_stranded w' he he' hstranded]
    simp [hwritable, not_lt.mpr hns, hc, Unreadable]
  · refine iff_of_false (not_noTrace_of_applied w' he he' hinv happlied) ?_
    simp [hwritable, not_lt.mpr hns, hc]

/-- **A call that fails by itself** leaves no trace if and only if it fails in front of the append, or in front of
the memtable with a record that no reader finds. -/
theorem noTrace_step_iff (hinv : e.WalInv X w.fs) (he : w.engine = some e) (hop : IsWrite c.op)
    (hstop : c.stop = none) (hfail : (w.perform X c.op c.clock).ok = false) :
    NoTrace X w (w.step X c) ↔ FailsClean X w.fs e c := by
  obtain ⟨op, clock, stop⟩ := c
  obtain rfl : stop = none := hstop
  cases op with
  | put ns key val =>
    obtain ⟨err, q, hq, hfailed⟩ := onEngine_failed he hinv.wp_put_any hfail
    exact noTrace_iff_of_failedPut (w.step X ⟨.put ns key val, clock, none⟩) he hq hinv hfailed
  | putWithTtl ns key val ttl =>
    obtain ⟨err, q, hq, hfailed⟩ := onEngine_failed he hinv.wp_putWithTtl_any hfail
    exact noTrace_iff_of_failedPut (w.step X ⟨.putWithTtl ns key val ttl, clock, none⟩) he hq hinv
      hfailed
  | delete ns key =>
    obtain ⟨err, q, hq, ⟨hreadonly, hstranded⟩ | ⟨hwritable, hstranded⟩⟩ :=
      onEngine_failed he hinv.wp_delete_any hfail
    · have hno := noTrace_of_stranded (w.step X ⟨.delete ns key, clock, none⟩) he hq hstranded
      exact iff_of_true (hno.mpr rfl) (.inl hreadonly)
    · have hno := noTrace_of_stranded (w.step X ⟨.delete ns key, clock, none⟩) he hq hstranded
      refine hno.trans ?_
      simp [FailsClean, hwritable, Unreadable]
  | commit ops =>
    obtain ⟨err, q, hq, hfailed⟩ := onEngine_failed he (hinv.wp_runTransaction_any ops) hfail
    cases ops with
    | nil =>
      have hno := noTrace_of_stranded (w.step X ⟨.commit [], clock, none⟩) he hq hfailed
      exact iff_of_true (hno.mpr rfl) (by simp [FailsClean, Engine.txRecords, stamped])
    | cons o ops =>
      have hcond : FailsClean X w.fs e ⟨.commit (o :: ops), clock, none⟩ ↔
          maxNsLen < (o.record X (e.txidCounter + 1)).nsBytes.length ∧
            Unreadable X { o.record X (e.txidCounter + 1) with lsn := e.lsnCounter + 1 } := by
        simp [FailsClean, Engine.txRecords, stamped]
      rw [Engine.failedCommit_cons] at hfailed
      split at hfailed
      case isTrue hns =>
        have hno := noTrace_of_stranded (w.step X ⟨.commit (o :: ops), clock, none⟩) he hq hfailed
        exact hno.trans (hcond.trans (and_iff_right hns)).symm
      case isFalse hns =>
        refine iff_of_false (not_noTrace_of_applied (w.step X ⟨.commit (o :: ops), clock, none⟩) he
          hq hinv hfailed) ?_
        exact fun h => hns (hcond.mp h).1
  | _ => exact hop.elim

/-- In front of the first append nothing is written but the counters; in front of a later one the first record is
applied. -/
theorem wp_untilAppend (hinv : e.WalInv X w.fs) (k : ℕ) :
    Prog.wp (untilAppend X c.op k)
      ⟨fun r q fs' => ∀ r' ∈ r,
          if k = 0 then r' ∈ firstRecord X e c ∧ q.state.memtable = e.memtable ∧
            q.state.segmentStore = e.segmentStore ∧ q.state.wal = e.wal ∧ fs' = w.fs
          else e.Applied q.state,
        fun _ _ _ => True, fun _ _ => True, fun _ _ => True⟩ ⟨e, c.clock⟩ w.fs := by
  obtain ⟨op, clock, stop⟩ := c
  -- a put and a delete have one append
  cases op with
  | put ns key val =>
    obtain _ | k := k
    · simp only [untilAppend, Prog.wp_bind, Prog.wp_pure]
      refine Prog.wp_imp Engine.wp_putUntilAppend ?_ fun _ _ _ _ => trivial
      rintro r q fs' ⟨hr, hq, hfs⟩ r' ⟨⟩
      rw [if_pos (trivial : True), hq]
      exact ⟨congrArg some hr.symm, rfl, rfl, rfl, hfs⟩
    · exact (Prog.wp_pure _).mpr fun _ hr => by cases hr
  | putWithTtl ns key val ttl =>
    obtain _ | k := k
    · simp only [untilAppend, Prog.wp_bind, Prog.wp_pure]
      refine Prog.wp_imp Engine.wp_putUntilAppend ?_ fun _ _ _ _ => trivial
      rintro r q fs' ⟨hr, hq, hfs⟩ r' ⟨⟩
      rw [if_pos (trivial : True), hq]
      exact ⟨congrArg some hr.symm, rfl, rfl, rfl, hfs⟩
    · exact (Prog.wp_pure _).mpr fun _ hr => by cases hr
  | delete ns key =>
    obtain _ | k := k
    · simp only [untilAppend, Prog.wp_bind, Prog.wp_pure]
      refine Prog.wp_imp Engine.wp_deleteUntilAppend ?_ fun _ _ _ _ => trivial
      rintro r q fs' ⟨hr, hq, hfs⟩ r' ⟨⟩
      rw [if_pos (trivial : True), hq]
      exact ⟨congrArg some hr.symm, rfl, rfl, rfl, hfs⟩
    · exact (Prog.wp_pure _).mpr fun _ hr => by cases hr
  | commit ops =>
    refine Prog.wp_imp (hinv.wp_commitUntilAppend ops k) ?_ fun _ _ _ _ => trivial
    intro r q fs' h r' hr
    have h' := h r' hr
    split at h'
    · obtain ⟨hfirst, hq, hfs⟩ := h'
      rw [if_pos ‹_›, hq]
      exact ⟨hfirst, rfl, rfl, rfl, hfs⟩
    · rwa [if_neg ‹_›]
  | _ => exact (Prog.wp_pure _).mpr fun _ hr => by cases hr

/-- **A write whose append fails** leaves no trace if and only if it is the first append of the call, and a reader
finds nothing in what is there of the frame. -/
theorem noTrace_refused_iff (hinv : e.WalInv X w.fs) (he : w.engine = some e) {k m : ℕ} {w' : World}
    (hw' : w.refused X c k m = some w') :
    NoTrace X w w' ↔ k = 0 ∧ ∀ r ∈ firstRecord X e c, UnreadableCut X r m := by
  have hres := Prog.wp_result (wp_untilAppend (c := c) hinv k) Device.all_true
  simp only [refused, he] at hw'
  generalize (untilAppend X c.op k).run ⟨e, c.clock⟩ w.fs = o at hres hw'
  obtain ⟨_ | _ | r, q, es⟩ := o
  · cases hw'
  · cases hw'
  simp only [Option.some.injEq] at hw'
  have hr := hres r rfl
  by_cases hk : k = 0
  case neg =>
    rw [if_neg hk] at hr
    refine iff_of_false (not_noTrace_of_applied w' he ?_ hinv hr) fun h => hk h.1
    rw [← hw']
  case pos =>
    rw [if_pos hk] at hr
    obtain ⟨hfirst, hmem, hstore, hwal, hfs⟩ := hr
    have hfs' : w'.fs = w.fs.appendWal e.wal.name ((frame (walFormat X) r).take m) := by
      rw [← hw', ← hwal]
      simp only [hfs]
      rfl
    have hstranded : e.Stranded X w.fs (read (walFormat X) ((frame (walFormat X) r).take m)) q.state w'.fs := by
      rw [hfs']
      exact ⟨hmem, hstore, ⟨rfl, rfl, rfl⟩, hinv.atEnd.walSequence_appendWal _⟩
    rw [noTrace_of_stranded w' he (by rw [← hw']) hstranded]
    refine ⟨fun hnil => ⟨hk, fun r' hr' => ?_⟩, fun h => h.2 r hfirst⟩
    rw [Option.mem_def.mp hfirst, Option.mem_def, Option.some.injEq] at hr'
    exact hr' ▸ hnil

/-- Of a record within the limits of its reader, no frame is read that is cut short. -/
theorem unreadableCut_of_fits (h : r.Fits X) {m : ℕ} (hm : m < (frame (walFormat X) r).length) :
    UnreadableCut X r m := read_of_next_none (next_frame_take (fits_walFormat h) hm)

/-- WAL files of eight bytes at most: every opening and every write rotates. -/
def tinyWal : EdgestoreConfig := { walMaxBytes := 8 }

/-- A put and a restart; the opening names its file by the LSN that the next put will get. -/
def tinyWalRun : List Call :=
  [{ op := .open tinyWal }, { op := .put [1] [1] [1] }, { op := .close }, { op := .open tinyWal }]

/-- Two puts in a transaction. -/
def commitOfTwo : Op := .commit [⟨.put, [1], [2], [2], 0, 0, 0⟩, ⟨.put, [1], [3], [3], 0, 0, 0⟩]

end World
