import Edgestore.Reopen
import Edgestore.Engine.Limits
import Edgestore.PlainExternals
import Mathlib.Logic.Function.Basic
import Mathlib.Data.List.Induction

/-!
# What is accepted can be read back

An engine represents a map from keys to values. Each write that is accepted updates one key of it, a flush
and a reopening leave it as it is. That holds as long as what is written is within the limits of the
readers, which the writers do not check.

## Main definitions

* `Contents`, `Op.update`: what a store is for, and what writes do to it
* `Engine.Represents X R e fs s`: the engine and its files represent the contents `s`
* `World.AcceptsWrite X w c`: a client write that returned `Ok`, within the limits of readers

## Main results

* `Logged.represents`, `Engine.wp_flushToSegments_represents`: a write and a flush
* `World.Represents.writes`: a run of writes
* `World.flushed_is_readable`: what has been written is read back after a flush, and after a reopening
-/

variable {X : Externals} {R : List SegmentId} {fs fs' : Fs} {e e' : Engine} {clock : ℕ → ℕ}

/-! ### Contents -/

/-- The contents of a store: the values of keys, by namespace and key. -/
abbrev Contents := Bytes × Bytes → Option Bytes

/-- The value that an operation of a transaction leaves. -/
def TxOp.result (o : TxOp) : Option Bytes :=
  match o.op with
  | .put => some o.val
  | .delete => none

/-- What a client write makes of the contents. -/
def Op.update : Op → Contents → Contents
  | .put ns key val, s => Function.update s (ns, key) (some val)
  | .putWithTtl ns key val _, s => Function.update s (ns, key) (some val)
  | .delete ns key, s => Function.update s (ns, key) none
  | .commit ops, s => ops.foldl (fun s o => Function.update s (o.ns, o.key) o.result) s
  | _, s => s

/-- What the record of a write makes of the contents. -/
def WalRecord.update (r : WalRecord) (s : Contents) : Contents :=
  Function.update s (r.nsBytes, r.keyBytes) (r.toEntry r.encodedKey).live

/-- What records make of the contents. -/
def updateAll (rs : List WalRecord) (s : Contents) : Contents :=
  rs.foldl (fun s r => r.update s) s

theorem updateAll_stamped (lsn : Lsn) (rs : List WalRecord) (s : Contents) :
    updateAll (stamped lsn rs) s = updateAll rs s := by
  induction rs generalizing lsn s with
  | nil => rfl
  | cons r rs ih => exact ih (lsn + 1) (r.update s)

theorem updateAll_txOps (txid : ℕ) (ops : List TxOp) (s : Contents) :
    updateAll (ops.map (TxOp.record X txid)) s = (Op.commit ops).update s := by
  rw [updateAll, List.foldl_map, Op.update]
  congr 1
  funext s o
  rw [WalRecord.update, WalRecord.toEntry, TxOp.record, TxOp.result]
  cases o.op with
  | put => rfl
  | delete => rfl

theorem lsn_stamped {lsn : Lsn} {rs : List WalRecord} : ∀ r ∈ stamped lsn rs, lsn < r.lsn := by
  induction rs generalizing lsn with
  | nil => simp [stamped]
  | cons r rs ih =>
    intro r' hr'
    rcases List.mem_cons.mp hr' with rfl | hr'
    · exact Nat.lt_succ_self lsn
    · exact (Nat.lt_succ_self lsn).trans (ih r' hr')

/-- Updates and replays agree. -/
theorem updateAll_eq {rs : List WalRecord} (hrs : ∀ r ∈ rs, r.nsBytes.length ≤ maxNsLen) (s : Contents)
    {ns key k : Bytes} (hk : encodeKey ns key = .ok k) :
    updateAll rs s (ns, key) =
      ((replayed .empty rs).get k).elim (s (ns, key)) MemEntry.live := by
  -- the last record decides
  induction rs using List.reverseRecOn with
  | nil => rfl
  | append_singleton rs r ih =>
    have hr : encodeKey r.nsBytes r.keyBytes = .ok r.encodedKey := encodeKey_record (hrs r (by simp))
    rw [updateAll, List.foldl_concat, replayed_append, get_replayed_append, replayed_cons, replayed_nil,
      SortedMap.get_insert, SortedMap.get_empty, WalRecord.update, ← updateAll, Function.update_apply]
    by_cases heq : (ns, key) = (r.nsBytes, r.keyBytes)
    · obtain ⟨rfl, rfl⟩ := Prod.mk.inj heq
      obtain rfl : r.encodedKey = k := Except.ok.inj (hr.symm.trans hk)
      simp
    · have hne : r.encodedKey ≠ k := by
        rintro rfl
        obtain ⟨rfl, rfl⟩ := encodeKey_inj hk hr
        exact heq rfl
      rw [if_neg heq, if_neg hne, Option.none_or]
      exact ih fun r' hr' => hrs r' (List.mem_append_left _ hr')

/-! ### Representation -/

/-- The engine and its files represent contents. Every key is settled on its value, and the LSN counter has
reached the records in segments and the name of the WAL file. -/
structure Engine.Represents (X : Externals) (R : List SegmentId) (e : Engine) (fs : Fs) (s : Contents) :
    Prop where
  inv : e.Inv X R fs
  wal : e.WalInv X fs
  ahead : e.wal.name ≤ e.lsnCounter
  stored : ∀ k, ∀ r ∈ recordsOf X fs k, r.lsn ≤ e.lsnCounter
  settled : ∀ ns key k, encodeKey ns key = .ok k → Settled X e.memtable fs k (s (ns, key))

/-- **Logged records update the contents**: they are newer than every record in a segment. -/
theorem Engine.Logged.represents {s : Contents} {rs : List WalRecord} (hlogged : Logged X e fs rs e' fs')
    (h : e.Represents X R fs s) (hinv : e'.Inv X R fs') (hsame : SameStore fs fs')
    (hname : e'.wal.name = e.wal.name ∨ e'.wal.name = e.lsnCounter + rs.length)
    (hrs : ∀ r ∈ rs, e.lsnCounter < r.lsn ∧ r.nsBytes.length ≤ maxNsLen) :
    e'.Represents X R fs' (updateAll rs s) := by
  have hrecords : ∀ k, recordsOf X fs' k = recordsOf X fs k :=
    recordsOf_congr hsame.registered_eq hsame.segs
  have hmem : e'.memtable = replayed e.memtable rs := by rw [hlogged.engine]
  have hcounter : e.lsnCounter ≤ e'.lsnCounter := by
    rw [hlogged.engine]
    exact Nat.le_add_right _ _
  refine ⟨hinv, hlogged.inv, (hlogged.ahead h.ahead hname).le, fun k r hr => ?_, fun ns key k hk => ?_⟩
  · rw [hrecords] at hr
    exact (h.stored k r hr).trans hcounter
  · obtain ⟨hpoint, hnewest, hlog, hreplay⟩ := h.settled ns key k hk
    rw [updateAll_eq (fun r hr => (hrs r hr).2) s hk, hmem]
    have hentry : replayedEntry X fs' k =
        ((replayed .empty rs).get k).or (replayedEntry X fs k) := by
      rw [replayedEntry, hlogged.sequence, replayed_append, get_replayed_append]
      rfl
    cases hr : (replayed .empty rs).get k with
    | none =>
      refine Settled.congr_memtable (m := e.memtable) ?_ ?_
      · refine Settled.congr ⟨hpoint, hnewest, hlog, hreplay⟩ (hrecords k) ?_
        rw [hentry, hr, Option.none_or]
      · rw [get_replayed_append, hr, Option.none_or]
    | some r =>
      have hget : (replayed e.memtable rs).get k = some r := by
        rw [get_replayed_append, hr, Option.some_or]
      have hlsn : e.lsnCounter < r.lsn := by
        rcases mem_replayed (SortedMap.mem_entries_of_get hr) with hmem | ⟨record, hrecord, heq⟩
        · cases hmem
        · obtain ⟨-, rfl⟩ := Prod.mk.inj heq
          exact (hrs record hrecord).1
      rw [hr, Option.some_or] at hentry
      refine ⟨?_, fun r' hr' => ?_, fun r' hr' => ?_, fun r' hr' => ?_⟩
      · rw [hget]
        rfl
      · -- no record in a segment has reached the new one
        rw [hget, hrecords, Option.toList_some] at hr'
        rcases List.mem_append.mp hr'.1 with hmem | hmem
        · have hle := hr'.2 r (by simp)
          exact absurd (hlsn.trans_le hle) (not_lt.mpr (h.stored k r' hmem))
        · rw [List.mem_singleton.mp hmem]
          rfl
      · rw [hentry, ← hget]
        exact hr'
      · rw [hentry] at hr'
        cases hr'
        rfl

/-- The effects of an admitted call. -/
abbrev AdmitsEffect (X : Externals) (f : Effect) (d : Fs) : Prop := StoreRely X f d ∧ FitsWal X f d

namespace Engine

/-- **A flush** leaves the contents, and registers the entries of the memtable. -/
theorem wp_flushToSegments_represents {s : Contents} (h : Represents X R e fs s) :
    Prog.wp (flushToSegments (X := X))
      ⟨fun m q fs' => Represents X R q.state fs' s ∧ registered X fs' = registered X fs ++ [m] ∧
          (fs'.segs m.segmentId).table = e.memtable.entries.map storedEntry,
        fun _ _ _ => e.memtable.entries = [], AdmitsEffect X, fun _ _ => True⟩ ⟨e, clock⟩ fs := by
  refine Prog.wp_mono (Prog.wp_and (wp_flushToSegments h.inv) h.wal.wp_flushToSegments) ?_
    (fun _ _ _ hq => hq.1.1) (fun _ _ hr => hr) fun _ _ _ _ => trivial
  rintro sm q fs' ⟨⟨hinv, w, e₁, hbegun, hreg, hwritten, hsegs, hq⟩, flushed, hretired⟩
  have htable : (fs'.segs sm.segmentId).table = e.memtable.entries.map storedEntry := by
    rw [hwritten.segmentId, hwritten.table, hbegun.entries]
  refine ⟨⟨hinv, hretired.inv, ?_, fun k r hr => ?_, fun ns key k hk => ?_⟩, hreg, htable⟩
  · rw [hq, hretired.engine]
    exact h.ahead
  · rw [show q.state.lsnCounter = e.lsnCounter by rw [hq]]
    rw [recordsOf_concat hreg fun id hid => hsegs id ?_, htable, find_map_storedEntry] at hr
    · rcases List.mem_append.mp hr with hr | hr
      · exact h.stored k r hr
      · -- the stored entry has the LSN of the one in the memtable
        obtain ⟨entry, hentry, rfl⟩ := Option.map_eq_some_iff.mp (Option.mem_toList.mp hr)
        have hget : e.memtable.get k = some entry := hentry
        exact h.wal.memtable (k, entry) (SortedMap.mem_entries_of_get hget)
    · rw [hbegun.id]
      exact (h.inv.store.next id hid).ne
  · exact hbegun.settled h.inv (h.settled ns key k hk) hreg hwritten hsegs (by rw [hq]) hretired

/-- **A write** of a record updates the contents. -/
theorem wp_writeRecord_represents {s : Contents} {r : WalRecord} (h : Represents X R e fs s)
    (hlsn : r.lsn = e.lsnCounter + 1) (hns : r.nsBytes.length ≤ maxNsLen) :
    Prog.wp (writeRecord (X := X) r)
      ⟨fun _ q fs' => Represents X R q.state fs' (r.update s), fun _ _ _ => False, AdmitsEffect X,
        fun _ _ => True⟩ ⟨{ e with lsnCounter := e.lsnCounter + 1 }, clock⟩ fs := by
  have hinv : Inv X R { e with lsnCounter := e.lsnCounter + 1 } fs := ⟨h.inv.store, h.inv.window⟩
  refine Prog.wp_mono (Prog.wp_and (hinv.wp_write (writeRecord_frame r))
    (h.wal.wp_writeRecord hlsn fun _ => h.ahead)) ?_ (fun _ _ _ he => he.2) (fun _ _ hr => hr)
    fun _ _ _ _ => trivial
  rintro _ q fs' ⟨⟨hinv', hsame⟩, -, hlogged, hname⟩
  refine hlogged.represents h hinv' hsame hname fun r' hr' => ?_
  rw [List.mem_singleton.mp hr', hlsn]
  exact ⟨Nat.lt_succ_self _, hns⟩

theorem wp_writeEntry_represents {s : Contents} {ns key val : Bytes} {ttl : ℕ}
    (h : Represents X R e fs s) (hns : ns.length ≤ maxNsLen) :
    Prog.wp (writeEntry (X := X) ns key val ttl)
      ⟨fun _ q fs' => Represents X R q.state fs' (Function.update s (ns, key) (some val)),
        fun _ _ _ => False, AdmitsEffect X, fun _ _ => True⟩ ⟨e, clock⟩ fs := by
  simp only [writeEntry, nextLsn, Prog.wp_bind, Exec.wp_modify, Exec.wp_get, Prog.wp_pure, Exec.wp_now]
  exact wp_writeRecord_represents h rfl hns

/-- **A put**, with the flush that may follow. -/
theorem wp_put_represents {s : Contents} {ns key val : Bytes} (h : Represents X R e fs s) :
    Prog.wp (put (X := X) ns key val)
      ⟨fun _ q fs' => Represents X R q.state fs' (Function.update s (ns, key) (some val)),
        fun _ _ _ => True, AdmitsEffect X, fun _ _ => True⟩ ⟨e, clock⟩ fs := by
  rw [put, Prog.wp_bind]
  refine Prog.wp_imp wp_checkPut ?_ fun _ _ _ _ => trivial
  rintro _ _ _ ⟨rfl, rfl, -, hns⟩
  rw [Prog.wp_bind]
  refine Prog.wp_imp (wp_writeEntry_represents h hns) ?_ fun _ _ _ _ => trivial
  rintro lsn ⟨e₁, clock₁⟩ fs₁ h₁
  simp only [Prog.wp_bind, Exec.wp_get, Prog.wp_ite, Prog.wp_pure]
  split
  · exact Prog.wp_imp (wp_flushToSegments_represents h₁) (fun _ _ _ hq => hq.1) fun _ _ _ _ => trivial
  · exact h₁

theorem wp_putWithTtl_represents {s : Contents} {ns key val : Bytes} {ttl : ℕ}
    (h : Represents X R e fs s) :
    Prog.wp (putWithTtl (X := X) ns key val ttl)
      ⟨fun _ q fs' => Represents X R q.state fs' (Function.update s (ns, key) (some val)),
        fun _ _ _ => True, AdmitsEffect X, fun _ _ => True⟩ ⟨e, clock⟩ fs := by
  rw [putWithTtl, Prog.wp_bind]
  refine Prog.wp_imp wp_checkPut ?_ fun _ _ _ _ => trivial
  rintro _ _ _ ⟨rfl, rfl, -, hns⟩
  exact Prog.wp_imp (wp_writeEntry_represents h hns) (fun _ _ _ hq => hq) fun _ _ _ _ => trivial

theorem wp_delete_represents {s : Contents} {ns key : Bytes} (h : Represents X R e fs s)
    (hns : ns.length ≤ maxNsLen) :
    Prog.wp (delete (X := X) ns key)
      ⟨fun _ q fs' => Represents X R q.state fs' (Function.update s (ns, key) none),
        fun _ _ _ => True, AdmitsEffect X, fun _ _ => True⟩ ⟨e, clock⟩ fs := by
  simp only [delete, Prog.wp_bind, Exec.wp_get, Prog.wp_ite, Prog.wp_throw, nextLsn, Exec.wp_modify,
    Prog.wp_pure, Exec.wp_now]
  split
  · trivial
  · exact Prog.wp_imp (wp_writeRecord_represents h rfl hns) (fun _ _ _ hq => hq) fun _ _ _ he => he.elim

/-- An empty commit that is due to rotate asks for the current WAL file, and fails. -/
theorem wp_emptyTransaction_collides (h : WalInv X e fs)
    (hdue : e.wal.needsRotation (unixSecs (clock 0)) = true) (hname : e.wal.name = e.lsnCounter) :
    Prog.wp (runTransaction (X := X) [])
      ⟨fun _ _ _ => False, fun _ q fs' => q.state = { e with txidCounter := e.txidCounter + 1 } ∧ fs' = fs,
        AdmitsEffect X, fun _ _ => True⟩ ⟨e, clock⟩ fs := by
  obtain ⟨bs, rs, hlatest, -, -⟩ := h.atEnd
  have hcollides : Collides { e with txidCounter := e.txidCounter + 1 } fs (clock 0) := by
    refine ⟨hdue, ?_⟩
    rw [← hname, hlatest.get_eq]
    rfl
  simp only [runTransaction, begin, commitTransaction, Prog.wp_bind, Exec.wp_modify, Exec.wp_get,
    Prog.wp_pure, Prog.wp_lift]
  rw [TxOp.addAll_eq [] _ rfl]
  simp only [Prog.result_ok, Transaction.takePending, List.map_nil, List.append_nil, onWal,
    Exec.wp_zoom, WalWriter.fsync, Exec.wp_effect, Prog.wp_bind, Exec.wp_get]
  refine (Prog.wp_pure PUnit.unit).mpr fun _ => ⟨trivial, Prog.wp_mono wp_rotateWalIfNeeded_leaves ?_
    (fun _ _ _ hq => ⟨hq.1, hq.2.1⟩) (fun _ _ _ => trivial) fun _ _ _ _ => trivial⟩
  exact fun _ _ _ hq => absurd hcollides hq.2

/-- Only an empty commit asks for a name that is taken. -/
theorem empty_of_not_ahead {ops : List TxOp} (hle : e.wal.name ≤ e.lsnCounter)
    (hahead : ¬ ((e.wal.appended X (e.txRecords X ops)).needsRotation (unixSecs (clock 0)) = true →
      e.wal.name < e.lsnCounter + ops.length)) :
    ops = [] ∧ e.wal.needsRotation (unixSecs (clock 0)) = true ∧ e.wal.name = e.lsnCounter := by
  obtain ⟨hdue, hlt⟩ := Classical.not_imp.mp hahead
  cases ops with
  | cons o ops =>
    rw [List.length_cons] at hlt
    exact absurd (Nat.lt_succ_of_le (hle.trans (Nat.le_add_right _ _))) hlt
  | nil =>
    rw [List.length_nil] at hlt
    exact ⟨rfl, by simpa [txRecords, stamped, WalWriter.appended] using hdue, le_antisymm hle (not_lt.mp hlt)⟩

/-- **A transaction** updates the contents. -/
theorem wp_runTransaction_represents {s : Contents} {ops : List TxOp} (h : Represents X R e fs s)
    (hns : ∀ r ∈ e.txRecords X ops, r.nsBytes.length ≤ maxNsLen) :
    Prog.wp (runTransaction (X := X) ops)
      ⟨fun _ q fs' => Represents X R q.state fs' ((Op.commit ops).update s), fun _ _ _ => True,
        AdmitsEffect X, fun _ _ => True⟩ ⟨e, clock⟩ fs := by
  by_cases hahead : (e.wal.appended X (e.txRecords X ops)).needsRotation (unixSecs (clock 0)) = true →
      e.wal.name < e.lsnCounter + ops.length
  · refine Prog.wp_mono (Prog.wp_and (h.inv.wp_write (runTransaction_frame ops))
      (h.wal.wp_runTransaction ops hahead)) ?_ (fun _ _ _ _ => trivial) (fun _ _ hr => hr)
      fun _ _ _ _ => trivial
    rintro _ q fs' ⟨⟨hinv, hsame⟩, hlogged, hname⟩
    have hrep : Represents X R { e with txidCounter := e.txidCounter + 1 } fs s :=
      ⟨⟨h.inv.store, h.inv.window⟩, ⟨h.wal.log, h.wal.atEnd, h.wal.counter, h.wal.memtable⟩, h.ahead,
        h.stored, h.settled⟩
    rw [← updateAll_txOps (X := X) (e.txidCounter + 1), ← updateAll_stamped e.lsnCounter]
    refine hlogged.represents hrep hinv hsame ?_ fun r hr => ⟨lsn_stamped r hr, hns r hr⟩
    rw [length_stamped, List.length_map]
    exact hname
  · obtain ⟨rfl, hdue, hname⟩ := empty_of_not_ahead h.ahead hahead
    exact Prog.wp_imp (wp_emptyTransaction_collides h.wal hdue hname) (fun _ _ _ hq => hq.elim) fun _ _ _ _ => trivial

end Engine

/-! ### Runs of writes -/

/-- The records of a write are ones that the reader of the WAL accepts, and if the memtable is flushed, its
segment is one that its readers accept. -/
def Engine.WriteFits (X : Externals) (e : Engine) (c : Call) : Prop :=
  match c.op with
  | .put ns key val =>
    let r := Engine.putRecord X (e.lsnCounter + 1) (asI64 (c.clock 0)) 0 ns key val
    r.Fits X ∧ ((e.applied r).memtable.len * avgEntrySizeEstimate ≥ e.config.memtableMaxBytes →
      ∀ i, (e.applied r).FlushFits X (c.clock i))
  | .putWithTtl ns key val ttl =>
    (Engine.putRecord X (e.lsnCounter + 1) (asI64 (c.clock 0)) ttl ns key val).Fits X
  | .delete ns key => (Engine.deleteRecord X (e.lsnCounter + 1) (asI64 (c.clock 0)) ns key).Fits X
  | .commit ops => ∀ r ∈ e.txRecords X ops, r.Fits X
  | _ => False

namespace World

variable {w : World} {c : Call} {s s' : Contents}

/-- A client write that is not cut short, returns `Ok`, and writes what readers accept. -/
structure AcceptsWrite (X : Externals) (w : World) (c : Call) : Prop where
  stop : c.stop = none
  ok : (w.perform X c.op c.clock).ok = true
  fits : ∀ e ∈ w.engine, e.WriteFits X c

/-- The open engine represents contents, and no flush is in flight. -/
structure Represents (X : Externals) (w : World) (s : Contents) : Prop where
  inv : WorldInv X w
  flights : w.flights = []
  engine : ∃ e, w.engine = some e ∧ e.Represents X w.reservedIds w.fs s

/-- What an engine represents is read back. -/
theorem Represents.shows (h : w.Represents X s) {ns : Bytes} (hns : ns.length ≤ maxNsLen) (key : Bytes) :
    w.Shows X ns key (s (ns, key)) := by
  obtain ⟨e, he, hrep⟩ := h.engine
  have hk : encodeKey ns key = .ok (beBytes 2 ns.length ++ ns ++ key) := encodeKey_eq_ok.mpr ⟨hns, rfl⟩
  refine shows_of_settles h.inv he ?_ hk
  rw [Settles, he]
  exact hrep.settled ns key _ hk

/-- Effects that write what readers accept are admitted. -/
theorem admitted_of_fits (hstop : c.stop = none)
    (hfits : (disk X).All (fun f _ => f.Fits X) (w.effects X c) w.fs) (hwindow : WindowOk c)
    (hids : w.IdsCovered X c) : w.Admitted X c :=
  ⟨hstop, (effectsMeet_iff hstop).mpr (hfits.mono fun _ _ h => h.withinLimits), hwindow, hids⟩

theorem all_admitsEffect (hw : WorldInv X w) (hc : w.Admitted X c)
    (hfits : (disk X).All (fun f _ => f.Fits X) (w.effects X c) w.fs) :
    (disk X).All (AdmitsEffect X) (w.effects X c) w.fs := by
  refine Device.all_and.mpr ⟨Device.all_and.mpr ⟨(effectsMeet_iff hc.stop).mp hc.limits, ?_⟩, ?_⟩
  · exact (hw.all_clean hc).mono fun _ _ h => h.2
  · refine hfits.mono fun f d hf => ?_
    cases f with
    | walAppend n r => exact hf
    | _ => trivial

/-- **A write**, by the rule of its method, takes what the world represents to what the rule says. -/
theorem Represents.of_wp {α : Type} {m : Exec X Engine α} {op : Op} (h : w.Represents X s)
    (hperform : w.perform X op clock = w.onEngine X clock m) (hok : (w.perform X op clock).ok = true)
    (hwindow : WindowOk ⟨op, clock, none⟩) (hids : w.IdsCovered X ⟨op, clock, none⟩)
    (hfits : ∀ e, w.engine = some e →
      (disk X).All (fun f _ => f.Fits X) (m.run ⟨e, clock⟩ w.fs).2.2 w.fs)
    (hwp : ∀ e, w.engine = some e → e.Represents X w.reservedIds w.fs s → Prog.wp m
      ⟨fun _ q fs' => q.state.Represents X w.reservedIds fs' s', fun _ _ _ => True, AdmitsEffect X,
        fun _ _ => True⟩ ⟨e, clock⟩ w.fs) :
    (w.step X ⟨op, clock, none⟩).Represents X s' := by
  obtain ⟨e, he, hrep⟩ := h.engine
  have heffects : w.effects X ⟨op, clock, none⟩ = (m.run ⟨e, clock⟩ w.fs).2.2 := by
    rw [effects, hperform, (onEngine_some he).1]
  have hfits' := hfits e he
  rw [← heffects] at hfits'
  have hadm := admitted_of_fits rfl hfits' hwindow hids
  have hadmits := all_admitsEffect h.inv hadm hfits'
  rw [effects, hperform] at hadmits
  obtain ⟨q, hq, ⟨-, a, hrep'⟩ | ⟨hfail, -⟩⟩ := onEngine_outcome he hadmits (hwp e he hrep)
  · have hflights : (w.step X ⟨op, clock, none⟩).flights = w.flights := by
      rw [step, hperform]
      exact flights_onEngine
    refine ⟨h.inv.step hadm, hflights.trans h.flights, q.state, ?_, ?_⟩
    · rw [step, hperform]
      exact hq
    · rw [reservedIds, hflights, step, hperform]
      exact hrep'
  · rw [hperform, hfail] at hok
    cases hok

/-- **An accepted write** updates the contents. -/
theorem Represents.write (h : w.Represents X s) (hc : w.AcceptsWrite X c) :
    (w.step X c).Represents X (c.op.update s) := by
  obtain ⟨op, clock, stop⟩ := c
  obtain rfl : stop = none := hc.stop
  have hfits := hc.fits
  obtain ⟨e₀, he₀, -⟩ := h.engine
  cases op with
  | put ns key val =>
    exact h.of_wp rfl hc.ok trivial trivial
      (fun e he => Prog.wp_guar (Engine.wp_put_fits (hfits e he).1 (hfits e he).2) Device.all_true)
      fun _ _ hrep => Engine.wp_put_represents hrep
  | putWithTtl ns key val ttl =>
    exact h.of_wp rfl hc.ok trivial trivial
      (fun e he => Prog.wp_guar (Engine.wp_putWithTtl_fits (hfits e he)) Device.all_true)
      fun _ _ hrep => Engine.wp_putWithTtl_represents hrep
  | delete ns key =>
    exact h.of_wp rfl hc.ok trivial trivial
      (fun e he => Prog.wp_guar (Engine.wp_delete_fits (hfits e he)) Device.all_true)
      fun e he hrep => Engine.wp_delete_represents hrep (hfits e he).nsBytes_le
  | commit ops =>
    exact h.of_wp rfl hc.ok trivial trivial
      (fun e he => Engine.all_fits_runTransaction (hfits e he))
      fun e he hrep => Engine.wp_runTransaction_represents hrep fun r hr => (hfits e he r hr).nsBytes_le
  | _ => exact (hfits e₀ he₀).elim

/-- **A run of accepted writes** updates the contents one after the other. -/
theorem Represents.writes {writes : List Call} (h : w.Represents X s)
    (hwrites : Run.All (World.step X) (AcceptsWrite X) w writes) :
    (Run.from (World.step X) w writes).Represents X (writes.foldl (fun s c => c.op.update s) s) := by
  induction writes generalizing w s with
  | nil => exact h
  | cons c writes ih => exact ih (h.write hwrites.1) hwrites.2

/-- A new engine represents empty contents. -/
theorem represents_open {config : EdgestoreConfig} (hwindow : asI64 config.cohortWindowSecs ≠ 0) :
    (({} : World).step X ⟨.open config, clock, none⟩).Represents X fun _ => none := by
  have hfits : ∀ f ∈ ({} : World).effects X ⟨.open config, clock, none⟩, f.Fits X :=
    (Engine.open_frame_fits config ⟨(), clock⟩ {}).1
  have hadm : ({} : World).Admitted X ⟨.open config, clock, none⟩ :=
    admitted_of_fits rfl ((Device.safe_of_forall hfits).all Device.all_true) hwindow
      fun _ hid => (by cases hid)
  have hwalAdm : ({} : World).WalAdmitted X ⟨.open config, clock, none⟩ := by
    refine ⟨fun r hr => ?_, fun p hp => by cases hp⟩
    obtain ⟨f, hf, heq⟩ := List.mem_filterMap.mp hr
    have hfit := hfits f hf
    cases f with
    | walAppend n r' =>
      cases heq
      exact hfit
    | _ => cases heq
  have hw : WorldInv X {} := worldInv_empty
  have hwal : WalInv X {} := walInv_empty
  obtain ⟨e, he, hopen⟩ :=
    opens hw hwal.log.files rfl hadm (WalAdmitted.opensFresh rfl hwalAdm) fun p hp => by cases hp
  have hreg : registered X ({} : Fs) = [] := registered_none rfl
  refine ⟨hw.step hadm, rfl, e, he, ⟨hopen.inv, (hwal.step hwalAdm).engine e he, ?_, ?_, ?_⟩⟩
  · have hname : (({} : World).step X ⟨.open config, clock, none⟩).engine.map (fun e => e.wal.name) =
        some 0 := rfl
    rw [he] at hname
    have hzero : e.wal.name = 0 := Option.some.inj hname
    rw [hzero]
    exact Nat.zero_le _
  · intro k r hr
    rw [recordsOf_congr hopen.registered hopen.segs, recordsOf_eq, registeredIds] at hr
    have hnil : registered X ({} : World).fs = [] := hreg
    rw [hnil] at hr
    cases hr
  · intro ns key k hk
    exact hopen.settled (settled_of_recovered hreg k)

/-- **A flush** of a memtable that is not empty and fits its readers succeeds, registers its entries, and
leaves the contents. -/
theorem Represents.flush (h : w.Represents X s)
    (hflush : ∀ e ∈ w.engine, e.memtable.isEmpty = false ∧ ∀ i, e.FlushFits X (clock i)) :
    (w.perform X .flushToSegments clock).ok = true ∧
      (w.step X ⟨.flushToSegments, clock, none⟩).Represents X s ∧
      ∃ e ∈ w.engine, ∃ sm, registered X (w.step X ⟨.flushToSegments, clock, none⟩).fs =
          registered X w.fs ++ [sm] ∧
        ((w.step X ⟨.flushToSegments, clock, none⟩).fs.segs sm.segmentId).table =
          e.memtable.entries.map storedEntry := by
  obtain ⟨e, he, hrep⟩ := h.engine
  obtain ⟨hne, hfits⟩ := hflush e he
  have heffects : w.effects X ⟨.flushToSegments, clock, none⟩ =
      ((Engine.flushToSegments (X := X)).run ⟨e, clock⟩ w.fs).2.2 := (onEngine_some he).1
  have hall : (disk X).All (fun f _ => f.Fits X) (w.effects X ⟨.flushToSegments, clock, none⟩) w.fs := by
    rw [heffects]
    exact Prog.wp_guar (Engine.wp_flushToSegments_fits (p := ⟨e, clock⟩) hfits) Device.all_true
  have hadm := admitted_of_fits rfl hall trivial trivial
  obtain ⟨q, hq, ⟨hok, sm, hrep', hreg, htable⟩ | ⟨-, err, hempty⟩⟩ :=
    onEngine_outcome he (all_admitsEffect h.inv hadm hall) (Engine.wp_flushToSegments_represents hrep)
  · have hflights : (w.step X ⟨.flushToSegments, clock, none⟩).flights = w.flights := flights_onEngine
    refine ⟨hok, ⟨h.inv.step hadm, hflights.trans h.flights, q.state, hq, ?_⟩, e, he, sm, hreg, htable⟩
    rw [reservedIds, hflights]
    exact hrep'
  · rw [MemTable.isEmpty_iff.mpr hempty] at hne
    cases hne

/-- **A reopening** succeeds and leaves the contents, if a rotation that is due asks for a new file. -/
theorem Represents.reopen {config : EdgestoreConfig} {clock' : ℕ → ℕ} (h : w.Represents X s)
    (clock : ℕ → ℕ) (hwindow : asI64 config.cohortWindowSecs ≠ 0) (hfresh : OpensFresh X w.fs config clock') :
    let w' := (w.step X ⟨.close, clock, none⟩).step X ⟨.open config, clock', none⟩
    w'.engine.isSome = true ∧
      ∀ ns key, ns.length ≤ maxNsLen → w'.Shows X ns key (s (ns, key)) := by
  intro w'
  obtain ⟨e, he, hrep⟩ := h.engine
  set w₁ := w.step X ⟨.close, clock, none⟩ with hw₁
  have hfs : w₁.fs = w.fs := fs_close clock he
  have hflights : w₁.flights = [] := (flights_onEngine (X := X)).trans h.flights
  have hwal : WalInv X w := by
    refine ⟨hrep.wal.log, fun e' he' => ?_⟩
    rw [he] at he'
    cases he'
    exact hrep.wal
  have hclose : w.Admitted X ⟨.close, clock, none⟩ := by
    refine admitted_of_fits rfl ?_ trivial trivial
    have heffects : w.effects X ⟨.close, clock, none⟩ = [.sync (.wal e.wal.name)] := by
      simp only [effects, perform, onEngine, he]
      rfl
    rw [heffects]
    exact ⟨trivial, trivial⟩
  obtain ⟨hnone, hheader⟩ := headersWhole_close clock hwal he
  have hopen : w₁.Admitted X ⟨.open config, clock', none⟩ := by
    refine admitted_of_fits rfl ?_ hwindow ?_
    · exact (Device.safe_of_forall (Engine.open_frame_fits config ⟨(), clock'⟩ w₁.fs).1).all
        Device.all_true
    · intro id hid
      rw [reservedIds, hflights] at hid
      cases hid
  have hinv₁ := h.inv.step hclose
  obtain ⟨e', he', hreopened⟩ := opens hinv₁ (hfs ▸ hrep.wal.log.files) hnone hopen
    (hfs ▸ hfresh) hheader
  refine ⟨Option.isSome_iff_exists.mpr ⟨e', he'⟩, fun ns key hns => ?_⟩
  have hk : encodeKey ns key = .ok (beBytes 2 ns.length ++ ns ++ key) := encodeKey_eq_ok.mpr ⟨hns, rfl⟩
  refine shows_of_settles (hinv₁.step hopen) he' ?_ hk
  rw [Settles, he']
  exact hreopened.settled (hfs ▸ hrep.settled ns key _ hk)

/-- **What is accepted can be read back**: writes that return `Ok` are flushed and registered, and are
returned after the flush and after a reopening, as long as what is written is within the limits of the
readers. -/
theorem flushed_is_readable {config config' : EdgestoreConfig} {clock₀ clock₁ clock₂ clock₃ : ℕ → ℕ}
    {writes : List Call} (hwindow : asI64 config.cohortWindowSecs ≠ 0)
    (hwindow' : asI64 config'.cohortWindowSecs ≠ 0)
    (hwrites : Run.All (World.step X) (AcceptsWrite X)
      (({} : World).step X ⟨.open config, clock₀, none⟩) writes)
    (hflush : ∀ e ∈ (Run.from (World.step X) (({} : World).step X ⟨.open config, clock₀, none⟩)
      writes).engine, e.memtable.isEmpty = false ∧ ∀ i, e.FlushFits X (clock₁ i))
    (hfresh : OpensFresh X ((Run.from (World.step X)
      (({} : World).step X ⟨.open config, clock₀, none⟩) writes).step X
        ⟨.flushToSegments, clock₁, none⟩).fs config' clock₃) :
    let written : Contents := writes.foldl (fun s c => c.op.update s) fun _ => none
    let w₁ := Run.from (World.step X) (({} : World).step X ⟨.open config, clock₀, none⟩) writes
    let w₂ := w₁.step X ⟨.flushToSegments, clock₁, none⟩
    let w₃ := (w₂.step X ⟨.close, clock₂, none⟩).step X ⟨.open config', clock₃, none⟩
    (w₁.perform X .flushToSegments clock₁).ok = true ∧
      (∃ e ∈ w₁.engine, ∃ sm, registered X w₂.fs = registered X w₁.fs ++ [sm] ∧
        (w₂.fs.segs sm.segmentId).table = e.memtable.entries.map storedEntry) ∧
      (∀ ns key, ns.length ≤ maxNsLen → w₂.Shows X ns key (written (ns, key))) ∧
      w₃.engine.isSome = true ∧
      ∀ ns key, ns.length ≤ maxNsLen → w₃.Shows X ns key (written (ns, key)) := by
  intro written w₁ w₂ w₃
  have h₁ : w₁.Represents X written := (represents_open hwindow).writes hwrites
  obtain ⟨hok, h₂, hregistered⟩ := h₁.flush hflush
  obtain ⟨hopen, hshows⟩ := h₂.reopen clock₂ hwindow' hfresh
  exact ⟨hok, hregistered, fun ns key hns => h₂.shows hns key, hopen, hshows⟩

/-- A put, a put with a TTL, a delete and a transaction. -/
def fourWrites : List Call :=
  [{ op := .put [1] [1] [1] }, { op := .putWithTtl [1] [2] [2] 60 }, { op := .delete [1] [1] },
    { op := .commit [{ op := .put, ns := [1], key := [3], val := [3] }] }]

theorem flushed_is_readable_fourWrites :
    let w₁ := Run.from (World.step plainExternals)
      (({} : World).step plainExternals ⟨.open {}, fun _ => 0, none⟩) fourWrites
    let w₂ := w₁.step plainExternals ⟨.flushToSegments, fun _ => 0, none⟩
    let w₃ := (w₂.step plainExternals ⟨.close, fun _ => 0, none⟩).step plainExternals
      ⟨.open {}, fun _ => 0, none⟩
    w₂.Shows plainExternals [1] [2] (some [2]) ∧ w₃.Shows plainExternals [1] [2] (some [2]) ∧
      w₃.Shows plainExternals [1] [1] none := by
  intro w₁ w₂ w₃
  have hwrites : Run.All (World.step plainExternals) (AcceptsWrite plainExternals)
      (({} : World).step plainExternals ⟨.open {}, fun _ => 0, none⟩) fourWrites := by
    have hput : ∀ e ∈ (({} : World).step plainExternals ⟨.open {}, fun _ => 0, none⟩).engine,
        (Engine.putRecord plainExternals (e.lsnCounter + 1) (asI64 0) 0 [1] [1] [1]).Fits plainExternals ∧
          ¬ (e.applied (Engine.putRecord plainExternals (e.lsnCounter + 1) (asI64 0) 0 [1] [1]
            [1])).memtable.len * avgEntrySizeEstimate ≥ e.config.memtableMaxBytes := by
      decide +kernel
    refine ⟨⟨rfl, by decide +kernel, fun e he => ?_⟩, ⟨rfl, by decide +kernel, ?_⟩,
      ⟨rfl, by decide +kernel, ?_⟩, ⟨rfl, by decide +kernel, ?_⟩, trivial⟩
    · exact ⟨(hput e he).1, fun hdue => absurd hdue (hput e he).2⟩
    · simp only [Engine.WriteFits]
      decide +kernel
    · simp only [Engine.WriteFits]
      decide +kernel
    · simp only [Engine.WriteFits]
      decide +kernel
  have hflush : ∀ e ∈ w₁.engine, e.memtable.isEmpty = false ∧ e.FlushFits plainExternals 0 := by
    decide +kernel
  obtain ⟨-, -, hshows, -, hreopened⟩ := @flushed_is_readable plainExternals {} {} (fun _ => 0)
    (fun _ => 0) (fun _ => 0) (fun _ => 0) fourWrites (by decide) (by decide) hwrites
    (fun e he => ⟨(hflush e he).1, fun _ => (hflush e he).2⟩) (by decide +kernel)
  exact ⟨hshows [1] [2] (by decide), hreopened [1] [2] (by decide), hreopened [1] [1] (by decide)⟩

end World
