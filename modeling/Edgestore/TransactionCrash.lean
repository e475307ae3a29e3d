import Edgestore.Engine.Commit
import Edgestore.PlainExternals

/-!
# Crashes inside a commit

A commit appends one record for each operation of the transaction, and recovery replays whatever
records it finds. A crash between two of the appends leaves a part of the transaction in the log.

## Main definitions

* `framesWritten X rs n m`: how many of the records `rs` a crash leaves in the log
* `World.CommitAtomic X w ops clock n m`: recovery finds all operations of a transaction, or none

## Main results

* `World.commitAtomic_iff`: a commit is atomic when the crash leaves all its records or none
* `World.crash_splits_transaction`: a transaction of two puts of which one survives
-/

open FramedLog

variable {X : Externals} {fs : Fs} {e : Engine} {rs rs' : List WalRecord}

/-! ### What a crash leaves of a commit -/

/-- The number of records whose frame is whole in the log, if the process stops after `n` of the
appends and `m` bytes into the next. -/
def framesWritten (X : Externals) : List WalRecord → ℕ → ℕ → ℕ
  | [], _, _ => 0
  | r :: _, 0, m => if (frame (walFormat X) r).length ≤ m then 1 else 0
  | _ :: rs, n + 1, m => framesWritten X rs n m + 1

theorem framesWritten_le (X : Externals) (rs : List WalRecord) (n m : ℕ) :
    framesWritten X rs n m ≤ rs.length := by
  induction rs generalizing n with
  | nil => simp [framesWritten]
  | cons r rs ih =>
    cases n with
    | zero =>
      rw [framesWritten]
      split <;> simp
    | succ n => simpa [framesWritten] using ih n

theorem framesWritten_of_length_le {n : ℕ} (h : rs.length ≤ n) (m : ℕ) :
    framesWritten X rs n m = rs.length := by
  induction rs generalizing n with
  | nil => rfl
  | cons r rs ih =>
    cases n with
    | zero => simp at h
    | succ n => simpa [framesWritten] using ih (by simpa using h)

/-- Appends add their records to the log. -/
theorem walSequence_run_appends {n : Lsn}
    (h : (disk X).All (WalEffect X) (rs.map (.walAppend n)) fs) :
    walSequence X ((disk X).run (rs.map (.walAppend n)) fs) = walSequence X fs ++ rs := by
  induction rs generalizing fs with
  | nil => exact (List.append_nil _).symm
  | cons r rs ih =>
    obtain ⟨hr, hrs⟩ := h
    rw [List.map_cons, Device.run_cons, ih hrs]
    change walSequence X (applyEffect X _ fs) ++ rs = _
    rw [hr.walSequence_apply, logAfter, List.append_assoc, List.singleton_append]

/-- **Appends that are cut short** add the records whose frame is whole. -/
theorem walSequence_cut_appends {name : Lsn} (n m : ℕ)
    (h : (disk X).All (WalEffect X) (rs.map (.walAppend name)) fs) :
    walSequence X ((disk X).cut (rs.map (.walAppend name)) n m fs) =
      walSequence X fs ++ rs.take (framesWritten X rs n m) := by
  induction rs generalizing fs n with
  | nil => simp [Device.cut]
  | cons r rs ih =>
    obtain ⟨hr, hrs⟩ := h
    cases n with
    | zero =>
      refine (hr.walSequence_tear m).trans ?_
      simp only [framesWritten]
      by_cases hm : m < (frame (walFormat X) r).length
      · rw [if_pos hm, if_neg (by omega), List.take_zero, List.append_nil]
      · rw [if_neg hm, if_pos (by omega), List.take_succ_cons, List.take_zero]
    | succ n =>
      refine (ih n hrs).trans ?_
      rw [hr.walSequence_apply, logAfter, framesWritten, List.take_succ_cons, List.append_assoc,
        List.singleton_append]

/-- Replaying different prefixes of records in the order of their LSNs gives different memtables. -/
theorem replayed_take_ne {j k : ℕ} (h : (rs ++ rs').Pairwise fun r r' => r.lsn < r'.lsn)
    (hjk : j < k) (hk : k ≤ rs'.length) :
    replayed .empty (rs ++ rs'.take j) ≠ replayed .empty (rs ++ rs'.take k) := by
  obtain ⟨k, rfl⟩ := Nat.exists_eq_add_one_of_ne_zero (by omega : k ≠ 0)
  -- the last record of the longer prefix is above all records of the shorter one
  have hlast : rs'.take (k + 1) = rs'.take k ++ [rs'[k]] := by
    rw [List.take_succ_eq_append_getElem hk]
  have hget : (replayed .empty (rs ++ rs'.take (k + 1))).get rs'[k].encodedKey =
      some (rs'[k].toEntry rs'[k].encodedKey) := by
    rw [hlast, ← List.append_assoc, replayed_append]
    exact SortedMap.get_insert_self ..
  intro heq
  rw [← heq] at hget
  rcases mem_replayed (mem_of_find hget) with hm | ⟨r, hr, hentry⟩
  · simp [SortedMap.empty] at hm
  · have hlsn : rs'[k].lsn = r.lsn := congrArg (fun p : Bytes × MemEntry => p.2.lsn) hentry
    have hsplit : rs ++ rs' = (rs ++ rs'.take j) ++ rs'.drop j := by
      rw [List.append_assoc, List.take_append_drop]
    rw [hsplit, List.pairwise_append] at h
    refine (h.2.2 r hr rs'[k] ?_).ne hlsn.symm
    exact List.mem_drop_iff_getElem.mpr ⟨k - j, by omega, by congr 1; omega⟩

/-! ### Runs -/

namespace World

/-- **Recovery finds all operations of a transaction, or none**: after a crash in its commit it finds
what it finds before the commit, or what it finds after it. -/
def CommitAtomic (X : Externals) (w : World) (ops : List TxOp) (clock : ℕ → ℕ) (n m : ℕ) : Prop :=
  let crashed := (w.step X { op := .commit ops, clock := clock, stop := some (n, m) }).fs
  recovered X crashed = recovered X w.fs ∨
    recovered X crashed = recovered X (w.step X { op := .commit ops, clock := clock }).fs

instance (X : Externals) (w : World) (ops : List TxOp) (clock : ℕ → ℕ) (n m : ℕ) :
    Decidable (w.CommitAtomic X ops clock n m) := inferInstanceAs (Decidable (_ ∨ _))

variable {w : World} {ops : List TxOp}

/-- The log after a commit, and after a crash in it. -/
theorem WalInv.walSequence_commit (h : WalInv X w) (he : w.engine = some e)
    (hfits : ∀ r ∈ e.txRecords X ops, r.Fits X) (clock : ℕ → ℕ) (n m : ℕ) :
    walSequence X (w.step X { op := .commit ops, clock := clock }).fs =
        walSequence X w.fs ++ e.txRecords X ops ∧
      walSequence X (w.step X { op := .commit ops, clock := clock, stop := some (n, m) }).fs =
        walSequence X w.fs ++
          (e.txRecords X ops).take (framesWritten X (e.txRecords X ops) n m) := by
  have hns : ∀ r ∈ e.txRecords X ops, r.nsBytes.length ≤ maxNsLen := fun r hr =>
    (hfits r hr).nsBytes_le
  obtain ⟨tail, heffects, htail⟩ := Engine.effects_runTransaction clock w.fs hns
  have happends : (disk X).All (WalEffect X)
      ((e.txRecords X ops).map (.walAppend e.wal.name)) w.fs := ((h.engine e he).appends hfits).1
  have hperform : (w.perform X (.commit ops) clock).effects =
      (e.txRecords X ops).map (.walAppend e.wal.name) ++ tail := by
    rw [← heffects]
    simp only [perform, onEngine, he]
    split <;> rfl
  constructor
  · simp only [World.step, hperform]
    rw [Device.run_append, walSequence_run htail, walSequence_run_appends happends]
  · simp only [World.step, hperform]
    rw [Device.cut_append, List.length_map]
    split
    case isTrue => exact walSequence_cut_appends n m happends
    case isFalse hn =>
      rw [walSequence_cut htail, walSequence_run_appends happends,
        framesWritten_of_length_le (by omega), List.take_length]

/-- **Transaction atomicity**: in every state that a run of writes, rotations, flushes, restarts and
crashes reaches, a crash in a commit leaves all of the transaction or none of it if and only if it
leaves the frames of all its records in the log, or of none. -/
theorem commitAtomic_iff {calls : List Call} (hrun : Run.All (step X) (WalAdmitted X) {} calls)
    (hw : Run.from (step X) {} calls = w) (he : w.engine = some e)
    (hfits : ∀ r ∈ e.txRecords X ops, r.Fits X) (clock : ℕ → ℕ) (n m : ℕ) :
    w.CommitAtomic X ops clock n m ↔
      framesWritten X (e.txRecords X ops) n m = 0 ∨
        framesWritten X (e.txRecords X ops) n m = ops.length := by
  have hinv : WalInv X w := hw ▸ walInv_run hrun
  have hlength : (e.txRecords X ops).length = ops.length := by simp [Engine.txRecords]
  have hns : ∀ k, ∀ r ∈ walSequence X w.fs ++ (e.txRecords X ops).take k,
      r.nsBytes.length ≤ maxNsLen := by
    intro k r hr
    rcases List.mem_append.mp hr with hr | hr
    · exact (hinv.log.files.fits r hr).nsBytes_le
    · exact (hfits r (List.mem_of_mem_take hr)).nsBytes_le
  obtain ⟨hfull, hcut⟩ := hinv.walSequence_commit he hfits clock n m
  have hpairwise : (walSequence X w.fs ++ e.txRecords X ops).Pairwise fun r r' => r.lsn < r'.lsn :=
    ((hinv.engine e he).appends hfits).2
  have hle := framesWritten_le X (e.txRecords X ops) n m
  have hbefore : recovered X w.fs = .ok (replayed .empty (walSequence X w.fs)) :=
    recovered_eq (by simpa using hns 0)
  have hafter : recovered X (w.step X { op := .commit ops, clock := clock }).fs =
      .ok (replayed .empty (walSequence X w.fs ++ e.txRecords X ops)) := by
    rw [← hfull]
    refine recovered_eq ?_
    rw [hfull, ← List.take_length (l := e.txRecords X ops)]
    exact hns _
  simp only [CommitAtomic]
  rw [recovered_eq (hcut ▸ hns _), hbefore, hafter, hcut, Except.ok.injEq, Except.ok.injEq]
  constructor
  · rintro (heq | heq)
    · refine .inl (Nat.eq_zero_of_not_pos fun hpos => ?_)
      refine replayed_take_ne hpairwise hpos hle ?_
      rw [List.take_zero, List.append_nil, heq]
    · refine .inr (le_antisymm (hlength ▸ hle) (Nat.le_of_not_lt fun hlt => ?_))
      refine replayed_take_ne hpairwise (hlength ▸ hlt) le_rfl ?_
      rw [List.take_length, heq]
  · rintro (hk | hk)
    · exact .inl (by rw [hk, List.take_zero, List.append_nil])
    · exact .inr (by rw [hk, ← hlength, List.take_length])

/-- A fresh database with one record. -/
def onePut : List Call := [{ op := .open {} }, { op := .put [1] [1] [1] }]

/-- A transaction of two puts. -/
def twoPutTx : List TxOp := [⟨.put, [1], [2], [2], 0, 0, 0⟩, ⟨.put, [1], [3], [3], 0, 0, 0⟩]

theorem commitAtomic_iff_twoPutTx :
    ∃ w e, Run.from (step plainExternals) {} onePut = w ∧ w.engine = some e ∧
      (w.CommitAtomic plainExternals twoPutTx (fun _ => 0) 2 0 ↔
        framesWritten plainExternals (e.txRecords plainExternals twoPutTx) 2 0 = 0 ∨
          framesWritten plainExternals (e.txRecords plainExternals twoPutTx) 2 0 = 2) := by
  have he : ((Run.from (step plainExternals) {} onePut).engine).isSome := by decide +kernel
  obtain ⟨e, he⟩ := Option.isSome_iff_exists.mp he
  have hfits : ∀ e ∈ (Run.from (step plainExternals) {} onePut).engine,
      ∀ r ∈ e.txRecords plainExternals twoPutTx, r.Fits plainExternals := by decide +kernel
  exact ⟨_, e, rfl, he, commitAtomic_iff (by decide +kernel) rfl he (hfits e he) _ 2 0⟩

/-- **A crash splits a transaction**: the process stops behind the append of the first of two puts,
and recovery finds the first and not the second. -/
theorem crash_splits_transaction :
    ¬ (Run.from (step plainExternals) {} onePut).CommitAtomic plainExternals twoPutTx (fun _ => 0) 1
      0 := by
  decide +kernel

end World
