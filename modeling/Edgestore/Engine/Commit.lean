import Edgestore.WalRuns

/-!
# What a commit does

A commit appends the records of its transaction one after the other, each under the next LSN, and
applies each of them to the memtable before it appends the next. At its end it syncs and rotates the
WAL, which leaves the log.

## Main definitions

* `Engine.commitEnd`: what follows the records

## Main results

* `Engine.run_commitRecords`: the memory and the effects of a commit
* `Engine.effects_runTransaction`: the effects of a transaction
-/

open FramedLog

variable {X : Externals} {fs : Fs} {e : Engine} {clock : ℕ → ℕ} {r : WalRecord}
  {rs : List WalRecord}

namespace Engine

theorem run_commitRecord (h : r.nsBytes.length ≤ maxNsLen) :
    (commitRecord (X := X) r).run ⟨e, clock⟩ fs =
      (.ok (), ⟨{ e with
          lsnCounter := e.lsnCounter + 1
          wal := e.wal.appended X [{ r with lsn := e.lsnCounter + 1 }]
          memtable := replayed e.memtable [{ r with lsn := e.lsnCounter + 1 }] }, clock⟩,
        [.walAppend e.wal.name { r with lsn := e.lsnCounter + 1 }]) := by
  have hkey : encodeKey r.nsBytes r.keyBytes = .ok r.encodedKey := encodeKey_record h
  simp only [commitRecord, hkey]
  simp [WalWriter.appended]
  rfl

theorem nsBytes_le_of_stamped {lsn : Lsn} (h : ∀ r ∈ stamped lsn rs, r.nsBytes.length ≤ maxNsLen) :
    ∀ r ∈ rs, r.nsBytes.length ≤ maxNsLen := by
  intro r hr
  have hmem : r.nsBytes ∈ (stamped lsn rs).map WalRecord.nsBytes := by
    rw [nsBytes_stamped]
    exact List.mem_map_of_mem hr
  obtain ⟨r', hr', heq⟩ := List.mem_map.mp hmem
  exact heq ▸ h r' hr'

/-- **A commit appends its records** and applies them, one after the other. -/
theorem run_commitRecords (h : ∀ r ∈ rs, r.nsBytes.length ≤ maxNsLen) :
    (rs.forM (commitRecord (X := X))).run ⟨e, clock⟩ fs =
      (.ok (), ⟨{ e with
          lsnCounter := e.lsnCounter + rs.length
          wal := e.wal.appended X (stamped e.lsnCounter rs)
          memtable := replayed e.memtable (stamped e.lsnCounter rs) }, clock⟩,
        (stamped e.lsnCounter rs).map (.walAppend e.wal.name)) := by
  induction rs generalizing e fs with
  | nil => simp [stamped, WalWriter.appended]; rfl
  | cons r rs ih =>
    have hcons : (r :: rs).forM (commitRecord (X := X)) =
        commitRecord r >>= fun _ => rs.forM commitRecord := rfl
    rw [hcons, Prog.run_bind_ok (run_commitRecord (h r (by simp))),
      ih fun r' hr' => h r' (List.mem_cons_of_mem _ hr')]
    simp [stamped, WalWriter.appended, replayed_cons, Nat.add_assoc, Nat.add_comm 1]

/-- The records of a commit keep the discipline of the log and follow it. -/
theorem WalInv.appends (h : WalInv X e fs) (hfits : ∀ r ∈ stamped e.lsnCounter rs, r.Fits X) :
    (disk X).All (WalEffect X) ((stamped e.lsnCounter rs).map (.walAppend e.wal.name)) fs ∧
      (walSequence X fs ++ stamped e.lsnCounter rs).Pairwise fun r r' => r.lsn < r'.lsn := by
  have hns := nsBytes_le_of_stamped fun r hr => (hfits r hr).nsBytes_le
  have hwp : Prog.wp (rs.forM (commitRecord (X := X))) _ ⟨e, fun _ => 0⟩ fs := h.wp_commitRecords rs
  have hrely : (disk X).All (FitsWal X) ((stamped e.lsnCounter rs).map (.walAppend e.wal.name)) fs :=
    all_fitsWal fun r hr => by
      obtain ⟨_, hmem, heq⟩ := List.mem_filterMap.mp hr
      obtain ⟨r', hr', rfl⟩ := List.mem_map.mp hmem
      rw [Option.some.injEq] at heq
      exact heq ▸ hfits r' hr'
  rw [Prog.wp, run_commitRecords hns] at hwp
  obtain ⟨hlogged, -, -⟩ := hwp.2 hrely
  exact ⟨hwp.1.all hrely, hlogged.sequence ▸ hlogged.inv.log.ordered⟩

/-- The end of a commit, when all records are written. -/
def commitEnd : Exec X Engine Lsn := do
  let lastLsn := (← Exec.get).lsnCounter
  onWal WalWriter.fsync
  rotateWalIfNeeded
  return lastLsn

theorem wp_commitEnd :
    Prog.wp (commitEnd (X := X))
      ⟨fun _ q _ => q.state = { e with wal := q.state.wal },
        fun _ q fs' => q.state = e ∧ fs' = fs, fun _ _ => True, LeavesLog X⟩ ⟨e, clock⟩ fs := by
  simp only [commitEnd, Prog.wp_bind, Exec.wp_get, onWal, Exec.wp_zoom, WalWriter.fsync,
    Exec.wp_effect]
  refine fun _ => ⟨⟨rfl, fun m => rfl⟩, ?_⟩
  exact Prog.wp_imp wp_rotateWalIfNeeded_leaves (fun _ _ _ hq => (Prog.wp_pure _).mpr hq.1)
    (fun _ _ _ hq => ⟨hq.1, hq.2.1⟩)

/-- A transaction writes its records and ends the commit. -/
theorem run_runTransaction (ops : List TxOp) :
    (runTransaction (X := X) ops).run ⟨e, clock⟩ fs =
      ((ops.map (TxOp.record X (e.txidCounter + 1))).forM commitRecord >>= fun _ => commitEnd).run
        ⟨{ e with txidCounter := e.txidCounter + 1 }, clock⟩ fs := by
  have hbegin : (runTransaction (X := X) ops).run ⟨e, clock⟩ fs =
      (Prog.lift (TxOp.addAll X { txid := e.txidCounter + 1 } ops) >>= commitTransaction).run
        ⟨{ e with txidCounter := e.txidCounter + 1 }, clock⟩ fs := rfl
  rw [hbegin, TxOp.addAll_eq ops _ rfl]
  rfl

/-- **The effects of a transaction**: an append for each record, and effects that leave the log. -/
theorem effects_runTransaction {ops : List TxOp} (clock : ℕ → ℕ) (fs : Fs)
    (h : ∀ r ∈ e.txRecords X ops, r.nsBytes.length ≤ maxNsLen) :
    ∃ tail, ((runTransaction (X := X) ops).run ⟨e, clock⟩ fs).2.2 =
        (e.txRecords X ops).map (.walAppend e.wal.name) ++ tail ∧
      (disk X).All (LeavesLog X) tail
        ((disk X).run ((e.txRecords X ops).map (.walAppend e.wal.name)) fs) := by
  rw [run_runTransaction, Prog.run_bind_ok (run_commitRecords (nsBytes_le_of_stamped h))]
  exact ⟨_, rfl, Prog.wp_guar wp_commitEnd Device.all_true⟩

end Engine
