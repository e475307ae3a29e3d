import Edgestore.FlushSessions
import Edgestore.PlainExternals

/-!
# What a flush may unlink

A flush that is finished unlinks every WAL file but the current one. Its segment has the records that were in the
memtable when the flush began, so this is safe as long as the WAL was not rotated since then: a rotation leaves records
that the segment does not have in a file that is no longer the current one.

## Main definitions

* `World.Retains`: a record, or a later one of its key, is in a WAL file or in a registered segment
* `World.FinishesUnrotated`: a flush that is finished finds the WAL file of its beginning

## Main results

* `World.flushes_keep_acked`: nothing that was acknowledged is lost, if the WAL is not rotated during a flush
* `World.rotation_loses_acked`: a rotation during a flush loses a record
-/

variable {X : Externals} {e : Engine} {clock : ℕ → ℕ}

namespace World

variable {w : World} {c : Call}

/-- **A record that is kept**: it, or a later acknowledged record of its key, is in a WAL file or in a registered
segment. A segment has one record for each key. -/
def Retains (X : Externals) (w : World) (r : WalRecord) : Prop :=
  ∃ r' ∈ w.acked, r'.encodedKey = r.encodedKey ∧ r.lsn ≤ r'.lsn ∧
    (r' ∈ walSequence X w.fs ∨ r'.toEntry r'.encodedKey ∈ recordsOf X w.fs r'.encodedKey)

instance (X : Externals) (w : World) (r : WalRecord) : Decidable (w.Retains X r) :=
  inferInstanceAs (Decidable (∃ r' ∈ w.acked, _ ∧ _ ∧ (_ ∨ _)))

/-- The WAL files that a call unlinks have LSNs up to `top`. -/
def UnlinksUpTo (X : Externals) (w : World) (c : Call) (top : Lsn) : Prop :=
  ∀ p ∈ w.fs.wals.entries, (w.step X c).fs.wals.get p.1 = none → ∀ r ∈ fileRecords X p.2, r.lsn ≤ top

instance (X : Externals) (w : World) (c : Call) (top : Lsn) : Decidable (w.UnlinksUpTo X c top) :=
  inferInstanceAs (Decidable (∀ p ∈ _, _ → ∀ r ∈ _, _))

/-- A call unlinks no WAL file with a record that was written after the flush that it finishes had begun. -/
def UnlinksFlushed (X : Externals) (w : World) (c : Call) : Prop :=
  match c.op with
  | .finalizeFlush i => ∀ f ∈ w.flights[i]?, w.UnlinksUpTo X c f.work.flushedMaxLsn
  | _ => True

instance (X : Externals) (w : World) : DecidablePred (w.UnlinksFlushed X) := fun ⟨op, clock, stop⟩ => by
  unfold UnlinksFlushed
  rcases op <;> infer_instance

/-- **A flush that is finished finds the WAL file of its beginning**, or no other one: the name of the current file, the
LSN counter at the time of its creation, is not above the LSNs of the flush. -/
def FinishesUnrotated (w : World) (c : Call) : Prop :=
  match c.op with
  | .finalizeFlush i => ∀ e ∈ w.engine, ∀ f ∈ w.flights[i]?,
      e.wal.name ≤ f.work.flushedMaxLsn ∨ ∀ p ∈ w.fs.wals.entries, p.1 = e.wal.name
  | _ => True

instance (w : World) : DecidablePred w.FinishesUnrotated := fun ⟨op, clock, stop⟩ => by
  unfold FinishesUnrotated
  rcases op <;> infer_instance

/-- The records of another WAL file than the current one are those of the flush. -/
theorem FinishesUnrotated.lsn_le {i : ℕ} {f : Flight} {p : Lsn × Bytes} {r : WalRecord}
    (hc : w.FinishesUnrotated ⟨.finalizeFlush i, clock, none⟩) (hn : e.WalNamed X w.fs) (he : w.engine = some e)
    (hf : w.flights[i]? = some f) (hp : p ∈ w.fs.wals.entries) (hne : p.1 ≠ e.wal.name)
    (hr : r ∈ fileRecords X p.2) : r.lsn ≤ f.work.flushedMaxLsn := by
  rcases hc e he f hf with hle | honly
  · exact (hn.others p hp hne r hr).trans hle
  · exact absurd (honly p hp) hne

/-- What stays in the memtable stays in the log. -/
theorem FinishesUnrotated.finalizesBy (h : w.Running X e) (hc : w.FinishesUnrotated c)
    (hstop : c.stop = none) : w.FinalizesBy (WriteBuffer.KeepsLog MemEntry.lsn) X e c := by
  obtain ⟨op, clock, stop⟩ := c
  obtain rfl : stop = none := hstop
  rintro i f rfl hf s' - hlog k v - hlt hmem
  obtain ⟨r, hr, hentry⟩ := List.mem_map.mp hmem
  obtain ⟨p, hp, hrp⟩ := List.mem_flatMap.mp hr
  have hlsn : r.lsn = v.lsn := congrArg (fun p => p.2.lsn) hentry
  by_cases hname : p.1 = e.wal.name
  · -- the record is in the current file
    rw [hlog, ← hentry, Engine.currentRecords, ← hname, w.fs.wals.mem_entries_iff.mp hp, Option.getD_some]
    exact List.mem_map_of_mem hrp
  · exact absurd (hlsn ▸ hc.lsn_le h.named h.engine hf hp hname hrp) (not_le.mpr hlt)

/-- **What is kept in the write buffer** is kept in the directory. -/
theorem Session.keeps {r : WalRecord} (h : Session (WriteBuffer.KeepsLog MemEntry.lsn) X w e) (hr : r ∈ w.acked) :
    w.Retains X r := by
  obtain ⟨-, hkept⟩ := h.steps.kept
  rcases hkept _ (List.mem_map_of_mem hr) with ⟨v, hmem, hcovers⟩ | ⟨v, hmem, hcovers⟩
  · obtain ⟨r', hr', hentry⟩ := List.mem_map.mp hmem
    obtain ⟨hkey, rfl⟩ := Prod.mk.inj hentry
    exact ⟨r', h.acked r' hr', hkey, hcovers.le, .inl hr'⟩
  · obtain ⟨r', hr', hentry⟩ := List.mem_map.mp (h.steps.from.stored _ v hmem)
    obtain ⟨hkey, rfl⟩ := Prod.mk.inj hentry
    exact ⟨r', hr', hkey, hcovers.le, .inr (hkey ▸ hmem)⟩

/-- **A flush unlinks what it has written**, if it finds the WAL file of its beginning. -/
theorem Session.unlinksFlushed {P : RegistrationRule} (h : Session P X w e) (hc : w.SessionCall X c)
    (hP : w.FinalizesBy P X e c) (hunrotated : w.FinishesUnrotated c) : w.UnlinksFlushed X c := by
  obtain ⟨op, clock, stop⟩ := c
  obtain rfl : stop = none := hc.admitted.stop
  cases op with
  | finalizeFlush i =>
    intro f hf p hp hunlinked r hr
    refine hunrotated.lsn_le h.named h.engine hf hp (fun hname => ?_) hr
    -- the current file is the last one after the flush
    obtain ⟨e', hwal, h'⟩ := h.finalizeFlush hc hP
    obtain ⟨bs, -, hlatest, -⟩ := h'.named.wal.atEnd
    rw [hname, ← hwal, hlatest.get_eq] at hunlinked
    cases hunlinked
  | _ => trivial

/-- The state at any time of a session, and what its next call asks for. -/
theorem session_of_unrotated {config : EdgestoreConfig} {calls : List Call}
    (hwindow : asI64 config.cohortWindowSecs ≠ 0)
    (hcalls : Run.All (step X) (fun w c => w.SessionCall X c ∧ w.FinishesUnrotated c) (opened X config clock) calls) :
    (∃ e, Session (WriteBuffer.KeepsLog MemEntry.lsn) X (Run.from (step X) (opened X config clock) calls) e) ∧
      Run.All (step X) (UnlinksFlushed X) (opened X config clock) calls := by
  have hstep : ∀ (w : World) (c : Call), (∃ e, Session (WriteBuffer.KeepsLog MemEntry.lsn) X w e) →
      w.SessionCall X c ∧ w.FinishesUnrotated c →
      ∃ e, Session (WriteBuffer.KeepsLog MemEntry.lsn) X (w.step X c) e :=
    fun w c ⟨e, hw⟩ ⟨hc, hunrotated⟩ => hw.step hc (hunrotated.finalizesBy hw.running hc.admitted.stop)
  refine ⟨hcalls.invariant hstep (session_opened _ hwindow), ?_⟩
  refine hcalls.imp_of_invariant hstep (fun w c hw hc => ?_) (session_opened _ hwindow)
  obtain ⟨e, he⟩ := hw
  exact he.unlinksFlushed hc.1 (hc.2.finalizesBy he.running hc.1.admitted.stop) hc.2

/-- **Flushes keep what was acknowledged**, whatever is written while they are in flight, if the WAL is not rotated
between the beginning and the end of a flush: every acknowledged record is in a WAL file or in a registered segment, or
a later one of its key is, and no file is unlinked that has a record written after the beginning of the flush. -/
theorem flushes_keep_acked {config : EdgestoreConfig} {calls : List Call}
    (hwindow : asI64 config.cohortWindowSecs ≠ 0)
    (hcalls : Run.All (step X) (fun w c => w.SessionCall X c ∧ w.FinishesUnrotated c) (opened X config clock) calls) :
    (∀ r ∈ (Run.from (step X) (opened X config clock) calls).acked,
        (Run.from (step X) (opened X config clock) calls).Retains X r) ∧
      Run.All (step X) (UnlinksFlushed X) (opened X config clock) calls := by
  obtain ⟨⟨e, h⟩, hunlinks⟩ := session_of_unrotated hwindow hcalls
  exact ⟨fun r hr => h.keeps hr, hunlinks⟩

/-- A write that rotates the WAL, a flush with a write in flight, and the same again. -/
def unrotatedRun : List Call :=
  [{ op := .put [1] [1] [1], clock := atSecs 61 }, { op := .beginFlush }, { op := .put [1] [2] [2], clock := atSecs 62 },
    { op := .execute 0 }, { op := .finalizeFlush 0 }, { op := .delete [1] [1], clock := atSecs 122 },
    { op := .beginFlush }, { op := .execute 0 }, { op := .finalizeFlush 0 }]

theorem flushes_keep_acked_unrotatedRun :
    (∀ r ∈ (Run.from (step plainExternals) (opened plainExternals {} fun _ => 0) unrotatedRun).acked,
        (Run.from (step plainExternals) (opened plainExternals {} fun _ => 0) unrotatedRun).Retains plainExternals r) ∧
      Run.All (step plainExternals) (UnlinksFlushed plainExternals) (opened plainExternals {} fun _ => 0) unrotatedRun :=
  flushes_keep_acked (by decide) (by decide +kernel)

/-- A write that rotates the WAL while a flush is in flight. -/
def rotatedRun : List Call :=
  [{ op := .put [1] [1] [1] }, { op := .beginFlush }, { op := .put [1] [2] [2], clock := atSecs 61 }, { op := .execute 0 },
    { op := .finalizeFlush 0 }]

/-- **A rotation during a flush loses what was acknowledged**: the record of the write is in the file before the current
one, and the flush unlinks it. -/
theorem rotation_loses_acked :
    Run.All (step plainExternals) (SessionCall plainExternals) (opened plainExternals {} fun _ => 0) rotatedRun ∧
      (¬ ∀ r ∈ (Run.from (step plainExternals) (opened plainExternals {} fun _ => 0) rotatedRun).acked,
        (Run.from (step plainExternals) (opened plainExternals {} fun _ => 0) rotatedRun).Retains plainExternals r) ∧
      ¬ Run.All (step plainExternals) (UnlinksFlushed plainExternals) (opened plainExternals {} fun _ => 0)
        rotatedRun := by
  decide +kernel

end World
