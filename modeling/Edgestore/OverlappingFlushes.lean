import Edgestore.FlushSessions
import Edgestore.PlainExternals

/-!
# Flushes that overlap

Two flushes in flight have two generations of the memtable. A lookup that the memtable does not answer takes the record
of the segment that was registered last, so the flushes have to be finished in the order in which their records were
written, key by key.

## Main definitions

* `World.FinishesNotBehind`: no registered segment has a later record of a key than a flush that is finished

## Main results

* `World.overlapping_flushes_read_latest`: reads find the latest acknowledged writes, if no flush is behind another one
* `World.late_flush_hides_write`: a flush that is finished late hides a later write
-/

variable {X : Externals} {e : Engine} {clock : ℕ → ℕ}

/-- What is written last is what a replay finds. -/
theorem latestAfter_entries (m : MemTable) (rs : List WalRecord) :
    WriteBuffer.latestAfter m.get (rs.map WalRecord.entry) = (replayed m rs).get := by
  induction rs generalizing m with
  | nil => rfl
  | cons r rs ih =>
    rw [replayed_cons, ← ih, SortedMap.get_insert_eq_update]
    rfl

namespace World

variable {w : World} {c : Call}

/-- **A flush that is finished is not behind**: no registered segment has a later record of one of its keys. -/
def FinishesNotBehind (X : Externals) (w : World) (c : Call) : Prop :=
  match c.op with
  | .finalizeFlush i => ∀ f ∈ w.flights[i]?, ∀ p ∈ f.work.entries, ∀ r ∈ recordsOf X w.fs p.1, r.lsn ≤ p.2.lsn
  | _ => True

instance (X : Externals) (w : World) : DecidablePred (w.FinishesNotBehind X) := fun ⟨op, clock, stop⟩ => by
  unfold FinishesNotBehind
  rcases op <;> infer_instance

theorem FinishesNotBehind.finalizesBy (hc : w.FinishesNotBehind X c) :
    w.FinalizesBy (fun s b _ => WriteBuffer.NotBehind MemEntry.lsn s b) X e c := by
  obtain ⟨op, clock, stop⟩ := c
  rintro i f rfl hf s' - - k v hv r hr
  exact hc f hf (k, v) (mem_of_find hv) r hr

/-- **What is latest in the write buffer** is what reads return. -/
theorem Running.shows {rs : List WalRecord} (h : w.Running X e) (hfits : ∀ r ∈ rs, r.Fits X)
    (hcurrent : (e.buffered X w.fs w.flights).Current MemEntry.lsn
      (WriteBuffer.latestAfter (fun _ => none) (rs.map WalRecord.entry)))
    {ns : Bytes} (hns : ns.length ≤ maxNsLen) (key : Bytes) :
    w.Shows X ns key (updateAll rs (fun _ => none) (ns, key)) := by
  have hk : encodeKey ns key = .ok (beBytes 2 ns.length ++ ns ++ key) := encodeKey_eq_ok.mpr ⟨hns, rfl⟩
  rw [show (fun _ => none) = (SortedMap.empty : MemTable).get from rfl, latestAfter_entries] at hcurrent
  rw [updateAll_eq (fun r hr => (hfits r hr).nsBytes_le) _ hk]
  refine ⟨e, h.engine, Engine.reads_of_newest (h.inv.engine e h.engine).store hk ?_ fun r hr => ?_⟩
  · refine (congrArg (Option.bind · MemEntry.live) (hcurrent.read _)).trans ?_
    cases (replayed .empty rs).get _ with
    | none => rfl
    | some r => rfl
  · -- the latest entry is among the newest ones, and there is one at most
    obtain ⟨v, hv, hcovers⟩ := hcurrent.covers hr.1
    rw [hv, hcovers.eq_of_le (hr.2 v (hcurrent.mem hv))]
    rfl

/-- **Overlapping flushes leave the latest writes**: at any time of a session, whatever is in flight, `get` and `range`
return the most recent acknowledged write of every key, if no flush is finished behind a registered segment. -/
theorem overlapping_flushes_read_latest {config : EdgestoreConfig} {calls : List Call}
    (hwindow : asI64 config.cohortWindowSecs ≠ 0)
    (hcalls : Run.All (step X) (fun w c => w.SessionCall X c ∧ w.FinishesNotBehind X c) (opened X config clock) calls)
    (ns key : Bytes) (hns : ns.length ≤ maxNsLen) :
    (Run.from (step X) (opened X config clock) calls).Shows X ns key
      (updateAll (Run.from (step X) (opened X config clock) calls).acked (fun _ => none) (ns, key)) := by
  have hopened : ∃ e, Session (fun s b _ => WriteBuffer.NotBehind MemEntry.lsn s b) X (opened X config clock) e :=
    session_opened _ hwindow
  obtain ⟨e, he⟩ := hopened
  obtain ⟨e', h⟩ := he.run (hcalls.mono fun w c hc => ⟨hc.1, fun _ _ => hc.2.finalizesBy⟩)
  exact h.running.shows h.fits h.steps.current hns key

/-- Two flushes of one key in flight, and the finishing calls. -/
def twoFlights (finishes : List Call) : List Call :=
  [{ op := .put [1] [1] [1] }, { op := .beginFlush }, { op := .put [1] [1] [2] }, { op := .beginFlush },
    { op := .execute 0 }, { op := .execute 1 }] ++ finishes

/-- The earlier flush is finished first. -/
def inOrderRun : List Call :=
  twoFlights [{ op := .finalizeFlush 0 }, { op := .finalizeFlush 0 }]

/-- The later flush is finished first. -/
def lateRun : List Call :=
  twoFlights [{ op := .finalizeFlush 1 }, { op := .finalizeFlush 0 }]

theorem overlapping_flushes_read_latest_inOrderRun :
    (Run.from (step plainExternals) (opened plainExternals {} fun _ => 0) inOrderRun).Shows plainExternals [1] [1]
      (updateAll (Run.from (step plainExternals) (opened plainExternals {} fun _ => 0) inOrderRun).acked
        (fun _ => none) ([1], [1])) :=
  overlapping_flushes_read_latest (by decide) (by decide +kernel) [1] [1] (by decide)

/-- **A flush that is finished late hides a later write**: both writes were acknowledged, both flushes are finished, and
`get` returns the first value. -/
theorem late_flush_hides_write :
    Run.All (step plainExternals) (SessionCall plainExternals) (opened plainExternals {} fun _ => 0) lateRun ∧
      (Run.from (step plainExternals) (opened plainExternals {} fun _ => 0) lateRun).flights = [] ∧
      (Run.from (step plainExternals) (opened plainExternals {} fun _ => 0) lateRun).get plainExternals [1] [1] =
        some (.ok (some [1])) ∧
      updateAll (Run.from (step plainExternals) (opened plainExternals {} fun _ => 0) lateRun).acked
        (fun _ => none) ([1], [1]) = some [2] ∧
      ¬ (Run.from (step plainExternals) (opened plainExternals {} fun _ => 0) lateRun).Shows plainExternals [1] [1]
        (some [2]) := by
  have hfirst : (Run.from (step plainExternals) (opened plainExternals {} fun _ => 0) lateRun).get plainExternals [1] [1] =
      some (.ok (some [1])) := by decide +kernel
  refine ⟨by decide +kernel, by decide +kernel, hfirst, by decide +kernel, ?_⟩
  rintro ⟨e, he, hget, -⟩
  rw [get, he, Option.map_some, hget] at hfirst
  cases hfirst

end World
