import Edgestore.WorldInv
import Edgestore.Engine.Reads
import Edgestore.PlainExternals

/-!
# Point reads

A lookup takes the record in the last segment of the manifest that has one, a scan the record with the
highest LSN. The two agree as long as every segment is registered with records newer than those of the
segments in front of it. A strip moves an old segment to the end of the manifest, and then an old
record hides a newer one.

## Main definitions

* `Engine.LastWriteWins X e fs`: `get` and `range` return the record with the highest LSN

## Main results

* `World.lastWriteWins`: they do after every run that registers segments in the order of their records
* `World.strip_hides_newer_record`: a strip makes `get` return an old value
-/

variable {X : Externals}

/-- **Last write wins**: for every key that is not in the memtable, `get` returns the value of the
record with the highest LSN in the registered segments, and `range` returns the same. -/
def Engine.LastWriteWins (X : Externals) (e : Engine) (fs : Fs) : Prop :=
  ∀ ns key k, encodeKey ns key = .ok k → e.memtable.get k = none →
    ∃ v, e.get X fs ns key = .ok v ∧ LatestValue (recordsOf X fs k) v ∧
      ∀ start «end», start ≤ key → key < «end» →
        ∃ items, e.range fs ns start «end» = .ok items ∧ find items key = v

/-- Records in the order of their LSNs are read in that order. -/
theorem Engine.lastWriteWins_of_inLsnOrder {R : List SegmentId} {e : Engine} {fs : Fs}
    (h : StoreInv X R e.segmentStore fs) (hord : ∀ k, InLsnOrder (recordsOf X fs k)) :
    e.LastWriteWins X fs := by
  intro ns key k hk hmem
  have hlatest := latestValue_getLast? (hord k)
  refine ⟨(recordsOf X fs k).getLast?.bind MemEntry.live, ?_, hlatest, fun start «end» hle hlt => ?_⟩
  · rw [Engine.get_eq h hk, hmem, Option.none_or]
  · obtain ⟨items, hitems, hfind⟩ := Engine.range_eq (e := e) h (encodeKey_eq_ok.mp hk).1 start «end»
    obtain ⟨o, hscan, hread⟩ := hfind key k hk hle hlt
    refine ⟨items, hitems, ?_⟩
    rw [hmem] at hread
    rcases hscan with ⟨hnil, rfl⟩ | ⟨r, hr, rfl⟩
    · rcases hread with ⟨-, -, hnone⟩ | ⟨r, hr, -⟩
      · rw [hnone, hnil]
        rfl
      · exact absurd hr.1 (by simp)
    · rw [hlatest.2 r hr]
      -- a tombstone is dropped, and another record is the only one to be merged
      rcases hread with ⟨hdel, -, hnone⟩ | ⟨r', hr', hfind'⟩
      · have hop : r.op = .delete := by
          by_contra hop
          simp [hop] at hdel
        rw [hnone, MemEntry.live, if_pos hop]
      · have hmem' := hr'.1
        by_cases hop : r.op = .delete
        · simp [hop] at hmem'
        · obtain rfl : r' = r := by simpa [hop] using hmem'
          exact hfind'

namespace World

/-- The open engine, if there is one, returns the record with the highest LSN. -/
def LastWriteWins (X : Externals) (w : World) : Prop :=
  ∀ e, w.engine = some e → e.LastWriteWins X w.fs

/-- Every segment that a call registers holds records newer than those of the same keys in the
segments in front of it that the call leaves registered. -/
def RegistersInOrder (X : Externals) (w : World) (c : Call) : Prop :=
  EffectsInOrder X (fun _ => True) (w.effects X c) w.fs

instance (X : Externals) (w : World) (c : Call) : Decidable (w.RegistersInOrder X c) :=
  inferInstanceAs (Decidable (EffectsInOrder X _ _ _))

/-- Runs of admitted calls that register segments in the order of their records keep the records of every
key in the order of their LSNs. -/
theorem inLsnOrder_of_registersInOrder {calls : List Call} (h : Run.All (step X)
    (fun w c => w.Admitted X c ∧ w.RegistersInOrder X c) {} calls) :
    WorldInv X (Run.from (step X) {} calls) ∧
      ∀ k, InLsnOrder (recordsOf X (Run.from (step X) {} calls).fs k) := by
  refine h.invariant (I := fun w => WorldInv X w ∧ ∀ k, InLsnOrder (recordsOf X w.fs k)) ?_
    ⟨worldInv_empty, fun k => ?_⟩
  · rintro w c ⟨hw, hord⟩ ⟨hc, hadd⟩
    refine ⟨hw.step hc, fun k => ?_⟩
    rw [fs_step hc.stop]
    exact inLsnOrder_run _ trivial (hw.all_clean hc) hadd (hord k)
  · rw [recordsOf_eq, registeredIds, registered_none rfl]
    exact .nil

/-- **Point reads are last-write-wins** after every run of admitted calls that register segments in
the order of their records. -/
theorem lastWriteWins {calls : List Call} (h : Run.All (step X)
    (fun w c => w.Admitted X c ∧ w.RegistersInOrder X c) {} calls) :
    (Run.from (step X) {} calls).LastWriteWins X := by
  obtain ⟨hw, hord⟩ := inLsnOrder_of_registersInOrder h
  exact fun e he => Engine.lastWriteWins_of_inLsnOrder (hw.engine e he).store hord

/-- A put, a flush, an overwrite, a second flush, a compaction and a reopening. -/
def overwriteRun : List Call :=
  [{ op := .open {} }, { op := .put [1] [7] [10] }, { op := .put [1] [8] [11] },
    { op := .flushToSegments }, { op := .put [1] [7] [12] }, { op := .flushToSegments },
    { op := .compactOnce .given, clock := fun _ => 1 }, { op := .close }, { op := .open {} }]

theorem lastWriteWins_overwriteRun :
    (Run.from (step plainExternals) {} overwriteRun).LastWriteWins plainExternals :=
  lastWriteWins (by decide +kernel)

/-- A segment with a record of the text index is overtaken by a newer one, and then stripped. -/
def stripRun : List Call :=
  [{ op := .open {} }, { op := .put [1] [7] [10] },
    { op := .put textIndex.nsPrefix [8] [11] }, { op := .flushToSegments },
    { op := .put [1] [7] [12] }, { op := .flushToSegments }, { op := .stripTextIndex 0 }]

theorem get_stripRun :
    (Run.from (step plainExternals) {} stripRun).get plainExternals [1] [7] =
        some (.ok (some [10])) ∧
      (Run.from (step plainExternals) {} stripRun).range [1] [7] [8] =
        some (.ok [([7], [12])]) ∧
      ((Run.from (step plainExternals) {} stripRun).engine.bind fun e =>
        e.memtable.get [0, 1, 1, 7]) = none := by
  decide +kernel

/-- **A strip hides a newer record**: `get` returns the old value of the stripped segment, `range` the
newer one. -/
theorem strip_hides_newer_record :
    ¬ (Run.from (step plainExternals) {} stripRun).LastWriteWins plainExternals := by
  obtain ⟨hget, hrange, hmem⟩ := get_stripRun
  intro h
  cases he : (Run.from (step plainExternals) {} stripRun).engine with
  | none => simp [get, he] at hget
  | some e =>
    simp only [get, range, he, Option.map_some, Option.some.injEq, Option.bind_some] at hget hrange hmem
    obtain ⟨v, hv, -, hscan⟩ := h e he [1] [7] [0, 1, 1, 7] rfl hmem
    obtain ⟨items, hitems, hfind⟩ := hscan [7] [8] (by decide) (by decide)
    rw [hget] at hv
    rw [hrange] at hitems
    cases hv
    cases hitems
    exact absurd hfind (by decide)

end World
