import Edgestore.Engine.ImportSpec
import Edgestore.PlainExternals

/-!
# The time to live of imported records

An import writes the records that win anew, and registers the segment of the peer under metadata of its
own. The fresh copies carry no TTL, and the metadata carries a death time of zero. So a record that
should expire stays, and a segment that should stay is collected as expired.

## Main definitions

* `World.Keeps`: the WAL, the memtable or a segment holds an entry
* `World.ImportKeepsTtl`: an import keeps timestamps, TTLs and death times

## Main results

* `World.importKeepsTtl_iff`: it does if and only if no record that wins has a TTL, and all records are
  dead at time zero
* `World.import_drops_ttl`: a record loses its TTL
-/

variable {X : Externals}

namespace World

/-- The WAL, the memtable or a segment holds an entry of a key. -/
def Keeps (X : Externals) (w : World) (k : Bytes) (r : MemEntry) : Prop :=
  (∃ e, w.engine = some e ∧ e.memtable.get k = some r) ∨
    (∃ record ∈ walSequence X w.fs, encodeKey record.nsBytes record.keyBytes = .ok k ∧
      r = record.toEntry k) ∨
    ∃ id, find (w.fs.segs id).table k = some r

/-- An import of a segment with the records `l` keeps their lifetimes. Every copy that it makes of a
record that wins and has a TTL, and that the memtable, the WAL or a segment holds after any further
calls, has the timestamp and the TTL of the record. The metadata it registers has a death time no
smaller than that of any record. -/
def ImportKeepsTtl (X : Externals) (w : World) (e : Engine) (l : List (Bytes × MemEntry)) (c : Call) :
    Prop :=
  (∀ p ∈ l, e.Wins X w.fs p → Importable p → p.2.ttl ≠ 0 → ∀ later r,
    (Run.from (step X) (w.step X c) later).Keeps X p.1 r → e.lsnCounter < r.lsn →
      (∀ e', (w.step X c).engine = some e' → r.lsn ≤ e'.lsnCounter) →
        r.timestamp = p.2.timestamp ∧ r.ttl = p.2.ttl) ∧
  ∀ e' m, (w.step X c).engine = some e' →
    e'.segmentStore.manifest.segments = e.segmentStore.manifest.segments ++ [m] → ∀ p ∈ l,
      deathTimeFor p.2.timestamp p.2.ttl e.segmentStore.cohortWindowSecs ≤ m.deathTime

variable {w : World} {e : Engine} {dat : Dat} {size : ℕ} {hash : Bytes} {clock : ℕ → ℕ}
  {l : List (Bytes × MemEntry)}

/-- The import is applied. -/
def Applies (X : Externals) (w : World) (e : Engine) (dat : Dat) (size : ℕ) (hash : Bytes)
    (clock : ℕ → ℕ) : Prop :=
  ∃ written skipped, ((Engine.importSegment (X := X) dat size hash).run ⟨e, clock⟩ w.fs).1 =
    .ok (.applied written skipped)

/-- What an import that is applied leaves. -/
theorem Applies.imported (h : w.Applies X e dat size hash clock) (he : w.engine = some e)
    (hparse : parseDatEntries dat = .ok l) (hl : KeySorted l) :
    ∃ e' m, (w.step X { op := .importSegment dat size hash, clock }).engine = some e' ∧
      Engine.Imported X w.fs e l e'.memtable e'.lsnCounter ∧ m.deathTime = 0 ∧
        e'.segmentStore.manifest.segments = e.segmentStore.manifest.segments ++ [m] := by
  obtain ⟨written, skipped, hrun⟩ := h
  have hpost := Prog.wp_result (@Engine.wp_importSegment X w.fs e clock dat l hparse hl size hash)
    Device.all_true
  rw [hrun] at hpost
  obtain ⟨himported, m, hdeath, hsegs⟩ := hpost ⟨written, skipped, rfl⟩
  refine ⟨_, m, ?_, himported, hdeath, hsegs⟩
  change (w.perform X (.importSegment dat size hash) clock).engine = _
  simp only [perform, onEngine, he, hrun]

/-- **An import keeps lifetimes** if and only if no record that wins has a TTL, and every record of the
segment is dead at time zero. -/
theorem importKeepsTtl_iff (he : w.engine = some e) (hparse : parseDatEntries dat = .ok l)
    (hl : KeySorted l) (happlies : w.Applies X e dat size hash clock) :
    w.ImportKeepsTtl X e l { op := .importSegment dat size hash, clock } ↔
      (∀ p ∈ l, e.Wins X w.fs p → Importable p → p.2.ttl = 0) ∧
        ∀ p ∈ l, deathTimeFor p.2.timestamp p.2.ttl e.segmentStore.cohortWindowSecs ≤ 0 := by
  obtain ⟨e', m, he', himported, hdeath, hsegs⟩ := happlies.imported he hparse hl
  constructor
  · rintro ⟨hcopies, hmeta⟩
    constructor
    · intro p hp hw hi
      by_contra httl
      -- the memtable holds the fresh copy
      obtain ⟨lsn, hlt, hle, hget⟩ := himported.won p hp hw hi
      have hcopy := hcopies p hp hw hi httl [] (freshCopy lsn p) (.inl ⟨e', he', hget⟩) hlt
        fun e₁ he₁ => by
          rw [he'] at he₁
          cases he₁
          exact hle
      exact httl hcopy.2.symm
    · intro p hp
      rw [← hdeath]
      exact hmeta e' m he' hsegs p hp
  · rintro ⟨httl, hdead⟩
    constructor
    · intro p hp hw hi hne
      exact absurd (httl p hp hw hi) hne
    · intro e₁ m₁ he₁ hsegs₁ p hp
      rw [he'] at he₁
      cases he₁
      rw [hsegs, List.append_cancel_left_eq] at hsegs₁
      cases hsegs₁
      rw [hdeath]
      exact hdead p hp

/-- A record that lives for a minute. -/
def minuteRecord : Bytes × MemEntry :=
  ([0, 1, 1, 7], { key := [0, 1, 1, 7], value := some [10], op := .put, lsn := 1, timestamp := 5,
                   ttl := 60 })

/-- A segment of it. -/
def minuteDat : Dat := [.decoded 10 [minuteRecord]]

/-- A fresh engine. -/
def freshRun : List Call := [{ op := .open {} }]

/-- The import of the segment. -/
def importMinute : Call :=
  { op := .importSegment minuteDat 10 (plainExternals.datHash minuteDat) }

theorem importKeepsTtl_iff_minuteDat :
    ∃ e, (Run.from (step plainExternals) {} freshRun).engine = some e ∧
      ((Run.from (step plainExternals) {} freshRun).ImportKeepsTtl plainExternals e [minuteRecord]
          importMinute ↔
        (∀ p ∈ [minuteRecord],
            e.Wins plainExternals (Run.from (step plainExternals) {} freshRun).fs p →
              Importable p → p.2.ttl = 0) ∧
          ∀ p ∈ [minuteRecord],
            deathTimeFor p.2.timestamp p.2.ttl e.segmentStore.cohortWindowSecs ≤ 0) := by
  obtain ⟨e, he⟩ : ∃ e, (Run.from (step plainExternals) {} freshRun).engine = some e :=
    Option.isSome_iff_exists.mp (by decide +kernel)
  have happlies : ((Run.from (step plainExternals) {} freshRun).engine.map fun e =>
      ((Engine.importSegment (X := plainExternals) minuteDat 10
        (plainExternals.datHash minuteDat)).run ⟨e, fun _ => 0⟩
          (Run.from (step plainExternals) {} freshRun).fs).1) = some (.ok (.applied 1 0)) := by
    decide +kernel
  rw [he, Option.map_some, Option.some.injEq] at happlies
  exact ⟨e, he, importKeepsTtl_iff he rfl (List.pairwise_singleton _ _) ⟨1, 0, happlies⟩⟩

/-- The record wins in a fresh engine. -/
theorem minuteRecord_wins :
    ((Run.from (step plainExternals) {} freshRun).engine.map fun e => (e.lsnCounter,
      decide (e.Wins plainExternals (Run.from (step plainExternals) {} freshRun).fs minuteRecord))) =
        some (0, true) := by
  decide +kernel

/-- What the import leaves in the memtable. -/
theorem memtable_importMinute :
    (((Run.from (step plainExternals) {} freshRun).step plainExternals importMinute).engine.map
      fun e => (e.lsnCounter, e.memtable.get minuteRecord.1)) =
        some (1, some (freshCopy 1 minuteRecord)) := by
  decide +kernel

/-- **A record loses its TTL**: the copy in the memtable has none. -/
theorem import_drops_ttl :
    ¬ ∀ e, (Run.from (step plainExternals) {} freshRun).engine = some e →
      (Run.from (step plainExternals) {} freshRun).ImportKeepsTtl plainExternals e [minuteRecord]
        importMinute := by
  intro h
  obtain ⟨e, he, hbefore⟩ := Option.map_eq_some_iff.mp minuteRecord_wins
  obtain ⟨e', he', hafter⟩ := Option.map_eq_some_iff.mp memtable_importMinute
  obtain ⟨hlsn, hwins⟩ := Prod.mk.inj hbefore
  obtain ⟨hlsn', hget⟩ := Prod.mk.inj hafter
  have hcopy := (h e he).1 minuteRecord List.mem_cons_self (of_decide_eq_true hwins) (by decide)
    (by decide) [] (freshCopy 1 minuteRecord) (.inl ⟨e', he', hget⟩) (by rw [hlsn]; decide) ?_
  · exact absurd hcopy.2 (by decide)
  · intro e₁ he₁
    rw [he'] at he₁
    cases he₁
    exact hlsn'.ge

end World
