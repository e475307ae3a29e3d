import Edgestore.Tla.Spec
import Edgestore.Watermark

/-!
# The engine refines the TLA+ specification

A run of the engine in which flushes are not left in flight is a behavior of the specification: a write is a `Put` or a
`Delete` for each of its records, a flush with something to flush is a `Flush`, and an opening replays a WAL in which the
specification sees only what has not been flushed. A crash in the middle of a call is one of these, or none.

The engine keeps the current WAL file after a flush, and may flush a record again after a restart. So the specification
has less in its WAL and in its memtable, but the same entries in its segments.

## Main definitions

* `Tla.Refines`: the state of the specification for a log and a store
* `World.Specified`: the state of the specification for a directory and an engine

## Main results

* `Tla.Refines.steps`: steps of the write buffer are actions of the specification
* `World.refines_spec`: runs of the engine are behaviors of the specification
-/

open WriteBuffer

namespace Tla

variable {N : ℕ} {hist ps log log' : List (Bytes × MemEntry)} {stored : Bytes → List MemEntry} {s s' : EntryBuffer}
  {t t' : State Bytes Bytes} {k : Bytes} {v : MemEntry} {b : Batch Bytes MemEntry}

/-! ### Entries -/

/-- The entry of the specification for an entry of the engine: time stamps and TTLs are out of its scope. -/
def specEntry (v : MemEntry) : Entry Bytes := ⟨v.value, v.lsn, v.op⟩

/-- The record of the specification for an entry under its key. -/
def specRecord (p : Bytes × MemEntry) : Record Bytes Bytes := ⟨specEntry p.2, p.1⟩

/-- An entry that a client has written: a put has a value, and a delete has none. -/
def IsWrite (v : MemEntry) : Prop := v.value.isSome = true ↔ v.op = .put

theorem isWrite_entry (r : WalRecord) : IsWrite r.entry.2 := by
  show (if r.op = .put then some r.valueBytes else none).isSome = true ↔ r.op = .put
  cases r.op <;> simp

/-- **A write of the next LSN** is a `Put` or a `Delete`. -/
theorem next_write (hv : IsWrite v) (hlsn : v.lsn = t.lsn + 1) (hN : v.lsn ≤ N) (k : Bytes) :
    Next N t (t.write k v.value v.op) := by
  have hlt : t.lsn < N := Nat.lt_of_succ_le (hlsn.ge.trans hN)
  cases hop : v.op with
  | put =>
    obtain ⟨u, hu⟩ := Option.isSome_iff_exists.mp (hv.mpr hop)
    rw [hu]
    exact .put k u hlt
  | delete =>
    have hnone : v.value = none := by
      refine Option.not_isSome_iff_eq_none.mp fun hsome => ?_
      have hput : v.op = .put := hv.mp hsome
      rw [hop] at hput
      cases hput
    rw [hnone]
    exact .delete k hlt

/-! ### States -/

/-- **The state of the specification** for a log and a store, when `hist` has been written: the WAL has what has not been
flushed, all of that is in the log, and the segments have the entries of the store. -/
structure Refines (hist log : List (Bytes × MemEntry)) (stored : Bytes → List MemEntry) (t : State Bytes Bytes) :
    Prop where
  lsn : IsGreatest (insert 0 (lsnsOf hist)) t.lsn
  pos : ∀ p ∈ hist, 0 < p.2.lsn
  wal : t.wal = (hist.filter fun p => t.flushed < p.2.lsn).map specRecord
  logged : ∀ p ∈ hist, t.flushed < p.2.lsn → p ∈ log
  flushed : IsGreatest (insert 0 {n | ∃ k, ∃ v ∈ stored k, v.lsn = n}) t.flushed
  segments : ∀ k ent, (∃ seg ∈ t.segments, ent ∈ seg.entries k) ↔ ∃ v ∈ stored k, specEntry v = ent

namespace Refines

theorem lsn_le (h : Refines hist log stored t) {p : Bytes × MemEntry} (hp : p ∈ hist) : p.2.lsn ≤ t.lsn :=
  h.lsn.2 (.inr (mem_lsnsOf hp))

theorem stored_le (h : Refines hist log stored t) (hv : v ∈ stored k) : v.lsn ≤ t.flushed :=
  h.flushed.2 (.inr ⟨k, v, hv, rfl⟩)

/-- **The WAL of the specification** is what has not been flushed of the log. -/
theorem wal_eq (h : Refines hist log stored t) (hlog : log <:+ hist) (hinc : Increasing MemEntry.lsn hist) :
    t.wal = (log.filter fun p => t.flushed < p.2.lsn).map specRecord := by
  obtain ⟨old, hold⟩ := hlog
  rw [h.wal, ← hold, List.filter_append]
  have hnil : old.filter (fun p => t.flushed < p.2.lsn) = [] := by
    refine List.filter_eq_nil_iff.mpr fun p hp hlt => ?_
    have hmem : p ∈ log := h.logged p (hold ▸ List.mem_append_left _ hp) (of_decide_eq_true hlt)
    -- LSNs grow, so nothing is written twice
    rw [← hold] at hinc
    exact lt_irrefl _ ((List.pairwise_append.mp hinc).2.2 p hp p hmem)
  rw [hnil, List.nil_append]

/-- A longer log will do. -/
theorem of_subset (h : Refines hist log stored t) (hlog : ∀ p ∈ log, p ∈ log') : Refines hist log' stored t :=
  ⟨h.lsn, h.pos, h.wal, fun p hp hlt => hlog p (h.logged p hp hlt), h.flushed, h.segments⟩

/-- What has been flushed last is in the store. -/
theorem mem_stored (h : Refines hist log stored t) (hwatermark : Watermark MemEntry.lsn stored hist)
    (hstored : ∀ k, ∀ u ∈ stored k, (k, u) ∈ hist) (hv : (k, v) ∈ hist)
    (hlast : ∀ u, (k, u) ∈ hist → u.lsn ≤ v.lsn) (hle : v.lsn ≤ t.flushed) : v ∈ stored k := by
  rcases h.flushed.1 with hzero | ⟨k', u, hu, hlsn⟩
  · exact absurd (hzero ▸ hle) (not_le.mpr (h.pos _ hv))
  · exact hwatermark.mem hstored hv hlast hu (hlsn ▸ hle)

/-- **The memtable of the specification** has what has not been flushed of the buffer. -/
theorem memtable_eq (h : Refines hist s.log s.stored t) (hlive : Live MemEntry.lsn s hist) (hinv : Inv N t) (k : Bytes) :
    t.memtable k = ((s.buffer k).filter fun v => t.flushed < v.lsn).map specEntry := by
  rw [hinv.memtable_eq k]
  by_cases hbuffer : ∃ v, s.buffer k = some v ∧ t.flushed < v.lsn
  · obtain ⟨v, hv, hlt⟩ := hbuffer
    obtain ⟨hmem, hlast⟩ := hlive.buffer_latest hv
    have hchosen : IsLast t.wal k (specRecord (k, v)) := by
      rw [h.wal]
      refine ⟨List.mem_map_of_mem (List.mem_filter.mpr ⟨hmem, decide_eq_true hlt⟩), rfl, ?_⟩
      intro r' hr' hkey
      obtain ⟨⟨k', u⟩, hu, rfl⟩ := List.mem_map.mp hr'
      obtain rfl : k' = k := hkey
      exact hlast u (List.mem_filter.mp hu).1
    rw [lastRecord_eq_some hinv.monotonic hchosen, hv, Option.filter_some, if_pos (decide_eq_true hlt)]
    rfl
  · -- what is later than the segments is in the buffer
    have hnone : (s.buffer k).filter (fun v => t.flushed < v.lsn) = none := by
      refine Option.eq_none_iff_forall_not_mem.mpr fun v hv => hbuffer ?_
      obtain ⟨hv, hlt⟩ := Option.filter_eq_some_iff.mp hv
      exact ⟨v, hv, of_decide_eq_true hlt⟩
    rw [hnone, lastRecord_eq_none]
    · rfl
    · intro r hr hkey
      rw [h.wal] at hr
      obtain ⟨⟨k', u⟩, hu, rfl⟩ := List.mem_map.mp hr
      obtain rfl : k' = k := hkey
      obtain ⟨hu, hlt⟩ := List.mem_filter.mp hu
      have hlt : t.flushed < u.lsn := of_decide_eq_true hlt
      rcases hlive.covered hu with ⟨v, hv, hcovers⟩ | ⟨v, hv, hcovers⟩
      · exact hbuffer ⟨v, hv, hlt.trans_le hcovers.le⟩
      · exact absurd (hcovers.le.trans (h.stored_le hv)) (not_le.mpr hlt)

/-- What has not been flushed is in the buffer, if nothing later is written to its key. -/
theorem buffer_eq_some (h : Refines hist s.log s.stored t) (hlive : Live MemEntry.lsn s hist) (hv : (k, v) ∈ hist)
    (hlast : ∀ u, (k, u) ∈ hist → u.lsn ≤ v.lsn) (hlt : t.flushed < v.lsn) : s.buffer k = some v := by
  rcases hlive.covered hv with ⟨v', hv', hcovers⟩ | ⟨v', hv', hcovers⟩
  · have heq : v' = v := hcovers.eq_of_le (hlast v' (hlive.source.buffer k v' hv'))
    exact heq ▸ hv'
  · exact absurd (hcovers.le.trans (h.stored_le hv')) (not_le.mpr hlt)

/-- **A write** of the next LSN. -/
theorem write (h : Refines hist log stored t) (hinv : Inv N t) (hlsn : v.lsn = t.lsn + 1) (k : Bytes) :
    Refines (hist ++ [(k, v)]) (log ++ [(k, v)]) stored (t.write k v.value v.op) := by
  have hlt : t.flushed < v.lsn := (Nat.lt_succ_of_le hinv.flushed_le).trans_eq hlsn.symm
  have hentry : (⟨⟨v.value, t.lsn + 1, v.op⟩, k⟩ : Record Bytes Bytes) = specRecord (k, v) := by
    rw [← hlsn]
    rfl
  refine ⟨⟨.inr ?_, ?_⟩, fun p hp => ?_, ?_, fun p hp hflushed => ?_, h.flushed, h.segments⟩
  · show t.lsn + 1 ∈ lsnsOf (hist ++ [(k, v)])
    rw [← hlsn]
    exact mem_lsnsOf (List.mem_append_right _ (List.mem_singleton_self (k, v)))
  · -- the new LSN is above all others
    rw [lsnsOf_concat]
    rintro n (rfl | rfl | hn)
    · exact Nat.zero_le _
    · exact hlsn.le
    · exact (h.lsn.2 (.inr hn)).trans (Nat.le_succ _)
  · rcases List.mem_append.mp hp with hp | hp
    · exact h.pos p hp
    · rw [List.mem_singleton.mp hp]
      exact (Nat.zero_le _).trans_lt hlt
  · show t.wal ++ [_] = _
    rw [h.wal, hentry, List.filter_append, List.map_append]
    have hnew : [(k, v)].filter (fun p => t.flushed < p.2.lsn) = [(k, v)] :=
      List.filter_eq_self.mpr fun p hp => by
        rw [List.mem_singleton.mp hp]
        exact decide_eq_true hlt
    exact congrArg (_ ++ List.map specRecord ·) hnew.symm
  · rcases List.mem_append.mp hp with hp | hp
    · exact List.mem_append_left _ (h.logged p hp hflushed)
    · exact List.mem_append_right _ hp

/-- What is flushed has been written, up to the last LSN. -/
theorem filter_eq_nil (h : Refines hist log stored t) :
    (hist.filter fun p => t.lsn < p.2.lsn).map specRecord = [] := by
  have hnil : hist.filter (fun p => t.lsn < p.2.lsn) = [] :=
    List.filter_eq_nil_iff.mpr fun p hp hlt => absurd (h.lsn_le hp) (not_le.mpr (of_decide_eq_true hlt))
  rw [hnil, List.map_nil]

/-- **A flush** of the buffer is a `Flush`, or does nothing if everything has been flushed before. -/
theorem flush (h : Refines hist s.log s.stored t) (hlive : Live MemEntry.lsn s hist)
    (hwatermark : Watermark MemEntry.lsn s.stored hist) (hinv : Inv N t) (hb : Takes MemEntry.lsn s b)
    (hr : Registers MemEntry.lsn s b s') :
    ∃ t', Relation.ReflTransGen (Next N) t t' ∧ t'.lsn = t.lsn ∧ Refines hist s'.log s'.stored t' := by
  have hstored : ∀ k v, v ∈ s'.stored k ↔ v ∈ s.stored k ∨ s.buffer k = some v := by
    intro k v
    rw [hr.stored, hb.entries, List.mem_append, Option.mem_toList]
  -- what has been flushed before is flushed again
  have hagain : ∀ k v, s.buffer k = some v → v.lsn ≤ t.flushed → v ∈ s.stored k := fun k v hv hle =>
    h.mem_stored hwatermark hlive.source.stored (hlive.buffer_latest hv).1 (hlive.buffer_latest hv).2 hle
  by_cases hflush : t.flushed < t.lsn
  · refine ⟨t.flush, .single (.flush hflush), rfl, ⟨h.lsn, h.pos, h.filter_eq_nil.symm, ?_, ?_, ?_⟩⟩
    · exact fun p hp hlt => absurd (h.lsn_le hp) (not_le.mpr hlt)
    · refine ⟨.inr ?_, ?_⟩
      · -- the last write is in the buffer
        rcases h.lsn.1 with hzero | hlast
        · rw [hzero] at hflush
          exact absurd hflush (Nat.not_lt_zero _)
        · obtain ⟨⟨k, v⟩, hmem, hlsn⟩ := List.mem_map.mp hlast
          have hlsn : v.lsn = t.lsn := hlsn
          refine ⟨k, v, (hstored k v).mpr (.inr ?_), hlsn⟩
          exact h.buffer_eq_some hlive hmem (fun u hu => (h.lsn_le hu).trans_eq hlsn.symm) (hlsn ▸ hflush)
      · rintro n (rfl | ⟨k, v, hv, rfl⟩)
        · exact Nat.zero_le _
        · rcases (hstored k v).mp hv with hv | hv
          · exact (h.stored_le hv).trans hflush.le
          · exact h.lsn_le (hlive.source.buffer k v hv)
    · intro k ent
      have hmem : ent ∈ t.memtable k ↔ ∃ v, s.buffer k = some v ∧ t.flushed < v.lsn ∧ specEntry v = ent := by
        rw [h.memtable_eq hlive hinv k, Option.mem_def, Option.map_eq_some_iff]
        simp only [Option.filter_eq_some_iff, decide_eq_true_iff, and_assoc]
      constructor
      · rintro ⟨seg, hseg, hent⟩
        rcases Set.mem_insert_iff.mp hseg with rfl | hseg
        · obtain ⟨v, hv, -, hspec⟩ := hmem.mp hent
          exact ⟨v, (hstored k v).mpr (.inr hv), hspec⟩
        · obtain ⟨v, hv, hspec⟩ := (h.segments k ent).mp ⟨seg, hseg, hent⟩
          exact ⟨v, (hstored k v).mpr (.inl hv), hspec⟩
      · rintro ⟨v, hv, hspec⟩
        have hold : v ∈ s.stored k → ∃ seg ∈ t.flush.segments, ent ∈ seg.entries k := fun hv => by
          obtain ⟨seg, hseg, hent⟩ := (h.segments k ent).mpr ⟨v, hv, hspec⟩
          exact ⟨seg, Set.mem_insert_of_mem _ hseg, hent⟩
        rcases (hstored k v).mp hv with hv | hv
        · exact hold hv
        · by_cases hlt : t.flushed < v.lsn
          · exact ⟨_, Set.mem_insert _ _, hmem.mpr ⟨v, hv, hlt, hspec⟩⟩
          · exact hold (hagain k v hv (not_lt.mp hlt))
  · -- nothing has been written since the last flush
    have heq : t.flushed = t.lsn := hinv.flushed_le.antisymm (not_lt.mp hflush)
    have hsame : ∀ k v, v ∈ s'.stored k ↔ v ∈ s.stored k := fun k v => by
      refine (hstored k v).trans ⟨fun hv => hv.elim id fun hv => hagain k v hv ?_, .inl⟩
      exact heq ▸ h.lsn_le (hlive.source.buffer k v hv)
    refine ⟨t, .refl, rfl, ⟨h.lsn, h.pos, h.wal, fun p hp hlt => ?_, ?_, fun k ent => ?_⟩⟩
    · exact absurd (heq ▸ h.lsn_le hp) (not_le.mpr hlt)
    · simp only [hsame]
      exact h.flushed
    · simp only [hsame]
      exact h.segments k ent

end Refines

/-! ### Runs of the write buffer -/

/-- Writes of consecutive LSNs, each within the bound of the specification. -/
structure Consecutive (N n : ℕ) (ps : List (Bytes × MemEntry)) : Prop where
  lsn : ∀ i p, ps[i]? = some p → p.2.lsn = n + i + 1
  le : ∀ p ∈ ps, p.2.lsn ≤ N
  writes : ∀ p ∈ ps, IsWrite p.2

theorem Consecutive.left {n : ℕ} {qs : List (Bytes × MemEntry)} (h : Consecutive N n (ps ++ qs)) :
    Consecutive N n ps where
  lsn := fun i p hp => h.lsn i p (List.getElem?_append_left (List.getElem?_eq_some_iff.mp hp).1 ▸ hp)
  le := fun p hp => h.le p (List.mem_append_left _ hp)
  writes := fun p hp => h.writes p (List.mem_append_left _ hp)

/-- The last of consecutive writes. -/
theorem Consecutive.last {n : ℕ} (h : Consecutive N n (ps ++ [(k, v)])) :
    v.lsn = n + ps.length + 1 ∧ v.lsn ≤ N ∧ IsWrite v := by
  have hmem : (k, v) ∈ ps ++ [(k, v)] := List.mem_append_right _ (List.mem_singleton_self _)
  exact ⟨h.lsn ps.length (k, v) (by rw [List.getElem?_concat_length]), h.le _ hmem, h.writes _ hmem⟩

namespace Refines

/-- **Writes**, one after the other. -/
theorem writes (h : Refines hist log stored t) (ht : Reachable N t) (hps : Consecutive N t.lsn ps) :
    ∃ t', Relation.ReflTransGen (Next N) t t' ∧ t'.lsn = t.lsn + ps.length ∧
      Refines (hist ++ ps) (log ++ ps) stored t' := by
  induction ps using List.reverseRecOn with
  | nil =>
    refine ⟨t, .refl, rfl, ?_⟩
    rw [List.append_nil, List.append_nil]
    exact h
  | append_singleton ps p ih =>
    obtain ⟨k, v⟩ := p
    obtain ⟨t₁, hnext, hcounter, h₁⟩ := ih hps.left
    obtain ⟨hlsn, hN, hwrite⟩ := hps.last
    rw [← hcounter] at hlsn
    refine ⟨t₁.write k v.value v.op, hnext.tail (next_write hwrite hlsn hN k), ?_, ?_⟩
    · rw [List.length_append]
      exact congrArg (· + 1) hcounter
    · rw [← List.append_assoc, ← List.append_assoc]
      exact h₁.write (Reachable.inv (ht.trans hnext)) hlsn k

/-- Steps in which no batch that is on its way is registered. -/
abbrev Atomic (s : EntryBuffer) (ps : List (Bytes × MemEntry)) (s' : EntryBuffer) : Prop :=
  Steps MemEntry.lsn (fun _ _ _ => False) s ps s'

/-- **Steps of the write buffer are actions of the specification**, if flushes are atomic. -/
theorem steps (h : Refines hist s.log s.stored t) (hlive : Live MemEntry.lsn s hist)
    (hconfirms : Confirms MemEntry.lsn s hist) (ht : Reachable N t) (hcounter : s.counter = t.lsn)
    (hsteps : Atomic s ps s') (hps : Consecutive N s.counter ps) :
    ∃ t', Relation.ReflTransGen (Next N) t t' ∧ s'.counter = t'.lsn ∧ s'.counter = s.counter + ps.length ∧
      Refines (hist ++ ps) s'.log s'.stored t' := by
  have himp : ∀ (s : EntryBuffer) b s', False → Orderly MemEntry.lsn s b s' := fun _ _ _ h => h.elim
  induction hsteps with
  | refl => exact ⟨t, .refl, hcounter, rfl, (List.append_nil hist).symm ▸ h⟩
  | @tail ps qs s₁ s₂ hsteps hstep ih =>
    obtain ⟨t₁, hnext, hlsn₁, hcounter₁, h₁⟩ := ih hps.left
    have hlive₁ := hlive.steps (hsteps.imp himp)
    have hconfirms₁ := hconfirms.steps hlive (hsteps.imp himp)
    have hinv₁ := Reachable.inv (ht.trans hnext)
    rw [← List.append_assoc]
    cases hstep with
    | @write k v hv =>
      obtain ⟨hlsn, hN, hwrite⟩ := hps.last
      rw [← hcounter₁, hlsn₁] at hlsn
      refine ⟨t₁.write k v.value v.op, hnext.tail (next_write hwrite hlsn hN k), hlsn, ?_, ?_⟩
      · rw [List.length_append, ← Nat.add_assoc, ← hcounter₁, hlsn₁]
        exact hlsn
      · exact h₁.write hinv₁ hlsn k
    | flush hb hr =>
      obtain ⟨t₂, hnext₂, hlsn₂, h₂⟩ := h₁.flush hlive₁ hconfirms₁.stored hinv₁ hb hr
      rw [List.append_nil, List.append_nil]
      exact ⟨t₂, hnext.trans hnext₂, by rw [hr.counter, hlsn₁, hlsn₂], by rw [hr.counter, hcounter₁], h₂⟩
    | register _ _ hP => exact hP.elim
    | _ =>
      rw [List.append_nil, List.append_nil]
      exact ⟨t₁, hnext, hlsn₁, hcounter₁, h₁⟩

/-! ### What is read -/

/-- What is committed in the specification has been written. -/
theorem of_committed {ent : Entry Bytes} (h : Refines hist s.log s.stored t) (hlive : Live MemEntry.lsn s hist)
    (hinv : Inv N t) (hent : t.Committed k ent) : ∃ v, (k, v) ∈ hist ∧ specEntry v = ent := by
  rcases hent with hmem | ⟨seg, hseg, hent⟩
  · rw [h.memtable_eq hlive hinv k, Option.mem_def, Option.map_eq_some_iff] at hmem
    obtain ⟨v, hv, hspec⟩ := hmem
    exact ⟨v, hlive.source.buffer k v (Option.filter_eq_some_iff.mp hv).1, hspec⟩
  · obtain ⟨v, hv, hspec⟩ := (h.segments k ent).mp ⟨seg, hseg, hent⟩
    exact ⟨v, hlive.source.stored k v hv, hspec⟩

/-- **What the specification reads** is the latest write, if it is no delete that has been flushed. -/
theorem liveGet_eq (h : Refines hist s.log s.stored t) (hlive : Live MemEntry.lsn s hist)
    (hwatermark : Watermark MemEntry.lsn s.stored hist) (hinv : Inv N t)
    (hkept : ∀ v, latestAfter (fun _ => none) hist k = some v → v.op = .delete → t.flushed < v.lsn) :
    t.liveGet k = (latestAfter (fun _ => none) hist k).bind MemEntry.live := by
  cases hlatest : latestAfter (fun _ => none) hist k with
  | none =>
    -- nothing has been written to the key
    have hnone : ∀ ent, ¬ t.Committed k ent := by
      intro ent hent
      obtain ⟨v, hv, -⟩ := h.of_committed hlive hinv hent
      obtain ⟨v', hv', -⟩ := hlive.increasing.latest (m := fun _ => none) hv
      rw [hlatest] at hv'
      cases hv'
    have hmem : t.memtable k = none := Option.eq_none_iff_forall_not_mem.mpr fun ent hent => hnone ent (.inl hent)
    rw [State.liveGet, hmem]
    refine dif_neg ?_
    rintro ⟨best, ⟨hbest, ent, hent, -⟩, -⟩
    exact hnone ent (.inr ⟨best, hbest, hent⟩)
  | some v =>
    have hmem : (k, v) ∈ hist := (mem_of_latestAfter hlatest).resolve_right fun h => (by cases h.2)
    have hlast : ∀ u, (k, u) ∈ hist → u.lsn ≤ v.lsn := by
      intro u hu
      obtain ⟨v', hv', -, hcovers⟩ := hlive.increasing.latest (m := fun _ => none) hu
      rw [hlatest, Option.some_inj] at hv'
      exact hv' ▸ hcovers.le
    have hunflushed : t.flushed < v.lsn → t.memtable k = some (specEntry v) := by
      intro hlt
      rw [h.memtable_eq hlive hinv k, h.buffer_eq_some hlive hmem hlast hlt, Option.filter_some,
        if_pos (decide_eq_true hlt)]
      rfl
    cases hop : v.op with
    | delete =>
      have hlive : v.live = none := if_pos hop
      exact (Inv.liveGet_of_deleted hop (.inl (hunflushed (hkept v hlatest hop)))).trans hlive.symm
    | put =>
      have hlive' : v.live = v.value := if_neg fun hdelete => by rw [hop] at hdelete; cases hdelete
      refine (hinv.liveGet_of_newest (e := specEntry v) ⟨?_, ?_⟩ hop).trans hlive'.symm
      · by_cases hlt : t.flushed < v.lsn
        · exact .inl (hunflushed hlt)
        · have hstored := h.mem_stored hwatermark hlive.source.stored hmem hlast (not_lt.mp hlt)
          exact .inr ((h.segments k _).mpr ⟨v, hstored, rfl⟩)
      · intro ent hent
        obtain ⟨u, hu, rfl⟩ := h.of_committed hlive hinv hent
        exact hlast u hu

end Refines

end Tla

/-! ### LSNs of a call -/

/-- LSNs of stamped records are consecutive. -/
theorem getElem?_stamped {n : Lsn} {rs : List WalRecord} {i : ℕ} {r : WalRecord} (h : (stamped n rs)[i]? = some r) :
    r.lsn = n + i + 1 := by
  induction rs generalizing n i with
  | nil => cases h
  | cons r' rs ih =>
    cases i with
    | zero =>
      obtain rfl := Option.some_inj.mp h
      rfl
    | succ i => exact (ih h).trans (congrArg (· + 1) (Nat.succ_add_eq_add_succ n i))

theorem topLsn_le {rs : List WalRecord} {n : Lsn} (h : ∀ r ∈ rs, r.lsn ≤ n) : topLsn rs ≤ n := by
  have hfold : ∀ (l : List ℕ) (a : ℕ), a ≤ n → (∀ b ∈ l, b ≤ n) → l.foldl max a ≤ n := by
    intro l
    induction l with
    | nil => exact fun a ha _ => ha
    | cons b l ih =>
      exact fun a ha hl => ih _ (max_le ha (hl b List.mem_cons_self)) fun b hb => hl b (List.mem_cons_of_mem _ hb)
  refine hfold _ 0 (Nat.zero_le n) fun b hb => ?_
  obtain ⟨r, hr, rfl⟩ := List.mem_map.mp hb
  exact h r hr

theorem Tla.consecutive_stamped {N : ℕ} {n : Lsn} {rs ps qs : List WalRecord} (hps : ps ++ qs = stamped n rs)
    (hN : ∀ r ∈ ps, r.lsn ≤ N) : Tla.Consecutive N n (ps.map WalRecord.entry) where
  lsn := fun i p hp => by
    rw [List.getElem?_map, Option.map_eq_some_iff] at hp
    obtain ⟨r, hr, rfl⟩ := hp
    have hi : i < ps.length := (List.getElem?_eq_some_iff.mp hr).1
    have hstamped : (stamped n rs)[i]? = some r := by
      rw [← hps, List.getElem?_append_left hi]
      exact hr
    exact getElem?_stamped hstamped
  le := fun p hp => by
    obtain ⟨r, hr, rfl⟩ := List.mem_map.mp hp
    exact hN r hr
  writes := fun p hp => by
    obtain ⟨r, -, rfl⟩ := List.mem_map.mp hp
    exact Tla.isWrite_entry r

namespace World

variable {X : Externals} {w : World} {c : Call} {e e' : Engine} {clock : ℕ → ℕ} {hist rs : List WalRecord}
  {config : EdgestoreConfig} {N : ℕ} {t : Tla.State Bytes Bytes}

/-- **A call that succeeds** stamps its records with the next LSNs. -/
theorem Running.appended_stamped (h : w.Running X e) (hc : w.SessionCall X c)
    (hok : (w.perform X c.op c.clock).ok = true) : ∃ rs, appendedRecords (w.effects X c) = stamped e.lsnCounter rs := by
  obtain ⟨op, clock, stop⟩ := c
  obtain rfl : stop = none := hc.admitted.stop
  have hop := hc.op
  have hmethod : ∀ {α : Type} {m : Exec X Engine α} {land : α → List Flight} {r : WalRecord},
      w.perform X op clock = w.onEngine X clock m land → r.lsn = e.lsnCounter + 1 →
      ((m.run ⟨e, clock⟩ w.fs).1.isOk = true → appendedRecords (m.run ⟨e, clock⟩ w.fs).2.2 = [r]) →
      ∃ rs, appendedRecords (w.effects X ⟨op, clock, none⟩) = stamped e.lsnCounter rs := by
    intro α m land r hperform hlsn happends
    rw [hperform, (onEngine_some h.engine).2.2] at hok
    refine ⟨[r], ?_⟩
    rw [Engine.stamped_singleton hlsn, effects, hperform, (onEngine_some h.engine).1]
    exact happends hok
  have hsilent : ∀ {α : Type} {m : Exec X Engine α} {land : α → List Flight},
      w.perform X op clock = w.onEngine X clock m land →
      appendedRecords (m.run ⟨e, clock⟩ w.fs).2.2 = [] →
      ∃ rs, appendedRecords (w.effects X ⟨op, clock, none⟩) = stamped e.lsnCounter rs := by
    intro α m land hperform hnil
    refine ⟨[], ?_⟩
    rw [effects, hperform, (onEngine_some h.engine).1]
    exact hnil
  cases op with
  | put ns key val => exact hmethod rfl rfl Engine.appendedRecords_put
  | putWithTtl ns key val ttl => exact hmethod rfl rfl Engine.appendedRecords_putWithTtl
  | delete ns key => exact hmethod rfl rfl Engine.appendedRecords_delete
  | commit ops =>
    have hadmits := h.admits hc
    have hperform : w.perform X (.commit ops) clock = w.onEngine X clock (Engine.runTransaction ops) := rfl
    rw [hperform, (onEngine_some h.engine).2.2] at hok
    rw [effects, hperform, (onEngine_some h.engine).1] at hadmits ⊢
    exact ⟨_, Engine.appendedRecords_runTransaction h.named hadmits hok⟩
  | flush =>
    have hperform : w.perform X .flush clock = w.onEngine X clock Engine.flush := rfl
    exact hsilent hperform rfl
  | flushToSegments =>
    exact hsilent rfl (appendedRecords_eq_nil (Engine.flushToSegments_appendsNone (X := X) ⟨e, clock⟩ w.fs).1)
  | beginFlush =>
    exact hsilent rfl (appendedRecords_eq_nil fun f hf => ((Engine.beginFlush_frame (fun _ => False) _ _).1 f hf).elim)
  | execute i =>
    have hmoved : Moved (fun _ _ _ => True) X w e ⟨.execute i, clock, none⟩ e [] := h.execute hc
    exact ⟨[], hmoved.appended h.engine⟩
  | finalizeFlush i =>
    obtain ⟨e', -, hmoved⟩ := h.finalizeFlush (P := fun _ _ _ => True) hc fun _ _ _ _ _ _ _ => trivial
    exact ⟨[], hmoved.appended h.engine⟩
  | abandon i => exact ⟨[], rfl⟩
  | _ => exact hop.elim

/-- What a call writes gets the next LSNs. -/
theorem Moved.stamped {P : RegistrationRule} (hm : Moved P X w e ⟨c.op, c.clock, none⟩ e' rs) (h : w.Running X e)
    (hc : w.SessionCall X ⟨c.op, c.clock, none⟩) :
    ∃ rs₀, appendedRecords (w.effects X c) = stamped e.lsnCounter rs₀ := by
  cases hok : (w.perform X c.op c.clock).ok with
  | true => exact h.appended_stamped (c := ⟨c.op, c.clock, none⟩) hc hok
  | false =>
    have hacked : w.newlyAcked X ⟨c.op, c.clock, none⟩ = [] := by
      rw [newlyAcked, hok]
      rfl
    refine ⟨[], (hm.appended h.engine).trans ?_⟩
    rw [← hm.acked, hacked]
    rfl

/-! ### Runs of the engine -/

/-- A call that finishes a flush that has been in flight. -/
def FinishesFlight (c : Call) : Prop :=
  match c.op with
  | .finalizeFlush _ => True
  | _ => False

instance : DecidablePred FinishesFlight := fun ⟨op, clock, stop⟩ => by
  unfold FinishesFlight
  rcases op <;> infer_instance

/-- A call that may crash, and finishes no flush that has been in flight. -/
def AtomicCall (X : Externals) (w : World) (c : Call) : Prop := w.DurableCall X c ∧ ¬ FinishesFlight c

instance (X : Externals) (w : World) : DecidablePred (w.AtomicCall X) :=
  fun _ => inferInstanceAs (Decidable (_ ∧ _))

/-- **The state of the specification** for a directory and an engine, when `hist` has been written. -/
structure Specified (X : Externals) (w : World) (hist : List WalRecord) (t : Tla.State Bytes Bytes) : Prop where
  watermarked : w.Watermarked X hist
  refines : Tla.Refines (hist.map WalRecord.entry) ((walSequence X w.fs).map WalRecord.entry) (recordsOf X w.fs) t
  counter : ∀ e, w.engine = some e → e.lsnCounter = t.lsn

namespace Specified

/-- Nothing is written to an empty directory. -/
theorem empty : ({} : World).Specified X [] Tla.init where
  watermarked := .empty
  refines := by
    have hrecords : ∀ k, recordsOf X ({} : Fs) k = [] := fun k => by
      rw [recordsOf_eq, registeredIds, registered_none rfl]
      rfl
    refine ⟨?_, fun p hp => absurd hp List.not_mem_nil, rfl, fun p hp => absurd hp List.not_mem_nil, ?_, fun k ent => ?_⟩
    · rw [List.map_nil, lsnsOf_nil, insert_empty_eq]
      exact isGreatest_singleton
    · refine ⟨.inl rfl, ?_⟩
      rintro n (rfl | ⟨k, v, hv, -⟩)
      · exact le_rfl
      · rw [hrecords k] at hv
        cases hv
    · rw [hrecords k]
      constructor
      · rintro ⟨seg, hseg, -⟩
        exact absurd hseg (Set.notMem_empty seg)
      · rintro ⟨v, hv, -⟩
        exact absurd hv List.not_mem_nil
  counter := fun e he => by cases he

/-- A call that leaves the files and no engine. -/
theorem leaving (h : w.Specified X hist t) (hc : w.LeavesFiles X c) :
    (w.step X c).Specified X (hist ++ w.written X c) t where
  watermarked := h.watermarked.leaving hc
  refines := by
    rw [written_eq_nil hc.appends, List.append_nil, hc.fs]
    exact h.refines
  counter := fun e he => by
    rw [hc.engine] at he
    cases he

/-- **An opening** replays the WAL, which has what has not been flushed. -/
theorem opening {stop : Option (ℕ × ℕ)} (h : w.Specified X hist t) (he : w.engine = none)
    (hclean : w.StopsCleanly X ⟨.open config, clock, stop⟩) (hc : w.OpensDurably X config ⟨.open config, clock, stop⟩) :
    (w.step X ⟨.open config, clock, stop⟩).Specified X (hist ++ w.written X ⟨.open config, clock, stop⟩) t := by
  have hdir := h.watermarked.durably.closed he
  have hwatermarked := h.watermarked.opening he hclean hc
  have hnone : appendedRecords (w.effects X ⟨.open config, clock, stop⟩) = [] :=
    appendedRecords_eq_nil fun f hf => (leaves_of_opening he f hf).2.appendsNone
  have hwritten : hist ++ w.written X ⟨.open config, clock, stop⟩ = hist := by
    rw [written_eq_nil hnone, List.append_nil]
  rw [hwritten] at hwatermarked ⊢
  cases stop with
  | none =>
    obtain ⟨e, he', -, hbuffered⟩ := Lives.of_opened hdir he hc.flights hc.admitted hc.inOrder
    have hlog := congrArg WriteBuffer.log hbuffered
    have hstored := congrArg WriteBuffer.stored hbuffered
    refine ⟨hwatermarked, ?_, fun e₁ he₁ => ?_⟩
    · have hrefines := h.refines
      rw [show recordsOf X w.fs = recordsOf X (w.step X ⟨.open config, clock, none⟩).fs from hstored.symm,
        show (walSequence X w.fs).map WalRecord.entry =
          (walSequence X (w.step X ⟨.open config, clock, none⟩).fs).map WalRecord.entry from hlog.symm] at hrefines
      exact hrefines
    · rw [he', Option.some_inj] at he₁
      rw [← he₁]
      refine (congrArg WriteBuffer.counter hbuffered).trans (le_antisymm ?_ ?_)
      · -- the records of the log have been written
        exact topLsn_le fun r hr => h.refines.lsn_le (hdir.durable.suffix.mem (List.mem_map_of_mem hr))
      · rcases h.refines.lsn.1 with hzero | hlast
        · rw [hzero]
          exact Nat.zero_le _
        · obtain ⟨p, hp, hlsn⟩ := List.mem_map.mp hlast
          rw [← hlsn]
          exact hc.inOrder.le_topLsn hdir p hp
  | some s =>
    obtain ⟨-, hsame, hlog⟩ :=
      dir_of_opening hdir he hc.flights hc.admitted hc.inOrder (hc.manifest rfl) (hclean s rfl)
    have hrefines := h.refines
    rw [← hsame.recordsOf_congr, ← hlog] at hrefines
    exact ⟨hwatermarked, hrefines, fun e' he' => by cases he'⟩

/-- **A write or a flush**, stopped or not, is a sequence of actions. -/
theorem writing (h : w.Specified X hist t) (ht : Tla.Reachable N t) (he : w.engine = some e)
    (hclean : w.StopsCleanly X c) (hc : w.WritesDurably X c) (hatomic : ¬ FinishesFlight c)
    (hN : ∀ r ∈ w.written X c, r.lsn ≤ N) :
    ∃ t', Relation.ReflTransGen (Tla.Next N) t t' ∧ (w.step X c).Specified X (hist ++ w.written X c) t' := by
  have hlives := h.watermarked.durably.live e he
  have hconfirms := h.watermarked.live e he
  have hcounter := h.counter e he
  have hwatermarked := h.watermarked.writing he hclean hc
  have himp : ∀ (s : EntryBuffer) b s', False → WriteBuffer.Orderly MemEntry.lsn s b s' := fun _ _ _ h => h.elim
  obtain ⟨op, clock, stop⟩ := c
  have hfinalizes : w.FinalizesBy (fun _ _ _ => False) X e ⟨op, clock, none⟩ := by
    rintro i f rfl
    exact absurd trivial hatomic
  obtain ⟨e', rs, hmoved⟩ := hlives.running.step hc.call hfinalizes
  have horderly : Moved (WriteBuffer.Orderly MemEntry.lsn) X w e ⟨op, clock, none⟩ e' rs :=
    ⟨hmoved.inv, hmoved.engine, ⟨hmoved.moves.named, hmoved.moves.logged, hmoved.moves.steps.imp himp⟩, hmoved.acked⟩
  obtain ⟨rs₀, hrs₀⟩ := hmoved.stamped (c := ⟨op, clock, none⟩) hlives.running hc.call
  have hrs : appendedRecords (w.effects X ⟨op, clock, none⟩) = rs := hmoved.appended (c := ⟨op, clock, none⟩) he
  cases stop with
  | none =>
    have hwritten : w.written X ⟨op, clock, none⟩ = rs := hmoved.acked
    rw [hwritten] at hN hwatermarked ⊢
    have hps : Tla.Consecutive N e.lsnCounter (rs.map WalRecord.entry) :=
      Tla.consecutive_stamped ((List.append_nil rs).trans (hrs.symm.trans hrs₀)) hN
    obtain ⟨t', hnext, hlsn, -, hrefines⟩ := h.refines.steps hlives.live hconfirms ht hcounter hmoved.moves.steps hps
    refine ⟨t', hnext, hwatermarked, ?_, fun e₁ he₁ => ?_⟩
    · rw [List.map_append]
      exact hrefines
    · rw [hmoved.engine, Option.some_inj] at he₁
      exact he₁ ▸ hlsn
  | some s =>
    obtain ⟨n, m⟩ := s
    have hwal : (disk X).All (WalEffect X) (w.effects X ⟨op, clock, none⟩) w.fs := hlives.all_walEffect hc.call
    have hcut : ∀ f ∈ (w.effects X ⟨op, clock, none⟩)[n]?, f.CutClean X m := hclean (n, m) rfl
    have htorn := sameRegistered_cut (hlives.running.inv.engine e he).store.synced.log
      (hlives.all_clean (c := ⟨op, clock, none⟩) hc.call) hcut
    have hlog := walSequence_cut_clean hwal hcut
    -- the directory after the crash is that after the first effects, as far as the specification sees it
    suffices hsuffices : ∃ t', Relation.ReflTransGen (Tla.Next N) t t' ∧
        Tla.Refines ((hist ++ w.written X ⟨op, clock, some (n, m)⟩).map WalRecord.entry)
          ((walSequence X ((disk X).run ((w.effects X ⟨op, clock, none⟩).take n) w.fs)).map WalRecord.entry)
          (recordsOf X ((disk X).run ((w.effects X ⟨op, clock, none⟩).take n) w.fs)) t' by
      obtain ⟨t', hnext, hrefines⟩ := hsuffices
      rw [← hlog, ← htorn.recordsOf_congr] at hrefines
      exact ⟨t', hnext, hwatermarked, hrefines, fun e₁ he₁ => by cases he₁⟩
    rw [List.map_append]
    rcases hlives.stops hc.call horderly n with ⟨hgrows, hsame⟩ | ⟨hretires, hall, hsame⟩
    · have hps : Tla.Consecutive N t.lsn
          ((appendedRecords ((w.effects X ⟨op, clock, none⟩).take n)).map WalRecord.entry) := by
        rw [← hcounter]
        refine Tla.consecutive_stamped (n := e.lsnCounter) ((appendedRecords_take_drop _ n).trans hrs₀) hN
      obtain ⟨t', hnext, -, hrefines⟩ := h.refines.writes ht hps
      have hrecords : recordsOf X ((disk X).run ((w.effects X ⟨op, clock, none⟩).take n) w.fs) = recordsOf X w.fs :=
        hsame.recordsOf_congr
      refine ⟨t', hnext, ?_⟩
      rw [walSequence_run_of_grows (hwal.take n) hgrows, List.map_append, hrecords]
      exact hrefines
    · have hwritten : w.written X ⟨op, clock, some (n, m)⟩ = rs := hall
      have hps : Tla.Consecutive N e.lsnCounter (rs.map WalRecord.entry) :=
        Tla.consecutive_stamped ((List.append_nil rs).trans (hrs.symm.trans hrs₀)) (hwritten ▸ hN)
      obtain ⟨t', hnext, -, -, hrefines⟩ := h.refines.steps hlives.live hconfirms ht hcounter hmoved.moves.steps hps
      have hrecords : recordsOf X (w.step X ⟨op, clock, none⟩).fs =
          recordsOf X ((disk X).run ((w.effects X ⟨op, clock, none⟩).take n) w.fs) := hsame.recordsOf_congr
      have hshrinks := walSequence_run_retires (hwal.drop n) hretires
      rw [Device.run_take_drop] at hshrinks
      refine ⟨t', hnext, ?_⟩
      rw [hwritten, ← hrecords]
      exact hrefines.of_subset fun p hp => (hshrinks.map WalRecord.entry).mem hp

/-- **A call** is a sequence of actions. -/
theorem step (h : w.Specified X hist t) (ht : Tla.Reachable N t) (hc : w.AtomicCall X c)
    (hN : ∀ r ∈ w.written X c, r.lsn ≤ N) :
    ∃ t', Relation.ReflTransGen (Tla.Next N) t t' ∧ (w.step X c).Specified X (hist ++ w.written X c) t' := by
  obtain ⟨op, clock, stop⟩ := c
  obtain ⟨⟨hclean, hc⟩, hatomic⟩ := hc
  cases he : w.engine with
  | none =>
    simp only [he] at hc
    cases op with
    | «open» config => exact ⟨t, .refl, h.opening he hclean hc⟩
    | abandon i => exact ⟨t, .refl, h.leaving (leavesFiles_abandon he)⟩
    | _ => exact hc.elim
  | some e =>
    simp only [he] at hc
    cases op with
    | close => exact ⟨t, .refl, h.leaving (leavesFiles_close he)⟩
    | _ => exact h.writing ht he hclean hc hatomic hN

/-- **A run** is a behavior. -/
theorem run {calls : List Call} (h : w.Specified X hist t) (ht : Tla.Reachable N t)
    (hcalls : Run.All (World.step X) (AtomicCall X) w calls) (hN : ∀ r ∈ w.history X calls, r.lsn ≤ N) :
    ∃ t', Relation.ReflTransGen (Tla.Next N) t t' ∧
      (Run.from (World.step X) w calls).Specified X (hist ++ w.history X calls) t' := by
  induction calls generalizing w hist t with
  | nil => exact ⟨t, .refl, (List.append_nil hist).symm ▸ h⟩
  | cons c calls ih =>
    obtain ⟨t₁, hnext, h₁⟩ := h.step ht hcalls.1 fun r hr => hN r (List.mem_append_left _ hr)
    obtain ⟨t₂, hnext', h₂⟩ := ih h₁ (ht.trans hnext) hcalls.2 fun r hr => hN r (List.mem_append_right _ hr)
    refine ⟨t₂, hnext.trans hnext', ?_⟩
    rw [history, ← List.append_assoc]
    exact h₂

end Specified

/-- **A state of the specification shows a directory and an engine**: the WAL and the memtable have what is in the files
and in the memtable, as far as it has not been flushed, and the segments have the entries of the registered ones. -/
structure MatchesSpec (X : Externals) (w : World) (t : Tla.State Bytes Bytes) : Prop where
  wal : t.wal =
    (((walSequence X w.fs).map WalRecord.entry).filter fun p => t.flushed < p.2.lsn).map Tla.specRecord
  segments : ∀ k ent,
    (∃ seg ∈ t.segments, ent ∈ seg.entries k) ↔ ∃ v ∈ recordsOf X w.fs k, Tla.specEntry v = ent
  lsn : ∀ e, w.engine = some e → e.currentLsn = t.lsn
  flushed : ∀ e, w.engine = some e → e.confirmedLsn = t.flushed
  memtable : ∀ e, w.engine = some e → ∀ k,
    t.memtable k = ((e.memtable.get k).filter fun v => t.flushed < v.lsn).map Tla.specEntry

theorem Specified.matchesSpec (h : w.Specified X hist t) (hinv : Tla.Inv N t) : w.MatchesSpec X t where
  wal := by
    cases he : w.engine with
    | none =>
      have hdir := (h.watermarked.durably.closed he).durable
      exact h.refines.wal_eq hdir.suffix hdir.increasing
    | some e =>
      have hlives := h.watermarked.durably.live e he
      exact h.refines.wal_eq hlives.suffix hlives.live.increasing
  segments := h.refines.segments
  lsn := h.counter
  flushed := fun e he =>
    (Engine.isGreatest_confirmedLsn ((h.watermarked.durably.live e he).running.inv.engine e he)
      h.watermarked.metas).unique h.refines.flushed
  memtable := fun e he k =>
    Tla.Refines.memtable_eq (s := e.buffered X w.fs w.flights) h.refines (h.watermarked.durably.live e he).live hinv k

/-- A flush, a put that is stopped when its record is in the WAL, a flush that is stopped before the manifest has the
segment, and an opening after each. -/
def specRun : List Call :=
  [{ op := .open {} }, { op := .put [1] [1] [1] }, { op := .flushToSegments }, { op := .delete [1] [1] },
    { op := .put [1] [2] [2], stop := some (1, 0) }, { op := .open {} }, { op := .flushToSegments, stop := some (1, 2) },
    { op := .open {} }, { op := .put [1] [3] [3] }]

end World
