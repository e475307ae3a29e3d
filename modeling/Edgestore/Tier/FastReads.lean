import Edgestore.Tier

/-!
# Reads under the read lock

The asynchronous engine answers a read under the read lock when no archived segment has to be fetched, and goes on
under the write lock otherwise. The guards state by hand what the reads under the write lock select. They state
the same: an answer under the read lock is the one that the read under the write lock would have given, which
would not have fetched anything.

## Main definitions

* `AsyncTieredEngine.fastGet`, `AsyncTieredEngine.fastRange`, `AsyncTieredEngine.fastPrefix`: the parts of the reads
  under the read lock
* `TieredEngine.Answers`: a read gives a result, and leaves the state, the files and the journal alone
* `AsyncTieredEngine.AnsweredBy`: what is answered under the read lock is answered under the write lock

## Main results

* `TieredEngine.unfetched_eq_nil_of_overlap`, `TieredEngine.unfetched_eq_nil_of_point`: what the guards say
* `AsyncTieredEngine.fast_reads_agree`: the answers under the read lock
-/

variable {X : Externals} {Z : Zstd} {archive : Archive}

namespace AsyncTieredEngine

/-- The part of a lookup under the read lock. With `none` the lookup goes on under the write lock. -/
def fastGet (X : Externals) (fs : Fs) (t : TieredEngine) (ns key : Bytes) :
    Except EdgestoreError (Option (Option Bytes)) := do
  let needsArchive ← t.getNeedsArchivedFetch ns key
  let localVal ← t.localOnlyGet X fs ns key
  return if localVal.isSome || !needsArchive then some localVal else none

/-- The part of a range scan under the read lock. -/
def fastRange (fs : Fs) (t : TieredEngine) (ns start «end» : Bytes) :
    Except EdgestoreError (Option (List (Bytes × Bytes))) := do
  if ← t.rangeNeedsArchivedFetch ns start «end» then return none
  else return some (← t.localOnlyRange fs ns start «end»)

/-- The part of a prefix scan under the read lock. -/
def fastPrefix (fs : Fs) (t : TieredEngine) (ns p : Bytes) :
    Except EdgestoreError (Option (List (Bytes × Bytes))) := do
  if ← t.prefixNeedsArchivedFetch ns p then return none
  else return some (← t.localOnlyPrefix fs ns p)

end AsyncTieredEngine

namespace TieredEngine

variable {t : TieredEngine} {s : Process TieredEngine} {d : (tierDevice X).State}
  {ns key start «end» p : Bytes}

/-- A read gives a result, changes nothing, and fetches nothing. -/
def Answers {α : Type} (m : TierExec X α) (s : Process TieredEngine) (d : (tierDevice X).State)
    (r : Except EdgestoreError α) : Prop := m.run s d = (r, s, [])

namespace Answers

variable {α β : Type} {m : TierExec X α} {k : α → TierExec X β}

theorem pure (a : α) : Answers (Pure.pure a : TierExec X α) s d (.ok a) := rfl

theorem lift (r : Except EdgestoreError α) : Answers (Prog.lift r : TierExec X α) s d r := rfl

theorem state : Answers (state : TierExec X TieredEngine) s d (.ok s.state) := rfl

theorem localFiles : Answers (localFiles : TierExec X Fs) s d (.ok d.1) := rfl

/-- A read after one that succeeds. -/
theorem bind {a : α} {r : Except EdgestoreError β} (hm : Answers m s d (.ok a)) (hk : Answers (k a) s d r) :
    Answers (m >>= k) s d r :=
  (Prog.run_bind_nil hm).trans hk

/-- No read after one that fails. -/
theorem bind_error {e : EdgestoreError} (hm : Answers m s d (.error e)) : Answers (m >>= k) s d (.error e) :=
  Prog.run_bind_error hm

/-- The local part of a read. -/
theorem bind_local {f : Fs → TieredEngine → Except EdgestoreError α} {r : Except EdgestoreError β}
    (h : Answers (Prog.lift (f d.1 s.state) >>= k) s d r) :
    Answers (do let a ← Prog.lift (f (← TieredEngine.localFiles) (← TieredEngine.state)); k a) s d r :=
  bind localFiles (bind state h)

end Answers

/-! ### The guards -/

/-- Nothing is selected that has not been fetched. -/
theorem unfetched_eq_nil {segs : List ArchivedSegment} (h : ∀ seg ∈ segs, seg.hash ∈ t.fetched) :
    t.unfetched segs = [] := by
  unfold unfetched
  refine List.map_eq_nil_iff.mpr (List.filter_eq_nil_iff.mpr fun seg hseg hnot => ?_)
  exact of_decide_eq_true hnot (h seg hseg)

/-- **The guard of scans** selects what scans select. -/
theorem unfetched_eq_nil_of_overlap {encStart encEnd : Bytes}
    (h : t.hasUnfetchedArchivedOverlap encStart encEnd = false) :
    t.unfetched (t.archived.filter fun seg => seg.maxKey ≥ encStart ∧ seg.minKey < encEnd) = [] := by
  refine unfetched_eq_nil fun seg hseg => ?_
  obtain ⟨hseg, hbounds⟩ := List.mem_filter.mp hseg
  obtain ⟨hmax, hmin⟩ := of_decide_eq_true hbounds
  by_contra hnot
  exact List.any_eq_false.mp h seg hseg (decide_eq_true ⟨hmax, hmin, hnot⟩)

/-- **The guard of lookups** selects what lookups select. -/
theorem unfetched_eq_nil_of_point {encKey : Bytes} (h : t.hasUnfetchedArchivedPoint encKey = false) :
    t.unfetched (t.archived.filter fun seg => encKey ≥ seg.minKey ∧ encKey ≤ seg.maxKey) = [] := by
  refine unfetched_eq_nil fun seg hseg => ?_
  obtain ⟨hseg, hbounds⟩ := List.mem_filter.mp hseg
  obtain ⟨hmin, hmax⟩ := of_decide_eq_true hbounds
  by_contra hnot
  exact List.any_eq_false.mp h seg hseg (decide_eq_true ⟨hmin, hmax, hnot⟩)

/-- The guard of a scan, for its encoded bounds. -/
theorem answers_ephemeralEngineForRange {encStart encEnd : Bytes}
    (h : s.state.hasUnfetchedArchivedOverlap encStart encEnd = false) :
    Answers (ephemeralEngineForRange Z archive encStart encEnd : TierExec X _) s d (.ok none) := by
  unfold ephemeralEngineForRange
  refine Answers.state.bind ?_
  dsimp only
  rw [unfetched_eq_nil_of_overlap h, if_pos rfl]
  exact Answers.pure none

/-! ### Keys that are not encoded -/

theorem localOnlyGet_of_error {fs : Fs} {e : EdgestoreError} (h : encodeKey ns key = .error e) :
    t.localOnlyGet X fs ns key = .error e := by
  unfold localOnlyGet Engine.get
  rw [h]
  rfl

theorem localOnlyRange_of_error {fs : Fs} {e : EdgestoreError}
    (h : (do let encStart ← encodeKey ns start; let encEnd ← encodeKey ns «end»; return (encStart, encEnd)) =
      Except.error e) :
    t.localOnlyRange fs ns start «end» = .error e := by
  unfold localOnlyRange Engine.range Engine.rangeCore
  cases hstart : encodeKey ns start with
  | error e' =>
    rw [hstart] at h
    cases h
    rfl
  | ok encStart =>
    cases hend : encodeKey ns «end» with
    | error e' =>
      rw [hstart, hend] at h
      cases h
      rfl
    | ok encEnd =>
      rw [hstart, hend] at h
      cases h

theorem localOnlyPrefix_of_error {fs : Fs} {e : EdgestoreError} (h : encodeKey ns p = .error e) :
    t.localOnlyPrefix fs ns p = .error e := by
  unfold localOnlyPrefix Engine.prefixInner Engine.prefixCore
  rw [h]
  rfl

/-! ### The reads -/

/-- A lookup that finds the key locally, or fails there. -/
theorem answers_get_of_local {r : Except EdgestoreError (Option Bytes)}
    (hlocal : s.state.localOnlyGet X d.1 ns key = r) (hr : r ≠ .ok none) :
    Answers (get Z archive ns key : TierExec X _) s d r := by
  unfold get
  refine Answers.bind_local ?_
  rw [hlocal]
  cases r with
  | error e => exact (Answers.lift _).bind_error
  | ok found =>
    refine (Answers.lift _).bind ?_
    cases found with
    | none => exact absurd rfl hr
    | some val => exact Answers.pure _

/-- A lookup that misses locally, and around whose key no archived segment is left to fetch. -/
theorem answers_get_of_miss {encKey : Bytes} (henc : encodeKey ns key = .ok encKey)
    (hguard : s.state.hasUnfetchedArchivedPoint encKey = false)
    (hlocal : s.state.localOnlyGet X d.1 ns key = .ok none) :
    Answers (get Z archive ns key : TierExec X _) s d (.ok none) := by
  unfold get
  refine Answers.bind_local ?_
  rw [hlocal]
  refine (Answers.lift _).bind ?_
  rw [henc]
  refine (Answers.lift _).bind (Answers.state.bind ?_)
  dsimp only
  rw [unfetched_eq_nil_of_point hguard]
  refine Answers.bind (Answers.pure _) (Answers.localFiles.bind (Answers.state.bind ?_))
  rw [hlocal]
  exact Answers.lift _

theorem mergeLocalWins_nil (loc : List (Bytes × Bytes)) : mergeLocalWins loc [] = loc := if_pos rfl

theorem answers_range {encStart encEnd : Bytes} (hstart : encodeKey ns start = .ok encStart)
    (hend : encodeKey ns «end» = .ok encEnd)
    (hguard : s.state.hasUnfetchedArchivedOverlap encStart encEnd = false) :
    Answers (range Z archive ns start «end» : TierExec X _) s d
      (s.state.localOnlyRange d.1 ns start «end») := by
  unfold range
  refine Answers.bind_local ?_
  cases hlocal : s.state.localOnlyRange d.1 ns start «end» with
  | error e => exact (Answers.lift _).bind_error
  | ok loc =>
    have harchived : Answers (rangeArchived Z archive ns start «end» : TierExec X _) s d (.ok []) := by
      unfold rangeArchived
      rw [hstart, hend]
      refine (Answers.lift _).bind ((Answers.lift _).bind ?_)
      exact (answers_ephemeralEngineForRange hguard).bind (Answers.pure [])
    refine (Answers.lift _).bind (harchived.bind ?_)
    rw [mergeLocalWins_nil]
    exact Answers.pure loc

theorem answers_prefixScan {encPrefix : Bytes} (henc : encodeKey ns p = .ok encPrefix)
    (hguard : s.state.hasUnfetchedArchivedOverlap encPrefix (prefixEnd encPrefix) = false) :
    Answers (prefixScan Z archive ns p : TierExec X _) s d (s.state.localOnlyPrefix d.1 ns p) := by
  unfold prefixScan
  refine Answers.bind_local ?_
  cases hlocal : s.state.localOnlyPrefix d.1 ns p with
  | error e => exact (Answers.lift _).bind_error
  | ok loc =>
    have harchived : Answers (prefixArchived Z archive ns p : TierExec X _) s d (.ok []) := by
      unfold prefixArchived
      rw [henc]
      refine (Answers.lift _).bind ?_
      exact (answers_ephemeralEngineForRange hguard).bind (Answers.pure [])
    refine (Answers.lift _).bind (harchived.bind ?_)
    rw [mergeLocalWins_nil]
    exact Answers.pure loc

end TieredEngine

namespace AsyncTieredEngine

open TieredEngine

variable {s : Process TieredEngine} {d : (tierDevice X).State}

/-- An answer under the read lock, or an error there, is what the read under the write lock gives. -/
def AnsweredBy {α : Type} (fast : Except EdgestoreError (Option α)) (m : TierExec X α)
    (s : Process TieredEngine) (d : (tierDevice X).State) : Prop :=
  match fast with
  | .ok none => True
  | .ok (some a) => Answers m s d (.ok a)
  | .error e => Answers m s d (.error e)

theorem fastGet_answeredBy (ns key : Bytes) :
    AnsweredBy (fastGet X d.1 s.state ns key) (get Z archive ns key : TierExec X _) s d := by
  unfold fastGet getNeedsArchivedFetch
  cases henc : encodeKey ns key with
  | error e => exact answers_get_of_local (localOnlyGet_of_error henc) nofun
  | ok encKey =>
    cases hlocal : s.state.localOnlyGet X d.1 ns key with
    | error e => exact answers_get_of_local hlocal nofun
    | ok found =>
      cases found with
      | some val => exact answers_get_of_local hlocal nofun
      | none =>
        change AnsweredBy (.ok (if (Option.isSome none || !s.state.hasUnfetchedArchivedPoint encKey) = true
          then some none else none)) _ _ _
        cases hguard : s.state.hasUnfetchedArchivedPoint encKey with
        | true => exact trivial
        | false => exact answers_get_of_miss henc hguard hlocal

theorem fastRange_answeredBy (ns start «end» : Bytes) :
    AnsweredBy (fastRange d.1 s.state ns start «end»)
      (TieredEngine.range Z archive ns start «end» : TierExec X _) s d := by
  have hfails : ∀ e, s.state.localOnlyRange d.1 ns start «end» = .error e →
      Answers (TieredEngine.range Z archive ns start «end» : TierExec X _) s d (.error e) := by
    intro e he
    unfold TieredEngine.range
    refine Answers.bind_local ?_
    rw [he]
    exact (Answers.lift _).bind_error
  unfold fastRange rangeNeedsArchivedFetch
  cases hstart : encodeKey ns start with
  | error e =>
    refine hfails e (localOnlyRange_of_error ?_)
    rw [hstart]
    rfl
  | ok encStart =>
    cases hend : encodeKey ns «end» with
    | error e =>
      refine hfails e (localOnlyRange_of_error ?_)
      rw [hstart, hend]
      rfl
    | ok encEnd =>
      change AnsweredBy (if s.state.hasUnfetchedArchivedOverlap encStart encEnd = true then .ok none
        else (s.state.localOnlyRange d.1 ns start «end» >>= fun loc => .ok (some loc))) _ _ _
      cases hguard : s.state.hasUnfetchedArchivedOverlap encStart encEnd with
      | true => exact trivial
      | false =>
        rw [if_neg Bool.false_ne_true]
        have hrange : Answers (TieredEngine.range Z archive ns start «end» : TierExec X _) s d
            (s.state.localOnlyRange d.1 ns start «end») := answers_range hstart hend hguard
        cases hlocal : s.state.localOnlyRange d.1 ns start «end» with
        | error e => exact hfails e hlocal
        | ok loc =>
          rw [hlocal] at hrange
          exact hrange

theorem fastPrefix_answeredBy (ns p : Bytes) :
    AnsweredBy (fastPrefix d.1 s.state ns p) (prefixScan Z archive ns p : TierExec X _) s d := by
  have hfails : ∀ e, s.state.localOnlyPrefix d.1 ns p = .error e →
      Answers (prefixScan Z archive ns p : TierExec X _) s d (.error e) := by
    intro e he
    unfold prefixScan
    refine Answers.bind_local ?_
    rw [he]
    exact (Answers.lift _).bind_error
  unfold fastPrefix prefixNeedsArchivedFetch
  cases henc : encodeKey ns p with
  | error e => exact hfails e (localOnlyPrefix_of_error henc)
  | ok encPrefix =>
    change AnsweredBy (if s.state.hasUnfetchedArchivedOverlap encPrefix (prefixEnd encPrefix) = true then
      .ok none else (s.state.localOnlyPrefix d.1 ns p >>= fun loc => .ok (some loc))) _ _ _
    cases hguard : s.state.hasUnfetchedArchivedOverlap encPrefix (prefixEnd encPrefix) with
    | true => exact trivial
    | false =>
      rw [if_neg Bool.false_ne_true]
      have hscan : Answers (prefixScan Z archive ns p : TierExec X _) s d
          (s.state.localOnlyPrefix d.1 ns p) := answers_prefixScan henc hguard
      cases hlocal : s.state.localOnlyPrefix d.1 ns p with
      | error e => exact hfails e hlocal
      | ok loc =>
        rw [hlocal] at hscan
        exact hscan

/-- **What is answered under the read lock** is what the tiered engine answers in that state, without a download and
without a change, in every state and whatever the archive would have delivered. -/
theorem fast_reads_agree (Z : Zstd) (archive : Archive) (s : Process TieredEngine)
    (d : (tierDevice X).State) (ns key start «end» p : Bytes) :
    AnsweredBy (fastGet X d.1 s.state ns key) (get Z archive ns key : TierExec X _) s d ∧
    AnsweredBy (fastRange d.1 s.state ns start «end»)
      (TieredEngine.range Z archive ns start «end» : TierExec X _) s d ∧
    AnsweredBy (fastPrefix d.1 s.state ns p) (prefixScan Z archive ns p : TierExec X _) s d :=
  ⟨fastGet_answeredBy ns key, fastRange_answeredBy ns start «end», fastPrefix_answeredBy ns p⟩

end AsyncTieredEngine
