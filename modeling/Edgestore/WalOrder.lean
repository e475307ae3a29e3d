import Edgestore.WalRuns
import Edgestore.PlainExternals
import Mathlib.Data.List.Induction

/-!
# WAL files replay in the order of LSNs

WAL files are named by the LSN counter at the time of a rotation. Names stay unique and in the order of
the LSNs in the files as long as the counter has passed the name of the current file whenever a
rotation is due. A rotation without a write in between asks for the name of the current file again.

## Main definitions

* `World.failure X w c`: the error of a call that may create a WAL file
* `Replays X fs`: recovery finds the record with the greatest LSN of every key

## Main results

* `World.walFiles_replay_in_order`: no file is created twice, and files replay in the order of LSNs
* `World.empty_commit_collides`: an empty transaction asks for a file that exists
-/

variable {X : Externals} {fs : Fs}

/-! ### What recovery finds -/

/-- A record that can be read from a WAL file. -/
def InWal (X : Externals) (fs : Fs) (r : WalRecord) : Prop :=
  ∃ p ∈ fs.wals.entries, r ∈ fileRecords X p.2

/-- `n` is the greatest value of `f` on the records in WAL files, or zero if there are none. -/
def GreatestInWal (X : Externals) (fs : Fs) (f : WalRecord → ℕ) (n : ℕ) : Prop :=
  (∀ r, InWal X fs r → f r ≤ n) ∧ (n = 0 ∨ ∃ r, InWal X fs r ∧ f r = n)

/-- **Recovery finds the latest records**: for every key, the memtable holds the record with the
greatest LSN in any WAL file, and the LSN and the transaction id reported are the greatest there
are. -/
def Replays (X : Externals) (fs : Fs) : Prop :=
  ∃ m res, recoverFromWal X fs .empty = .ok (m, res) ∧
    (∀ k, (m.get k = none ∧ ∀ r, InWal X fs r → r.encodedKey ≠ k) ∨
      ∃ r, InWal X fs r ∧ r.encodedKey = k ∧ m.get k = some (r.toEntry k) ∧
        ∀ r', InWal X fs r' → r'.encodedKey = k → r'.lsn ≤ r.lsn) ∧
    GreatestInWal X fs WalRecord.lsn res.maxLsn ∧ GreatestInWal X fs WalRecord.txid res.maxTxid

/-- The files, in the order of their names, are in the order of the LSNs in them. -/
def FilesInOrder (X : Externals) (fs : Fs) : Prop :=
  fs.wals.entries.Pairwise fun p q =>
    ∀ r ∈ fileRecords X p.2, ∀ r' ∈ fileRecords X q.2, r.lsn < r'.lsn

theorem inWal_iff {r : WalRecord} : InWal X fs r ↔ r ∈ walSequence X fs := by
  rw [InWal, walSequence, List.mem_flatMap]

theorem foldl_max_mem (l : List ℕ) (n : ℕ) : l.foldl max n = n ∨ l.foldl max n ∈ l := by
  induction l generalizing n with
  | nil => exact .inl rfl
  | cons a l ih =>
    rw [List.foldl_cons]
    rcases ih (max n a) with h | h
    · rw [h]
      rcases max_choice n a with h | h
      · exact .inl h
      · exact .inr (by simp [h])
    · exact .inr (List.mem_cons_of_mem _ h)

theorem greatestInWal_foldl_max (f : WalRecord → ℕ) :
    GreatestInWal X fs f (((walSequence X fs).map f).foldl max 0) := by
  refine ⟨fun r hr => le_foldl_max (.inl (List.mem_map_of_mem (inWal_iff.mp hr))), ?_⟩
  rcases foldl_max_mem ((walSequence X fs).map f) 0 with h | h
  · exact .inl h
  · obtain ⟨r, hr, heq⟩ := List.mem_map.mp h
    exact .inr ⟨r, inWal_iff.mpr hr, heq⟩

/-- Replaying records in the order of their LSNs leaves the last record of every key. -/
theorem get_replayed {rs : List WalRecord} (h : rs.Pairwise fun r r' => r.lsn < r'.lsn) (k : Bytes) :
    ((replayed .empty rs).get k = none ∧ ∀ r ∈ rs, r.encodedKey ≠ k) ∨
      ∃ r ∈ rs, r.encodedKey = k ∧ (replayed .empty rs).get k = some (r.toEntry k) ∧
        ∀ r' ∈ rs, r'.encodedKey = k → r'.lsn ≤ r.lsn := by
  induction rs using List.reverseRecOn with
  | nil => exact .inl ⟨rfl, by simp⟩
  | append_singleton rs r ih =>
    obtain ⟨hrs, -, hlt⟩ := List.pairwise_append.mp h
    have hget : (replayed .empty (rs ++ [r])).get k =
        if r.encodedKey = k then some (r.toEntry r.encodedKey) else (replayed .empty rs).get k := by
      rw [replayed_append]
      refine (SortedMap.get_insert (replayed .empty rs) r.encodedKey k _).trans ?_
      congr
    by_cases hk : r.encodedKey = k
    · refine .inr ⟨r, by simp, hk, by rw [hget, if_pos hk, hk], fun r' hr' _ => ?_⟩
      rcases List.mem_append.mp hr' with hr' | hr'
      · exact (hlt r' hr' r (by simp)).le
      · rw [List.mem_singleton.mp hr']
    · rw [if_neg hk] at hget
      rcases ih hrs with ⟨hnone, hall⟩ | ⟨r₀, hr₀, hk₀, hget₀, hmax⟩
      · refine .inl ⟨hget.trans hnone, fun r' hr' => ?_⟩
        rcases List.mem_append.mp hr' with hr' | hr'
        · exact hall r' hr'
        · rw [List.mem_singleton.mp hr']
          exact hk
      · refine .inr ⟨r₀, by simp [hr₀], hk₀, hget.trans hget₀, fun r' hr' hk' => ?_⟩
        rcases List.mem_append.mp hr' with hr' | hr'
        · exact hmax r' hr' hk'
        · rw [List.mem_singleton.mp hr'] at hk'
          exact absurd hk' hk

/-- A log in the order of LSNs is replayed to its latest records. -/
theorem WalLog.replays (h : WalLog X fs) : Replays X fs := by
  obtain ⟨res, hrec, hlsn, htxid⟩ := recoverFromWal_eq (fun r hr => (h.files.fits r hr).nsBytes_le) .empty
  refine ⟨_, res, hrec, fun k => ?_, hlsn ▸ greatestInWal_foldl_max _, htxid ▸ greatestInWal_foldl_max _⟩
  simp only [inWal_iff]
  exact get_replayed h.ordered k

theorem WalLog.filesInOrder (h : WalLog X fs) : FilesInOrder X fs :=
  (List.pairwise_flatMap.mp h.ordered).2

/-! ### Runs -/

namespace World

/-- The error of a call of the engine. -/
def failureOf {α : Type} (X : Externals) (w : World) (c : Call) (m : Exec X Engine α) :
    Option EdgestoreError :=
  w.engine.bind fun e =>
    match (m.run ⟨e, c.clock⟩ w.fs).1 with
    | .ok _ => none
    | .error err => some err

/-- The error of a call that may create a WAL file. -/
def failure (X : Externals) (w : World) (c : Call) : Option EdgestoreError :=
  match c.op with
  | .open config =>
    match w.engine, ((Engine.open (X := X) (σ := Unit) config).run ⟨(), c.clock⟩ w.fs).1 with
    | none, .error err => some err
    | _, _ => none
  | .put ns key val => w.failureOf X c (Engine.put ns key val)
  | .putWithTtl ns key val ttlSecs => w.failureOf X c (Engine.putWithTtl ns key val ttlSecs)
  | .delete ns key => w.failureOf X c (Engine.delete ns key)
  | .commit ops => w.failureOf X c (Engine.runTransaction ops)
  | .importSegment dat size hash => w.failureOf X c (Engine.importSegment dat size hash)
  | _ => none

variable {w : World} {c : Call}

theorem failureOf_ne {α : Type} {m : Exec X Engine α}
    (hwp : ∀ e, w.engine = some e → Prog.wp m
      ⟨fun _ _ _ => True, fun err _ _ => NotExists err, FitsWal X, WalEffect X⟩ ⟨e, c.clock⟩ w.fs)
    (hfits : ∀ r ∈ appendedRecords (w.onEngine X c.clock m).effects, r.Fits X) :
    w.failureOf X c m ≠ some (.io .alreadyExists) := by
  cases he : w.engine with
  | none => simp [failureOf, he]
  | some e =>
    have hm := hwp e he
    simp only [onEngine, he] at hfits
    simp only [failureOf, he, Option.bind_some]
    rcases hr : m.run ⟨e, c.clock⟩ w.fs with ⟨_ | _, q, es⟩
    · rw [hr] at hfits
      have hres := Prog.wp_result hm (by rw [hr]; exact all_fitsWal hfits)
      rw [hr] at hres
      exact fun h => hres (Option.some.inj h)
    · simp

/-- **No admitted call** asks for a WAL file that exists. -/
theorem WalInv.failure_ne (h : WalInv X w) (hc : w.WalAdmitted X c) :
    w.failure X c ≠ some (.io .alreadyExists) := by
  obtain ⟨op, clock, stop⟩ := c
  obtain ⟨hfits, hahead⟩ := hc
  simp only [effects] at hfits
  cases op with
  | «open» config =>
    cases he : w.engine with
    | some e => simp [failure, he]
    | none =>
      simp only [RotatesAhead, he] at hahead
      simp only [perform, he] at hfits
      have hres := Prog.wp_result (Engine.wp_open_wal (σ := Unit) (p := ⟨(), clock⟩) h.log hahead)
        (all_fitsWal hfits)
      simp only [failure, he]
      generalize ((Engine.open (X := X) (σ := Unit) config).run ⟨(), clock⟩ w.fs).1 = r at hres ⊢
      cases r with
      | ok e => simp
      | error err => exact fun h => hres.2.2 (Option.some.inj h)
  | put ns key val =>
    refine failureOf_ne (fun e he => ?_) hfits
    simp only [RotatesAhead, he] at hahead
    exact Prog.wp_imp ((h.engine e he).wp_put hahead) (fun _ _ _ _ => trivial) (fun _ _ _ hq => hq.1)
  | putWithTtl ns key val ttl =>
    refine failureOf_ne (fun e he => ?_) hfits
    simp only [RotatesAhead, he] at hahead
    refine Prog.wp_imp ((h.engine e he).wp_putWithTtl hahead) (fun _ _ _ _ => trivial) ?_
    rintro err _ _ ⟨-, -, ⟨-, rfl⟩ | ⟨-, rfl⟩⟩ <;> simp [NotExists]
  | delete ns key =>
    refine failureOf_ne (fun e he => ?_) hfits
    simp only [RotatesAhead, he] at hahead
    refine Prog.wp_imp ((h.engine e he).wp_delete hahead) (fun _ _ _ _ => trivial) ?_
    rintro err _ _ ⟨-, -, -, rfl⟩
    simp [NotExists]
  | commit ops =>
    refine failureOf_ne (fun e he => ?_) hfits
    simp only [RotatesAhead, he] at hahead
    exact Prog.wp_imp ((h.engine e he).wp_runTransaction ops hahead) (fun _ _ _ _ => trivial)
      (fun _ _ _ hq => hq.elim)
  | importSegment dat size hash =>
    refine failureOf_ne (fun e he => ?_) hfits
    simp only [RotatesAhead, he] at hahead
    exact Prog.wp_imp (Engine.Ahead.wp_importSegment ⟨h.engine e he, hahead⟩ dat size hash)
      (fun _ _ _ _ => trivial) (fun _ _ _ hq => hq.2)
  | _ => simp [failure]

/-- **WAL files never collide and replay in the order of LSNs** in every run in which rotations find
the LSN counter ahead. -/
theorem walFiles_replay_in_order {calls : List Call} (h : Run.All (step X) (WalAdmitted X) {} calls) :
    Run.All (step X) (fun w c => w.failure X c ≠ some (.io .alreadyExists)) {} calls ∧
      FilesInOrder X (Run.from (step X) {} calls).fs ∧
      Replays X (Run.from (step X) {} calls).fs :=
  have hlog := (walInv_run h).log
  ⟨h.imp_of_invariant (I := WalInv X) (fun _ _ hw hc => hw.step hc)
    (fun _ _ hw hc => hw.failure_ne hc) walInv_empty, hlog.filesInOrder, hlog.replays⟩

/-- The clock at a number of seconds. -/
def atSecs (s : ℕ) : ℕ → ℕ := fun _ => s * 1000000000

/-- Writes with rotations by age, a transaction, an empty transaction, a flush and a restart. -/
def rotatingRun : List Call :=
  [{ op := .open {} }, { op := .put [1] [1] [1], clock := atSecs 61 },
    { op := .commit [⟨.put, [1], [1], [2], 0, 0, 5⟩, ⟨.delete, [1], [2], [], 0, 0, 5⟩],
      clock := atSecs 122 },
    { op := .commit [], clock := atSecs 123 }, { op := .flushToSegments },
    { op := .put [1] [3] [4], clock := atSecs 124 }, { op := .close },
    { op := .open {}, clock := atSecs 125 }, { op := .delete [1] [1], clock := atSecs 186 }]

theorem walFiles_replay_in_order_rotatingRun :
    Run.All (step plainExternals) (fun w c => w.failure plainExternals c ≠ some (.io .alreadyExists)) {}
        rotatingRun ∧
      FilesInOrder plainExternals (Run.from (step plainExternals) {} rotatingRun).fs ∧
      Replays plainExternals (Run.from (step plainExternals) {} rotatingRun).fs :=
  walFiles_replay_in_order (by decide +kernel)

/-- A rotation by age after a put, and an empty transaction when the new file is due in turn. -/
def emptyCommitRun : List Call :=
  [{ op := .open {} }, { op := .put [1] [1] [1], clock := atSecs 61 },
    { op := .commit [], clock := atSecs 122 }]

/-- **An empty transaction collides**: no LSN was taken since the last rotation, and the rotation asks
for the current file. -/
theorem empty_commit_collides :
    ¬ Run.All (step plainExternals)
      (fun w c => w.failure plainExternals c ≠ some (.io .alreadyExists)) {} emptyCommitRun := by
  have hfail : (Run.from (step plainExternals) {} (emptyCommitRun.take 2)).failure plainExternals
      { op := .commit [], clock := atSecs 122 } = some (.io .alreadyExists) := by
    decide +kernel
  exact fun h => h.2.2.1 hfail

end World
