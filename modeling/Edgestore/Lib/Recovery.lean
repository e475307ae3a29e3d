import Edgestore.Lib.WriteBuffer
import Mathlib.Data.List.Infix
import Mathlib.Data.List.Pairwise

/-!
# Recovery of a write buffer

The buffer is lost in a crash, and so are the batches on their way. The log and the store stay, and a new buffer is made
of the log. What is read after it is what was written last, if the log is an end of all that was written: it may have
values that the store has too, but then it also has every later one, so that an old value does not hide a newer one of the
store.

## Main definitions

* `WriteBuffer.Increasing`: values with growing stamps
* `WriteBuffer.Durable`: what is needed of a log and a store
* `WriteBuffer.Live`: the invariant of a write buffer that may be lost at any time
* `WriteBuffer.recovered`: the write buffer that is made of a log and a store
* `WriteBuffer.Confirms`: what is not later than a value of the store is in the store

## Main results

* `WriteBuffer.Durable.read`: reads find the latest value after a recovery
* `WriteBuffer.Live.steps`, `WriteBuffer.Live.durable`, `WriteBuffer.Durable.live`: steps and recoveries keep the invariant
* `WriteBuffer.Confirms.steps`: the greatest stamp of the store is a watermark
-/

namespace WriteBuffer

variable {K V : Type} {stamp : V → ℕ} {s s' : WriteBuffer K V} {b : Batch K V} {k : K} {v : V}
  {m m' : K → Option V} {ps qs hist log log' : List (K × V)} {stored : K → List V}

/-! ## Growing stamps -/

variable (stamp) in
/-- Values with growing stamps. -/
def Increasing (ps : List (K × V)) : Prop := ps.Pairwise fun p q => stamp p.2 < stamp q.2

theorem increasing_concat {p : K × V} :
    Increasing stamp (ps ++ [p]) ↔ Increasing stamp ps ∧ ∀ q ∈ ps, stamp q.2 < stamp p.2 := by
  rw [Increasing, List.pairwise_append]
  simp only [List.pairwise_singleton, List.mem_singleton, forall_eq, true_and]
  rfl

/-- Two values of one stamp are the same. -/
theorem Increasing.eq_of_stamp {p q : K × V} (h : Increasing stamp ps) (hp : p ∈ ps) (hq : q ∈ ps)
    (heq : stamp p.2 = stamp q.2) : p = q := by
  induction ps using List.reverseRecOn with
  | nil => cases hp
  | append_singleton ps r ih =>
    obtain ⟨hps, hlast⟩ := increasing_concat.mp h
    rw [List.mem_append, List.mem_singleton] at hp hq
    rcases hp with hp | rfl <;> rcases hq with hq | rfl
    · exact ih hps hp hq
    · exact absurd heq (hlast p hp).ne
    · exact absurd heq (hlast q hq).ne'
    · rfl

variable [DecidableEq K]

/-! ## Latest values -/

theorem latestAfter_append (m : K → Option V) (ps qs : List (K × V)) :
    latestAfter m (ps ++ qs) = latestAfter (latestAfter m ps) qs := List.foldl_append

theorem latestAfter_concat (m : K → Option V) (ps : List (K × V)) (p : K × V) :
    latestAfter m (ps ++ [p]) = Function.update (latestAfter m ps) p.1 (some p.2) := latestAfter_append m ps [p]

/-- A key that is not written keeps its value. -/
theorem latestAfter_of_notMem (h : ∀ v, (k, v) ∉ ps) : latestAfter m ps k = m k := by
  induction ps generalizing m with
  | nil => rfl
  | cons p ps ih =>
    have hne : k ≠ p.1 := fun hk => h p.2 (hk ▸ List.mem_cons_self)
    refine (ih fun v hv => h v (List.mem_cons_of_mem _ hv)).trans ?_
    exact Function.update_of_ne hne ..

/-- The latest value of a key that is written does not depend on what was there before. -/
theorem latestAfter_congr (h : (k, v) ∈ ps) : latestAfter m ps k = latestAfter m' ps k := by
  induction ps generalizing m m' v with
  | nil => cases h
  | cons p ps ih =>
    by_cases hrest : ∃ u, (k, u) ∈ ps
    · obtain ⟨u, hu⟩ := hrest
      exact ih hu
    · rw [not_exists] at hrest
      rcases List.mem_cons.mp h with rfl | hv
      · show latestAfter (Function.update m k (some v)) ps k = latestAfter (Function.update m' k (some v)) ps k
        rw [latestAfter_of_notMem hrest, latestAfter_of_notMem hrest, Function.update_self, Function.update_self]
      · exact absurd hv (hrest v)

/-- The latest value of a key was written, or it was there before. -/
theorem mem_of_latestAfter (h : latestAfter m ps k = some v) : (k, v) ∈ ps ∨ (∀ u, (k, u) ∉ ps) ∧ m k = some v := by
  induction ps using List.reverseRecOn with
  | nil => exact .inr ⟨fun _ => List.not_mem_nil, h⟩
  | append_singleton ps p ih =>
    rw [latestAfter_concat] at h
    by_cases hk : k = p.1
    · subst hk
      rw [Function.update_self, Option.some_inj] at h
      exact .inl (List.mem_append_right _ (List.mem_singleton.mpr (Prod.ext rfl h.symm)))
    · rw [Function.update_of_ne hk] at h
      refine (ih h).imp (List.mem_append_left _) fun ⟨hnone, hm⟩ => ⟨fun u hu => ?_, hm⟩
      rcases List.mem_append.mp hu with hu | hu
      · exact hnone u hu
      · exact hk (congrArg Prod.fst (List.mem_singleton.mp hu))

/-- **The latest value of a key** covers all its values, if stamps grow. -/
theorem Increasing.latest (h : Increasing stamp ps) (hv : (k, v) ∈ ps) :
    ∃ v', latestAfter m ps k = some v' ∧ (k, v') ∈ ps ∧ Covers stamp v' v := by
  induction ps using List.reverseRecOn with
  | nil => cases hv
  | append_singleton ps p ih =>
    obtain ⟨hps, hlast⟩ := increasing_concat.mp h
    rw [latestAfter_concat]
    by_cases hk : k = p.1
    · subst hk
      refine ⟨p.2, Function.update_self .., List.mem_append_right _ (List.mem_singleton_self _), ?_⟩
      rcases List.mem_append.mp hv with hv | hv
      · exact .inr (hlast _ hv)
      · exact .inl (congrArg Prod.snd (List.mem_singleton.mp hv)).symm
    · have hold : (k, v) ∈ ps := by
        rcases List.mem_append.mp hv with hv | hv
        · exact hv
        · exact absurd (congrArg Prod.fst (List.mem_singleton.mp hv)) hk
      obtain ⟨v', hv', hmem, hcovers⟩ := ih hps hold
      exact ⟨v', (Function.update_of_ne hk ..).trans hv', List.mem_append_left _ hmem, hcovers⟩

/-! ## What a crash leaves -/

variable (stamp) in
/-- **What is needed of a log and a store**, when `hist` has been written: the log is an end of it, the store has values
of it in order, and every value is covered by one of the two. -/
structure Durable (log : List (K × V)) (stored : K → List V) (hist : List (K × V)) : Prop where
  increasing : Increasing stamp hist
  suffix : log <:+ hist
  stored_mem : ∀ k, ∀ v ∈ stored k, (k, v) ∈ hist
  sorted : ∀ k, (stored k).Pairwise fun v v' => stamp v ≤ stamp v'
  kept : ∀ p ∈ hist, (∃ v', (p.1, v') ∈ log ∧ Covers stamp v' p.2) ∨ ∃ v' ∈ stored p.1, Covers stamp v' p.2

namespace Durable

/-- A key of the log has its latest value there. -/
theorem latest_log (h : Durable stamp log stored hist) (hv : (k, v) ∈ log) :
    latestAfter (fun _ => none) log k = latestAfter (fun _ => none) hist k := by
  obtain ⟨pre, rfl⟩ := h.suffix
  rw [latestAfter_append]
  exact latestAfter_congr hv

/-- A key that is not in the log has its latest value at the end of the store. -/
theorem latest_stored (h : Durable stamp log stored hist) (hnone : ∀ v, (k, v) ∉ log) :
    latestAfter (fun _ => none) hist k = (stored k).getLast? := by
  cases hlatest : latestAfter (fun _ => none) hist k with
  | none =>
    -- what is stored was written
    refine (List.getLast?_eq_none_iff.mpr (List.eq_nil_iff_forall_not_mem.mpr fun v hv => ?_)).symm
    obtain ⟨v', hv', -⟩ := h.increasing.latest (m := fun _ => none) (h.stored_mem k v hv)
    rw [hlatest] at hv'
    cases hv'
  | some v =>
    have hmem : (k, v) ∈ hist := (mem_of_latestAfter hlatest).resolve_right fun h => (by cases h.2)
    have hle : ∀ u, (k, u) ∈ hist → stamp u ≤ stamp v := by
      intro u hu
      obtain ⟨v', hv', -, hcovers⟩ := h.increasing.latest (m := fun _ => none) hu
      rw [hlatest, Option.some_inj] at hv'
      exact hv' ▸ hcovers.le
    have hstored : v ∈ stored k := by
      rcases h.kept (k, v) hmem with ⟨v', hv', -⟩ | ⟨v', hv', hcovers⟩
      · exact absurd hv' (hnone v')
      · have heq : v' = v := hcovers.eq_of_le (hle v' (h.stored_mem k v' hv'))
        exact heq ▸ hv'
    -- the last value of the store is not earlier, so it is this one
    obtain ⟨pre, u, hpre⟩ := (stored k).eq_nil_or_concat.resolve_left (List.ne_nil_of_mem hstored)
    have hsorted := h.sorted k
    rw [List.concat_eq_append] at hpre
    rw [hpre] at hsorted hstored
    rw [hpre, List.getLast?_concat]
    rcases List.mem_append.mp hstored with hv | hv
    · have hge : stamp v ≤ stamp u := (List.pairwise_append.mp hsorted).2.2 v hv u (List.mem_singleton_self u)
      have hu : (k, u) ∈ hist := h.stored_mem k u (hpre ▸ List.mem_append_right _ (List.mem_singleton_self u))
      exact congrArg (some ∘ Prod.snd) (h.increasing.eq_of_stamp hmem hu (hge.antisymm (hle u hu)))
    · rw [List.mem_singleton.mp hv]

/-- **Reads find the latest value** after a recovery. -/
theorem read (h : Durable stamp log stored hist) (k : K) :
    (latestAfter (fun _ => none) log k).or (stored k).getLast? = latestAfter (fun _ => none) hist k := by
  by_cases hlog : ∃ v, (k, v) ∈ log
  · obtain ⟨v, hv⟩ := hlog
    obtain ⟨pre, rfl⟩ := h.suffix
    have hlog : Increasing stamp log := List.Pairwise.sublist (List.sublist_append_right ..) h.increasing
    obtain ⟨v', hv', -⟩ := hlog.latest (m := fun _ => none) hv
    rw [← h.latest_log hv, hv']
    rfl
  · rw [not_exists] at hlog
    rw [latestAfter_of_notMem hlog, h.latest_stored hlog]
    rfl

omit [DecidableEq K] in
/-- More is written to the log. -/
theorem append (h : Durable stamp log stored hist) (hps : Increasing stamp (hist ++ ps)) :
    Durable stamp (log ++ ps) stored (hist ++ ps) where
  increasing := hps
  suffix := by
    obtain ⟨pre, rfl⟩ := h.suffix
    exact ⟨pre, (List.append_assoc ..).symm⟩
  stored_mem := fun k v hv => List.mem_append_left _ (h.stored_mem k v hv)
  sorted := h.sorted
  kept := fun p hp => by
    rcases List.mem_append.mp hp with hp | hp
    · refine (h.kept p hp).imp_left ?_
      rintro ⟨v', hv', hcovers⟩
      exact ⟨v', List.mem_append_left _ hv', hcovers⟩
    · exact .inl ⟨p.2, List.mem_append_right _ hp, .refl p.2⟩

omit [DecidableEq K] in
/-- A longer log will do. -/
theorem of_suffix (h : Durable stamp log stored hist) (hlog : log <:+ log') (hlog' : log' <:+ hist) :
    Durable stamp log' stored hist where
  increasing := h.increasing
  suffix := hlog'
  stored_mem := h.stored_mem
  sorted := h.sorted
  kept := fun p hp => by
    refine (h.kept p hp).imp_left ?_
    rintro ⟨v', hv', hcovers⟩
    exact ⟨v', hlog.mem hv', hcovers⟩

end Durable

/-! ## Steps and recoveries -/

variable (stamp) in
/-- A registration that keeps the log and is not behind the store. -/
def Orderly (s : WriteBuffer K V) (b : Batch K V) (s' : WriteBuffer K V) : Prop :=
  KeepsLog stamp s b s' ∧ NotBehind stamp s b

variable (stamp) in
/-- **The invariant of a write buffer that may be lost at any time**, when `hist` has been written. -/
structure Live (s : WriteBuffer K V) (hist : List (K × V)) : Prop where
  increasing : Increasing stamp hist
  top : ∀ p ∈ hist, stamp p.2 ≤ s.counter
  source : s.From fun k v => (k, v) ∈ hist
  bounded : s.Bounded stamp
  backed : s.Backed stamp
  kept : ∀ p ∈ hist, s.Kept stamp p.1 p.2
  current : s.Current stamp (latestAfter (fun _ => none) hist)
  sorted : ∀ k, (s.stored k).Pairwise fun v v' => stamp v ≤ stamp v'

/-- Registrations meet less. -/
theorem Step.imp {P Q : WriteBuffer K V → Batch K V → WriteBuffer K V → Prop} (h : ∀ s b s', P s b s' → Q s b s')
    (hstep : Step stamp P s ps s') : Step stamp Q s ps s' := by
  cases hstep with
  | write hv => exact .write hv
  | take hb => exact .take hb
  | register hb hr hP => exact .register hb hr (h _ _ _ hP)
  | flush hb hr => exact .flush hb hr
  | drop hbs => exact .drop hbs

omit [DecidableEq K] in
/-- A registration that is not behind the store keeps it in order. -/
theorem Registers.sorted (hr : Registers stamp s b s') (hbehind : NotBehind stamp s b)
    (h : (s.stored k).Pairwise fun v v' => stamp v ≤ stamp v') :
    (s'.stored k).Pairwise fun v v' => stamp v ≤ stamp v' := by
  rw [hr.stored]
  refine List.pairwise_append.mpr ⟨h, ?_, fun v hv u hu => hbehind k u (Option.mem_toList.mp hu) v hv⟩
  cases b.entries k with
  | none => exact List.Pairwise.nil
  | some v => exact List.pairwise_singleton ..

theorem Step.increasing {P : WriteBuffer K V → Batch K V → WriteBuffer K V → Prop} (hstep : Step stamp P s ps s')
    (h : Increasing stamp hist) (htop : ∀ p ∈ hist, stamp p.2 ≤ s.counter) :
    Increasing stamp (hist ++ ps) ∧ ∀ p ∈ hist ++ ps, stamp p.2 ≤ s'.counter := by
  cases hstep with
  | @write k v hv =>
    refine ⟨increasing_concat.mpr ⟨h, fun q hq => (htop q hq).trans_lt hv⟩, fun p hp => ?_⟩
    rcases List.mem_append.mp hp with hp | hp
    · exact ((htop p hp).trans_lt hv).le
    · rw [List.mem_singleton.mp hp]
      exact le_rfl
  | register _ hr _ =>
    rw [List.append_nil, hr.counter]
    exact ⟨h, htop⟩
  | flush _ hr =>
    rw [List.append_nil, hr.counter]
    exact ⟨h, htop⟩
  | _ =>
    rw [List.append_nil]
    exact ⟨h, htop⟩

/-- **A step** keeps the invariant, if registrations are orderly. -/
theorem Live.step (h : Live stamp s hist) (hstep : Step stamp (Orderly stamp) s ps s') : Live stamp s' (hist ++ ps) where
  increasing := (hstep.increasing h.increasing h.top).1
  top := (hstep.increasing h.increasing h.top).2
  source := by
    have hold : s.From fun k v => (k, v) ∈ hist ++ ps :=
      ⟨fun k v hv => List.mem_append_left _ (h.source.buffer k v hv),
        fun k v hv => List.mem_append_left _ (h.source.log k v hv),
        fun k v hv => List.mem_append_left _ (h.source.stored k v hv),
        fun b hb k v hv => List.mem_append_left _ (h.source.batches b hb k v hv)⟩
    exact hold.step hstep fun p hp => List.mem_append_right _ hp
  bounded := h.bounded.step hstep
  backed := h.backed.step h.bounded (hstep.imp fun _ _ _ hP => hP.1)
  kept := fun p hp => by
    have hlog := hstep.imp (Q := KeepsLog stamp) fun _ _ _ hP => hP.1
    rcases List.mem_append.mp hp with hp | hp
    · exact (h.kept p hp).step h.backed h.bounded hlog
    · exact hlog.kept p hp
  current := by
    rw [latestAfter_append]
    exact h.current.step h.bounded (hstep.imp fun _ _ _ hP => hP.2)
  sorted := fun k => by
    cases hstep with
    | register _ hr hP => exact hr.sorted hP.2 (h.sorted k)
    | flush hb hr => exact hr.sorted (hb.notBehind h.current) (h.sorted k)
    | _ => exact h.sorted k

theorem Live.steps (h : Live stamp s hist) (hsteps : Steps stamp (Orderly stamp) s ps s') :
    Live stamp s' (hist ++ ps) := by
  induction hsteps with
  | refl => exact (List.append_nil hist).symm ▸ h
  | tail _ hstep ih => exact (List.append_assoc ..) ▸ ih.step hstep

theorem Steps.imp {P Q : WriteBuffer K V → Batch K V → WriteBuffer K V → Prop} (h : ∀ s b s', P s b s' → Q s b s')
    (hsteps : Steps stamp P s ps s') : Steps stamp Q s ps s' := by
  induction hsteps with
  | refl => exact .refl
  | tail _ hstep ih => exact .tail ih (hstep.imp h)

/-- A value of the buffer is the last one of its key. -/
theorem Live.buffer_latest (h : Live stamp s hist) (hv : s.buffer k = some v) :
    (k, v) ∈ hist ∧ ∀ u, (k, u) ∈ hist → stamp u ≤ stamp v := by
  have hlatest : latestAfter (fun _ => none) hist k = some v := h.current.buffer k v hv
  refine ⟨h.source.buffer k v hv, fun u hu => ?_⟩
  obtain ⟨v', hv', -, hcovers⟩ := h.increasing.latest (m := fun _ => none) hu
  rw [hlatest, Option.some_inj] at hv'
  exact hv' ▸ hcovers.le

/-- Steps that write nothing leave the counter. -/
theorem Steps.counter_eq {P : WriteBuffer K V → Batch K V → WriteBuffer K V → Prop} (h : Steps stamp P s [] s') :
    s'.counter = s.counter := by
  generalize hps : ([] : List (K × V)) = ps at h
  induction h with
  | refl => rfl
  | tail _ hstep ih =>
    obtain ⟨rfl, rfl⟩ := List.append_eq_nil_iff.mp hps.symm
    refine Eq.trans ?_ (ih rfl)
    cases hstep with
    | register _ hr _ => exact hr.counter
    | flush _ hr => exact hr.counter
    | _ => rfl

/-- **What a crash leaves** of a write buffer whose log is an end of what was written. -/
theorem Live.durable (h : Live stamp s hist) (hsuffix : s.log <:+ hist) : Durable stamp s.log s.stored hist :=
  ⟨h.increasing, hsuffix, h.source.stored, h.sorted, h.kept⟩

/-- **The write buffer that is made** of a log and a store. -/
def recovered (log : List (K × V)) (stored : K → List V) (counter : ℕ) : WriteBuffer K V :=
  ⟨latestAfter (fun _ => none) log, log, stored, [], counter⟩

/-- A value of the buffer is from the log. -/
theorem mem_log_of_recovered (h : latestAfter (fun _ => none) log k = some v) : (k, v) ∈ log :=
  (mem_of_latestAfter h).resolve_right fun h => (by cases h.2)

/-- **A recovery** sets the invariant up, if the counter has reached all stamps. -/
theorem Durable.live (h : Durable stamp log stored hist) {counter : ℕ} (htop : ∀ p ∈ hist, stamp p.2 ≤ counter) :
    Live stamp (recovered log stored counter) hist where
  increasing := h.increasing
  top := htop
  source := ⟨fun k v hv => h.suffix.mem (mem_log_of_recovered hv), fun k v hv => h.suffix.mem hv, h.stored_mem,
    fun b hb => absurd hb List.not_mem_nil⟩
  bounded := ⟨fun k v hv => htop _ (h.suffix.mem (mem_log_of_recovered hv)), fun b hb => absurd hb List.not_mem_nil⟩
  backed := by
    have hlog : Increasing stamp log := List.Pairwise.sublist h.suffix.sublist h.increasing
    refine ⟨fun k v hv => .inl ?_, fun k v hv => .inl (mem_log_of_recovered hv)⟩
    obtain ⟨v', hv', -, hcovers⟩ := hlog.latest (m := fun _ => none) hv
    exact ⟨v', hv', hcovers⟩
  kept := h.kept
  current := by
    refine ⟨fun k v hv => ?_, fun k v hv => ?_, fun k hnone => ?_, fun k v hv => ?_, fun b hb => absurd hb List.not_mem_nil⟩
    · exact htop _ ((mem_of_latestAfter hv).resolve_right fun h => (by cases h.2))
    · rw [← h.latest_log (mem_log_of_recovered hv)]
      exact hv
    · refine (h.read k).symm.trans ?_
      rw [show latestAfter (fun _ => none) log k = none from hnone]
      rfl
    · obtain ⟨v', hv', -, hcovers⟩ := h.increasing.latest (m := fun _ => none) (h.stored_mem k v hv)
      exact ⟨v', hv', hcovers⟩
  sorted := h.sorted

omit [DecidableEq K] in
/-- Nothing has been written, and nothing is there. -/
theorem durable_empty : Durable stamp ([] : List (K × V)) (fun _ => []) [] :=
  ⟨.nil, List.suffix_refl _, fun _ _ hv => absurd hv List.not_mem_nil, fun _ => .nil,
    fun _ hp => absurd hp List.not_mem_nil⟩

/-! ## The watermark

A batch has all that was in the buffer when it was taken, and what was not in the buffer was in the store. So when a
batch is registered, everything that was written before it was taken is in the store, whatever the order of
registrations. -/

variable (stamp) in
/-- What was written and is not later than a value of the store is in the store, or a later value of its key is. -/
def Watermark (stored : K → List V) (hist : List (K × V)) : Prop :=
  ∀ k, ∀ u ∈ stored k, ∀ p ∈ hist, stamp p.2 ≤ stamp u → ∃ v' ∈ stored p.1, Covers stamp v' p.2

variable (stamp) in
/-- **The invariant of the watermark**: what was written before a batch was taken is in the batch or in the store. -/
structure Confirms (s : WriteBuffer K V) (hist : List (K × V)) : Prop where
  le_top : ∀ b ∈ s.batches, ∀ k v, b.entries k = some v → stamp v ≤ b.top
  batches : ∀ b ∈ s.batches, ∀ p ∈ hist, stamp p.2 ≤ b.top →
    (∃ v', b.entries p.1 = some v' ∧ Covers stamp v' p.2) ∨ s.Stored stamp p.1 p.2
  stored : Watermark stamp s.stored hist

/-- What was written is in the buffer or in the store. -/
theorem Live.covered (h : Live stamp s hist) {p : K × V} (hp : p ∈ hist) :
    (∃ v', s.buffer p.1 = some v' ∧ Covers stamp v' p.2) ∨ s.Stored stamp p.1 p.2 := by
  obtain ⟨v', hv', -, hcovers⟩ := h.increasing.latest (m := fun _ => none) hp
  rw [← h.current.read, Option.or_eq_some_iff] at hv'
  rcases hv' with hbuffer | ⟨-, hlast⟩
  · exact .inl ⟨v', hbuffer, hcovers⟩
  · exact .inr ⟨v', List.mem_of_getLast? hlast, hcovers⟩

/-- A batch of all that is in the buffer has, with the store, all that was written. -/
theorem Takes.covers (hb : Takes stamp s b) (h : Live stamp s hist) {p : K × V} (hp : p ∈ hist) :
    (∃ v', b.entries p.1 = some v' ∧ Covers stamp v' p.2) ∨ s.Stored stamp p.1 p.2 := by
  rw [hb.entries]
  exact h.covered hp

omit [DecidableEq K] in
/-- The registration of a batch that has, with the store, all that was written up to its bound. -/
theorem Confirms.register (h : Confirms stamp s hist) (hr : Registers stamp s b s')
    (htop : ∀ k v, b.entries k = some v → stamp v ≤ b.top)
    (hb : ∀ p ∈ hist, stamp p.2 ≤ b.top →
      (∃ v', b.entries p.1 = some v' ∧ Covers stamp v' p.2) ∨ s.Stored stamp p.1 p.2) :
    Confirms stamp s' hist where
  le_top := fun b' hb' => h.le_top b' (hr.batches b' hb')
  batches := fun b' hb' p hp hle => (h.batches b' (hr.batches b' hb') p hp hle).imp_right fun hs => hs.register hr
  stored := fun k u hu p hp hle => by
    rw [hr.stored] at hu
    have hstored : s.Stored stamp p.1 p.2 ∨ ∃ v', b.entries p.1 = some v' ∧ Covers stamp v' p.2 := by
      rcases List.mem_append.mp hu with hu | hu
      · exact .inl (h.stored k u hu p hp hle)
      · exact (hb p hp (hle.trans (htop k u (Option.mem_toList.mp hu)))).symm
    rcases hstored with hs | ⟨v', hv', hcovers⟩
    · exact hs.register hr
    · refine ⟨v', ?_, hcovers⟩
      rw [hr.stored, hv']
      exact List.mem_append_right _ (List.mem_singleton_self v')

theorem Confirms.step {P : WriteBuffer K V → Batch K V → WriteBuffer K V → Prop} (h : Confirms stamp s hist)
    (hs : Live stamp s hist) (hstep : Step stamp P s ps s') : Confirms stamp s' (hist ++ ps) := by
  cases hstep with
  | @write k v hv =>
    -- the new value is later than all that is stored or on its way
    have hnew : ∀ p ∈ hist ++ [(k, v)], ∀ n, n ≤ s.counter → stamp p.2 ≤ n → p ∈ hist := by
      intro p hp n hn hle
      rcases List.mem_append.mp hp with hp | hp
      · exact hp
      · rw [List.mem_singleton.mp hp] at hle
        exact absurd (hle.trans hn) (not_le.mpr hv)
    refine ⟨h.le_top, fun b hb p hp hle => ?_, fun k' u hu p hp hle => ?_⟩
    · exact h.batches b hb p (hnew p hp _ (hs.bounded.batches b hb).1 hle) hle
    · exact h.stored k' u hu p (hnew p hp _ (hs.top (k', u) (hs.source.stored k' u hu)) hle) hle
  | @take b hb =>
    rw [List.append_nil]
    refine ⟨fun b' hb' k v hv => ?_, fun b' hb' p hp hle => ?_, h.stored⟩
    · rcases List.mem_append.mp hb' with hb' | hb'
      · exact h.le_top b' hb' k v hv
      · obtain rfl := List.mem_singleton.mp hb'
        exact hb.le_top k v (hb.entries ▸ hv)
    · rcases List.mem_append.mp hb' with hb' | hb'
      · exact h.batches b' hb' p hp hle
      · obtain rfl := List.mem_singleton.mp hb'
        exact hb.covers hs hp
  | register hb hr _ =>
    rw [List.append_nil]
    exact h.register hr (h.le_top _ hb) (h.batches _ hb)
  | flush hb hr =>
    rw [List.append_nil]
    exact h.register hr (fun k v hv => hb.le_top k v (hb.entries ▸ hv)) fun p hp _ => hb.covers hs hp
  | drop hbs =>
    rw [List.append_nil]
    exact ⟨fun b hb => h.le_top b (hbs b hb), fun b hb => h.batches b (hbs b hb), h.stored⟩

/-- **The greatest stamp of the store is a watermark** in every run with orderly registrations. -/
theorem Confirms.steps (h : Confirms stamp s hist) (hs : Live stamp s hist)
    (hsteps : Steps stamp (Orderly stamp) s ps s') : Confirms stamp s' (hist ++ ps) := by
  induction hsteps with
  | refl => exact (List.append_nil hist).symm ▸ h
  | tail hsteps hstep ih => exact (List.append_assoc ..) ▸ ih.step (hs.steps hsteps) hstep

/-- After a recovery no batches are on their way. -/
theorem Watermark.confirms (h : Watermark stamp stored hist) {counter : ℕ} :
    Confirms stamp (recovered log stored counter) hist :=
  ⟨fun _ hb => absurd hb List.not_mem_nil, fun _ hb => absurd hb List.not_mem_nil, h⟩

omit [DecidableEq K] in
/-- The last value of a key is in the store, if it is not later than a value of the store. -/
theorem Watermark.mem (h : Watermark stamp stored hist) (hstored : ∀ k, ∀ u ∈ stored k, (k, u) ∈ hist)
    (hv : (k, v) ∈ hist) (hlast : ∀ u, (k, u) ∈ hist → stamp u ≤ stamp v) {k' : K} {u : V} (hu : u ∈ stored k')
    (hle : stamp v ≤ stamp u) : v ∈ stored k := by
  obtain ⟨v', hv', hcovers⟩ := h k' u hu (k, v) hv hle
  have heq : v' = v := hcovers.eq_of_le (hlast v' (hstored k v' hv'))
  exact heq ▸ hv'

omit [DecidableEq K] in
/-- What is written later does not touch the watermark. -/
theorem Watermark.append (h : Watermark stamp stored hist) (hstored : ∀ k, ∀ u ∈ stored k, (k, u) ∈ hist)
    (hps : Increasing stamp (hist ++ ps)) : Watermark stamp stored (hist ++ ps) := by
  intro k u hu p hp hle
  rcases List.mem_append.mp hp with hp | hp
  · exact h k u hu p hp hle
  · exact absurd hle (not_le.mpr ((List.pairwise_append.mp hps).2.2 _ (hstored k u hu) p hp))

end WriteBuffer
