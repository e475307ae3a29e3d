import Mathlib.Data.List.Basic
import Mathlib.Data.Option.Basic
import Mathlib.Logic.Function.Basic
import Mathlib.Order.Nat

/-!
# A write buffer over a log and a store

Writes go to a log and into a buffer with one value for each key. Batches of the buffer are taken away, written, and
registered in a store; a registration drops what the batch has from the buffer, and a part of the log. Writes go on
while batches are on their way, and several batches may be.

What is needed of a registration is asked separately for the two questions about such a buffer. That *nothing is
lost* is a matter of the log: the part that is kept must have all values that stay in the buffer. That *reads find
the latest value* is a matter of the store: a batch must not be behind what is registered.

## Main definitions

* `WriteBuffer`, `Batch`
* `WriteBuffer.write`, `WriteBuffer.Registers`: a write, and the registration of a batch
* `WriteBuffer.Step`, `WriteBuffer.Steps`: what happens to a write buffer, and runs
* `WriteBuffer.Bounded`, `WriteBuffer.Backed`: the invariants of the buffer and of the log
* `WriteBuffer.Kept`: a value, or a later one of its key, is in the log or in the store
* `WriteBuffer.Current`: the buffer and the store say what the latest values are

## Main results

* `WriteBuffer.Kept.register`, `WriteBuffer.Steps.kept`: what is kept stays so, and nothing that is written is lost
* `WriteBuffer.Current.register`, `WriteBuffer.Steps.current`: reads find the latest value
-/

/-- Values of the buffer that are on their way to the store, and a bound on their stamps. -/
structure Batch (K V : Type) where
  entries : K → Option V
  top : ℕ

/-- A write buffer: the value of each key, the log, the values of each key in the store in the order of their
registration, the batches on their way, and the last stamp. -/
structure WriteBuffer (K V : Type) where
  buffer : K → Option V
  log : List (K × V)
  stored : K → List V
  batches : List (Batch K V)
  counter : ℕ

namespace WriteBuffer

variable {K V : Type} (stamp : V → ℕ)

/-- A value that covers another one: itself, or a later one. -/
def Covers (v' v : V) : Prop := v' = v ∨ stamp v < stamp v'

variable {stamp}

theorem Covers.refl (v : V) : Covers stamp v v := .inl rfl

theorem Covers.trans {v v' v'' : V} (h : Covers stamp v'' v') (h' : Covers stamp v' v) : Covers stamp v'' v := by
  rcases h with rfl | hlt
  · exact h'
  · rcases h' with rfl | hlt'
    · exact .inr hlt
    · exact .inr (hlt'.trans hlt)

theorem Covers.le {v v' : V} (h : Covers stamp v' v) : stamp v ≤ stamp v' := by
  rcases h with rfl | hlt
  · exact le_rfl
  · exact hlt.le

/-- Values that cover each other are the same. -/
theorem Covers.eq_of_le {v v' : V} (h : Covers stamp v' v) (hle : stamp v' ≤ stamp v) : v' = v :=
  h.resolve_right (not_lt.mpr hle)

variable {s s' : WriteBuffer K V} {b : Batch K V} {k : K} {v : V}

/-! ## Writes and registrations -/

/-- Write a value: to the log, and into the buffer. -/
def write [DecidableEq K] (s : WriteBuffer K V) (k : K) (v : V) (counter : ℕ) : WriteBuffer K V :=
  { s with
    buffer := Function.update s.buffer k (some v)
    log := s.log ++ [(k, v)]
    counter := counter }

section Write

variable [DecidableEq K] {n : ℕ} {k' : K}

theorem buffer_write_self : (s.write k v n).buffer k = some v := Function.update_self ..

theorem buffer_write_of_ne (h : k' ≠ k) : (s.write k v n).buffer k' = s.buffer k' :=
  Function.update_of_ne h ..

/-- A value of the buffer after a write is the new one, or one of another key. -/
theorem buffer_write_eq_some {v' : V} (h : (s.write k v n).buffer k' = some v') :
    (k' = k ∧ v' = v) ∨ (k' ≠ k ∧ s.buffer k' = some v') := by
  by_cases hk : k' = k
  · subst hk
    rw [buffer_write_self, Option.some_inj] at h
    exact .inl ⟨rfl, h.symm⟩
  · rw [buffer_write_of_ne hk] at h
    exact .inr ⟨hk, h⟩

theorem mem_log_write {p : K × V} : p ∈ (s.write k v n).log ↔ p ∈ s.log ∨ p = (k, v) := by
  rw [write, List.mem_append, List.mem_singleton]

end Write

variable (stamp) in
/-- **A registration** of a batch: the store gets its values, the values up to its bound leave the buffer, and a part
of the log is dropped. Other batches stay on their way. -/
structure Registers (s : WriteBuffer K V) (b : Batch K V) (s' : WriteBuffer K V) : Prop where
  buffer : ∀ k, s'.buffer k = (s.buffer k).filter fun v => b.top < stamp v
  stored : ∀ k, s'.stored k = s.stored k ++ (b.entries k).toList
  log : ∀ p ∈ s'.log, p ∈ s.log
  batches : ∀ b' ∈ s'.batches, b' ∈ s.batches
  counter : s'.counter = s.counter

theorem Registers.buffer_eq_some (h : Registers stamp s b s') :
    s'.buffer k = some v ↔ s.buffer k = some v ∧ b.top < stamp v := by
  rw [h.buffer, Option.filter_eq_some_iff, decide_eq_true_iff]

variable (stamp) in
/-- A batch has what the buffer had: a value that is still in the buffer, and not above the bound, is in the
batch. -/
def Has (s : WriteBuffer K V) (b : Batch K V) : Prop :=
  ∀ k v, s.buffer k = some v → stamp v ≤ b.top → b.entries k = some v

variable (stamp) in
/-- **The invariant of the buffer**: stamps are bounded by the counter, and batches have what the buffer had. -/
structure Bounded (s : WriteBuffer K V) : Prop where
  buffer : ∀ k v, s.buffer k = some v → stamp v ≤ s.counter
  batches : ∀ b ∈ s.batches, b.top ≤ s.counter ∧ Has stamp s b

theorem Bounded.write [DecidableEq K] (h : s.Bounded stamp) (hv : s.counter < stamp v) :
    (s.write k v (stamp v)).Bounded stamp where
  buffer := fun k' v' hv' => by
    rcases buffer_write_eq_some hv' with ⟨-, rfl⟩ | ⟨-, hold⟩
    · exact le_rfl
    · exact (h.buffer k' v' hold).trans hv.le
  batches := fun b hb => by
    obtain ⟨htop, hhas⟩ := h.batches b hb
    refine ⟨htop.trans hv.le, fun k' v' hv' hle => ?_⟩
    rcases buffer_write_eq_some hv' with ⟨-, rfl⟩ | ⟨-, hold⟩
    · -- the new value is above the bound of every batch
      exact absurd (hle.trans htop) (not_le.mpr hv)
    · exact hhas k' v' hold hle

theorem Bounded.register (h : s.Bounded stamp) (hr : Registers stamp s b s') : s'.Bounded stamp where
  buffer := fun k v hv => hr.counter ▸ h.buffer k v (hr.buffer_eq_some.mp hv).1
  batches := fun b' hb' => by
    obtain ⟨htop, hhas⟩ := h.batches b' (hr.batches b' hb')
    exact ⟨hr.counter ▸ htop, fun k v hv hle => hhas k v (hr.buffer_eq_some.mp hv).1 hle⟩

/-! ## Nothing is lost

A value may be dropped once it is in the store or a later one of its key is kept. The log and the buffer back each
other: a value of the log is covered by the buffer or by the store, and a value of the buffer is in the log or in the
store. -/

variable (stamp) in
/-- A value, or a later one of its key, is in the store. -/
def Stored (s : WriteBuffer K V) (k : K) (v : V) : Prop := ∃ v' ∈ s.stored k, Covers stamp v' v

variable (stamp) in
/-- **A value that is kept**: it, or a later one of its key, is in the log or in the store. -/
def Kept (s : WriteBuffer K V) (k : K) (v : V) : Prop :=
  (∃ v', (k, v') ∈ s.log ∧ Covers stamp v' v) ∨ s.Stored stamp k v

variable (stamp) in
/-- **The invariant of the log**: the log and the buffer back each other. -/
structure Backed (s : WriteBuffer K V) : Prop where
  log : ∀ k v, (k, v) ∈ s.log → (∃ v', s.buffer k = some v' ∧ Covers stamp v' v) ∨ s.Stored stamp k v
  buffer : ∀ k v, s.buffer k = some v → (k, v) ∈ s.log ∨ v ∈ s.stored k

variable (stamp) in
/-- A registration keeps in the log what stays in the buffer. -/
def KeepsLog (s : WriteBuffer K V) (b : Batch K V) (s' : WriteBuffer K V) : Prop :=
  ∀ k v, s.buffer k = some v → b.top < stamp v → (k, v) ∈ s.log → (k, v) ∈ s'.log

theorem Kept.write [DecidableEq K] {k' : K} {v' : V} {n : ℕ} (h : s.Kept stamp k v) :
    (s.write k' v' n).Kept stamp k v := by
  rcases h with ⟨u, hu, hcovers⟩ | hstored
  · exact .inl ⟨u, mem_log_write.mpr (.inl hu), hcovers⟩
  · exact .inr hstored

theorem kept_write [DecidableEq K] {n : ℕ} : (s.write k v n).Kept stamp k v :=
  .inl ⟨v, mem_log_write.mpr (.inr rfl), .refl v⟩

theorem Backed.write [DecidableEq K] (h : s.Backed stamp) (hs : s.Bounded stamp) (hv : s.counter < stamp v) :
    (s.write k v (stamp v)).Backed stamp where
  log := fun k' v' hmem => by
    rcases mem_log_write.mp hmem with hold | hnew
    · refine Or.imp_left ?_ (h.log k' v' hold)
      rintro ⟨u, hu, hcovers⟩
      by_cases hk : k' = k
      · -- the new value covers the old ones
        subst hk
        exact ⟨v, buffer_write_self, .inr (hcovers.le.trans_lt ((hs.buffer k' u hu).trans_lt hv))⟩
      · exact ⟨u, (buffer_write_of_ne hk).trans hu, hcovers⟩
    · obtain ⟨rfl, rfl⟩ := Prod.mk.inj hnew
      exact .inl ⟨v', buffer_write_self, .refl v'⟩
  buffer := fun k' v' hv' => by
    rcases buffer_write_eq_some hv' with ⟨rfl, rfl⟩ | ⟨-, hold⟩
    · exact .inl (mem_log_write.mpr (.inr rfl))
    · exact (h.buffer k' v' hold).imp_left fun hmem => mem_log_write.mpr (.inl hmem)

/-- What the store has stays there. -/
theorem Stored.register (h : s.Stored stamp k v) (hr : Registers stamp s b s') : s'.Stored stamp k v := by
  obtain ⟨u, hu, hcovers⟩ := h
  exact ⟨u, hr.stored k ▸ List.mem_append_left _ hu, hcovers⟩

/-- A value of the buffer that a registration drops is in the store after it. -/
theorem Has.stored (hb : Has stamp s b) (hr : Registers stamp s b s') (hv : s.buffer k = some v)
    (hle : stamp v ≤ b.top) : v ∈ s'.stored k := by
  rw [hr.stored, hb k v hv hle]
  exact List.mem_append_right _ (List.mem_singleton_self v)

theorem Backed.register (h : s.Backed stamp) (hb : Has stamp s b) (hr : Registers stamp s b s')
    (hlog : KeepsLog stamp s b s') : s'.Backed stamp where
  log := fun k v hmem => by
    rcases h.log k v (hr.log _ hmem) with ⟨u, hu, hcovers⟩ | hstored
    · by_cases hle : stamp u ≤ b.top
      · exact .inr ⟨u, hb.stored hr hu hle, hcovers⟩
      · exact .inl ⟨u, hr.buffer_eq_some.mpr ⟨hu, not_le.mp hle⟩, hcovers⟩
    · exact .inr (hstored.register hr)
  buffer := fun k v hv => by
    obtain ⟨hold, hlt⟩ := hr.buffer_eq_some.mp hv
    rcases h.buffer k v hold with hmem | hmem
    · exact .inl (hlog k v hold hlt hmem)
    · exact .inr (hr.stored k ▸ List.mem_append_left _ hmem)

/-- **What is kept stays so** when a batch is registered, if the log keeps what stays in the buffer. -/
theorem Kept.register (hkept : s.Kept stamp k v) (h : s.Backed stamp) (hb : Has stamp s b)
    (hr : Registers stamp s b s') (hlog : KeepsLog stamp s b s') : s'.Kept stamp k v := by
  rcases hkept with ⟨u, hu, hcovers⟩ | hstored
  · rcases h.log k u hu with ⟨w, hw, hcovers'⟩ | ⟨w, hw, hcovers'⟩
    · by_cases hle : stamp w ≤ b.top
      · exact .inr ⟨w, hb.stored hr hw hle, hcovers'.trans hcovers⟩
      · -- the value that stays in the buffer has kept its place in the log
        rcases h.buffer k w hw with hmem | hmem
        · exact .inl ⟨w, hlog k w hw (not_le.mp hle) hmem, hcovers'.trans hcovers⟩
        · exact .inr ⟨w, hr.stored k ▸ List.mem_append_left _ hmem, hcovers'.trans hcovers⟩
    · exact .inr ⟨w, hr.stored k ▸ List.mem_append_left _ hw, hcovers'.trans hcovers⟩
  · exact .inr (hstored.register hr)

/-! ## Reads find the latest value

A read looks into the buffer, and then for the value that was registered last. -/

variable (stamp) in
/-- **The latest values**: the buffer has them, the value registered last is one if the buffer has none, and they
cover all that is registered or on its way. -/
structure Current (s : WriteBuffer K V) (latest : K → Option V) : Prop where
  counter : ∀ k v, latest k = some v → stamp v ≤ s.counter
  buffer : ∀ k v, s.buffer k = some v → latest k = some v
  point : ∀ k, s.buffer k = none → latest k = (s.stored k).getLast?
  stored : ∀ k, ∀ v ∈ s.stored k, ∃ v', latest k = some v' ∧ Covers stamp v' v
  batches : ∀ b ∈ s.batches, ∀ k v, b.entries k = some v → ∃ v', latest k = some v' ∧ Covers stamp v' v

variable {latest : K → Option V}

theorem Current.write [DecidableEq K] (h : s.Current stamp latest) (hv : s.counter < stamp v) :
    (s.write k v (stamp v)).Current stamp (Function.update latest k (some v)) := by
  -- what was covered is covered by the new value
  have hcovers : ∀ k' u, (∃ v', latest k' = some v' ∧ Covers stamp v' u) →
      ∃ v', Function.update latest k (some v) k' = some v' ∧ Covers stamp v' u := by
    rintro k' u ⟨v', hv', hu⟩
    by_cases hk : k' = k
    · subst hk
      exact ⟨v, Function.update_self .., .inr (hu.le.trans_lt ((h.counter k' v' hv').trans_lt hv))⟩
    · exact ⟨v', (Function.update_of_ne hk ..).trans hv', hu⟩
  constructor
  · intro k' u hu
    by_cases hk : k' = k
    · rw [hk, Function.update_self, Option.some_inj] at hu
      rw [← hu]
      exact le_rfl
    · rw [Function.update_of_ne hk] at hu
      exact (h.counter k' u hu).trans hv.le
  · intro k' u hu
    rcases buffer_write_eq_some hu with ⟨rfl, rfl⟩ | ⟨hk, hold⟩
    · exact Function.update_self ..
    · exact (Function.update_of_ne hk ..).trans (h.buffer k' u hold)
  · intro k' hnone
    by_cases hk : k' = k
    · rw [hk, buffer_write_self] at hnone
      cases hnone
    · rw [buffer_write_of_ne hk] at hnone
      rw [Function.update_of_ne hk]
      exact h.point k' hnone
  · exact fun k' u hu => hcovers k' u (h.stored k' u hu)
  · exact fun b hb k' u hu => hcovers k' u (h.batches b hb k' u hu)

variable (stamp) in
/-- **A batch that is not behind the store**: no value registered before is later than that of the batch. -/
def NotBehind (s : WriteBuffer K V) (b : Batch K V) : Prop :=
  ∀ k v, b.entries k = some v → ∀ u ∈ s.stored k, stamp u ≤ stamp v

/-- **Reads find the latest value** when a batch is registered that is not behind the store. -/
theorem Current.register (h : s.Current stamp latest) (hb : Has stamp s b) (hr : Registers stamp s b s')
    (hcovered : ∀ k v, b.entries k = some v → ∃ v', latest k = some v' ∧ Covers stamp v' v)
    (hbehind : NotBehind stamp s b) : s'.Current stamp latest := by
  constructor
  · exact fun k v hv => hr.counter ▸ h.counter k v hv
  · exact fun k v hv => h.buffer k v (hr.buffer_eq_some.mp hv).1
  · intro k hnone
    rw [hr.stored]
    cases hold : s.buffer k with
    | some v =>
      -- the value has moved to the store
      have hle : stamp v ≤ b.top := by
        by_contra hlt
        rw [hr.buffer_eq_some.mpr ⟨hold, not_le.mp hlt⟩] at hnone
        cases hnone
      rw [hb k v hold hle, Option.toList_some, List.getLast?_concat]
      exact h.buffer k v hold
    | none =>
      cases hentry : b.entries k with
      | none =>
        rw [Option.toList_none, List.append_nil]
        exact h.point k hold
      | some v =>
        -- the last value of the store is the latest one, and the batch is not behind it
        obtain ⟨v', hv', hcovers⟩ := hcovered k v hentry
        have hlast := (h.point k hold).symm.trans hv'
        rw [Option.toList_some, List.getLast?_concat, hv']
        exact congrArg some (hcovers.eq_of_le (hbehind k v hentry v' (List.mem_of_getLast? hlast)))
  · intro k v hv
    rw [hr.stored] at hv
    rcases List.mem_append.mp hv with hold | hnew
    · exact h.stored k v hold
    · exact hcovered k v (Option.mem_toList.mp hnew)
  · exact fun b' hb' => h.batches b' (hr.batches b' hb')

/-- A read finds the latest value. -/
theorem Current.read (h : s.Current stamp latest) (k : K) :
    (s.buffer k).or (s.stored k).getLast? = latest k := by
  cases hbuffer : s.buffer k with
  | some v => exact (h.buffer k v hbuffer).symm
  | none => exact (h.point k hbuffer).symm

/-- No value is later. -/
theorem Current.covers (h : s.Current stamp latest) (hv : v ∈ s.stored k ++ (s.buffer k).toList) :
    ∃ v', latest k = some v' ∧ Covers stamp v' v := by
  rcases List.mem_append.mp hv with hstored | hbuffer
  · exact h.stored k v hstored
  · exact ⟨v, h.buffer k v (Option.mem_toList.mp hbuffer), .refl v⟩

theorem Current.mem (h : s.Current stamp latest) (hv : latest k = some v) :
    v ∈ s.stored k ++ (s.buffer k).toList := by
  rw [← h.read, Option.or_eq_some_iff] at hv
  rcases hv with hbuffer | ⟨-, hlast⟩
  · exact List.mem_append_right _ (Option.mem_toList.mpr hbuffer)
  · exact List.mem_append_left _ (List.mem_of_getLast? hlast)

/-! ## Runs

Batches that are begun have all that is in the buffer at the time. A batch may also be begun and registered at once;
nothing more is needed of such a registration, as nothing is written in between. -/

variable (stamp) in
/-- A batch of all that is in the buffer. -/
structure Takes (s : WriteBuffer K V) (b : Batch K V) : Prop where
  entries : b.entries = s.buffer
  le_top : ∀ k v, s.buffer k = some v → stamp v ≤ b.top
  top_le : b.top ≤ s.counter

theorem Takes.has (h : Takes stamp s b) : Has stamp s b := fun k v hv _ => by rw [h.entries, hv]

/-- After a batch of all that is in the buffer, the log may be dropped. -/
theorem Takes.keepsLog (h : Takes stamp s b) : KeepsLog stamp s b s' :=
  fun k v hv hlt => absurd (h.le_top k v hv) (not_le.mpr hlt)

/-- A batch of all that is in the buffer has the latest values. -/
theorem Takes.notBehind (h : Takes stamp s b) (hs : s.Current stamp latest) : NotBehind stamp s b := by
  intro k v hv u hu
  obtain ⟨v', hv', hcovers⟩ := hs.stored k u hu
  rw [h.entries] at hv
  rw [hs.buffer k v hv, Option.some_inj] at hv'
  exact hv' ▸ hcovers.le

variable (stamp) in
/-- **What happens to a write buffer**, with the values that are written. `P` is asked of the registrations of batches
that were begun before. -/
inductive Step [DecidableEq K] (P : WriteBuffer K V → Batch K V → WriteBuffer K V → Prop)
    (s : WriteBuffer K V) : List (K × V) → WriteBuffer K V → Prop
  | write {k : K} {v : V} (hv : s.counter < stamp v) : Step P s [(k, v)] (s.write k v (stamp v))
  | take {b : Batch K V} (hb : Takes stamp s b) : Step P s [] { s with batches := s.batches ++ [b] }
  | register {b : Batch K V} {s' : WriteBuffer K V} (hb : b ∈ s.batches) (hr : Registers stamp s b s')
      (hP : P s b s') : Step P s [] s'
  | flush {b : Batch K V} {s' : WriteBuffer K V} (hb : Takes stamp s b) (hr : Registers stamp s b s') :
      Step P s [] s'
  | drop {bs : List (Batch K V)} (hbs : ∀ b ∈ bs, b ∈ s.batches) : Step P s [] { s with batches := bs }

variable (stamp) in
/-- Steps, with all values that are written. -/
inductive Steps [DecidableEq K] (P : WriteBuffer K V → Batch K V → WriteBuffer K V → Prop)
    (s : WriteBuffer K V) : List (K × V) → WriteBuffer K V → Prop
  | refl : Steps P s [] s
  | tail {ps qs : List (K × V)} {s' s'' : WriteBuffer K V} (h : Steps P s ps s') (hstep : Step stamp P s' qs s'') :
      Steps P s (ps ++ qs) s''

/-- Nothing has been written. -/
def empty : WriteBuffer K V := ⟨fun _ => none, [], fun _ => [], [], 0⟩

/-- All values in a write buffer, and in batches on their way, meet `S`. -/
structure From (S : K → V → Prop) (s : WriteBuffer K V) : Prop where
  buffer : ∀ k v, s.buffer k = some v → S k v
  log : ∀ k v, (k, v) ∈ s.log → S k v
  stored : ∀ k, ∀ v ∈ s.stored k, S k v
  batches : ∀ b ∈ s.batches, ∀ k v, b.entries k = some v → S k v

theorem from_empty {S : K → V → Prop} : (empty : WriteBuffer K V).From S :=
  ⟨fun _ v hv => absurd hv (Option.some_ne_none v).symm, fun _ _ hv => absurd hv List.not_mem_nil,
    fun _ _ hv => absurd hv List.not_mem_nil, fun _ hb => absurd hb List.not_mem_nil⟩

theorem From.register {S : K → V → Prop} (h : s.From S) (hb : ∀ k v, b.entries k = some v → S k v)
    (hr : Registers stamp s b s') : s'.From S where
  buffer := fun k v hv => h.buffer k v (hr.buffer_eq_some.mp hv).1
  log := fun k v hmem => h.log k v (hr.log _ hmem)
  stored := fun k v hmem => by
    rw [hr.stored] at hmem
    rcases List.mem_append.mp hmem with hold | hnew
    · exact h.stored k v hold
    · exact hb k v (Option.mem_toList.mp hnew)
  batches := fun b' hb' => h.batches b' (hr.batches b' hb')

/-- What the values that are written make of the latest values. -/
def latestAfter [DecidableEq K] (latest : K → Option V) (ps : List (K × V)) : K → Option V :=
  ps.foldl (fun latest p => Function.update latest p.1 (some p.2)) latest

section Runs

variable [DecidableEq K] {P : WriteBuffer K V → Batch K V → WriteBuffer K V → Prop} {s'' : WriteBuffer K V}
  {ps qs : List (K × V)}

theorem Step.steps (h : Step stamp P s ps s') : Steps stamp P s ps s' := (List.nil_append ps) ▸ Steps.refl.tail h

theorem Steps.trans (h : Steps stamp P s ps s') (h' : Steps stamp P s' qs s'') :
    Steps stamp P s (ps ++ qs) s'' := by
  induction h' with
  | refl => exact (List.append_nil ps).symm ▸ h
  | tail _ hstep ih => exact List.append_assoc .. ▸ ih.tail hstep

theorem From.step {S : K → V → Prop} (h : s.From S) (hstep : Step stamp P s ps s') (hS : ∀ p ∈ ps, S p.1 p.2) :
    s'.From S := by
  cases hstep with
  | @write k v hv =>
    have hnew : S k v := hS (k, v) (List.mem_singleton_self _)
    refine ⟨fun k' v' hv' => ?_, fun k' v' hmem => ?_, h.stored, h.batches⟩
    · rcases buffer_write_eq_some hv' with ⟨rfl, rfl⟩ | ⟨-, hold⟩
      · exact hnew
      · exact h.buffer k' v' hold
    · rcases mem_log_write.mp hmem with hold | heq
      · exact h.log k' v' hold
      · obtain ⟨rfl, rfl⟩ := Prod.mk.inj heq
        exact hnew
  | take hb =>
    refine ⟨h.buffer, h.log, h.stored, fun b' hb' => ?_⟩
    rcases List.mem_append.mp hb' with hold | hnew
    · exact h.batches b' hold
    · rw [List.mem_singleton.mp hnew, hb.entries]
      exact h.buffer
  | register hb hr _ => exact h.register (h.batches _ hb) hr
  | flush hb hr =>
    refine h.register ?_ hr
    rw [hb.entries]
    exact h.buffer
  | drop hbs => exact ⟨h.buffer, h.log, h.stored, fun b hb => h.batches b (hbs b hb)⟩

theorem Bounded.step (h : s.Bounded stamp) (hstep : Step stamp P s ps s') : s'.Bounded stamp := by
  cases hstep with
  | write hv => exact h.write hv
  | take hb =>
    refine ⟨h.buffer, fun b' hb' => ?_⟩
    rcases List.mem_append.mp hb' with hold | hnew
    · exact h.batches b' hold
    · rw [List.mem_singleton.mp hnew]
      exact ⟨hb.top_le, hb.has⟩
  | register _ hr _ => exact h.register hr
  | flush _ hr => exact h.register hr
  | drop hbs => exact ⟨h.buffer, fun b hb => h.batches b (hbs b hb)⟩

theorem Backed.step (h : s.Backed stamp) (hs : s.Bounded stamp) (hstep : Step stamp (KeepsLog stamp) s ps s') :
    s'.Backed stamp := by
  cases hstep with
  | write hv => exact h.write hs hv
  | take hb => exact ⟨h.log, h.buffer⟩
  | register hb hr hlog => exact h.register (hs.batches _ hb).2 hr hlog
  | flush hb hr => exact h.register hb.has hr hb.keepsLog
  | drop _ => exact ⟨h.log, h.buffer⟩

theorem Kept.step (hkept : s.Kept stamp k v) (h : s.Backed stamp) (hs : s.Bounded stamp)
    (hstep : Step stamp (KeepsLog stamp) s ps s') : s'.Kept stamp k v := by
  cases hstep with
  | write _ => exact hkept.write
  | take _ => exact hkept
  | register hb hr hlog => exact hkept.register h (hs.batches _ hb).2 hr hlog
  | flush hb hr => exact hkept.register h hb.has hr hb.keepsLog
  | drop _ => exact hkept

theorem Step.kept (hstep : Step stamp P s ps s') : ∀ p ∈ ps, s'.Kept stamp p.1 p.2 := by
  cases hstep with
  | write _ => exact fun p hp => List.mem_singleton.mp hp ▸ kept_write
  | _ => exact fun p hp => absurd hp List.not_mem_nil

theorem Current.step (h : s.Current stamp latest) (hs : s.Bounded stamp)
    (hstep : Step stamp (fun s b _ => NotBehind stamp s b) s ps s') : s'.Current stamp (latestAfter latest ps) := by
  cases hstep with
  | write hv => exact h.write hv
  | take hb =>
    refine ⟨h.counter, h.buffer, h.point, h.stored, fun b' hb' k v hv => ?_⟩
    rcases List.mem_append.mp hb' with hold | hnew
    · exact h.batches b' hold k v hv
    · rw [List.mem_singleton.mp hnew, hb.entries] at hv
      exact ⟨v, h.buffer k v hv, .refl v⟩
  | register hb hr hbehind => exact h.register (hs.batches _ hb).2 hr (h.batches _ hb) hbehind
  | flush hb hr =>
    refine h.register hb.has hr (fun k v hv => ?_) (hb.notBehind h)
    rw [hb.entries] at hv
    exact ⟨v, h.buffer k v hv, .refl v⟩
  | drop hbs => exact ⟨h.counter, h.buffer, h.point, h.stored, fun b hb => h.batches b (hbs b hb)⟩

/-- The invariant of the buffer holds in every run. -/
theorem Steps.bounded (h : Steps stamp P empty ps s) : s.Bounded stamp := by
  induction h with
  | refl => exact ⟨fun k v hv => absurd hv (Option.some_ne_none v).symm, fun b hb => absurd hb List.not_mem_nil⟩
  | tail _ hstep ih => exact ih.step hstep

theorem From.steps {S : K → V → Prop} (hs : s.From S) (h : Steps stamp P s ps s') (hS : ∀ p ∈ ps, S p.1 p.2) :
    s'.From S := by
  induction h with
  | refl => exact hs
  | tail _ hstep ih =>
    exact (ih fun p hp => hS p (List.mem_append_left _ hp)).step hstep fun p hp => hS p (List.mem_append_right _ hp)

/-- All that is in a write buffer was written. -/
theorem Steps.from (h : Steps stamp P empty ps s) : s.From fun k v => (k, v) ∈ ps :=
  from_empty.steps h fun _ hp => hp

/-- **Nothing is lost** in a run whose registrations keep in the log what stays in the buffer. -/
theorem Steps.kept (h : Steps stamp (KeepsLog stamp) empty ps s) :
    s.Backed stamp ∧ ∀ p ∈ ps, s.Kept stamp p.1 p.2 := by
  induction h with
  | refl =>
    exact ⟨⟨fun k v hv => absurd hv List.not_mem_nil, fun k v hv => absurd hv (Option.some_ne_none v).symm⟩,
      fun p hp => absurd hp List.not_mem_nil⟩
  | tail hsteps hstep ih =>
    refine ⟨ih.1.step hsteps.bounded hstep, fun p hp => ?_⟩
    rcases List.mem_append.mp hp with hold | hnew
    · exact (ih.2 p hold).step ih.1 hsteps.bounded hstep
    · exact hstep.kept p hnew

/-- **Reads find the latest value** in a run whose registrations are not behind the store. -/
theorem Steps.current (h : Steps stamp (fun s b _ => NotBehind stamp s b) empty ps s) :
    s.Current stamp (latestAfter (fun _ => none) ps) := by
  induction h with
  | refl =>
    exact ⟨fun k v hv => absurd hv (Option.some_ne_none v).symm, fun k v hv => hv, fun _ _ => rfl,
      fun k v hv => absurd hv List.not_mem_nil, fun b hb => absurd hb List.not_mem_nil⟩
  | tail hsteps hstep ih =>
    rw [latestAfter, List.foldl_append]
    exact ih.step hsteps.bounded hstep

end Runs

end WriteBuffer
