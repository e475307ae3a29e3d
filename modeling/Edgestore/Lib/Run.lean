import Mathlib.Tactic.Basic
import Mathlib.Data.List.Basic

/-!
# Runs of a state machine

A state machine is a step function; a run is the sequence of its operations. A run is admitted when
each of its operations meets a condition in the state in which it is made.

## Main definitions

* `Run.from step s ops`: the state after a run
* `Run.All step ok s ops`: every operation of the run meets `ok`

## Main results

* `Run.All.invariant`: what every admitted operation preserves holds after every admitted run
-/

namespace Run

variable {S O : Type} (step : S → O → S)

/-- The state after a run. -/
def «from» (s : S) (ops : List O) : S := ops.foldl step s

/-- Every operation of a run meets `ok` in the state in which it is made. -/
def All (ok : S → O → Prop) : S → List O → Prop
  | _, [] => True
  | s, op :: ops => ok s op ∧ All ok (step s op) ops

variable {step} {ok : S → O → Prop} {s : S} {ops ops' : List O}

@[simp] theorem from_nil (s : S) : Run.from step s [] = s := rfl

@[simp] theorem from_cons (s : S) (op : O) (ops : List O) :
    Run.from step s (op :: ops) = Run.from step (step s op) ops := rfl

theorem from_append (s : S) (ops ops' : List O) :
    Run.from step s (ops ++ ops') = Run.from step (Run.from step s ops) ops' :=
  List.foldl_append

theorem all_append :
    All step ok s (ops ++ ops') ↔ All step ok s ops ∧ All step ok (Run.from step s ops) ops' := by
  induction ops generalizing s with
  | nil => simp [All]
  | cons op ops ih => simp [All, ih, and_assoc]

theorem All.mono {ok' : S → O → Prop} (hok : ∀ s op, ok s op → ok' s op) (h : All step ok s ops) :
    All step ok' s ops := by
  induction ops generalizing s with
  | nil => trivial
  | cons op ops ih => exact ⟨hok _ _ h.1, ih h.2⟩

/-- What holds of every operation may be added to what is asked of them. -/
theorem All.and_mem {P : O → Prop} (h : All step ok s ops) (hP : ∀ op ∈ ops, P op) :
    All step (fun s op => ok s op ∧ P op) s ops := by
  induction ops generalizing s with
  | nil => trivial
  | cons op ops ih =>
    exact ⟨⟨h.1, hP op List.mem_cons_self⟩, ih h.2 fun o ho => hP o (List.mem_cons_of_mem _ ho)⟩

/-- **Run rule**: what every admitted operation preserves holds after every admitted run. -/
theorem All.invariant {I : S → Prop} (hstep : ∀ s op, I s → ok s op → I (step s op))
    (h : All step ok s ops) (hs : I s) : I (Run.from step s ops) := by
  induction ops generalizing s with
  | nil => exact hs
  | cons op ops ih => exact ih h.2 (hstep _ _ hs h.1)

/-- What holds of every operation that is admitted in a state that meets an invariant holds of every
operation of an admitted run. -/
theorem All.imp_of_invariant {I : S → Prop} {ok' : S → O → Prop}
    (hstep : ∀ s op, I s → ok s op → I (step s op)) (himp : ∀ s op, I s → ok s op → ok' s op)
    (h : All step ok s ops) (hs : I s) : All step ok' s ops := by
  induction ops generalizing s with
  | nil => trivial
  | cons op ops ih => exact ⟨himp _ _ hs h.1, ih h.2 (hstep _ _ hs h.1)⟩

instance instDecidableAllOfOp [∀ s op, Decidable (ok s op)] : ∀ s ops, Decidable (All step ok s ops)
  | _, [] => .isTrue trivial
  | s, op :: ops =>
    have : Decidable (All step ok (step s op) ops) := instDecidableAllOfOp (step s op) ops
    inferInstanceAs (Decidable (ok s op ∧ All step ok (step s op) ops))

end Run
