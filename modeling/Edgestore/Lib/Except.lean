import Mathlib.Tactic.Basic

/-!
# Computations that may fail

Rules for sequences and folds of computations with errors.

## Main results

* `Except.bind_eq_ok`: when a sequence succeeds
* `Except.foldlM_ok`, `Except.foldlM_total`: the induction rules of a fold
* `Except.FailsWith`: with which errors a computation fails, with its rules
-/

namespace Except

variable {ε α β : Type}

/-- A sequence succeeds if both parts do. -/
theorem bind_eq_ok {x : Except ε α} {f : α → Except ε β} {b : β} :
    x >>= f = .ok b ↔ ∃ a, x = .ok a ∧ f a = .ok b := by
  cases x with
  | error e => exact ⟨nofun, nofun⟩
  | ok a =>
    constructor
    · intro h
      exact ⟨a, rfl, h⟩
    · rintro ⟨_, ⟨⟩, h⟩
      exact h

variable {f : β → α → Except ε β} {I : β → List α → Prop}

/-- What every step that succeeds keeps holds at the end of a fold that succeeds. -/
theorem foldlM_ok (hstep : ∀ b a l b', I b (a :: l) → f b a = .ok b' → I b' l) {l : List α} {b b' : β}
    (h : l.foldlM f b = .ok b') (hb : I b l) : I b' [] := by
  induction l generalizing b with
  | nil =>
    cases h
    exact hb
  | cons a l ih =>
    obtain ⟨b₁, hb₁, h⟩ := bind_eq_ok.mp ((List.foldlM_cons ..).symm.trans h)
    exact ih h (hstep b a l b₁ hb hb₁)

/-- A fold succeeds if every step does, in the states that come up. -/
theorem foldlM_total (hstep : ∀ b a l, I b (a :: l) → ∃ b', f b a = .ok b' ∧ I b' l) {l : List α} {b : β}
    (hb : I b l) : ∃ b', l.foldlM f b = .ok b' ∧ I b' [] := by
  induction l generalizing b with
  | nil => exact ⟨b, rfl, hb⟩
  | cons a l ih =>
    obtain ⟨b₁, hb₁, hI⟩ := hstep b a l hb
    obtain ⟨b', hb', hI'⟩ := ih hI
    exact ⟨b', (List.foldlM_cons ..).trans (bind_eq_ok.mpr ⟨b₁, hb₁, hb'⟩), hI'⟩

/-! ### Errors -/

variable {E : ε → Prop}

/-- All errors of a computation have a property. -/
def FailsWith (E : ε → Prop) (x : Except ε α) : Prop := ∀ e, x = .error e → E e

theorem failsWith_ok (a : α) : (.ok a : Except ε α).FailsWith E := nofun

theorem failsWith_error {e : ε} (he : E e) : (.error e : Except ε α).FailsWith E := by
  intro e' h
  cases h
  exact he

/-- The errors of a sequence are those of its parts. -/
theorem FailsWith.bind {x : Except ε α} {f : α → Except ε β} (hx : x.FailsWith E)
    (hf : ∀ a, x = .ok a → (f a).FailsWith E) : (x >>= f).FailsWith E := by
  cases x with
  | error e => exact failsWith_error (hx e rfl)
  | ok a => exact hf a rfl

/-- The errors of a fold are those of its steps, in the states that come up. -/
theorem FailsWith.foldlM (hfail : ∀ b a l, I b (a :: l) → (f b a).FailsWith E)
    (hstep : ∀ b a l b', I b (a :: l) → f b a = .ok b' → I b' l) {l : List α} {b : β} (hb : I b l) :
    (l.foldlM f b).FailsWith E := by
  induction l generalizing b with
  | nil => exact failsWith_ok b
  | cons a l ih =>
    rw [List.foldlM_cons]
    exact (hfail b a l hb).bind fun b₁ hb₁ => ih (hstep b a l b₁ hb hb₁)

end Except
