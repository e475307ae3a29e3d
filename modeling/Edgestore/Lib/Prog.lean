import Mathlib.Data.Nat.Basic
import Mathlib.Tactic.Tauto

/-!
# Programs over a device that can stop at any moment

A device has a state and effects on it. A program runs over a private memory and the state of a
device; it returns a result or an error, and it lists the effects it had. The process may stop
after any number of these effects, and inside the next one: that is a cut of the effect list.

Programs are specified by weakest preconditions. A postcondition has four clauses: one for success,
one for failure, a `rely` that the caller grants for every effect in the device state the effect
meets, and a `guar` that the program owes at every effect the rely admits. What admitted effects
preserve, torn effects included, holds at every cut.

## Main definitions

* `Device`, `Device.run`, `Device.cut`: devices, effects run to the end, effects cut short
* `Device.All`, `Device.Safe`: a condition at every effect; a guarantee as long as the rely holds
* `Prog D S ε α`: programs over the device `D` and the memory `S`
* `Prog.wp m Q s d`: from memory `s` and device state `d`, the program meets the postcondition `Q`
* `Prog.Keeps J rely guar m`: programs that keep an invariant
* `Prog.Frame P f m`: the effects of `m` meet `P`, and it keeps the part `f` of the memory
* `Prog.Throws E m`, `Prog.Returns P m`: every error of `m` meets `E`, every result `P`

## Main results

* `Prog.wp_bind`, `Prog.wp_emit`, `Prog.wp_foldlM`: the rules
* `Device.All.run`, `Device.All.cut`: an invariant of admitted effects holds after all of them and
  wherever the process stops
-/

/-- A state with effects on it. An effect may also be cut short: `tear e m` is what is left when
the process stops `m` units into `e`. -/
structure Device where
  State : Type
  Effect : Type
  apply : Effect → State → State
  tear : Effect → ℕ → State → State

namespace Device

variable (D : Device)

/-- The state after all effects of a list. -/
def run : List D.Effect → D.State → D.State
  | [], d => d
  | e :: es, d => run es (D.apply e d)

/-- The state when the process stops after `n` effects and `m` units into the next. -/
def cut : List D.Effect → ℕ → ℕ → D.State → D.State
  | [], _, _, d => d
  | e :: _, 0, m, d => D.tear e m d
  | e :: es, n + 1, m, d => cut es n m (D.apply e d)

/-- Every effect of the list meets the condition in the state in which it takes place. -/
def All (G : D.Effect → D.State → Prop) : List D.Effect → D.State → Prop
  | [], _ => True
  | e :: es, d => G e d ∧ All G es (D.apply e d)

instance instDecidableAll {G : D.Effect → D.State → Prop} [∀ e d, Decidable (G e d)] :
    ∀ es d, Decidable (D.All G es d)
  | [], _ => .isTrue trivial
  | e :: es, d =>
    have : Decidable (D.All G es (D.apply e d)) := instDecidableAll es (D.apply e d)
    inferInstanceAs (Decidable (G e d ∧ D.All G es (D.apply e d)))

/-- As long as the effects meet `R`, each of them meets `G`. -/
def Safe (R G : D.Effect → D.State → Prop) : List D.Effect → D.State → Prop
  | [], _ => True
  | e :: es, d => R e d → G e d ∧ Safe R G es (D.apply e d)

variable {D} {R G : D.Effect → D.State → Prop} {es fs : List D.Effect} {d : D.State}

@[simp] theorem run_nil (d : D.State) : D.run [] d = d := rfl

@[simp] theorem run_cons (e : D.Effect) (es : List D.Effect) (d : D.State) :
    D.run (e :: es) d = D.run es (D.apply e d) := rfl

@[simp] theorem run_append (es fs : List D.Effect) (d : D.State) :
    D.run (es ++ fs) d = D.run fs (D.run es d) := by
  induction es generalizing d with
  | nil => rfl
  | cons e es ih => exact ih _

@[simp] theorem all_nil : D.All G [] d := trivial

@[simp] theorem safe_nil : D.Safe R G [] d := trivial

@[simp] theorem all_true : D.All (fun _ _ => True) es d := by
  induction es generalizing d with
  | nil => trivial
  | cons e es ih => exact ⟨trivial, ih⟩

theorem all_append : D.All G (es ++ fs) d ↔ D.All G es d ∧ D.All G fs (D.run es d) := by
  induction es generalizing d with
  | nil => simp
  | cons e es ih => simp [All, ih, and_assoc]

theorem safe_append :
    D.Safe R G (es ++ fs) d ↔ D.Safe R G es d ∧ (D.All R es d → D.Safe R G fs (D.run es d)) := by
  induction es generalizing d with
  | nil => simp
  | cons e es ih => simp only [List.cons_append, Safe, ih, All, run_cons]; tauto

/-- A list of effects that is cut short is cut short in its first part or in its second. -/
theorem cut_append (n m : ℕ) :
    D.cut (es ++ fs) n m d =
      if n < es.length then D.cut es n m d else D.cut fs (n - es.length) m (D.run es d) := by
  induction es generalizing d n with
  | nil => simp
  | cons e es ih =>
    cases n with
    | zero => simp [cut]
    | succ n => simpa [cut] using ih n

theorem All.mono {H : D.Effect → D.State → Prop} (h : ∀ e d, G e d → H e d)
    (hg : D.All G es d) : D.All H es d := by
  induction es generalizing d with
  | nil => trivial
  | cons e es ih => exact ⟨h _ _ hg.1, ih hg.2⟩

theorem All.forall_mem {P : D.Effect → Prop} (h : D.All (fun e _ => P e) es d) : ∀ e ∈ es, P e := by
  induction es generalizing d with
  | nil => exact fun _ he => absurd he List.not_mem_nil
  | cons e es ih =>
    intro e' he
    rcases List.mem_cons.mp he with rfl | he
    · exact h.1
    · exact ih h.2 e' he

theorem all_and {H : D.Effect → D.State → Prop} :
    D.All (fun e d => G e d ∧ H e d) es d ↔ D.All G es d ∧ D.All H es d := by
  induction es generalizing d with
  | nil => simp
  | cons e es ih => simp only [All, ih]; tauto

theorem Safe.mono {H R' : D.Effect → D.State → Prop} (hR : ∀ e d, R' e d → R e d)
    (h : ∀ e d, R' e d → G e d → H e d) (hs : D.Safe R G es d) : D.Safe R' H es d := by
  induction es generalizing d with
  | nil => trivial
  | cons e es ih =>
    intro hr
    obtain ⟨hg, hs⟩ := hs (hR _ _ hr)
    exact ⟨h _ _ hr hg, ih hs⟩

theorem Safe.and {R' H : D.Effect → D.State → Prop} (hs : D.Safe R G es d)
    (hs' : D.Safe R' H es d) :
    D.Safe (fun e d => R e d ∧ R' e d) (fun e d => G e d ∧ H e d) es d := by
  induction es generalizing d with
  | nil => trivial
  | cons e es ih =>
    intro hr
    obtain ⟨hg, hs⟩ := hs hr.1
    obtain ⟨hg', hs'⟩ := hs' hr.2
    exact ⟨⟨hg, hg'⟩, ih hs hs'⟩

theorem Safe.of_inv {I : D.State → Prop} {H : D.Effect → D.State → Prop}
    (hstep : ∀ e d, R e d → G e d → I d → H e d ∧ I (D.apply e d)) (hs : D.Safe R G es d)
    (hd : I d) : D.Safe R H es d := by
  induction es generalizing d with
  | nil => trivial
  | cons e es ih =>
    intro hr
    obtain ⟨hg, hs⟩ := hs hr
    obtain ⟨hh, hI⟩ := hstep _ _ hr hg hd
    exact ⟨hh, ih hs hI⟩

theorem safe_of_forall {P : D.Effect → Prop} (h : ∀ e ∈ es, P e) :
    D.Safe R (fun e _ => P e) es d := by
  induction es generalizing d with
  | nil => trivial
  | cons e es ih => exact fun _ => ⟨h e (by simp), ih fun e' h' => h e' (by simp [h'])⟩

/-- The guarantee holds at every effect once the rely does. -/
theorem Safe.all (hs : D.Safe R G es d) (hr : D.All R es d) : D.All G es d := by
  induction es generalizing d with
  | nil => trivial
  | cons e es ih => exact ⟨(hs hr.1).1, ih (hs hr.1).2 hr.2⟩

/-- **Rely rule**: where effects meet `L`, and `L` together with an invariant is as good as the
rely, the guarantee holds throughout, and so does the invariant it carries. -/
theorem Safe.all_of_inv {L : D.Effect → D.State → Prop} {I : D.State → Prop}
    (hrely : ∀ e d, I d → L e d → R e d) (hstep : ∀ e d, I d → R e d → G e d → I (D.apply e d))
    (hs : D.Safe R G es d) (hl : D.All L es d) (hd : I d) : D.All R es d ∧ I (D.run es d) := by
  induction es generalizing d with
  | nil => exact ⟨trivial, hd⟩
  | cons e es ih =>
    have hr := hrely _ _ hd hl.1
    obtain ⟨hg, hs⟩ := hs hr
    obtain ⟨hall, hrun⟩ := ih hs hl.2 (hstep _ _ hd hr hg)
    exact ⟨⟨hr, hall⟩, hrun⟩

/-- An invariant that holds at every effect may be used to restate the condition. -/
theorem All.with_inv {I : D.State → Prop} {H : D.Effect → D.State → Prop}
    (hstep : ∀ e d, G e d → I d → H e d ∧ I (D.apply e d)) (hg : D.All G es d) (hd : I d) :
    D.All H es d := by
  induction es generalizing d with
  | nil => trivial
  | cons e es ih =>
    obtain ⟨hh, hI⟩ := hstep _ _ hg.1 hd
    exact ⟨hh, ih hg.2 hI⟩

/-- What admitted effects preserve holds after all of them. -/
theorem All.run {I : D.State → Prop} (hstep : ∀ e d, G e d → I d → I (D.apply e d))
    (hg : D.All G es d) (hd : I d) : I (D.run es d) := by
  induction es generalizing d with
  | nil => exact hd
  | cons e es ih => exact ih hg.2 (hstep _ _ hg.1 hd)

/-- **Crash rule**: what admitted effects preserve, whole or torn, holds at every cut. -/
theorem All.cut {I : D.State → Prop} (hstep : ∀ e d, G e d → I d → I (D.apply e d))
    (htear : ∀ e d, G e d → I d → ∀ m, I (D.tear e m d)) (hg : D.All G es d) (hd : I d)
    (n m : ℕ) : I (D.cut es n m d) := by
  induction es generalizing d n with
  | nil => exact hd
  | cons e es ih =>
    cases n with
    | zero => exact htear _ _ hg.1 hd m
    | succ n => exact ih hg.2 (hstep _ _ hg.1 hd) n

/-- A crash reaches no effect beyond the one it stops in. -/
theorem cut_take (n m : ℕ) : D.cut (es.take (n + 1)) n m d = D.cut es n m d := by
  induction es generalizing d n with
  | nil => rfl
  | cons e es ih =>
    cases n with
    | zero => rfl
    | succ n => exact ih n

theorem All.take (h : D.All G es d) (n : ℕ) : D.All G (es.take n) d := by
  rw [← List.take_append_drop n es, all_append] at h
  exact h.1

theorem Safe.take (hs : D.Safe R G es d) (n : ℕ) : D.Safe R G (es.take n) d := by
  rw [← List.take_append_drop n es, safe_append] at hs
  exact hs.1

end Device

/-- A program over the device `D` and the memory `S`: a result or an error, the memory it leaves,
and the effects it had on the device, in order. An error keeps the memory and the effects. -/
structure Prog (D : Device) (S ε α : Type) : Type where
  run : S → D.State → Except ε α × S × List D.Effect

namespace Prog

variable {D : Device} {S ε α β γ : Type}

/-- Sequencing: the second program starts in the memory and the device state the first left. -/
def bind (m : Prog D S ε α) (f : α → Prog D S ε β) : Prog D S ε β where
  run s d :=
    match m.run s d with
    | (.ok a, s', es) =>
      let r := (f a).run s' (D.run es d)
      (r.1, r.2.1, es ++ r.2.2)
    | (.error e, s', es) => (.error e, s', es)

instance : Monad (Prog D S ε) where
  pure a := ⟨fun s _ => (.ok a, s, [])⟩
  bind := bind

/-- Fail, keeping the memory. -/
def throw (e : ε) : Prog D S ε α := ⟨fun s _ => (.error e, s, [])⟩

/-- One effect on the device. -/
def emit (e : D.Effect) : Prog D S ε Unit := ⟨fun s _ => (.ok (), s, [e])⟩

/-- The memory. -/
def mem : Prog D S ε S := ⟨fun s _ => (.ok s, s, [])⟩

/-- Update the memory. -/
def modify (f : S → S) : Prog D S ε Unit := ⟨fun s _ => (.ok (), f s, [])⟩

/-- The state of the device. -/
def disk : Prog D S ε D.State := ⟨fun s d => (.ok d, s, [])⟩

/-- A computation without effects that may fail. -/
def lift (x : Except ε α) : Prog D S ε α := ⟨fun s _ => (x, s, [])⟩

/-- Turn a failure into a result, as a `match` on a call's outcome does. -/
def attempt (m : Prog D S ε α) : Prog D S ε (Except ε α) where
  run s d := ((.ok (m.run s d).1), (m.run s d).2.1, (m.run s d).2.2)

/-- Run a program over a part of the memory. -/
def zoom {T : Type} (get : S → T) (set : T → S → S) (m : Prog D T ε α) : Prog D S ε α where
  run s d := ((m.run (get s) d).1, set (m.run (get s) d).2.1 s, (m.run (get s) d).2.2)

/-- A postcondition: for success and for failure; what every effect may rely on, and what every
effect guarantees, in the state it meets. -/
structure Post (D : Device) (S ε α : Type) where
  ok : α → S → D.State → Prop
  error : ε → S → D.State → Prop
  rely : D.Effect → D.State → Prop
  guar : D.Effect → D.State → Prop

/-- The part of a postcondition that speaks about the result. -/
def Post.result (Q : Post D S ε α) : Except ε α → S → D.State → Prop
  | .ok a => Q.ok a
  | .error e => Q.error e

/-- From memory `s` and device state `d`, the program meets `Q`. -/
def wp (m : Prog D S ε α) (Q : Post D S ε α) (s : S) (d : D.State) : Prop :=
  D.Safe Q.rely Q.guar (m.run s d).2.2 d ∧
    (D.All Q.rely (m.run s d).2.2 d →
      Q.result (m.run s d).1 (m.run s d).2.1 (D.run (m.run s d).2.2 d))

variable {Q R : Post D S ε α} {s : S} {d : D.State}

/-! ### The rules -/

@[simp] theorem wp_pure (a : α) : wp (pure a) Q s d ↔ Q.ok a s d := by
  simp [wp, pure, Post.result]

@[simp] theorem wp_throw (e : ε) : wp (throw e) Q s d ↔ Q.error e s d := by
  simp [wp, throw, Post.result]

@[simp] theorem wp_emit (e : D.Effect) {Q : Post D S ε Unit} :
    wp (emit e) Q s d ↔ (Q.rely e d → Q.guar e d ∧ Q.ok () s (D.apply e d)) := by
  simp only [wp, emit, Post.result, Device.Safe, Device.All, Device.run_cons, Device.run_nil]
  tauto

@[simp] theorem wp_mem {Q : Post D S ε S} : wp mem Q s d ↔ Q.ok s s d := by
  simp [wp, mem, Post.result]

@[simp] theorem wp_modify (f : S → S) {Q : Post D S ε Unit} :
    wp (modify f) Q s d ↔ Q.ok () (f s) d := by
  simp [wp, modify, Post.result]

@[simp] theorem wp_disk {Q : Post D S ε D.State} : wp disk Q s d ↔ Q.ok d s d := by
  simp [wp, disk, Post.result]

@[simp] theorem wp_lift (x : Except ε α) : wp (lift x) Q s d ↔ Q.result x s d := by
  simp [wp, lift]

@[simp] theorem result_ok (a : α) : Q.result (.ok a) = Q.ok a := rfl

@[simp] theorem result_error (e : ε) : Q.result (.error e) = Q.error e := rfl

@[simp] theorem wp_bind (m : Prog D S ε α) (f : α → Prog D S ε β) {Q : Post D S ε β} :
    wp (m >>= f) Q s d ↔ wp m ⟨fun a s d => wp (f a) Q s d, Q.error, Q.rely, Q.guar⟩ s d := by
  simp only [wp, Bind.bind, bind]
  rcases hm : m.run s d with ⟨r, s', es⟩
  cases r with
  | error e => simp [Post.result]
  | ok a =>
    simp only [Device.safe_append, Device.all_append, Device.run_append, Post.result]
    tauto

@[simp] theorem wp_attempt (m : Prog D S ε α) {Q : Post D S ε (Except ε α)} :
    wp (attempt m) Q s d ↔
      wp m ⟨fun a => Q.ok (.ok a), fun e => Q.ok (.error e), Q.rely, Q.guar⟩ s d := by
  simp only [wp, attempt]
  rcases hm : m.run s d with ⟨r, s', es⟩
  cases r <;> simp [Post.result]

@[simp] theorem wp_zoom {T : Type} (get : S → T) (set : T → S → S) (m : Prog D T ε α) :
    wp (zoom get set m) Q s d ↔
      wp m ⟨fun a t => Q.ok a (set t s), fun e t => Q.error e (set t s), Q.rely, Q.guar⟩
        (get s) d := by
  simp only [wp, zoom]
  rcases hm : m.run (get s) d with ⟨r, s', es⟩
  cases r <;> simp [Post.result]

@[simp] theorem wp_ite (c : Prop) [Decidable c] (m m' : Prog D S ε α) :
    wp (if c then m else m') Q s d ↔ if c then wp m Q s d else wp m' Q s d := by
  split <;> rfl

/-- **Consequence**, which may strengthen the rely and use it for the guarantee. -/
theorem wp_mono {m : Prog D S ε α} (h : wp m Q s d)
    (hok : ∀ a s d, Q.ok a s d → R.ok a s d) (herr : ∀ e s d, Q.error e s d → R.error e s d)
    (hrely : ∀ e d, R.rely e d → Q.rely e d)
    (hguar : ∀ e d, R.rely e d → Q.guar e d → R.guar e d) : wp m R s d := by
  refine ⟨h.1.mono hrely hguar, fun hr => ?_⟩
  have hres := h.2 (hr.mono hrely)
  generalize (m.run s d).1 = r at hres ⊢
  cases r with
  | ok a => exact hok _ _ _ hres
  | error e => exact herr _ _ _ hres

/-- Consequence under an unchanged rely and guarantee. -/
theorem wp_imp {m : Prog D S ε α} {ok ok' : α → S → D.State → Prop}
    {error error' : ε → S → D.State → Prop} {rely guar : D.Effect → D.State → Prop}
    (h : wp m ⟨ok, error, rely, guar⟩ s d) (hok : ∀ a s d, ok a s d → ok' a s d)
    (herr : ∀ e s d, error e s d → error' e s d) : wp m ⟨ok', error', rely, guar⟩ s d :=
  wp_mono h hok herr (fun _ _ h => h) (fun _ _ _ h => h)

/-- **Loop rule**: an invariant that speaks about the items still to come. -/
theorem wp_foldlM {f : γ → β → Prog D S ε γ} {Q : Post D S ε γ}
    (I : List β → γ → S → D.State → Prop)
    (hstep : ∀ b rest c s d, I (b :: rest) c s d →
      wp (f c b) ⟨I rest, Q.error, Q.rely, Q.guar⟩ s d)
    (hdone : ∀ c s d, I [] c s d → Q.ok c s d) (l : List β) (c : γ) (h : I l c s d) :
    wp (l.foldlM f c) Q s d := by
  induction l generalizing c s d with
  | nil => exact (wp_pure c).mpr (hdone _ _ _ h)
  | cons b rest ih =>
    rw [List.foldlM_cons, wp_bind]
    exact wp_imp (hstep _ _ _ _ _ h) (fun c' s d hI => ih c' hI) (fun _ _ _ he => he)

/-- The loop rule for a loop without an accumulator. -/
theorem wp_forM {f : β → Prog D S ε PUnit} {Q : Post D S ε PUnit}
    (I : List β → S → D.State → Prop)
    (hstep : ∀ b rest s d, I (b :: rest) s d →
      wp (f b) ⟨fun _ => I rest, Q.error, Q.rely, Q.guar⟩ s d)
    (hdone : ∀ s d, I [] s d → Q.ok ⟨⟩ s d) (l : List β) (h : I l s d) :
    wp (l.forM f) Q s d := by
  induction l generalizing s d with
  | nil => exact (wp_pure _).mpr (hdone _ _ h)
  | cons b rest ih =>
    have heq : (b :: rest).forM f = f b >>= fun _ => rest.forM f := rfl
    rw [heq, wp_bind]
    exact wp_imp (hstep _ _ _ _ h) (fun _ s d hI => ih hI) (fun _ _ _ he => he)

/-- **Conjunction** of two specifications. -/
theorem wp_and {m : Prog D S ε α} (h : wp m Q s d) (h' : wp m R s d) :
    wp m ⟨fun a s d => Q.ok a s d ∧ R.ok a s d, fun e s d => Q.error e s d ∧ R.error e s d,
      fun e d => Q.rely e d ∧ R.rely e d, fun e d => Q.guar e d ∧ R.guar e d⟩ s d := by
  refine ⟨h.1.and h'.1, fun hr => ?_⟩
  · obtain ⟨hr, hr'⟩ := Device.all_and.mp hr
    have hres := h.2 hr
    have hres' := h'.2 hr'
    generalize (m.run s d).1 = r at hres hres' ⊢
    cases r with
    | ok a => exact ⟨hres, hres'⟩
    | error e => exact ⟨hres, hres'⟩

/-- **Invariants of effects**: an invariant that admitted effects preserve may be used to restate
the guarantee, and it may be added to both postconditions. -/
theorem wp_inv {m : Prog D S ε α} {I : D.State → Prop} {G : D.Effect → D.State → Prop}
    (hstep : ∀ e d, Q.rely e d → Q.guar e d → I d → G e d ∧ I (D.apply e d)) (h : wp m Q s d)
    (hd : I d) :
    wp m ⟨fun a s d => Q.ok a s d ∧ I d, fun e s d => Q.error e s d ∧ I d, Q.rely, G⟩ s d := by
  refine ⟨h.1.of_inv hstep hd, fun hr => ?_⟩
  have hI : I (D.run (m.run s d).2.2 d) :=
    (Device.all_and.mpr ⟨hr, h.1.all hr⟩).run (fun e d he hI => (hstep e d he.1 he.2 hI).2) hd
  have hres := h.2 hr
  generalize (m.run s d).1 = r at hres ⊢
  cases r with
  | ok a => exact ⟨hres, hI⟩
  | error e => exact ⟨hres, hI⟩

/-- What a specification says about a run that the rely admits. -/
theorem wp_result {m : Prog D S ε α} (h : wp m Q s d) (hr : D.All Q.rely (m.run s d).2.2 d) :
    Q.result (m.run s d).1 (m.run s d).2.1 (D.run (m.run s d).2.2 d) := h.2 hr

/-- What a specification says about the effects of a run that the rely admits. -/
theorem wp_guar {m : Prog D S ε α} (h : wp m Q s d) (hr : D.All Q.rely (m.run s d).2.2 d) :
    D.All Q.guar (m.run s d).2.2 d := h.1.all hr

/-- What a run does, as a specification. -/
theorem wp_run {m : Prog D S ε α} :
    wp m ⟨fun a s' d' => ∃ es, m.run s d = (.ok a, s', es) ∧ D.run es d = d',
      fun e s' d' => ∃ es, m.run s d = (.error e, s', es) ∧ D.run es d = d',
      fun _ _ => True, fun _ _ => True⟩ s d := by
  refine ⟨Device.safe_of_forall (P := fun _ => True) fun _ _ => trivial, fun _ => ?_⟩
  rcases hrun : m.run s d with ⟨_ | a, s', es⟩
  · exact ⟨es, rfl, rfl⟩
  · exact ⟨es, rfl, rfl⟩

/-- A program without effects meets what holds of its result. -/
theorem wp_of_run_nil {m : Prog D S ε α} {a : α} {s' : S} (h : m.run s d = (.ok a, s', []))
    (hQ : Q.ok a s' d) : wp m Q s d := by
  unfold wp
  rw [h]
  exact ⟨trivial, fun _ => hQ⟩

/-- A sequence after a program that succeeds. -/
theorem run_bind_ok {m : Prog D S ε α} {k : α → Prog D S ε β} {a : α} {s' : S} {es : List D.Effect}
    (h : m.run s d = (.ok a, s', es)) :
    (m >>= k).run s d = (((k a).run s' (D.run es d)).1, ((k a).run s' (D.run es d)).2.1,
      es ++ ((k a).run s' (D.run es d)).2.2) := by
  simp only [Bind.bind, bind, h]

/-- A sequence after a program without effects. -/
theorem run_bind_nil {m : Prog D S ε α} {k : α → Prog D S ε β} {a : α} {s' : S}
    (h : m.run s d = (.ok a, s', [])) : (m >>= k).run s d = (k a).run s' d :=
  run_bind_ok h

/-- A sequence after a program that fails. -/
theorem run_bind_error {m : Prog D S ε α} {k : α → Prog D S ε β} {err : ε} {s' : S}
    {es : List D.Effect} (h : m.run s d = (.error err, s', es)) :
    (m >>= k).run s d = (.error err, s', es) := by
  simp only [Bind.bind, bind, h]

/-- A program has the effects of its first part first. -/
theorem prefix_run_bind (m : Prog D S ε α) (k : α → Prog D S ε β) (s : S) (d : D.State) :
    (m.run s d).2.2 <+: ((m >>= k).run s d).2.2 := by
  rcases h : m.run s d with ⟨_ | a, s', es⟩
  · simp only [run_bind_error h, List.prefix_refl]
  · rw [run_bind_ok h]
    exact List.prefix_append _ _

/-! ### Frames -/

/-- All effects of the program meet `P`, and it keeps the part `f` of the memory. -/
def Frame {T : Type} (P : D.Effect → Prop) (f : S → T) (m : Prog D S ε α) : Prop :=
  ∀ s d, (∀ e ∈ (m.run s d).2.2, P e) ∧ f (m.run s d).2.1 = f s

namespace Frame

variable {T U : Type} {P : D.Effect → Prop} {f : S → T} {m : Prog D S ε α}

theorem pure (a : α) : Frame P f (Pure.pure a : Prog D S ε α) :=
  fun _ _ => ⟨by simp [Pure.pure], rfl⟩

theorem throw (e : ε) : Frame P f (Prog.throw e : Prog D S ε α) :=
  fun _ _ => ⟨by simp [Prog.throw], rfl⟩

theorem emit {e : D.Effect} (h : P e) : Frame P f (Prog.emit e : Prog D S ε Unit) :=
  fun _ _ => ⟨by simpa [Prog.emit] using h, rfl⟩

theorem mem : Frame P f (Prog.mem : Prog D S ε S) := fun _ _ => ⟨by simp [Prog.mem], rfl⟩

theorem disk : Frame P f (Prog.disk : Prog D S ε D.State) :=
  fun _ _ => ⟨by simp [Prog.disk], rfl⟩

theorem lift (x : Except ε α) : Frame P f (Prog.lift x : Prog D S ε α) :=
  fun _ _ => ⟨by simp [Prog.lift], rfl⟩

theorem modify {g : S → S} (h : ∀ s, f (g s) = f s) : Frame P f (Prog.modify g : Prog D S ε Unit) :=
  fun s _ => ⟨by simp [Prog.modify], h s⟩

theorem bind {k : α → Prog D S ε β} (hm : Frame P f m) (hk : ∀ a, Frame P f (k a)) :
    Frame P f (m >>= k) := by
  intro s d
  obtain ⟨he, hf⟩ := hm s d
  simp only [Bind.bind, Prog.bind]
  rcases hr : m.run s d with ⟨r, s', es⟩
  rw [hr] at he hf
  cases r with
  | error e => exact ⟨he, hf⟩
  | ok a =>
    obtain ⟨he', hf'⟩ := hk a s' (D.run es d)
    refine ⟨fun e hmem => ?_, hf'.trans hf⟩
    rcases List.mem_append.mp hmem with h | h
    · exact he e h
    · exact he' e h

theorem zoom {V : Type} {get : S → U} {set : U → S → S} {n : Prog D U ε α} {g : U → V}
    (hn : Frame P g n)
    (hset : ∀ s t, g t = g (get s) → f (set t s) = f s) : Frame P f (Prog.zoom get set n) := by
  intro s d
  obtain ⟨he, hg⟩ := hn (get s) d
  exact ⟨he, hset _ _ hg⟩

theorem ite {c : Prop} [Decidable c] {m' : Prog D S ε α} (hm : c → Frame P f m)
    (hm' : ¬ c → Frame P f m') : Frame P f (if c then m else m') := by
  split
  case isTrue hc => exact hm hc
  case isFalse hc => exact hm' hc

theorem forM {k : β → Prog D S ε PUnit} {l : List β} (hk : ∀ b ∈ l, Frame P f (k b)) :
    Frame P f (l.forM k) := by
  induction l with
  | nil => exact .pure _
  | cons b l ih =>
    exact .bind (hk b (by simp)) fun _ => ih fun c hc => hk c (by simp [hc])

theorem foldlM {k : γ → β → Prog D S ε γ} (hk : ∀ c b, Frame P f (k c b)) (l : List β) (c : γ) :
    Frame P f (l.foldlM k c) := by
  induction l generalizing c with
  | nil => exact .pure _
  | cons b l ih => exact .bind (hk c b) fun c => ih c

theorem mono {P' : D.Effect → Prop} (h : Frame P f m) (hP : ∀ e, P e → P' e) : Frame P' f m :=
  fun s d => ⟨fun e he => hP e ((h s d).1 e he), (h s d).2⟩

/-- Keeping a part keeps what is computed from it. -/
theorem comp (h : Frame P f m) (g : T → U) : Frame P (g ∘ f) m :=
  fun s d => ⟨(h s d).1, congrArg g (h s d).2⟩

/-- A frame as a specification. -/
theorem wp (h : Frame P f m) (rely : D.Effect → D.State → Prop) :
    Prog.wp m ⟨fun _ s' _ => f s' = f s, fun _ s' _ => f s' = f s, rely, fun e _ => P e⟩ s d := by
  obtain ⟨he, hf⟩ := h s d
  refine ⟨Device.safe_of_forall he, fun _ => ?_⟩
  generalize (m.run s d).1 = r
  cases r <;> exact hf

end Frame

/-! ### Kept invariants -/

/-- Wherever a program stops, an invariant of memory and device holds that held before, and its effects
meet `guar`. -/
def Keeps (J : S → D.State → Prop) (rely guar : D.Effect → D.State → Prop) (m : Prog D S ε α) : Prop :=
  ∀ s d, J s d → wp m ⟨fun _ => J, fun _ => J, rely, guar⟩ s d

namespace Keeps

variable {J : S → D.State → Prop} {rely guar : D.Effect → D.State → Prop} {m : Prog D S ε α}

theorem pure (a : α) : Keeps J rely guar (Pure.pure a : Prog D S ε α) :=
  fun _ _ h => (wp_pure a).mpr h

theorem throw (e : ε) : Keeps J rely guar (Prog.throw e : Prog D S ε α) :=
  fun _ _ h => (wp_throw e).mpr h

theorem lift (x : Except ε α) : Keeps J rely guar (Prog.lift x : Prog D S ε α) := by
  intro s d h
  rw [wp_lift]
  cases x <;> exact h

theorem bind {k : α → Prog D S ε β} (hm : Keeps J rely guar m) (hk : ∀ a, Keeps J rely guar (k a)) :
    Keeps J rely guar (m >>= k) := fun s d h =>
  (wp_bind m k).mpr (wp_imp (hm s d h) (fun a s d h => hk a s d h) fun _ _ _ h => h)

theorem ite {c : Prop} [Decidable c] {m' : Prog D S ε α} (hm : c → Keeps J rely guar m)
    (hm' : ¬ c → Keeps J rely guar m') : Keeps J rely guar (if c then m else m') := by
  split
  case isTrue h => exact hm h
  case isFalse h => exact hm' h

theorem forM {f : β → Prog D S ε PUnit} (hf : ∀ b, Keeps J rely guar (f b)) (l : List β) :
    Keeps J rely guar (l.forM f) := by
  induction l with
  | nil => exact .pure _
  | cons b l ih => exact .bind (hf b) fun _ => ih

theorem foldlM {f : γ → β → Prog D S ε γ} (hf : ∀ c b, Keeps J rely guar (f c b)) (l : List β) (c : γ) :
    Keeps J rely guar (l.foldlM f c) := by
  induction l generalizing c with
  | nil => exact .pure _
  | cons b l ih => exact .bind (hf c b) fun c => ih c

end Keeps

/-! ### Errors -/

/-- Every error of a computation meets `E`. -/
def Fails (E : ε → Prop) (x : Except ε α) : Prop := ∀ err, x = .error err → E err

/-- Every error of the program meets `E`. -/
def Throws (E : ε → Prop) (m : Prog D S ε α) : Prop := ∀ s d, Fails E (m.run s d).1

namespace Fails

variable {E : ε → Prop} {x : Except ε α}

theorem ok (a : α) : Fails E (.ok a : Except ε α) := fun _ h => (by cases h)

theorem error {e : ε} (h : E e) : Fails E (.error e : Except ε α) := fun _ he => by
  cases he
  exact h

theorem bind {f : α → Except ε β} (hx : Fails E x) (hf : ∀ a, Fails E (f a)) : Fails E (x >>= f) := by
  cases x with
  | error e =>
    intro err he
    cases he
    exact hx e rfl
  | ok a => exact hf a

theorem ite {c : Prop} [Decidable c] {y : Except ε α} (hx : Fails E x) (hy : Fails E y) :
    Fails E (if c then x else y) := by
  split
  · exact hx
  · exact hy

theorem mapM {f : β → Except ε α} (hf : ∀ b, Fails E (f b)) (l : List β) : Fails E (l.mapM f) := by
  induction l with
  | nil => exact .ok _
  | cons b l ih =>
    rw [List.mapM_cons]
    exact .bind (hf b) fun _ => .bind ih fun _ => .ok _

end Fails

namespace Throws

variable {E : ε → Prop} {m : Prog D S ε α}

theorem pure (a : α) : Throws E (Pure.pure a : Prog D S ε α) := fun _ _ => .ok a

theorem throw {e : ε} (h : E e) : Throws E (Prog.throw e : Prog D S ε α) := fun _ _ => .error h

theorem emit (e : D.Effect) : Throws E (Prog.emit e : Prog D S ε Unit) := fun _ _ => .ok _

theorem mem : Throws E (Prog.mem : Prog D S ε S) := fun _ _ => .ok _

theorem disk : Throws E (Prog.disk : Prog D S ε D.State) := fun _ _ => .ok _

theorem modify (f : S → S) : Throws E (Prog.modify f : Prog D S ε Unit) := fun _ _ => .ok _

theorem lift {x : Except ε α} (h : Fails E x) : Throws E (Prog.lift x : Prog D S ε α) := fun _ _ => h

theorem bind {k : α → Prog D S ε β} (hm : Throws E m) (hk : ∀ a, Throws E (k a)) :
    Throws E (m >>= k) := by
  intro s d err
  have h := hm s d
  simp only [Bind.bind, Prog.bind]
  rcases hr : m.run s d with ⟨r, s', es⟩
  rw [hr] at h
  cases r with
  | error e =>
    intro he
    cases he
    exact h _ rfl
  | ok a => exact fun he => hk a s' (D.run es d) err he

theorem zoom {U : Type} {get : S → U} {set : U → S → S} {n : Prog D U ε α} (hn : Throws E n) :
    Throws E (Prog.zoom get set n) := fun s d => hn (get s) d

theorem ite {c : Prop} [Decidable c] {m' : Prog D S ε α} (hm : Throws E m) (hm' : Throws E m') :
    Throws E (if c then m else m') := by
  split
  · exact hm
  · exact hm'

theorem forM {k : β → Prog D S ε PUnit} (hk : ∀ b, Throws E (k b)) (l : List β) :
    Throws E (l.forM k) := by
  induction l with
  | nil => exact .pure _
  | cons b l ih => exact .bind (hk b) fun _ => ih

/-- What is known about errors may be added to a specification. -/
theorem wp (h : Throws E m) (hwp : Prog.wp m Q s d) :
    Prog.wp m ⟨Q.ok, fun err s d => Q.error err s d ∧ E err, Q.rely, Q.guar⟩ s d := by
  refine ⟨hwp.1, fun hr => ?_⟩
  have hres := hwp.2 hr
  have hE := h s d
  generalize (m.run s d).1 = r at hres hE
  cases r with
  | ok a => exact hres
  | error e => exact ⟨hres, hE e rfl⟩

end Throws

/-! ### Results -/

/-- Every result of the program meets `P`. -/
def Returns (P : α → Prop) (m : Prog D S ε α) : Prop := ∀ s d a, (m.run s d).1 = .ok a → P a

namespace Returns

variable {P : α → Prop} {m : Prog D S ε α}

theorem pure {a : α} (h : P a) : Returns P (Pure.pure a : Prog D S ε α) := by
  rintro s d _ ⟨⟩
  exact h

/-- Only what comes last matters. -/
theorem bind {n : Prog D S ε β} {k : β → Prog D S ε α} (hk : ∀ b, Returns P (k b)) : Returns P (n >>= k) := by
  intro s d a
  simp only [Bind.bind, Prog.bind]
  rcases n.run s d with ⟨r, s', es⟩
  cases r with
  | error e => exact fun h => (by cases h)
  | ok b => exact hk b s' (D.run es d) a

theorem ite {c : Prop} [Decidable c] {m' : Prog D S ε α} (hm : c → Returns P m) (hm' : ¬ c → Returns P m') :
    Returns P (if c then m else m') := by
  split
  case isTrue hc => exact hm hc
  case isFalse hc => exact hm' hc

/-- What is known about results may be added to a specification. -/
theorem wp (h : Returns P m) (hwp : Prog.wp m Q s d) :
    Prog.wp m ⟨fun a s d => Q.ok a s d ∧ P a, Q.error, Q.rely, Q.guar⟩ s d := by
  refine ⟨hwp.1, fun hr => ?_⟩
  have hres := hwp.2 hr
  have hP := h s d
  generalize (m.run s d).1 = r at hres hP
  cases r with
  | ok a => exact ⟨hres, hP a rfl⟩
  | error e => exact hres

end Returns

end Prog
