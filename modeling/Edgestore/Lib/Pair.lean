import Edgestore.Lib.Prog

/-!
# Two devices side by side

A process may work on two devices, each with its own effects. Programs of either device are programs
of the pair; they leave the other device alone, and they are specified as they were.

A journal is a device that only records. Next to another device it keeps what a process did there,
also when the process stops. A device with notes is the same thing on one device: what is noted about
its effects, which no program reads.

## Main definitions

* `Device.pair`: two devices
* `Device.journal`: the device that records its effects
* `Device.noted`: a device with notes about its effects
* `Prog.onFst`, `Prog.onSnd`: programs of one of two devices

## Main results

* `Prog.wp_onFst`, `Prog.wp_onSnd`: the rules
* `Device.safe_noted`, `Device.run_noted`, `Device.cut_noted`: notes leave the device as it is
-/

namespace Device

/-- Two devices side by side. -/
abbrev pair (D E : Device) : Device where
  State := D.State × E.State
  Effect := D.Effect ⊕ E.Effect
  apply
    | .inl e, d => (D.apply e d.1, d.2)
    | .inr e, d => (d.1, E.apply e d.2)
  tear
    | .inl e, m, d => (D.tear e m d.1, d.2)
    | .inr e, m, d => (d.1, E.tear e m d.2)

/-- The device that records its effects, each as a whole or not at all. -/
abbrev journal (ι : Type) : Device where
  State := List ι
  Effect := ι
  apply e d := d ++ [e]
  tear _ _ d := d

/-- A device with notes about its effects. -/
abbrev noted {L : Type} (D : Device) (note : D.Effect → L → L) (noteTorn : D.Effect → ℕ → L → L) :
    Device where
  State := D.State × L
  Effect := D.Effect
  apply e d := (D.apply e d.1, note e d.2)
  tear e m d := (D.tear e m d.1, noteTorn e m d.2)

end Device

namespace Prog

variable {D E : Device} {S ε α : Type}

/-- A program of the first device. -/
def onFst (m : Prog D S ε α) : Prog (D.pair E) S ε α where
  run s d := ((m.run s d.1).1, (m.run s d.1).2.1, (m.run s d.1).2.2.map .inl)

/-- A program of the second device. -/
def onSnd (m : Prog E S ε α) : Prog (D.pair E) S ε α where
  run s d := ((m.run s d.2).1, (m.run s d.2).2.1, (m.run s d.2).2.2.map .inr)

end Prog

namespace Device

variable {D E : Device}

theorem run_map_inl (es : List D.Effect) (d : (D.pair E).State) :
    (D.pair E).run (es.map .inl) d = (D.run es d.1, d.2) := by
  induction es generalizing d with
  | nil => rfl
  | cons e es ih => exact ih _

theorem run_map_inr (es : List E.Effect) (d : (D.pair E).State) :
    (D.pair E).run (es.map .inr) d = (d.1, E.run es d.2) := by
  induction es generalizing d with
  | nil => rfl
  | cons e es ih => exact ih _

variable {G : (D.pair E).Effect → (D.pair E).State → Prop} {R : (D.pair E).Effect → (D.pair E).State → Prop}

theorem all_map_inl {es : List D.Effect} {d : (D.pair E).State} :
    (D.pair E).All G (es.map .inl) d ↔ D.All (fun e x => G (.inl e) (x, d.2)) es d.1 := by
  induction es generalizing d with
  | nil => exact Iff.rfl
  | cons e es ih => exact and_congr Iff.rfl ih

theorem all_map_inr {es : List E.Effect} {d : (D.pair E).State} :
    (D.pair E).All G (es.map .inr) d ↔ E.All (fun e x => G (.inr e) (d.1, x)) es d.2 := by
  induction es generalizing d with
  | nil => exact Iff.rfl
  | cons e es ih => exact and_congr Iff.rfl ih

theorem safe_map_inl {es : List D.Effect} {d : (D.pair E).State} :
    (D.pair E).Safe R G (es.map .inl) d ↔
      D.Safe (fun e x => R (.inl e) (x, d.2)) (fun e x => G (.inl e) (x, d.2)) es d.1 := by
  induction es generalizing d with
  | nil => exact Iff.rfl
  | cons e es ih => exact imp_congr Iff.rfl (and_congr Iff.rfl ih)

theorem safe_map_inr {es : List E.Effect} {d : (D.pair E).State} :
    (D.pair E).Safe R G (es.map .inr) d ↔
      E.Safe (fun e x => R (.inr e) (d.1, x)) (fun e x => G (.inr e) (d.1, x)) es d.2 := by
  induction es generalizing d with
  | nil => exact Iff.rfl
  | cons e es ih => exact imp_congr Iff.rfl (and_congr Iff.rfl ih)

section

variable {L : Type} {note : D.Effect → L → L} {noteTorn : D.Effect → ℕ → L → L} {es : List D.Effect}
  {d : D.State} {l : L}

theorem all_noted {G : D.Effect → D.State → Prop} :
    (D.noted note noteTorn).All (fun e d => G e d.1) es (d, l) ↔ D.All G es d := by
  induction es generalizing d l with
  | nil => exact Iff.rfl
  | cons e es ih => exact and_congr Iff.rfl ih

theorem safe_noted {R G : D.Effect → D.State → Prop} :
    (D.noted note noteTorn).Safe (fun e d => R e d.1) (fun e d => G e d.1) es (d, l) ↔
      D.Safe R G es d := by
  induction es generalizing d l with
  | nil => exact Iff.rfl
  | cons e es ih => exact imp_congr Iff.rfl (and_congr Iff.rfl ih)

theorem run_noted : ((D.noted note noteTorn).run es (d, l)).1 = D.run es d := by
  induction es generalizing d l with
  | nil => rfl
  | cons e es ih => exact ih

theorem cut_noted (n m : ℕ) : ((D.noted note noteTorn).cut es n m (d, l)).1 = D.cut es n m d := by
  induction es generalizing d l n with
  | nil => rfl
  | cons e es ih =>
    cases n with
    | zero => rfl
    | succ n => exact ih n

end

end Device

namespace Prog

variable {D E : Device} {S ε α : Type} {Q : Post (D.pair E) S ε α} {s : S} {d : (D.pair E).State}

/-- **A program of the first device**: the second stays as it is. -/
@[simp] theorem wp_onFst (m : Prog D S ε α) :
    wp (onFst m) Q s d ↔
      wp m ⟨fun a s x => Q.ok a s (x, d.2), fun e s x => Q.error e s (x, d.2),
        fun e x => Q.rely (.inl e) (x, d.2), fun e x => Q.guar (.inl e) (x, d.2)⟩ s d.1 := by
  refine and_congr Device.safe_map_inl (imp_congr Device.all_map_inl ?_)
  show Q.result _ _ ((D.pair E).run _ d) ↔ _
  rw [onFst, Device.run_map_inl]
  generalize (m.run s d.1).1 = r
  cases r <;> exact Iff.rfl

/-- **A program of the second device**: the first stays as it is. -/
@[simp] theorem wp_onSnd (m : Prog E S ε α) :
    wp (onSnd m) Q s d ↔
      wp m ⟨fun a s x => Q.ok a s (d.1, x), fun e s x => Q.error e s (d.1, x),
        fun e x => Q.rely (.inr e) (d.1, x), fun e x => Q.guar (.inr e) (d.1, x)⟩ s d.2 := by
  refine and_congr Device.safe_map_inr (imp_congr Device.all_map_inr ?_)
  show Q.result _ _ ((D.pair E).run _ d) ↔ _
  rw [onSnd, Device.run_map_inr]
  generalize (m.run s d.2).1 = r
  cases r <;> exact Iff.rfl

end Prog
