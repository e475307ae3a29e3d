import Edgestore.Lib.Prog
import Mathlib.Data.List.Basic

/-!
# Programs in two phases

A program that first writes anew, then commits, and then drops what is not needed any longer may stop anywhere: what it has
done is then of the first phase, or what it leaves undone is of the second.

## Main definitions

* `InPhases G R es`: a list in two phases
* `Prog.Phased G R m`: programs whose effects come in two phases

## Main results

* `Prog.Phased.bind_first`, `Prog.Phased.bind_second`: the rules
-/

/-! ### Lists -/

/-- **Two phases**: wherever the list is cut, what is in front of the cut meets `G`, or what is behind it meets `R`. -/
def InPhases {α : Type} (G R : α → Prop) (es : List α) : Prop :=
  ∀ n, (∀ e ∈ es.take n, G e) ∨ ∀ e ∈ es.drop n, R e

namespace InPhases

variable {α : Type} {G R : α → Prop} {es fs : List α}

theorem of_first (h : ∀ e ∈ es, G e) : InPhases G R es := fun _ => .inl fun e he => h e (List.mem_of_mem_take he)

/-- The element between the phases may be of neither. -/
theorem singleton (e : α) : InPhases G R [e] := fun n => by
  cases n with
  | zero => exact .inl fun _ h => absurd h List.not_mem_nil
  | succ n =>
    rw [List.drop_succ_cons, List.drop_nil]
    exact .inr fun _ h => absurd h List.not_mem_nil

/-- More of the first phase in front. -/
theorem append_first (h : ∀ e ∈ es, G e) (hf : InPhases G R fs) : InPhases G R (es ++ fs) := fun n => by
  rw [List.take_append, List.drop_append]
  rcases le_total n es.length with hn | hn
  · refine .inl fun e he => h e ?_
    rw [Nat.sub_eq_zero_of_le hn, List.take_zero, List.append_nil] at he
    exact List.mem_of_mem_take he
  · rw [List.take_of_length_le hn, List.drop_eq_nil_of_le hn, List.nil_append]
    refine (hf (n - es.length)).imp_left fun hfirst e he => ?_
    exact (List.mem_append.mp he).elim (h e) (hfirst e)

/-- More of the second phase behind. -/
theorem append_second (he : InPhases G R es) (h : ∀ e ∈ fs, R e) : InPhases G R (es ++ fs) := fun n => by
  rw [List.take_append, List.drop_append]
  rcases le_total n es.length with hn | hn
  · rw [Nat.sub_eq_zero_of_le hn, List.take_zero, List.append_nil]
    refine (he n).imp_right fun hsecond e he => ?_
    exact (List.mem_append.mp he).elim (hsecond e) fun he => h e (List.mem_of_mem_drop he)
  · rw [List.drop_eq_nil_of_le hn, List.nil_append]
    exact .inr fun e he => h e (List.mem_of_mem_drop he)

end InPhases

/-! ### Cuts -/

namespace Device

variable {D : Device} {es : List D.Effect} {e : D.Effect} {n : ℕ} {d : D.State} {G : D.Effect → D.State → Prop}

/-- A cut behind the last effect cuts nothing. -/
theorem cut_of_none (h : es[n]? = none) (m : ℕ) : D.cut es n m d = D.run es d := by
  induction es generalizing n d with
  | nil => rfl
  | cons e es ih =>
    cases n with
    | zero => cases h
    | succ n => exact ih h

/-- **A cut tears one effect**, behind those in front of it. -/
theorem cut_of_some (h : es[n]? = some e) (m : ℕ) : D.cut es n m d = D.tear e m (D.run (es.take n) d) := by
  induction es generalizing n d with
  | nil => cases h
  | cons e' es ih =>
    cases n with
    | zero =>
      obtain rfl := Option.some_inj.mp h
      rfl
    | succ n => exact ih h

/-- The effect behind those in front of a cut. -/
theorem All.getElem? (hg : D.All G es d) (h : es[n]? = some e) : G e (D.run (es.take n) d) := by
  induction es generalizing n d with
  | nil => cases h
  | cons e' es ih =>
    cases n with
    | zero =>
      obtain rfl := Option.some_inj.mp h
      exact hg.1
    | succ n => exact ih hg.2 h

theorem run_take_drop (es : List D.Effect) (n : ℕ) (d : D.State) :
    D.run (es.drop n) (D.run (es.take n) d) = D.run es d := by
  rw [← run_append, List.take_append_drop]

theorem All.drop (hg : D.All G es d) (n : ℕ) : D.All G (es.drop n) (D.run (es.take n) d) := by
  rw [← List.take_append_drop n es, all_append] at hg
  exact hg.2

end Device

/-! ### Programs -/

namespace Prog

variable {D : Device} {S T ε α β : Type} {G R : D.Effect → Prop} {m : Prog D S ε α} {k : α → Prog D S ε β}

/-- **Programs in two phases**, from any memory and any state of the device. -/
def Phased (G R : D.Effect → Prop) (m : Prog D S ε α) : Prop := ∀ s d, InPhases G R (m.run s d).2.2

namespace Phased

theorem of_first {f : S → T} (h : Frame G f m) : Phased G R m := fun s d => .of_first (h s d).1

theorem emit (e : D.Effect) : Phased G R (Prog.emit e : Prog D S ε Unit) := fun _ _ => .singleton e

/-- What comes after the first phase. -/
theorem bind_first {f : S → T} (hm : Frame G f m) (hk : ∀ a, Phased G R (k a)) : Phased G R (m >>= k) := by
  intro s d
  obtain ⟨hfirst, -⟩ := hm s d
  rcases hrun : m.run s d with ⟨_ | a, s', es⟩
  · rw [hrun] at hfirst
    rw [run_bind_error hrun]
    exact .of_first hfirst
  · rw [hrun] at hfirst
    rw [run_bind_ok hrun]
    exact .append_first hfirst (hk a s' _)

/-- The second phase comes after. -/
theorem bind_second {f : S → T} (hm : Phased G R m) (hk : ∀ a, Frame R f (k a)) : Phased G R (m >>= k) := by
  intro s d
  have hphases := hm s d
  rcases hrun : m.run s d with ⟨_ | a, s', es⟩
  · rw [hrun] at hphases
    rw [run_bind_error hrun]
    exact hphases
  · rw [hrun] at hphases
    rw [run_bind_ok hrun]
    exact hphases.append_second (hk a s' _).1

/-- A program over a part of the memory. -/
theorem zoom {get : S → T} {set : T → S → S} {n : Prog D T ε α} (hn : Phased G R n) :
    Phased G R (Prog.zoom get set n) := fun s d => hn (get s) d

theorem ite {c : Prop} [Decidable c] {m' : Prog D S ε α} (hm : Phased G R m) (hm' : Phased G R m') :
    Phased G R (if c then m else m') := by
  split
  · exact hm
  · exact hm'

end Phased

end Prog
