import Mathlib.Data.List.Basic
import Mathlib.Data.List.Induction
import Mathlib.Logic.Function.Basic
import Mathlib.Order.Lattice

/-!
# Last writer wins

A map to which values are offered: a value is taken if it has a later stamp than the one that its key has. What is left in
the end is a value with the latest stamp. If no two values of a key have one stamp, then it does not matter in which order
values are offered, nor how often.

## Main definitions

* `LastWriter.offer`, `LastWriter.offerAll`: a value that is offered, and many
* `LastWriter.IsWinner`: a value with the latest stamp of its key
* `LastWriter.Agrees`: values of one key and one stamp are the same

## Main results

* `LastWriter.offerAll_eq_some_iff`: the winner is left
* `LastWriter.offerAll_congr`: maps to which the same values have been offered are the same
-/

namespace LastWriter

variable {K V T : Type} [LinearOrder T] {stamp : V → T} {m : K → Option V} {ps qs : List (K × V)} {p : K × V}
  {k : K} {u v : V}

/-! ## Offers -/

variable (stamp) in
/-- The value has a later stamp than the one that its key has. -/
def Beats (m : K → Option V) (p : K × V) : Prop := ∀ u ∈ m p.1, stamp u < stamp p.2

instance (m : K → Option V) (p : K × V) : Decidable (Beats stamp m p) := inferInstanceAs (Decidable (∀ u ∈ _, _))

variable [DecidableEq K]

variable (stamp) in
/-- A value that is offered. -/
def offer (m : K → Option V) (p : K × V) : K → Option V :=
  if Beats stamp m p then Function.update m p.1 (some p.2) else m

variable (stamp) in
/-- Values that are offered one after the other. -/
def offerAll (m : K → Option V) (ps : List (K × V)) : K → Option V := ps.foldl (offer stamp) m

theorem offer_of_beats (h : Beats stamp m p) : offer stamp m p = Function.update m p.1 (some p.2) := if_pos h

theorem offer_of_not_beats (h : ¬ Beats stamp m p) : offer stamp m p = m := if_neg h

@[simp] theorem offerAll_nil (m : K → Option V) : offerAll stamp m [] = m := rfl

theorem offerAll_append (m : K → Option V) (ps qs : List (K × V)) :
    offerAll stamp m (ps ++ qs) = offerAll stamp (offerAll stamp m ps) qs := List.foldl_append

theorem offerAll_concat (m : K → Option V) (ps : List (K × V)) (p : K × V) :
    offerAll stamp m (ps ++ [p]) = offer stamp (offerAll stamp m ps) p := offerAll_append m ps [p]

/-- The other keys keep what they have. -/
theorem offer_of_ne (h : k ≠ p.1) : offer stamp m p k = m k := by
  by_cases hbeats : Beats stamp m p
  · rw [offer_of_beats hbeats]
    exact Function.update_of_ne h ..
  · rw [offer_of_not_beats hbeats]

variable (stamp) in
/-- A value that is taken, or what is at least as late. -/
theorem offer_self (m : K → Option V) (k : K) (v : V) : ∃ w, offer stamp m (k, v) k = some w ∧ stamp v ≤ stamp w := by
  by_cases hbeats : Beats stamp m (k, v)
  · rw [offer_of_beats hbeats]
    exact ⟨v, Function.update_self .., le_rfl⟩
  · rw [offer_of_not_beats hbeats]
    have hlater : ∃ w ∈ m k, ¬ stamp w < stamp v := by
      simpa only [Beats, not_forall, exists_prop] using hbeats
    obtain ⟨w, hw, hle⟩ := hlater
    exact ⟨w, hw, not_lt.mp hle⟩

variable (stamp) in
/-- An offer keeps what is there, or puts something later in its place. -/
theorem offer_of_some (p : K × V) (h : m k = some v) : ∃ w, offer stamp m p k = some w ∧ stamp v ≤ stamp w := by
  by_cases hkey : k = p.1
  · subst hkey
    by_cases hbeats : Beats stamp m p
    · rw [offer_of_beats hbeats]
      have hlt : stamp v < stamp p.2 := hbeats v h
      exact ⟨p.2, Function.update_self .., hlt.le⟩
    · rw [offer_of_not_beats hbeats]
      exact ⟨v, h, le_rfl⟩
  · exact ⟨v, (offer_of_ne hkey).trans h, le_rfl⟩

variable (stamp) in
theorem offerAll_of_some (ps : List (K × V)) (h : m k = some v) :
    ∃ w, offerAll stamp m ps k = some w ∧ stamp v ≤ stamp w := by
  induction ps generalizing m v with
  | nil => exact ⟨v, h, le_rfl⟩
  | cons p ps ih =>
    obtain ⟨u, hu, hle⟩ := offer_of_some stamp p h
    obtain ⟨w, hw, hle'⟩ := ih hu
    exact ⟨w, hw, hle.trans hle'⟩

variable (stamp) in
/-- **An offer leaves something** that is at least as late. -/
theorem offerAll_of_mem (m : K → Option V) (h : (k, v) ∈ ps) : ∃ w, offerAll stamp m ps k = some w ∧ stamp v ≤ stamp w := by
  obtain ⟨before, after, rfl⟩ := List.append_of_mem h
  obtain ⟨u, hu, hle⟩ := offer_self stamp (offerAll stamp m before) k v
  obtain ⟨w, hw, hle'⟩ := offerAll_of_some stamp after hu
  refine ⟨w, ?_, hle.trans hle'⟩
  rw [offerAll_append]
  exact hw

/-- What is left was offered, or was there before. -/
theorem mem_of_offerAll (h : offerAll stamp m ps k = some v) : (k, v) ∈ ps ∨ m k = some v := by
  induction ps using List.reverseRecOn with
  | nil => exact .inr h
  | append_singleton ps p ih =>
    rw [offerAll_concat] at h
    by_cases hbeats : Beats stamp (offerAll stamp m ps) p
    · rw [offer_of_beats hbeats, Function.update_apply] at h
      split at h
      case isTrue hkey =>
        refine .inl (List.mem_append_right _ (List.mem_singleton.mpr ?_))
        exact Prod.ext hkey (Option.some_inj.mp h).symm
      case isFalse => exact (ih h).imp_left (List.mem_append_left _)
    · rw [offer_of_not_beats hbeats] at h
      exact (ih h).imp_left (List.mem_append_left _)

/-! ## Winners -/

variable (stamp) in
/-- A value with the latest stamp of its key. -/
def IsWinner (ps : List (K × V)) (k : K) (v : V) : Prop := (k, v) ∈ ps ∧ ∀ u, (k, u) ∈ ps → stamp u ≤ stamp v

variable (stamp) in
/-- Values of one key and one stamp are the same. -/
def Agrees (ps : List (K × V)) : Prop := ∀ k u v, (k, u) ∈ ps → (k, v) ∈ ps → stamp u = stamp v → u = v

instance [DecidableEq V] (ps : List (K × V)) : Decidable (Agrees stamp ps) :=
  decidable_of_iff (∀ p ∈ ps, ∀ q ∈ ps, p.1 = q.1 → stamp p.2 = stamp q.2 → p.2 = q.2)
    ⟨fun h k u v hu hv => h (k, u) hu (k, v) hv rfl, fun h p hp q hq hkey => h p.1 p.2 q.2 hp (hkey ▸ hq)⟩

/-- **What is left is a winner.** -/
theorem isWinner_of_offerAll (h : offerAll stamp (fun _ => none) ps k = some v) : IsWinner stamp ps k v := by
  refine ⟨(mem_of_offerAll h).resolve_right fun hnone => (by cases hnone), fun u hu => ?_⟩
  obtain ⟨w, hw, hle⟩ := offerAll_of_mem stamp (fun _ => none) hu
  obtain rfl : w = v := Option.some_inj.mp (hw.symm.trans h)
  exact hle

/-- **The winner is left**, if there is one only. -/
theorem offerAll_eq_some_iff (h : Agrees stamp ps) :
    offerAll stamp (fun _ => none) ps k = some v ↔ IsWinner stamp ps k v := by
  refine ⟨isWinner_of_offerAll, fun hwinner => ?_⟩
  obtain ⟨w, hw, hle⟩ := offerAll_of_mem stamp (fun _ => none) hwinner.1
  have hmem := (isWinner_of_offerAll hw).1
  have hge : stamp w ≤ stamp v := hwinner.2 w hmem
  have hwv : w = v := h k w v hmem hwinner.1 (hge.antisymm hle)
  exact hwv ▸ hw

/-- **Convergence**: maps to which the same values have been offered are the same, in whatever order they were offered
and however often. -/
theorem offerAll_congr (h : Agrees stamp ps) (hsame : ∀ p, p ∈ qs ↔ p ∈ ps) :
    offerAll stamp (fun _ => none) qs = offerAll stamp (fun _ => none) ps := by
  have hagrees : Agrees stamp qs := fun k u v hu hv => h k u v ((hsame _).mp hu) ((hsame _).mp hv)
  have hwinner : ∀ k v, IsWinner stamp qs k v ↔ IsWinner stamp ps k v := fun k v => by
    simp only [IsWinner, hsame]
  funext k
  refine Option.ext fun v => ?_
  rw [offerAll_eq_some_iff hagrees, offerAll_eq_some_iff h, hwinner]

end LastWriter
