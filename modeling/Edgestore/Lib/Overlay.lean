import Edgestore.Lib.KWayMerge
import Mathlib.Order.RelClasses

/-!
# Overlaying two sorted layers

A lower and an upper layer hold entries with versions, each layer at most one for a key. The overlay
holds, for every key, the entry with the greater version; the lower layer wins a tie. Layers may be
listed in ascending or in descending order, so the order of keys is a parameter.

## Main definitions

* `KeysBy r l`, `GroupsBy r l`: the keys of `l` are strictly in the order `r`; keys may repeat
* `mergeBy r s m`: both layers in the order `r`, on equal keys the lower entry first
* `pick ver s m`: the entry that wins
* `Overlays r ver s m n`: the list `n` is the overlay of `s` and `m`

## Main results

* `find_newest_eq`: what a lookup in a reduced sequence finds
* `Overlays.of_merge`: reducing the merge of two layers gives the overlay
* `Overlays.of_cut`: the overlay of a layer that is cut short
* `Overlays.filter`: the overlay of the entries of some keys
-/

variable {κ α β : Type} [LinearOrder κ] {r : κ → κ → Prop} {ver : α → ℕ}

/-- The keys are strictly in the order `r`. -/
def KeysBy (r : κ → κ → Prop) (l : List (κ × α)) : Prop := l.Pairwise fun p q => r p.1 q.1

/-- The keys are in the order `r`, and entries of one key are neighbours. -/
def GroupsBy (r : κ → κ → Prop) (l : List (κ × α)) : Prop :=
  l.Pairwise fun p q => p.1 = q.1 ∨ r p.1 q.1

theorem KeySorted.keysBy {l : List (κ × α)} (h : KeySorted l) : KeysBy (· < ·) l := h

namespace KeysBy

variable {l l' : List (κ × α)}

omit [LinearOrder κ] in
theorem filter (h : KeysBy r l) (p : κ × α → Bool) : KeysBy r (l.filter p) :=
  List.Pairwise.filter p h

omit [LinearOrder κ] in
theorem sublist (h : KeysBy r l) (hs : l'.Sublist l) : KeysBy r l' := List.Pairwise.sublist hs h

variable [IsStrictOrder κ r]

/-- Lookup is membership. -/
theorem find_eq_some_iff (h : KeysBy r l) {k : κ} {v : α} : find l k = some v ↔ (k, v) ∈ l := by
  constructor
  · exact mem_of_find
  · intro hm
    induction l with
    | nil => cases hm
    | cons p l ih =>
      obtain ⟨hp, hl⟩ := List.pairwise_cons.mp h
      rw [find_cons]
      rcases List.mem_cons.mp hm with heq | hm
      · simp [← heq]
      · have hne : p.1 ≠ k := fun heq => irrefl_of r k (heq ▸ hp (k, v) hm)
        rw [if_neg hne]
        exact ih hl hm

omit [LinearOrder κ] in
theorem nodup (h : KeysBy r l) : l.Nodup := by
  refine h.imp ?_
  intro p q hpq heq
  rw [heq] at hpq
  exact irrefl_of r q.1 hpq

/-- Lists in the same order with the same lookups are equal. -/
theorem ext (h : KeysBy r l) (h' : KeysBy r l') (hf : ∀ k, find l k = find l' k) : l = l' := by
  have hmem : ∀ p, p ∈ l ↔ p ∈ l' := by
    rintro ⟨k, v⟩
    rw [← h.find_eq_some_iff, hf, h'.find_eq_some_iff]
  have hperm := (List.perm_ext_iff_of_nodup h.nodup h'.nodup).mpr hmem
  -- no two keys are in the order both ways
  refine List.Perm.eq_of_pairwise (fun p q _ _ hpq hqp => ?_) h h' hperm
  exact absurd (trans_of r hpq hqp) (irrefl_of r p.1)

end KeysBy

/-- A list in ascending order, reversed, is in descending order. -/
theorem KeysBy.reverse {l : List (κ × α)} (h : KeysBy (· < ·) l) : KeysBy (· > ·) l.reverse :=
  List.pairwise_reverse.mpr h

theorem KeysBy.find_reverse {l : List (κ × α)} (h : KeysBy (· < ·) l) (k : κ) :
    find l.reverse k = find l k := by
  cases hk : find l k with
  | none =>
    rw [find_eq_none_iff] at hk ⊢
    exact fun p hp => hk p (List.mem_reverse.mp hp)
  | some e => exact h.reverse.find_eq_some_iff.mpr (List.mem_reverse.mpr (mem_of_find hk))

/-! ### The newest entries, in any order -/

section Newest

/-- The first of the greatest entries of a list. -/
def bestOf (ver : α → ℕ) : List α → Option α
  | [] => none
  | v :: vs => some (vs.foldl (fun b v => if ver v > ver b then v else b) v)

/-- The entries of a key. -/
def entriesOf (l : List (κ × α)) (k : κ) : List α := (l.filter fun p => p.1 = k).map Prod.snd

theorem entriesOf_cons (p : κ × α) (l : List (κ × α)) (k : κ) :
    entriesOf (p :: l) k = if p.1 = k then p.2 :: entriesOf l k else entriesOf l k := by
  rw [entriesOf, List.filter_cons]
  by_cases h : p.1 = k <;> simp [h, entriesOf]

theorem mem_entriesOf {l : List (κ × α)} {k : κ} {v : α} : v ∈ entriesOf l k ↔ (k, v) ∈ l := by
  simp only [entriesOf, List.mem_map, List.mem_filter, decide_eq_true_eq]
  constructor
  · rintro ⟨⟨k', v'⟩, ⟨hmem, rfl⟩, rfl⟩
    exact hmem
  · intro hmem
    exact ⟨(k, v), ⟨hmem, rfl⟩, rfl⟩

/-- The best entry is one of the list, and none has a greater version. -/
theorem bestOf_spec {l : List α} {v : α} (h : bestOf ver l = some v) :
    v ∈ l ∧ ∀ v' ∈ l, ver v' ≤ ver v := by
  cases l with
  | nil => cases h
  | cons a l =>
    rw [bestOf, Option.some.injEq] at h
    subst h
    induction l generalizing a with
    | nil => exact ⟨List.mem_cons_self, by simp⟩
    | cons b l ih =>
      rw [List.foldl_cons]
      obtain ⟨hmem, hmax⟩ := ih (if ver b > ver a then b else a)
      set w := if ver b > ver a then b else a with hw
      have hle : w ∈ a :: [b] ∧ ver a ≤ ver w ∧ ver b ≤ ver w := by
        rw [hw]
        split
        · exact ⟨by simp, by omega, Nat.le_refl _⟩
        · exact ⟨by simp, Nat.le_refl _, by omega⟩
      have hbest := hmax w List.mem_cons_self
      constructor
      · rcases List.mem_cons.mp hmem with heq | hmem
        · rw [heq]
          exact List.mem_append_left l hle.1
        · exact List.mem_cons_of_mem _ (List.mem_cons_of_mem _ hmem)
      · intro v' hv'
        rcases List.mem_cons.mp hv' with rfl | hv'
        · exact Nat.le_trans hle.2.1 hbest
        · rcases List.mem_cons.mp hv' with rfl | hv'
          · exact Nat.le_trans hle.2.2 hbest
          · exact hmax v' (List.mem_cons_of_mem _ hv')

theorem bestOf_eq_none {l : List α} (h : bestOf ver l = none) : l = [] := by
  cases l with
  | nil => rfl
  | cons a l => cases h

theorem entriesOf_eq_nil {l : List (κ × α)} {k : κ} (h : ∀ p ∈ l, p.1 ≠ k) : entriesOf l k = [] := by
  rw [entriesOf, List.map_eq_nil_iff, List.filter_eq_nil_iff]
  simpa using h

variable {b : κ × α} {l : List (κ × α)}

omit [LinearOrder κ] in
theorem GroupsBy.merge {p : κ × α} (h : GroupsBy r (b :: p :: l)) (v : α) :
    GroupsBy r ((b.1, v) :: l) := by
  obtain ⟨hb, hpl⟩ := List.pairwise_cons.mp h
  exact List.pairwise_cons.mpr ⟨fun q hq => hb q (List.mem_cons_of_mem _ hq),
    (List.pairwise_cons.mp hpl).2⟩

variable [IsStrictOrder κ r]

omit [LinearOrder κ] in
/-- Where the key changes, all keys to come are beyond. -/
theorem GroupsBy.of_ne {p : κ × α} (h : GroupsBy r (b :: p :: l)) (hne : b.1 ≠ p.1) :
    ∀ q ∈ p :: l, r b.1 q.1 := by
  obtain ⟨hb, hpl⟩ := List.pairwise_cons.mp h
  have hbp : r b.1 p.1 := (hb p List.mem_cons_self).resolve_left hne
  intro q hq
  rcases List.mem_cons.mp hq with rfl | hq
  · exact hbp
  · rcases (List.pairwise_cons.mp hpl).1 q hq with heq | hpq
    · exact heq ▸ hbp
    · exact trans_of r hbp hpq

theorem keysBy_newestFrom (h : GroupsBy r (b :: l)) : KeysBy r (newestFrom ver b l) := by
  induction l generalizing b with
  | nil => exact List.pairwise_singleton _ _
  | cons p l ih =>
    rw [newestFrom]
    split
    case isTrue => exact ih (h.merge _)
    case isFalse hne =>
      refine List.pairwise_cons.mpr ⟨?_, ih (List.pairwise_cons.mp h).2⟩
      intro q hq
      exact h.of_ne hne q (mem_newestFrom hq)

theorem find_newestFrom (h : GroupsBy r (b :: l)) (k : κ) :
    find (newestFrom ver b l) k = bestOf ver (entriesOf (b :: l) k) := by
  induction l generalizing b with
  | nil =>
    rw [newestFrom, find_cons, entriesOf_cons]
    split <;> rfl
  | cons p l ih =>
    rw [newestFrom, entriesOf_cons, entriesOf_cons]
    split
    case isTrue hk =>
      rw [ih (h.merge _), entriesOf_cons, ← hk]
      by_cases hb : b.1 = k
      · rw [if_pos hb, if_pos hb, if_pos hb]
        rfl
      · rw [if_neg hb, if_neg hb, if_neg hb]
    case isFalse hne =>
      rw [find_cons, ih (List.pairwise_cons.mp h).2, ← entriesOf_cons]
      by_cases hb : b.1 = k
      · -- the key does not come again
        have hrest : entriesOf (p :: l) k = [] :=
          entriesOf_eq_nil fun q hq heq => irrefl_of r k (by
            have hbq := h.of_ne hne q hq
            rwa [hb, heq] at hbq)
        rw [if_pos hb, if_pos hb, hrest]
        rfl
      · rw [if_neg hb, if_neg hb]

theorem keysBy_newest (h : GroupsBy r l) : KeysBy r (newest ver l) := by
  cases l with
  | nil => exact List.Pairwise.nil
  | cons b l => exact keysBy_newestFrom h

/-- **A lookup** in the reduced sequence finds the best entry of the key. -/
theorem find_newest_eq (h : GroupsBy r l) (k : κ) :
    find (newest ver l) k = bestOf ver (entriesOf l k) := by
  cases l with
  | nil => rfl
  | cons b l => exact find_newestFrom h k

end Newest

/-! ### Merging two layers -/

section Merge

variable [DecidableRel r]

variable (r) in
/-- Merge two layers that are listed in the order `r`. On equal keys the lower entry comes first. -/
def mergeBy : List (κ × α) → List (κ × α) → List (κ × α)
  | [], m => m
  | p :: s, m => go p s (mergeBy s) m
where
  /-- Take upper entries up to `p`, then `p`. -/
  go (p : κ × α) (s : List (κ × α)) (rest : List (κ × α) → List (κ × α)) :
      List (κ × α) → List (κ × α)
    | [] => p :: s
    | q :: m => if r q.1 p.1 then q :: go p s rest m else p :: rest (q :: m)

variable {s m : List (κ × α)}

omit [LinearOrder κ] in
theorem mergeBy_nil (s : List (κ × α)) : mergeBy r s [] = s := by
  cases s <;> rfl

omit [LinearOrder κ] in
theorem mergeBy_cons_cons (p q : κ × α) (s m : List (κ × α)) :
    mergeBy r (p :: s) (q :: m) =
      if r q.1 p.1 then q :: mergeBy r (p :: s) m else p :: mergeBy r s (q :: m) := rfl

omit [LinearOrder κ] in
theorem mergeBy_perm (s m : List (κ × α)) : (mergeBy r s m).Perm (s ++ m) := by
  induction s generalizing m with
  | nil => exact .refl _
  | cons p s ih =>
    induction m with
    | nil => rw [mergeBy_nil, List.append_nil]
    | cons q m ihm =>
      rw [mergeBy_cons_cons]
      split
      · exact (ihm.cons q).trans List.perm_middle.symm
      · exact (ih (q :: m)).cons p

omit [LinearOrder κ] in
theorem mem_mergeBy {p : κ × α} : p ∈ mergeBy r s m ↔ p ∈ s ∨ p ∈ m := by
  rw [(mergeBy_perm s m).mem_iff, List.mem_append]

variable [IsStrictTotalOrder κ r]

omit [LinearOrder κ] in
/-- Entries of one key come together in the merge. -/
theorem groupsBy_mergeBy (hs : KeysBy r s) (hm : KeysBy r m) : GroupsBy r (mergeBy r s m) := by
  induction s generalizing m with
  | nil => exact hm.imp .inr
  | cons p s ih =>
    obtain ⟨hp, hs'⟩ := List.pairwise_cons.mp hs
    induction m with
    | nil =>
      rw [mergeBy_nil]
      exact hs.imp .inr
    | cons q m ihm =>
      obtain ⟨hq, hm'⟩ := List.pairwise_cons.mp hm
      rw [mergeBy_cons_cons]
      split
      case isTrue hqp =>
        refine List.pairwise_cons.mpr ⟨?_, ihm hm'⟩
        -- what follows `q` is beyond it in either layer
        intro x hx
        rcases mem_mergeBy.mp hx with hx | hx
        · rcases List.mem_cons.mp hx with rfl | hx
          · exact .inr hqp
          · exact .inr (trans_of r hqp (hp x hx))
        · exact .inr (hq x hx)
      case isFalse hqp =>
        refine List.pairwise_cons.mpr ⟨?_, ih hs' hm⟩
        intro x hx
        rcases mem_mergeBy.mp hx with hx | hx
        · exact .inr (hp x hx)
        · have hpq : p.1 = q.1 ∨ r p.1 q.1 := by
            rcases trichotomous_of r p.1 q.1 with h | h | h
            · exact .inr h
            · exact .inl h
            · exact absurd h hqp
          rcases List.mem_cons.mp hx with rfl | hx
          · exact hpq
          · rcases hpq with heq | hlt
            · exact .inr (heq ▸ hq x hx)
            · exact .inr (trans_of r hlt (hq x hx))

/-- On equal keys the lower entry comes first. -/
theorem entriesOf_mergeBy (hs : KeysBy r s) (k : κ) :
    entriesOf (mergeBy r s m) k = entriesOf s k ++ entriesOf m k := by
  induction s generalizing m with
  | nil => rfl
  | cons p s ih =>
    obtain ⟨hp, hs'⟩ := List.pairwise_cons.mp hs
    induction m with
    | nil => rw [mergeBy_nil]; exact (List.append_nil _).symm
    | cons q m ihm =>
      rw [mergeBy_cons_cons]
      split
      case isTrue hqp =>
        rw [entriesOf_cons q, ihm, entriesOf_cons q]
        by_cases hk : q.1 = k
        · -- the lower layer is beyond `q`
          have hnil : entriesOf (p :: s) k = [] := by
            apply entriesOf_eq_nil
            intro x hx heq
            have hqx : r q.1 x.1 := by
              rcases List.mem_cons.mp hx with rfl | hx
              · exact hqp
              · exact trans_of r hqp (hp x hx)
            rw [hk, heq] at hqx
            exact irrefl_of r k hqx
          rw [if_pos hk, if_pos hk, hnil, List.nil_append, List.nil_append]
        · rw [if_neg hk, if_neg hk]
      case isFalse =>
        rw [entriesOf_cons p, ih hs', entriesOf_cons p s]
        split <;> rfl

omit [DecidableRel r] in
/-- The entries of a key in a layer. -/
theorem KeysBy.entriesOf_eq (hs : KeysBy r s) (k : κ) : entriesOf s k = (find s k).toList := by
  induction s with
  | nil => rfl
  | cons p s ih =>
    obtain ⟨hp, hs'⟩ := List.pairwise_cons.mp hs
    rw [entriesOf_cons, find_cons]
    by_cases hk : p.1 = k
    · have hnil : entriesOf s k = [] := by
        apply entriesOf_eq_nil
        intro x hx heq
        have hpx := hp x hx
        rw [hk, heq] at hpx
        exact irrefl_of r k hpx
      rw [if_pos hk, if_pos hk, hnil]
      rfl
    · rw [if_neg hk, if_neg hk, ih hs']

end Merge

/-! ### Overlays -/

/-- The entry that wins: the upper one if its version is greater. -/
def pick (ver : α → ℕ) : Option α → Option α → Option α
  | some s, some m => some (if ver m > ver s then m else s)
  | some s, none => some s
  | none, m => m

/-- The list `n` is the overlay of the layers `s` and `m`, in the order `r`. -/
structure Overlays (r : κ → κ → Prop) (ver : α → ℕ) (s m n : List (κ × α)) : Prop where
  sorted : KeysBy r n
  find_eq : ∀ k, find n k = pick ver (find s k) (find m k)

namespace Overlays

variable [IsStrictOrder κ r] {s m n n' l : List (κ × α)}

/-- A sequence that lists the entries of each key, the lower one first, reduces to the overlay. -/
theorem of_groups (hl : GroupsBy r l)
    (hentries : ∀ k, entriesOf l k = (find s k).toList ++ (find m k).toList) :
    Overlays r ver s m (newest ver l) := by
  refine ⟨keysBy_newest hl, fun k => ?_⟩
  rw [find_newest_eq hl, hentries]
  cases find s k <;> cases find m k <;> rfl

omit [IsStrictOrder κ r] in
/-- Overlays of reversed layers. -/
theorem reverse (h : Overlays (· < ·) ver s m n) (hs : KeysBy (· < ·) s) (hm : KeysBy (· < ·) m) :
    Overlays (· > ·) ver s.reverse m.reverse n.reverse := by
  refine ⟨h.sorted.reverse, fun k => ?_⟩
  rw [h.sorted.find_reverse, hs.find_reverse, hm.find_reverse, h.find_eq]

theorem unique (h : Overlays r ver s m n) (h' : Overlays r ver s m n') : n = n' :=
  h.sorted.ext h'.sorted fun k => by rw [h.find_eq, h'.find_eq]

omit [IsStrictOrder κ r] in
/-- The entries of some keys. -/
theorem filter (h : Overlays r ver s m n) (c : κ → Bool) :
    Overlays r ver (s.filter fun p => c p.1) (m.filter fun p => c p.1)
      (n.filter fun p => c p.1) := by
  refine ⟨h.sorted.filter _, fun k => ?_⟩
  rw [find_filter_key, find_filter_key, find_filter_key, h.find_eq]
  by_cases hk : c k <;> simp [hk, pick]

omit [IsStrictOrder κ r] in
theorem nil_left (hm : KeysBy r m) : Overlays r ver [] m m := ⟨hm, fun _ => rfl⟩

omit [IsStrictOrder κ r] in
/-- **A lower layer that is cut short**: up to the cut, the overlay is that of the whole layers; beyond
it, the upper layer alone. -/
theorem of_cut (h : Overlays r ver s m n) (hm : KeysBy r m) {c : κ → Bool}
    (hc : ∀ a b, c a = true → c b = false → r a b) :
    Overlays r ver (s.filter fun p => c p.1) m
      ((n.filter fun p => c p.1) ++ m.filter fun p => !c p.1) := by
  refine ⟨List.pairwise_append.mpr ⟨h.sorted.filter _, hm.filter _, ?_⟩, fun k => ?_⟩
  · intro p hp q hq
    exact hc p.1 q.1 (List.mem_filter.mp hp).2 (by simpa using (List.mem_filter.mp hq).2)
  · rw [find_append, find_filter_key, find_filter_key, find_filter_key fun k => !c k, h.find_eq]
    by_cases hk : c k
    · simp [hk]
    · simp [hk, pick]

/-- A list in order is its part up to a cut, and the rest. -/
theorem keysBy_split (h : KeysBy r l) {c : κ → Bool}
    (hc : ∀ a b, c a = true → c b = false → r a b) :
    l = (l.filter fun p => c p.1) ++ l.filter fun p => !c p.1 := by
  refine h.ext (List.pairwise_append.mpr ⟨h.filter _, h.filter _, ?_⟩) fun k => ?_
  · intro p hp q hq
    exact hc p.1 q.1 (List.mem_filter.mp hp).2 (by simpa using (List.mem_filter.mp hq).2)
  · rw [find_append, find_filter_key, find_filter_key fun k => !c k]
    by_cases hk : c k <;> simp [hk]

end Overlays

/-- **Reducing the merge** of two layers gives their overlay. -/
theorem Overlays.of_merge [DecidableRel r] [IsStrictTotalOrder κ r] {s m : List (κ × α)}
    (hs : KeysBy r s) (hm : KeysBy r m) :
    Overlays r ver s m (newest ver (mergeBy r s m)) := by
  refine Overlays.of_groups (groupsBy_mergeBy hs hm) ?_
  intro k
  rw [entriesOf_mergeBy hs, hs.entriesOf_eq, hm.entriesOf_eq]
