import Edgestore.Lib.HashTable
import Mathlib.Algebra.BigOperators.Group.List.Basic
import Mathlib.Data.List.Sort
import Mathlib.Order.Lattice

/-!
# Rankings

Scores are added up under their keys, and the keys are ranked: a higher score comes first, and of equal scores the
lesser key. A ranking of different keys does not depend on the order in which they come.

## Main definitions

* `HashTable.tally`: scores are added to those of their keys
* `Outranks`: a higher score, or the same one and a lesser key
* `ranking`: a list in the order of the ranks

## Main results

* `HashTable.get_tally`: the score of a key
* `HashTable.tally_filter_perm`, `HashTable.tally_perm`: the scores of some of the keys, and in another order
* `ranking_pairwise`, `ranking_eq_of_perm`: a ranking is in strict order, and there is only one
* `filter_ranking`: what is kept of a ranking is the ranking of what is kept
-/

namespace HashTable

variable {κ S : Type} [DecidableEq κ] [AddMonoid S]

/-- Add scores to those of their keys. -/
def tally (t : HashTable κ S) (scores : List (κ × S)) : HashTable κ S :=
  scores.foldl (fun t p => t.alter p.1 fun old => old.getD 0 + p.2) t

/-- **The score of a key** is the sum of what was added to it. -/
theorem get_tally (t : HashTable κ S) (scores : List (κ × S)) (k : κ) :
    (t.tally scores).get k =
      if k ∈ scores.map Prod.fst then
        some ((t.get k).getD 0 + ((scores.filter fun p => p.1 = k).map Prod.snd).sum)
      else t.get k := by
  induction scores generalizing t with
  | nil => rfl
  | cons p scores ih =>
    rw [tally, List.foldl_cons, ← tally, ih, get_alter, List.map_cons, List.filter_cons]
    by_cases hk : p.1 = k
    · have hmem : k ∈ p.1 :: scores.map Prod.fst := hk ▸ List.mem_cons_self
      rw [if_pos hk, if_pos hmem, if_pos (decide_eq_true hk), List.map_cons, List.sum_cons, hk]
      split
      case isTrue => rw [Option.getD_some, add_assoc]
      case isFalse hnot =>
        -- no more is added to the key
        have hnil : scores.filter (fun q => decide (q.1 = k)) = [] := List.filter_eq_nil_iff.mpr
          fun q hq => by simpa using fun h : q.1 = k => hnot (h ▸ List.mem_map_of_mem hq)
        rw [hnil, List.map_nil, List.sum_nil, add_zero]
    · have hmem : k ∈ p.1 :: scores.map Prod.fst ↔ k ∈ scores.map Prod.fst :=
        List.mem_cons.trans (or_iff_right fun h => hk h.symm)
      have hdec : ¬ decide (p.1 = k) = true := fun h => hk (of_decide_eq_true h)
      simp only [if_neg hk, hmem, if_neg hdec]

theorem mem_keys_tally {scores : List (κ × S)} {k : κ} :
    k ∈ (empty.tally scores).entries.map Prod.fst ↔ k ∈ scores.map Prod.fst := by
  rw [mem_keys_iff, get_tally]
  split
  case isTrue h => exact iff_of_true ⟨_, rfl⟩ h
  case isFalse h => exact iff_of_false (by rintro ⟨_, ⟨⟩⟩) h

/-- **The scores of some of the keys** are what they are among all keys. -/
theorem tally_filter_perm (scores : List (κ × S)) (keep : κ → Bool) :
    (empty.tally (scores.filter fun p => keep p.1)).entries.Perm
      ((empty.tally scores).entries.filter fun e => keep e.1) := by
  have hget : ∀ k, (empty.tally (scores.filter fun p => keep p.1)).get k =
      if keep k = true then (empty.tally scores).get k else none := by
    intro k
    rw [get_tally, get_tally, List.filter_filter]
    cases hk : keep k with
    | false =>
      have hnot : k ∉ (scores.filter fun p => keep p.1).map Prod.fst := by
        intro hmem
        obtain ⟨p, hp, rfl⟩ := List.mem_map.mp hmem
        rw [(List.mem_filter.mp hp).2] at hk
        cases hk
      rw [if_neg hnot]
      rfl
    | true =>
      have hsame : (scores.filter fun p => decide (p.1 = k) && keep p.1) =
          scores.filter fun p => decide (p.1 = k) := by
        refine List.filter_congr fun p _ => ?_
        by_cases hp : p.1 = k
        · rw [hp, hk, Bool.and_true]
        · rw [decide_eq_false hp, Bool.false_and]
      have hmem : k ∈ (scores.filter fun p => keep p.1).map Prod.fst ↔ k ∈ scores.map Prod.fst := by
        rw [List.mem_map, List.mem_map]
        refine exists_congr fun p => and_congr_left fun hp => ?_
        rw [List.mem_filter, hp, and_iff_left hk]
      simp only [hsame, hmem, if_true]
  have hnodup : ∀ t : HashTable κ S, t.entries.Nodup := fun t => .of_map _ t.nodup
  refine (List.perm_ext_iff_of_nodup (hnodup _) ((hnodup _).filter _)).mpr ?_
  rintro ⟨k, s⟩
  rw [mem_entries_iff, hget, List.mem_filter, mem_entries_iff]
  split
  case isTrue h => exact (and_iff_left h).symm
  case isFalse h => exact iff_of_false (by rintro ⟨⟩) fun hs => h hs.2

/-- **The order in which scores are added** does not matter. -/
theorem tally_perm {S : Type} [AddCommMonoid S] {scores scores' : List (κ × S)} (h : scores.Perm scores') :
    (empty.tally scores).entries.Perm (empty.tally scores').entries := by
  have hnodup : ∀ t : HashTable κ S, t.entries.Nodup := fun t => .of_map _ t.nodup
  refine (List.perm_ext_iff_of_nodup (hnodup _) (hnodup _)).mpr ?_
  rintro ⟨k, s⟩
  rw [mem_entries_iff, mem_entries_iff, get_tally, get_tally]
  have hmem : k ∈ scores.map Prod.fst ↔ k ∈ scores'.map Prod.fst := (h.map Prod.fst).mem_iff
  have hsum := ((h.filter fun p => p.1 = k).map Prod.snd).sum_eq
  rw [hsum]
  simp only [hmem]

end HashTable

section Ranking

variable {α κ S : Type} [LinearOrder κ] [LinearOrder S] {score : α → S} {key : α → κ} {l l' : List α}

/-- A higher score, or the same one and a lesser key. -/
def Outranks (score : α → S) (key : α → κ) (a b : α) : Prop :=
  score b < score a ∨ score b = score a ∧ key a < key b

/-- Whether one element may stand in front of another one. -/
def ranksBefore (score : α → S) (key : α → κ) (a b : α) : Bool :=
  score b < score a ∨ score b = score a ∧ key a ≤ key b

/-- A list in the order of the ranks. -/
def ranking (score : α → S) (key : α → κ) (l : List α) : List α := l.mergeSort (ranksBefore score key)

theorem ranking_perm (l : List α) : (ranking score key l).Perm l := List.mergeSort_perm l _

theorem ranksBefore_iff {a b : α} :
    ranksBefore score key a b = true ↔ score b < score a ∨ score b = score a ∧ key a ≤ key b :=
  decide_eq_true_iff

/-- **A ranking of different keys** is in strict order. -/
theorem ranking_pairwise (h : (l.map key).Nodup) : (ranking score key l).Pairwise (Outranks score key) := by
  have htrans : ∀ a b c : α, ranksBefore score key a b = true → ranksBefore score key b c = true →
      ranksBefore score key a c = true := by
    intro a b c hab hbc
    rw [ranksBefore_iff] at hab hbc ⊢
    rcases hab with hab | ⟨hab, hkey⟩
    · exact .inl (hbc.elim (fun hbc => hbc.trans hab) fun hbc => hbc.1 ▸ hab)
    · rcases hbc with hbc | ⟨hbc, hkey'⟩
      · exact .inl (hab ▸ hbc)
      · exact .inr ⟨hbc.trans hab, hkey.trans hkey'⟩
  have htotal : ∀ a b : α, (ranksBefore score key a b || ranksBefore score key b a) = true := by
    intro a b
    rw [Bool.or_eq_true, ranksBefore_iff, ranksBefore_iff]
    rcases lt_trichotomy (score a) (score b) with hlt | heq | hgt
    · exact .inr (.inl hlt)
    · exact (le_total (key a) (key b)).imp (fun hle => .inr ⟨heq.symm, hle⟩) fun hle => .inr ⟨heq, hle⟩
    · exact .inl (.inl hgt)
  have hsorted : (ranking score key l).Pairwise fun a b => ranksBefore score key a b = true :=
    List.pairwise_mergeSort htrans htotal l
  have hnodup : (ranking score key l).Pairwise fun a b => key a ≠ key b :=
    List.pairwise_map.mp (((ranking_perm l).map key).nodup_iff.mpr h)
  refine (hsorted.and hnodup).imp ?_
  rintro a b ⟨hle, hne⟩
  exact (ranksBefore_iff.mp hle).imp_right fun h => ⟨h.1, lt_of_le_of_ne h.2 hne⟩

theorem Outranks.asymm {a b : α} (h : Outranks score key a b) : ¬ Outranks score key b a := by
  rintro (hlt | ⟨heq, hlt⟩)
  · rcases h with h | ⟨h, -⟩
    · exact lt_asymm h hlt
    · exact hlt.ne h.symm
  · rcases h with h | ⟨-, h⟩
    · exact h.ne heq.symm
    · exact lt_asymm h hlt

/-- Two lists in strict order with the same elements are the same. -/
theorem eq_of_pairwise_outranks (h : l.Pairwise (Outranks score key)) (h' : l'.Pairwise (Outranks score key))
    (hperm : l.Perm l') : l = l' := by
  refine List.Perm.eq_of_pairwise (fun _ _ _ _ hab hba => ?_) h h' hperm
  exact absurd hba (Outranks.asymm hab)

/-- **There is only one ranking**, in whatever order the keys come. -/
theorem ranking_eq_of_perm (h : (l.map key).Nodup) (hperm : l.Perm l') :
    ranking score key l = ranking score key l' :=
  eq_of_pairwise_outranks (ranking_pairwise h) (ranking_pairwise ((hperm.map key).nodup_iff.mp h))
    ((ranking_perm l).trans (hperm.trans (ranking_perm l').symm))

/-- **What is kept of a ranking** is the ranking of what is kept. -/
theorem filter_ranking (h : (l.map key).Nodup) (keep : α → Bool) :
    (ranking score key l).filter keep = ranking score key (l.filter keep) :=
  eq_of_pairwise_outranks ((ranking_pairwise h).sublist List.filter_sublist)
    (ranking_pairwise ((List.filter_sublist.map key).nodup h))
    (((ranking_perm l).filter keep).trans (ranking_perm _).symm)

end Ranking
