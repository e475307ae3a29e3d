import Mathlib.Data.List.Forall2
import Mathlib.Data.List.Induction
import Mathlib.Data.List.Nodup
import Mathlib.Data.List.Perm.Basic
import Mathlib.Order.Nat

/-!
# Hash tables

A table with one entry for each key, in the order in which it is iterated. The order is not part of what a
table means: two tables are the same when one has the entries of the other in some order.

## Main definitions

* `PermUpTo`: the same list, in some order and up to a relation
* `HashTable`: the entries, with distinct keys
* `HashTable.alter`: a new value for a key, from the old one
* `HashTable.insert`, `HashTable.push`, `HashTable.erase`, `HashTable.retain`
* `HashTable.ofEntries`, `HashTable.group`: the table of a list of entries, and of a list of elements under keys
* `HashTable.Same`: the same table, up to the order of the entries and up to a relation between the values

## Main results

* `HashTable.get_alter`, `HashTable.get_retain`: what a change does to the value of a key
* `HashTable.Same.get`: the same tables have related values
* `HashTable.ofEntries_entries`: a table is the table of its entries
* `HashTable.get_group`: a key has the elements under it, in their order
-/

/-- A hash table, in the order in which it is iterated. -/
@[ext] structure HashTable (κ ν : Type) where
  entries : List (κ × ν)
  nodup : (entries.map Prod.fst).Nodup

/-! ### Lists in some order -/

section PermUpTo

variable {α : Type} {P Q R : α → α → Prop} {as bs cs : List α}

/-- The same list, in some order and up to a relation. -/
def PermUpTo (R : α → α → Prop) (as bs : List α) : Prop := ∃ cs, as.Perm cs ∧ List.Forall₂ R cs bs

theorem PermUpTo.of_forall₂ (h : List.Forall₂ R as bs) : PermUpTo R as bs := ⟨as, List.Perm.refl as, h⟩

theorem PermUpTo.of_perm (hR : ∀ a, R a a) (h : as.Perm bs) : PermUpTo R as bs :=
  ⟨bs, h, List.forall₂_same.mpr fun a _ => hR a⟩

theorem PermUpTo.symm (hR : ∀ a b, R a b → R b a) (h : PermUpTo R as bs) : PermUpTo R bs as := by
  obtain ⟨cs, hperm, hall⟩ := h
  obtain ⟨ds, hall', hperm'⟩ := List.perm_comp_forall₂ hperm hall
  exact ⟨ds, hperm'.symm, hall'.flip.imp fun _ _ => hR _ _⟩

theorem PermUpTo.append {ds : List α} (h : PermUpTo R as bs) (h' : PermUpTo R cs ds) :
    PermUpTo R (as ++ cs) (bs ++ ds) := by
  obtain ⟨es, hperm, hall⟩ := h
  obtain ⟨fs, hperm', hall'⟩ := h'
  exact ⟨es ++ fs, hperm.append hperm', List.rel_append hall hall'⟩

/-- Related elements are kept alike. -/
theorem forall₂_filter {p : α → Bool} (hp : ∀ a b, R a b → p a = p b) (h : List.Forall₂ R as bs) :
    List.Forall₂ R (as.filter p) (bs.filter p) := by
  induction h with
  | nil => exact .nil
  | @cons a b as bs hab _ ih =>
    rw [List.filter_cons, List.filter_cons, hp a b hab]
    split
    · exact .cons hab ih
    · exact ih

theorem PermUpTo.filter {p : α → Bool} (hp : ∀ a b, R a b → p a = p b) (h : PermUpTo R as bs) :
    PermUpTo R (as.filter p) (bs.filter p) := by
  obtain ⟨cs, hperm, hall⟩ := h
  exact ⟨cs.filter p, hperm.filter p, forall₂_filter hp hall⟩

theorem forall₂_comp (hPQ : ∀ a b c, P a b → Q b c → R a c) (hP : List.Forall₂ P as bs)
    (hQ : List.Forall₂ Q bs cs) : List.Forall₂ R as cs := by
  induction hP generalizing cs with
  | nil =>
    cases hQ
    exact .nil
  | cons hab _ ih =>
    cases hQ with
    | cons hbc hQ => exact .cons (hPQ _ _ _ hab hbc) (ih hQ)

theorem PermUpTo.trans (hR : ∀ a b c, R a b → R b c → R a c) (h : PermUpTo R as bs) (h' : PermUpTo R bs cs) :
    PermUpTo R as cs := by
  obtain ⟨ds, hperm, hall⟩ := h
  obtain ⟨es, hperm', hall'⟩ := h'
  -- the elements of the second list are put in the order of the third one
  have hcomp : Relation.Comp (List.Forall₂ R) List.Perm ds es := ⟨bs, hall, hperm'⟩
  rw [List.forall₂_comp_perm_eq_perm_comp_forall₂] at hcomp
  obtain ⟨fs, hperm'', hall''⟩ := hcomp
  exact ⟨fs, hperm.trans hperm'', forall₂_comp hR hall'' hall'⟩

end PermUpTo

namespace HashTable

variable {κ ν μ : Type}

/-- No entries. -/
def empty : HashTable κ ν := ⟨[], List.nodup_nil⟩

@[simp] theorem entries_empty : (empty : HashTable κ ν).entries = [] := rfl

/-- Change the values, and keep the entries whose value is to be kept. -/
def retain (t : HashTable κ ν) (change : ν → ν) (keep : ν → Bool) : HashTable κ ν where
  entries := (t.entries.map fun e => (e.1, change e.2)).filter fun e => keep e.2
  nodup := by
    have hkeys : ((t.entries.map fun e => (e.1, change e.2)).map Prod.fst) = t.entries.map Prod.fst := by
      rw [List.map_map]
      rfl
    exact (List.filter_sublist.map Prod.fst).nodup (hkeys ▸ t.nodup)

theorem mem_retain {t : HashTable κ ν} {change : ν → ν} {keep : ν → Bool} {e : κ × ν} :
    e ∈ (t.retain change keep).entries ↔
      keep e.2 = true ∧ ∃ v, (e.1, v) ∈ t.entries ∧ change v = e.2 := by
  unfold retain
  rw [List.mem_filter, List.mem_map]
  constructor
  · rintro ⟨⟨e', he', rfl⟩, hkeep⟩
    exact ⟨hkeep, e'.2, he', rfl⟩
  · rintro ⟨hkeep, v, hv, hchange⟩
    exact ⟨⟨(e.1, v), hv, by rw [hchange]⟩, hkeep⟩

theorem length_retain_le (t : HashTable κ ν) (change : ν → ν) (keep : ν → Bool) :
    (t.retain change keep).entries.length ≤ t.entries.length := by
  unfold retain
  exact (List.length_filter_le _ _).trans_eq (List.length_map _)

/-! ### Entries -/

section Alter

variable [DecidableEq κ]

/-- A new value for a key among the entries, from the old one. -/
def alterEntries (f : Option ν → ν) (k : κ) : List (κ × ν) → List (κ × ν)
  | [] => [(k, f none)]
  | e :: es => if e.1 = k then (k, f (some e.2)) :: es else e :: alterEntries f k es

/-- The value of a key among the entries. -/
def getEntry (k : κ) : List (κ × ν) → Option ν
  | [] => none
  | e :: es => if e.1 = k then some e.2 else getEntry k es

variable {f : Option ν → ν} {k : κ}

theorem keys_alterEntries (es : List (κ × ν)) :
    (alterEntries f k es).map Prod.fst =
      if k ∈ es.map Prod.fst then es.map Prod.fst else es.map Prod.fst ++ [k] := by
  induction es with
  | nil => rfl
  | cons e es ih =>
    unfold alterEntries
    split
    case isTrue hk =>
      rw [if_pos (by rw [List.map_cons, hk]; exact List.mem_cons_self), List.map_cons, List.map_cons, hk]
    case isFalse hk =>
      have hiff : k ∈ (e :: es).map Prod.fst ↔ k ∈ es.map Prod.fst := by
        rw [List.map_cons, List.mem_cons]
        exact or_iff_right fun h => hk h.symm
      simp only [List.map_cons, ih] at hiff ⊢
      simp only [hiff]
      split <;> rfl

theorem nodup_alterEntries {es : List (κ × ν)} (h : (es.map Prod.fst).Nodup) :
    ((alterEntries f k es).map Prod.fst).Nodup := by
  rw [keys_alterEntries]
  split
  case isTrue => exact h
  case isFalse hk =>
    rw [List.nodup_append]
    refine ⟨h, List.nodup_singleton k, fun a ha b hb hab => hk ?_⟩
    rw [List.mem_singleton] at hb
    exact hb ▸ hab ▸ ha

theorem mem_alterEntries {es : List (κ × ν)} {e : κ × ν} (he : e ∈ alterEntries f k es) :
    e ∈ es ∨ e = (k, f (getEntry k es)) := by
  induction es with
  | nil => exact .inr (List.mem_singleton.mp he)
  | cons e' es ih =>
    unfold alterEntries at he
    unfold getEntry
    split at he
    case isTrue hk =>
      rw [if_pos hk]
      rcases List.mem_cons.mp he with rfl | he
      · exact .inr rfl
      · exact .inl (List.mem_cons_of_mem _ he)
    case isFalse hk =>
      rw [if_neg hk]
      rcases List.mem_cons.mp he with rfl | he
      · exact .inl List.mem_cons_self
      · exact (ih he).imp_left (List.mem_cons_of_mem _)

theorem alterEntries_of_notMem {es : List (κ × ν)} (h : k ∉ es.map Prod.fst) :
    alterEntries f k es = es ++ [(k, f none)] := by
  induction es with
  | nil => rfl
  | cons e es ih =>
    rw [List.map_cons, List.mem_cons, not_or] at h
    rw [alterEntries, if_neg fun hk => h.1 hk.symm, ih h.2, List.cons_append]

theorem mem_of_getEntry {es : List (κ × ν)} {v : ν} (h : getEntry k es = some v) : (k, v) ∈ es := by
  induction es with
  | nil => cases h
  | cons e es ih =>
    unfold getEntry at h
    split at h
    case isTrue hk =>
      cases h
      exact hk ▸ List.mem_cons_self
    case isFalse => exact List.mem_cons_of_mem _ (ih h)

theorem getEntry_alterEntries (es : List (κ × ν)) (j : κ) :
    getEntry j (alterEntries f k es) = if k = j then some (f (getEntry k es)) else getEntry j es := by
  induction es with
  | nil => rfl
  | cons e es ih =>
    unfold alterEntries
    by_cases hk : e.1 = k
    · rw [if_pos hk, getEntry, getEntry, getEntry, if_pos hk, hk]
      split <;> rfl
    · rw [if_neg hk, getEntry, getEntry, getEntry, if_neg hk, ih]
      by_cases hj : e.1 = j
      · rw [if_pos hj, if_pos hj, if_neg fun h => hk (hj.trans h.symm)]
      · rw [if_neg hj, if_neg hj]

theorem getEntry_of_mem {es : List (κ × ν)} (hnodup : (es.map Prod.fst).Nodup) {v : ν} (h : (k, v) ∈ es) :
    getEntry k es = some v := by
  induction es with
  | nil => cases h
  | cons e es ih =>
    rw [List.map_cons, List.nodup_cons] at hnodup
    rw [getEntry]
    rcases List.mem_cons.mp h with rfl | h
    · exact if_pos rfl
    · rw [if_neg fun hk => hnodup.1 (List.mem_map.mpr ⟨_, h, hk.symm⟩), ih hnodup.2 h]

end Alter

section Tables

variable [DecidableEq κ] {t s : HashTable κ ν} {k : κ}

/-- A new value for a key, from the old one. -/
def alter (t : HashTable κ ν) (k : κ) (f : Option ν → ν) : HashTable κ ν :=
  ⟨alterEntries f k t.entries, nodup_alterEntries t.nodup⟩

/-- The value of a key. -/
def get (t : HashTable κ ν) (k : κ) : Option ν := getEntry k t.entries

/-- Set the value of a key. -/
def insert (t : HashTable κ ν) (k : κ) (v : ν) : HashTable κ ν := t.alter k fun _ => v

/-- Drop the entry of a key. -/
def erase (t : HashTable κ ν) (k : κ) : HashTable κ ν where
  entries := t.entries.filter fun e => e.1 ≠ k
  nodup := (List.filter_sublist.map Prod.fst).nodup t.nodup

/-- Put an element behind those of a key. -/
def push (t : HashTable κ (List ν)) (k : κ) (v : ν) : HashTable κ (List ν) :=
  t.alter k fun old => old.getD [] ++ [v]

theorem length_alter_le (t : HashTable κ ν) (k : κ) (f : Option ν → ν) :
    (t.alter k f).entries.length ≤ t.entries.length + 1 := by
  have hlen := congrArg List.length (keys_alterEntries (f := f) (k := k) t.entries)
  rw [List.length_map] at hlen
  refine hlen.le.trans ?_
  split
  · rw [List.length_map]
    exact Nat.le_succ _
  · rw [List.length_append, List.length_map, List.length_singleton]

/-- What holds of the entries and of the new one holds behind it. -/
theorem mem_alter {f : Option ν → ν} {e : κ × ν} (he : e ∈ (t.alter k f).entries) :
    e ∈ t.entries ∨ e = (k, f (t.get k)) := mem_alterEntries he

/-- The elements of a key, behind a new one. -/
theorem mem_push {t : HashTable κ (List ν)} {v : ν} {e : κ × List ν} (he : e ∈ (t.push k v).entries) :
    e ∈ t.entries ∨ e = (k, [v]) ∨ ∃ vs, (k, vs) ∈ t.entries ∧ e = (k, vs ++ [v]) := by
  refine (mem_alter he).imp_right fun heq => ?_
  cases hget : t.get k with
  | none => exact .inl (by rw [heq, hget]; rfl)
  | some vs => exact .inr ⟨vs, mem_of_getEntry hget, by rw [heq, hget]; rfl⟩

theorem mem_entries_iff {v : ν} : (k, v) ∈ t.entries ↔ t.get k = some v :=
  ⟨getEntry_of_mem t.nodup, mem_of_getEntry⟩

theorem mem_keys_iff : k ∈ t.entries.map Prod.fst ↔ ∃ v, t.get k = some v := by
  rw [List.mem_map]
  constructor
  · rintro ⟨e, he, rfl⟩
    exact ⟨e.2, mem_entries_iff.mp he⟩
  · rintro ⟨v, hv⟩
    exact ⟨(k, v), mem_entries_iff.mpr hv, rfl⟩

theorem get_alter (t : HashTable κ ν) (k : κ) (f : Option ν → ν) (j : κ) :
    (t.alter k f).get j = if k = j then some (f (t.get k)) else t.get j := getEntry_alterEntries t.entries j

theorem get_insert (t : HashTable κ ν) (k : κ) (v : ν) (j : κ) :
    (t.insert k v).get j = if k = j then some v else t.get j := get_alter t k _ j

theorem get_erase (t : HashTable κ ν) (k j : κ) : (t.erase k).get j = if k = j then none else t.get j := by
  ext v
  rw [← mem_entries_iff, erase, List.mem_filter, mem_entries_iff, decide_eq_true_iff]
  split
  case isTrue h => exact iff_of_false (fun hv => hv.2 h.symm) nofun
  case isFalse h => exact and_iff_left fun hj => h hj.symm

/-- A value that is changed may be dropped. -/
theorem get_retain (t : HashTable κ ν) (change : ν → ν) (keep : ν → Bool) (j : κ) :
    (t.retain change keep).get j = ((t.get j).map change).filter keep := by
  ext v
  rw [← mem_entries_iff, mem_retain, Option.filter_eq_some_iff, Option.map_eq_some_iff, and_comm]
  simp only [mem_entries_iff]

/-- The table of a list of entries. -/
def ofEntries (es : List (κ × ν)) : HashTable κ ν :=
  es.foldl (fun t e => t.insert e.1 e.2) empty

theorem entries_foldl_insert (es : List (κ × ν)) :
    ∀ t : HashTable κ ν, ((t.entries ++ es).map Prod.fst).Nodup →
      (es.foldl (fun t e => t.insert e.1 e.2) t).entries = t.entries ++ es := by
  induction es with
  | nil =>
    intro t _
    exact (List.append_nil _).symm
  | cons e es ih =>
    intro t hnodup
    have hnew : e.1 ∉ t.entries.map Prod.fst := by
      rw [List.map_append, List.nodup_append] at hnodup
      exact fun hmem => hnodup.2.2 e.1 hmem e.1 List.mem_cons_self rfl
    have hins : (t.insert e.1 e.2).entries = t.entries ++ [e] := alterEntries_of_notMem hnew
    rw [List.foldl_cons, ih, hins, List.append_assoc, List.singleton_append]
    rw [hins, List.append_assoc, List.singleton_append]
    exact hnodup

/-- A table is the table of its entries. -/
@[simp] theorem ofEntries_entries (t : HashTable κ ν) : ofEntries t.entries = t := by
  apply HashTable.ext
  exact entries_foldl_insert t.entries empty t.nodup

theorem length_foldl_insert_le (es : List (κ × ν)) :
    ∀ t : HashTable κ ν,
      (es.foldl (fun t e => t.insert e.1 e.2) t).entries.length ≤ t.entries.length + es.length := by
  induction es with
  | nil => exact fun t => le_rfl
  | cons e es ih =>
    intro t
    have hins : (t.insert e.1 e.2).entries.length ≤ t.entries.length + 1 := length_alter_le t e.1 _
    have hfold := ih (t.insert e.1 e.2)
    rw [List.foldl_cons, List.length_cons]
    omega

theorem length_ofEntries_le (es : List (κ × ν)) : (ofEntries es).entries.length ≤ es.length := by
  have h := length_foldl_insert_le es empty
  rwa [entries_empty, List.length_nil, Nat.zero_add] at h

theorem mem_foldl_insert {es : List (κ × ν)} {e : κ × ν} :
    ∀ {t : HashTable κ ν}, e ∈ (es.foldl (fun t e => t.insert e.1 e.2) t).entries →
      e ∈ t.entries ∨ e ∈ es := by
  induction es with
  | nil => exact .inl
  | cons e' es ih =>
    intro t he
    rcases ih he with he | he
    · refine (mem_alter he).imp_right fun heq => ?_
      rw [heq]
      exact List.mem_cons_self
    · exact .inr (List.mem_cons_of_mem _ he)

theorem mem_of_mem_ofEntries {es : List (κ × ν)} {e : κ × ν} (he : e ∈ (ofEntries es).entries) : e ∈ es :=
  (mem_foldl_insert he).resolve_left List.not_mem_nil

/-- Elements are put behind those of distinct keys. -/
theorem get_foldl_push {mk : μ → ν} {es : List (κ × μ)} (hnodup : (es.map Prod.fst).Nodup) (k : κ) :
    ∀ t : HashTable κ (List ν), (es.foldl (fun t e => t.push e.1 (mk e.2)) t).get k =
      match getEntry k es with
      | some w => some ((t.get k).getD [] ++ [mk w])
      | none => t.get k := by
  induction es with
  | nil => exact fun t => rfl
  | cons e es ih =>
    intro t
    rw [List.map_cons, List.nodup_cons] at hnodup
    rw [List.foldl_cons, ih hnodup.2, push, get_alter, getEntry]
    by_cases hk : e.1 = k
    · have hnone : getEntry k es = none := by
        cases hget : getEntry k es with
        | none => rfl
        | some v => exact absurd (List.mem_map.mpr ⟨_, mem_of_getEntry hget, hk.symm⟩) hnodup.1
      rw [hnone, if_pos hk, if_pos hk, hk]
    · rw [if_neg hk, if_neg hk]

/-! ### Elements under keys -/

/-- The table of a list of elements under keys: a key has its elements, in their order. -/
def group (ps : List (κ × ν)) : HashTable κ (List ν) :=
  ps.foldl (fun t p => t.push p.1 p.2) empty

theorem group_concat (ps : List (κ × ν)) (p : κ × ν) : group (ps ++ [p]) = (group ps).push p.1 p.2 :=
  List.foldl_append

/-- A key has the elements under it, if there are any. -/
theorem get_group (ps : List (κ × ν)) (k : κ) : (group ps).get k =
    if ps.filter (fun p => p.1 = k) = [] then none
    else some ((ps.filter fun p => p.1 = k).map Prod.snd) := by
  induction ps using List.reverseRecOn with
  | nil => rfl
  | append_singleton ps p ih =>
    rw [group_concat, push, get_alter, List.filter_append, ih]
    by_cases hk : p.1 = k
    · have hlast : [p].filter (fun p => decide (p.1 = k)) = [p] :=
        List.filter_cons_of_pos (decide_eq_true hk)
      rw [hlast, if_pos hk, hk, ih, if_neg (List.append_ne_nil_of_right_ne_nil _ (List.cons_ne_nil _ _)),
        List.map_append]
      split
      case isTrue hnil => rw [hnil]; rfl
      case isFalse => rfl
    · have hlast : [p].filter (fun p => decide (p.1 = k)) = [] :=
        List.filter_cons_of_neg (by simpa using hk)
      rw [hlast, if_neg hk, List.append_nil]

theorem length_group_le (ps : List (κ × ν)) : (group ps).entries.length ≤ ps.length := by
  induction ps using List.reverseRecOn with
  | nil => exact le_rfl
  | append_singleton ps p ih =>
    rw [group_concat, List.length_append, List.length_singleton]
    exact (length_alter_le (group ps) p.1 _).trans (Nat.succ_le_succ ih)

/-- What a key has are elements under it. -/
theorem sublist_of_mem_group {ps : List (κ × ν)} {e : κ × List ν} (he : e ∈ (group ps).entries) :
    (e.2.map fun v => (e.1, v)).Sublist ps := by
  induction ps using List.reverseRecOn generalizing e with
  | nil => cases he
  | append_singleton ps p ih =>
    rw [group_concat] at he
    rcases mem_push he with he | rfl | ⟨vs, hvs, rfl⟩
    · exact (ih he).trans (List.sublist_append_left _ _)
    · exact List.sublist_append_right _ _
    · rw [List.map_append]
      exact (ih hvs).append_right _

/-- A key is one of the elements. -/
theorem exists_of_mem_group {ps : List (κ × ν)} {e : κ × List ν} (he : e ∈ (group ps).entries) :
    ∃ v, (e.1, v) ∈ ps := by
  induction ps using List.reverseRecOn generalizing e with
  | nil => cases he
  | append_singleton ps p ih =>
    rw [group_concat] at he
    rcases mem_push he with he | rfl | ⟨vs, -, rfl⟩
    · obtain ⟨v, hv⟩ := ih he
      exact ⟨v, List.mem_append_left _ hv⟩
    · exact ⟨p.2, List.mem_append_right _ List.mem_cons_self⟩
    · exact ⟨p.2, List.mem_append_right _ List.mem_cons_self⟩

end Tables

/-! ### The same table -/

/-- Two tables with the same keys, in any order, and with related values. -/
def Same (R : ν → ν → Prop) (t s : HashTable κ ν) : Prop :=
  ∃ es, t.entries.Perm es ∧ List.Forall₂ (fun a b => a.1 = b.1 ∧ R a.2 b.2) es s.entries

variable {R : ν → ν → Prop} {t s : HashTable κ ν}

theorem Same.of_eq (hR : ∀ v, R v v) (h : t = s) : t.Same R s := by
  subst h
  exact ⟨t.entries, List.Perm.refl _, List.forall₂_same.mpr fun e _ => ⟨rfl, hR e.2⟩⟩

theorem Same.length_eq (h : t.Same R s) : t.entries.length = s.entries.length := by
  obtain ⟨es, hperm, hall⟩ := h
  exact hperm.length_eq.trans hall.length_eq

/-- An entry of the one table is an entry of the other one. -/
theorem Same.exists_right (h : t.Same R s) {e : κ × ν} (he : e ∈ t.entries) :
    ∃ v, (e.1, v) ∈ s.entries ∧ R e.2 v := by
  obtain ⟨es, hperm, hall⟩ := h
  obtain ⟨i, hi, hget⟩ := List.getElem_of_mem (hperm.mem_iff.mp he)
  have hi' : i < s.entries.length := hall.length_eq ▸ hi
  have hrel := hall.get hi hi'
  rw [List.get_eq_getElem, hget] at hrel
  refine ⟨s.entries[i].2, ?_, hrel.2⟩
  rw [hrel.1]
  exact List.getElem_mem hi'

/-- An entry of the other table is an entry of the one. -/
theorem Same.exists_left (h : t.Same R s) {e : κ × ν} (he : e ∈ s.entries) :
    ∃ v, (e.1, v) ∈ t.entries ∧ R v e.2 := by
  obtain ⟨es, hperm, hall⟩ := h
  obtain ⟨i, hi, hget⟩ := List.getElem_of_mem he
  have hi' : i < es.length := hall.length_eq ▸ hi
  have hrel := hall.get hi' hi
  rw [List.get_eq_getElem, List.get_eq_getElem, hget] at hrel
  refine ⟨es[i].2, hperm.mem_iff.mpr ?_, hrel.2⟩
  rw [← hrel.1]
  exact List.getElem_mem hi'

/-- The values of a key are related. -/
theorem Same.get [DecidableEq κ] (h : t.Same R s) (k : κ) : Option.Rel R (t.get k) (s.get k) := by
  cases ht : t.get k with
  | some v =>
    obtain ⟨w, hw, hvw⟩ := h.exists_right (mem_entries_iff.mpr ht)
    rw [mem_entries_iff.mp hw]
    exact .some hvw
  | none =>
    cases hs : s.get k with
    | none => exact .none
    | some w =>
      obtain ⟨v, hv, -⟩ := h.exists_left (mem_entries_iff.mpr hs)
      rw [mem_entries_iff.mp hv] at ht
      cases ht

theorem Same.symm (hR : ∀ v w, R v w → R w v) (h : t.Same R s) : s.Same R t :=
  PermUpTo.symm (fun _ _ h => ⟨h.1.symm, hR _ _ h.2⟩) h

theorem Same.trans {u : HashTable κ ν} (hR : ∀ v w x, R v w → R w x → R v x) (h : t.Same R s)
    (h' : s.Same R u) : t.Same R u :=
  PermUpTo.trans (fun _ _ _ h h' => ⟨h.1.trans h'.1, hR _ _ _ h.2 h'.2⟩) h h'

end HashTable
