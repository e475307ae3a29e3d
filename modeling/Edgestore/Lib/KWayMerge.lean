import Edgestore.Lib.SortedMap
import Mathlib.Algebra.GroupWithZero.Nat

/-!
# Merging sorted streams with versions

A k-way merge pops the head with the least key from a heap that holds one head of each stream, and
refills the heap from the stream it popped from. Streams may end in an error, which surfaces when
the element before it is popped. Among heads of one key, the one with the least version comes first,
then the one that entered the heap first.

A sorted sequence in which keys repeat is then reduced to the entry with the greatest version of each
key.

## Main definitions

* `KWayMerge.popMin`: the least head of a heap
* `KWayMerge.merged`: the popped sequence
* `newest ver l`: the entry with the greatest version of each key of a sorted sequence

## Main results

* `KWayMerge.merged_eq`: merging sorted streams without errors sorts their elements
* `find_newest`: what a lookup in the reduced sequence finds
-/

namespace KWayMerge

variable {κ α ε : Type} [LinearOrder κ] (ver : α → ℕ)

/-- A head: key, value and the number of its stream. -/
structure Head (κ α : Type) where
  key : κ
  val : α
  stream : ℕ

/-- Whether a head is popped before another. -/
def Head.before (a b : Head κ α) : Prop := a.key < b.key ∨ a.key = b.key ∧ ver a.val < ver b.val

instance (a b : Head κ α) : Decidable (a.before ver b) :=
  inferInstanceAs (Decidable (_ ∨ _))

/-- The head that is popped first, and the others. -/
def popMin : List (Head κ α) → Option (Head κ α × List (Head κ α))
  | [] => none
  | a :: heap =>
    match popMin heap with
    | none => some (a, [])
    | some (b, rest) => if b.before ver a then some (b, a :: rest) else some (a, b :: rest)

/-- Take the next element of a stream. -/
def advance (streams : List (List (Except ε (κ × α)))) (i : ℕ) :
    Option (Except ε (κ × α)) × List (List (Except ε (κ × α))) :=
  match streams[i]? with
  | some (x :: xs) => (some x, streams.set i xs)
  | _ => (none, streams)

/-- The popped sequence, with a bound on its length. -/
def popSeq : ℕ → List (Head κ α) → List (List (Except ε (κ × α))) → List (Except ε (κ × α))
  | 0, _, _ => []
  | n + 1, heap, streams =>
    match popMin ver heap with
    | none => []
    | some (a, rest) =>
      match advance streams a.stream with
      | (none, streams') => .ok (a.key, a.val) :: popSeq n rest streams'
      | (some (.ok p), streams') =>
        .ok (a.key, a.val) :: popSeq n (rest ++ [⟨p.1, p.2, a.stream⟩]) streams'
      | (some (.error e), _) => [.error e]

/-- The first head of every stream, and the rest of the streams. -/
def seed : ℕ → List (List (Except ε (κ × α))) →
    Except ε (List (Head κ α) × List (List (Except ε (κ × α))))
  | _, [] => .ok ([], [])
  | i, [] :: streams => do
    let (heap, rest) ← seed (i + 1) streams
    return (heap, [] :: rest)
  | i, (x :: xs) :: streams => do
    let p ← x
    let (heap, rest) ← seed (i + 1) streams
    return (⟨p.1, p.2, i⟩ :: heap, xs :: rest)

/-- The popped sequence of a merge of streams. -/
def merged (streams : List (List (Except ε (κ × α)))) : Except ε (List (Except ε (κ × α))) := do
  let (heap, rest) ← seed 0 streams
  return popSeq ver (streams.map List.length).sum heap rest

/-! ### Popping -/

variable {ver}

/-- The element a head stands for. -/
def Head.item (h : Head κ α) : κ × α := (h.key, h.val)

theorem popMin_eq_none {heap : List (Head κ α)} (h : popMin ver heap = none) : heap = [] := by
  cases heap with
  | nil => rfl
  | cons a heap =>
    rw [popMin] at h
    split at h
    · cases h
    · split at h <;> cases h

/-- Popping takes out a head with the least key. -/
theorem popMin_spec {heap rest : List (Head κ α)} {a : Head κ α}
    (h : popMin ver heap = some (a, rest)) : heap.Perm (a :: rest) ∧ ∀ b ∈ rest, a.key ≤ b.key := by
  induction heap generalizing a rest with
  | nil => cases h
  | cons c heap ih =>
    rw [popMin] at h
    cases hp : popMin ver heap with
    | none =>
      rw [hp] at h
      cases h
      rw [popMin_eq_none hp]
      exact ⟨.refl _, by simp⟩
    | some br =>
      obtain ⟨b, others⟩ := br
      obtain ⟨hperm, hle⟩ := ih hp
      rw [hp] at h
      simp only at h
      by_cases hb : b.before ver c
      · rw [if_pos hb] at h
        cases h
        refine ⟨(hperm.cons c).trans (.swap ..), fun d hd => ?_⟩
        rcases List.mem_cons.mp hd with rfl | hd
        · exact hb.elim le_of_lt fun h => h.1.le
        · exact hle d hd
      · rw [if_neg hb] at h
        cases h
        have hcb : c.key ≤ b.key := not_lt.mp fun hlt => hb (.inl hlt)
        refine ⟨hperm.cons c, fun d hd => ?_⟩
        rcases List.mem_cons.mp hd with rfl | hd
        · exact hcb
        · exact hcb.trans (hle d hd)

/-! ### Merging -/

/-- The elements that are still to be popped: those of the heads, and the rest of the streams. -/
def pending (heap : List (Head κ α)) (streams : List (List (κ × α))) : List (κ × α) :=
  heap.map Head.item ++ streams.flatten

/-- Streams without errors. -/
def okStreams (ε : Type) (streams : List (List (κ × α))) : List (List (Except ε (κ × α))) :=
  streams.map (List.map .ok)

/-- Every stream with elements left has a head in the heap that comes before them. -/
structure Ready (i : ℕ) (heap : List (Head κ α)) (streams : List (List (κ × α))) : Prop where
  sorted : ∀ l ∈ streams, l.Pairwise fun p q => p.1 ≤ q.1
  head : ∀ j l, streams[j]? = some l → l ≠ [] → ∃ h ∈ heap, h.stream = i + j ∧ ∀ p ∈ l, h.key ≤ p.1

/-- A head with the least key comes before all elements still to be popped. -/
theorem Ready.le_pending {heap rest : List (Head κ α)} {streams : List (List (κ × α))} {a : Head κ α}
    (h : Ready 0 heap streams) (ha : popMin ver heap = some (a, rest)) :
    ∀ p ∈ pending rest streams, a.key ≤ p.1 := by
  obtain ⟨hperm, hle⟩ := popMin_spec ha
  intro p hp
  rcases List.mem_append.mp hp with hp | hp
  · obtain ⟨b, hb, rfl⟩ := List.mem_map.mp hp
    exact hle b hb
  · obtain ⟨l, hl, hp⟩ := List.mem_flatten.mp hp
    obtain ⟨j, hj⟩ := List.mem_iff_getElem?.mp hl
    obtain ⟨b, hb, -, hbp⟩ := h.head j l hj (List.ne_nil_of_mem hp)
    rcases List.mem_cons.mp (hperm.mem_iff.mp hb) with rfl | hb
    · exact hbp p hp
    · exact (hle b hb).trans (hbp p hp)

omit [LinearOrder κ] in
theorem advance_cons {ε : Type} {streams : List (List (κ × α))} {i : ℕ} {x : κ × α}
    {xs : List (κ × α)} (h : streams[i]? = some (x :: xs)) :
    advance (okStreams ε streams) i = (some (.ok x), okStreams ε (streams.set i xs)) := by
  simp [advance, okStreams, h, List.map_set]

omit [LinearOrder κ] in
theorem advance_nil {ε : Type} {streams : List (List (κ × α))} {i : ℕ}
    (h : ∀ l, streams[i]? = some l → l = []) :
    advance (okStreams ε streams) i = (none, okStreams ε streams) := by
  cases hi : streams[i]? with
  | none => simp [advance, okStreams, hi]
  | some l =>
    obtain rfl := h l hi
    simp [advance, okStreams, hi]

omit [LinearOrder κ] in
theorem flatten_set_perm {streams : List (List (κ × α))} {i : ℕ} {x : κ × α} {xs : List (κ × α)}
    (h : streams[i]? = some (x :: xs)) : streams.flatten.Perm (x :: (streams.set i xs).flatten) := by
  obtain ⟨hi, hx⟩ := List.getElem?_eq_some_iff.mp h
  rw [List.set_eq_take_append_cons_drop, if_pos hi]
  nth_rewrite 1 [← List.take_append_drop i streams, List.drop_eq_getElem_cons hi, hx]
  simp only [List.flatten_append, List.flatten_cons, List.cons_append]
  exact List.perm_middle

variable (ver) in
/-- **Popping** pops every pending element, in key order. -/
theorem popSeq_eq {ε : Type} {n : ℕ} {heap : List (Head κ α)} {streams : List (List (κ × α))}
    (h : Ready 0 heap streams) (hn : (pending heap streams).length ≤ n) :
    ∃ out : List (κ × α), popSeq ver n heap (okStreams ε streams) = out.map .ok ∧ out.Perm (pending heap streams) ∧
      out.Pairwise fun p q => p.1 ≤ q.1 := by
  induction n generalizing heap streams with
  | zero =>
    rw [List.length_eq_zero_iff.mp (Nat.le_zero.mp hn)]
    exact ⟨[], rfl, .refl _, .nil⟩
  | succ n ih =>
    rw [popSeq]
    cases hp : popMin ver heap with
    | none =>
      -- an empty heap leaves no stream with elements
      have hnil : pending heap streams = [] := by
        obtain rfl := popMin_eq_none hp
        refine List.eq_nil_iff_forall_not_mem.mpr fun p hmem => ?_
        obtain ⟨l, hl, hmem⟩ := List.mem_flatten.mp (by simpa [pending] using hmem)
        obtain ⟨j, hj⟩ := List.mem_iff_getElem?.mp hl
        obtain ⟨_, hhead, -⟩ := h.head j l hj (List.ne_nil_of_mem hmem)
        simp at hhead
      rw [hnil]
      exact ⟨[], rfl, .refl _, .nil⟩
    | some ar =>
      obtain ⟨a, rest⟩ := ar
      have hle := h.le_pending hp
      have hperm : (pending heap streams).Perm (a.item :: pending rest streams) :=
        ((popMin_spec hp).1.map Head.item).append_right _
      have hlen := hperm.length_eq
      rw [List.length_cons] at hlen
      -- the heads that stay still represent their streams
      have hstay : ∀ j l, streams[j]? = some l → l ≠ [] → j ≠ a.stream →
          ∃ b ∈ rest, b.stream = 0 + j ∧ ∀ p ∈ l, b.key ≤ p.1 := by
        intro j l hj hl hne
        obtain ⟨b, hb, hstream, hbl⟩ := h.head j l hj hl
        refine ⟨b, ((List.mem_cons.mp ((popMin_spec hp).1.mem_iff.mp hb)).resolve_left ?_), hstream, hbl⟩
        rintro rfl
        exact hne (by omega)
      -- what is left after popping `a` is popped in order
      have finish : ∀ heap' streams', Ready 0 heap' streams' →
          (pending heap' streams').Perm (pending rest streams) →
          ∃ out : List (κ × α), .ok (a.key, a.val) :: popSeq ver n heap' (okStreams ε streams') = out.map .ok ∧
            out.Perm (pending heap streams) ∧ out.Pairwise fun p q => p.1 ≤ q.1 := by
        intro heap' streams' hready hpending
        obtain ⟨out, hout, houtPerm, hsorted⟩ := ih hready (by rw [hpending.length_eq]; omega)
        have hrest := houtPerm.trans hpending
        refine ⟨a.item :: out, by rw [hout]; rfl, (hrest.cons _).trans hperm.symm,
          List.pairwise_cons.mpr ⟨fun p hmem => hle p (hrest.mem_iff.mp hmem), hsorted⟩⟩
      by_cases hempty : ∀ l, streams[a.stream]? = some l → l = []
      · simp only [advance_nil hempty]
        refine finish rest streams ⟨h.sorted, fun j l hj hl => hstay j l hj hl ?_⟩ (.refl _)
        rintro rfl
        exact hl (hempty l hj)
      · obtain ⟨l, hstream, hl⟩ : ∃ l, streams[a.stream]? = some l ∧ l ≠ [] := by simpa using hempty
        obtain ⟨x, xs, rfl⟩ := List.exists_cons_of_ne_nil hl
        obtain ⟨hlt, hxs⟩ := List.pairwise_cons.mp (h.sorted _ (List.mem_of_getElem? hstream))
        simp only [advance_cons hstream]
        refine finish (rest ++ [⟨x.1, x.2, a.stream⟩]) (streams.set a.stream xs)
          ⟨fun l hl => ?_, fun j l hj hl => ?_⟩ ?_
        · rcases List.mem_or_eq_of_mem_set hl with hl | rfl
          · exact h.sorted l hl
          · exact hxs
        · by_cases hja : j = a.stream
          · subst hja
            obtain ⟨hi, -⟩ := List.getElem?_eq_some_iff.mp hstream
            rw [List.getElem?_set_self hi] at hj
            cases hj
            exact ⟨_, List.mem_append_right _ List.mem_cons_self, by simp, hlt⟩
          · rw [List.getElem?_set_ne (Ne.symm hja)] at hj
            obtain ⟨b, hb, hbs, hbl⟩ := hstay j l hj hl hja
            exact ⟨b, List.mem_append_left _ hb, hbs, hbl⟩
        · simp only [pending, List.map_append, List.append_assoc]
          exact (flatten_set_perm hstream).symm.append_left _

/-- Seeding takes the first element of every stream. -/
theorem seed_eq {ε : Type} {streams : List (List (κ × α))} (i : ℕ)
    (hs : ∀ l ∈ streams, l.Pairwise fun p q => p.1 ≤ q.1) :
    ∃ heap rest, seed i (okStreams ε streams) = .ok (heap, okStreams ε rest) ∧
      (pending heap rest).Perm streams.flatten ∧ Ready i heap rest := by
  induction streams generalizing i with
  | nil => exact ⟨[], [], rfl, .refl _, by simp, by simp⟩
  | cons l streams ih =>
    obtain ⟨heap, rest, heq, hperm, hready⟩ := ih (i + 1) fun l hl => hs l (List.mem_cons_of_mem _ hl)
    have hl := hs l List.mem_cons_self
    cases l with
    | nil =>
      refine ⟨heap, [] :: rest, ?_, by simpa [pending] using hperm, ?_, fun j l hj hne => ?_⟩
      · change (seed (i + 1) (okStreams ε streams) >>= fun r => pure (r.1, [] :: r.2)) = _
        rw [heq]
        rfl
      · simpa using hready.sorted
      · cases j with
        | zero => cases hj; exact absurd rfl hne
        | succ j =>
          obtain ⟨h, hh, hstream, hle⟩ := hready.head j l hj hne
          exact ⟨h, hh, by omega, hle⟩
    | cons x xs =>
      obtain ⟨hlt, hxs⟩ := List.pairwise_cons.mp hl
      refine ⟨⟨x.1, x.2, i⟩ :: heap, xs :: rest, ?_, ?_, ?_, fun j l hj hne => ?_⟩
      · change (seed (i + 1) (okStreams ε streams) >>= fun r =>
          pure (⟨x.1, x.2, i⟩ :: r.1, xs.map .ok :: r.2)) = _
        rw [heq]
        rfl
      · simp only [pending, List.map_cons, List.flatten_cons, List.cons_append] at hperm ⊢
        refine .cons _ ?_
        rw [← List.append_assoc]
        exact (List.perm_append_comm.append_right _).trans (List.append_assoc .. ▸ hperm.append_left xs)
      · exact List.forall_mem_cons.mpr ⟨hxs, hready.sorted⟩
      · cases j with
        | zero => cases hj; exact ⟨_, List.mem_cons_self, rfl, hlt⟩
        | succ j =>
          obtain ⟨h, hh, hstream, hle⟩ := hready.head j l hj hne
          exact ⟨h, List.mem_cons_of_mem _ hh, by omega, hle⟩

variable (ver) in
/-- **Merging** sorted streams without errors sorts their elements. -/
theorem merged_eq {ε : Type} {streams : List (List (κ × α))}
    (hs : ∀ l ∈ streams, l.Pairwise fun p q => p.1 ≤ q.1) :
    ∃ out : List (κ × α), merged ver (okStreams ε streams) = .ok (out.map .ok) ∧ out.Perm streams.flatten ∧
      out.Pairwise fun p q => p.1 ≤ q.1 := by
  obtain ⟨heap, rest, heq, hperm, hready⟩ := seed_eq (ε := ε) 0 hs
  have hlen : ((okStreams ε streams).map List.length).sum = streams.flatten.length := by
    rw [okStreams, List.map_map, List.length_flatten]
    congr 1
    exact List.map_congr_left fun l _ => List.length_map _
  obtain ⟨out, hout, houtPerm, hsorted⟩ := popSeq_eq ver (ε := ε)
    (n := ((okStreams ε streams).map List.length).sum) hready (hlen ▸ hperm.length_eq ▸ Nat.le_refl _)
  refine ⟨out, ?_, houtPerm.trans hperm, hsorted⟩
  rw [merged, heq]
  exact congrArg Except.ok hout

end KWayMerge

/-! ### The newest entry of each key -/

section Newest

variable {κ α : Type} [LinearOrder κ] (ver : α → ℕ)

/-- Reduce a sorted sequence to the entry with the greatest version of each key, given the best entry
so far of the key at hand. -/
def newestFrom : κ × α → List (κ × α) → List (κ × α)
  | b, [] => [b]
  | b, p :: l =>
    if b.1 = p.1 then newestFrom (b.1, if ver p.2 > ver b.2 then p.2 else b.2) l
    else b :: newestFrom p l

/-- The entry with the greatest version of each key of a sorted sequence. -/
def newest : List (κ × α) → List (κ × α)
  | [] => []
  | b :: l => newestFrom ver b l

variable {ver}

theorem mem_newestFrom {b p : κ × α} {l : List (κ × α)} (h : p ∈ newestFrom ver b l) :
    p ∈ b :: l := by
  induction l generalizing b with
  | nil => exact h
  | cons q l ih =>
    rw [newestFrom] at h
    split at h
    case isTrue hk =>
      rcases List.mem_cons.mp (ih h) with rfl | h
      · split
        · rw [hk]
          simp
        · simp
      · simp [h]
    case isFalse =>
      rcases List.mem_cons.mp h with rfl | h
      · simp
      · exact List.mem_cons_of_mem _ (ih h)

theorem keySorted_newestFrom {b : κ × α} {l : List (κ × α)}
    (hs : (b :: l).Pairwise fun p q => p.1 ≤ q.1) : KeySorted (newestFrom ver b l) := by
  induction l generalizing b with
  | nil => exact List.pairwise_singleton _ _
  | cons p l ih =>
    obtain ⟨hb, hl⟩ := List.pairwise_cons.mp hs
    obtain ⟨hp, hl'⟩ := List.pairwise_cons.mp hl
    rw [newestFrom]
    split
    case isTrue hk =>
      exact ih (List.pairwise_cons.mpr ⟨fun q hq => hb q (List.mem_cons_of_mem _ hq), hl'⟩)
    case isFalse hk =>
      refine keySorted_cons.mpr ⟨fun q hq => ?_, ih hl⟩
      have hlt : b.1 < p.1 := lt_of_le_of_ne (hb p List.mem_cons_self) hk
      rcases List.mem_cons.mp (mem_newestFrom hq) with rfl | hq
      · exact hlt
      · exact hlt.trans_le (hp q hq)

/-- Every entry is outdone by one that stays. -/
theorem exists_newestFrom {b p : κ × α} {l : List (κ × α)} (h : p ∈ b :: l) :
    ∃ v, (p.1, v) ∈ newestFrom ver b l ∧ ver p.2 ≤ ver v := by
  induction l generalizing b p with
  | nil =>
    rw [List.mem_singleton.mp h]
    exact ⟨_, List.mem_singleton.mpr rfl, Nat.le_refl _⟩
  | cons q l ih =>
    rw [newestFrom]
    split
    case isTrue hk =>
      set m := if ver q.2 > ver b.2 then q.2 else b.2 with hm
      have hmax : ver b.2 ≤ ver m ∧ ver q.2 ≤ ver m := by
        rw [hm]
        split <;> omega
      obtain ⟨v, hv, hle⟩ := ih (b := (b.1, m)) (p := (b.1, m)) List.mem_cons_self
      rcases List.mem_cons.mp h with rfl | h
      · exact ⟨v, hv, Nat.le_trans hmax.1 hle⟩
      · rcases List.mem_cons.mp h with rfl | h
        · exact ⟨v, hk ▸ hv, Nat.le_trans hmax.2 hle⟩
        · exact ih (List.mem_cons_of_mem _ h)
    case isFalse =>
      rcases List.mem_cons.mp h with rfl | h
      · exact ⟨_, List.mem_cons_self, Nat.le_refl _⟩
      · obtain ⟨v, hv, hle⟩ := ih h
        exact ⟨v, List.mem_cons_of_mem _ hv, hle⟩

variable {l : List (κ × α)} {k : κ}

theorem keySorted_newest (hs : l.Pairwise fun p q => p.1 ≤ q.1) : KeySorted (newest ver l) := by
  cases l with
  | nil => exact keySorted_nil
  | cons b l => exact keySorted_newestFrom hs

theorem mem_newest {p : κ × α} (h : p ∈ newest ver l) : p ∈ l := by
  cases l with
  | nil => exact h
  | cons b l => exact mem_newestFrom h

variable (ver) in
theorem exists_newest {p : κ × α} (h : p ∈ l) : ∃ v, (p.1, v) ∈ newest ver l ∧ ver p.2 ≤ ver v := by
  cases l with
  | nil => cases h
  | cons b l => exact exists_newestFrom h

/-- **A lookup** in the reduced sequence finds an entry of the key with the greatest version. -/
theorem find_newest {v : α} (hs : l.Pairwise fun p q => p.1 ≤ q.1)
    (h : find (newest ver l) k = some v) : (k, v) ∈ l ∧ ∀ v', (k, v') ∈ l → ver v' ≤ ver v := by
  have hmem := mem_of_find h
  refine ⟨mem_newest hmem, fun v' hv' => ?_⟩
  obtain ⟨v'', hv'', hle⟩ := exists_newest ver hv'
  have heq := (keySorted_newest hs).find_eq_some_iff.mpr hv''
  rw [h] at heq
  cases heq
  exact hle

theorem find_newest_eq_none (h : find (newest ver l) k = none) : ∀ v, (k, v) ∉ l := by
  intro v hv
  obtain ⟨v', hv', -⟩ := exists_newest ver hv
  exact find_eq_none_iff.mp h _ hv' rfl

end Newest
