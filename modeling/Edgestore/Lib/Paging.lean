import Edgestore.Lib.Overlay

/-!
# Reading a result page by page

A pager returns a page and, unless it is the last one, the cursor of the next page. Asking for pages
until no cursor comes back reads the whole result exactly when every page on the way is a prefix of what
is left at its cursor, and the last page is all of it.

## Main definitions

* `pages page n c`: the items of the pages from the cursor `c` on, if `n` pages are enough
* `Reaches page c c'`: asking for pages from `c` on comes to `c'`
* `PageExact left c p`: the page `p` is what comes next at `c`
* `takeThrough stop i l`: the items of `l` up to the first at which `stop` says so
* `shown`, `shownUpTo`, `shownBeyond`: what two layers show, up to a key and beyond it
* `PageCovers`: a page that sees the lower layer only up to its `n`-th entry is what comes next

## Main results

* `pages_eq_iff`: paging is exact if and only if every page reached is
* `take_append_prefix_iff`: when a page whose tail comes from elsewhere is still a prefix
* `takeThrough_append_prefix_iff`: the same for items up to the first that stops
* `pageCovers_iff`: a page of two layers is what comes next if and only if it covers
-/

section Pages

variable {C β ε : Type} (page : C → Except ε (List β × Option C))

/-- The items of the pages from a cursor on, if no more than `n` pages are needed. -/
def pages : ℕ → C → Except ε (Option (List β))
  | 0, _ => .ok none
  | n + 1, c => do
    let (items, next) ← page c
    match next with
    | none => return some items
    | some c' => return (← pages n c').map (items ++ ·)

/-- Asking for pages from `c` on comes to `c'`. -/
inductive Reaches : C → C → Prop
  | refl (c : C) : Reaches c c
  | next {c c' c'' : C} {items : List β} (h : page c = .ok (items, some c')) (h' : Reaches c' c'') :
    Reaches c c''

/-- A page is a prefix of what is left, and it is all that is left if no page follows. -/
def PageExact (left : C → List β) (c : C) (p : List β × Option C) : Prop :=
  p.1 <+: left c ∧ (p.2 = none → p.1 = left c)

variable {page} {left : C → List β}

theorem pages_last {n : ℕ} {c : C} {items : List β} (h : page c = .ok (items, none)) :
    pages page (n + 1) c = .ok (some items) := by
  rw [pages, h]
  rfl

theorem pages_next {n : ℕ} {c c' : C} {items : List β} (h : page c = .ok (items, some c')) :
    pages page (n + 1) c = (pages page n c').map (Option.map (items ++ ·)) := by
  rw [pages, h]
  change (pages page n c' >>= _) = _
  cases pages page n c' <;> rfl

theorem pages_next_eq_ok {n : ℕ} {c c' : C} {items out : List β}
    (h : page c = .ok (items, some c')) (hpages : pages page (n + 1) c = .ok (some out)) :
    ∃ rest, pages page n c' = .ok (some rest) ∧ items ++ rest = out := by
  rw [pages_next h] at hpages
  cases hrest : pages page n c' with
  | error err =>
    rw [hrest] at hpages
    cases hpages
  | ok o =>
    rw [hrest] at hpages
    cases o with
    | none => cases hpages
    | some rest => exact ⟨rest, rfl, Option.some.inj (Except.ok.inj hpages)⟩

/-- The pages from a cursor on are the last one, or one and those that follow. -/
theorem pages_succ_eq_ok {n : ℕ} {c : C} {out : List β} :
    pages page (n + 1) c = .ok (some out) ↔ page c = .ok (out, none) ∨ ∃ items c' rest,
      page c = .ok (items, some c') ∧ pages page n c' = .ok (some rest) ∧ items ++ rest = out := by
  constructor
  · intro h
    cases hpage : page c with
    | error err =>
      rw [pages, hpage] at h
      cases h
    | ok p =>
      obtain ⟨items, next⟩ := p
      cases next with
      | none =>
        rw [pages_last hpage] at h
        cases h
        exact .inl rfl
      | some c' =>
        obtain ⟨rest, hrest, heq⟩ := pages_next_eq_ok hpage h
        exact .inr ⟨items, c', rest, rfl, hrest, heq⟩
  · rintro (hlast | ⟨items, c', rest, hpage, hrest, rfl⟩)
    · exact pages_last hlast
    · rw [pages_next hpage, hrest]
      rfl

/-- What is left behind a page that is a prefix of what was left. -/
def Advances (page : C → Except ε (List β × Option C)) (left : C → List β) : Prop :=
  ∀ c items c', page c = .ok (items, some c') → items ≠ [] ∧
    (items <+: left c → left c' = (left c).drop items.length)

theorem pages_exact {c : C} (hok : ∀ c, ∃ p, page c = .ok p) (hadv : Advances page left)
    (h : ∀ c' p, Reaches page c c' → page c' = .ok p → PageExact left c' p) :
    ∃ n, pages page n c = .ok (some (left c)) := by
  -- every page makes what is left shorter
  induction hn : (left c).length using Nat.strongRecOn generalizing c with
  | ind m ih =>
    obtain ⟨⟨items, next⟩, hp⟩ := hok c
    obtain ⟨hshown, hlast⟩ := h c _ (.refl c) hp
    cases next with
    | none =>
      have heq : items = left c := hlast rfl
      exact ⟨1, by rw [pages_last hp, heq]⟩
    | some c' =>
      obtain ⟨hne, hleft⟩ := hadv c items c' hp
      obtain ⟨rest, heq⟩ := hshown
      have hleft : left c' = rest := by
        rw [hleft ⟨rest, heq⟩, ← heq, List.drop_left]
      have hlt : (left c').length < m := by
        rw [hleft, ← hn, ← heq, List.length_append]
        exact Nat.lt_add_of_pos_left (List.length_pos_iff.mpr hne)
      obtain ⟨n, hpages⟩ := ih _ hlt (fun c'' p hc' => h c'' p (.next hp hc')) rfl
      refine ⟨n + 1, ?_⟩
      rw [pages_next hp, hpages, hleft, ← heq]
      rfl

theorem pageExact_of_pages {n : ℕ} {c c' : C} {p : List β × Option C} (hadv : Advances page left)
    (h : pages page n c = .ok (some (left c))) (hreach : Reaches page c c') (hp : page c' = .ok p) :
    PageExact left c' p := by
  induction n generalizing c with
  | zero => cases h
  | succ n ih =>
    cases hreach with
    | refl =>
      obtain ⟨items, next⟩ := p
      cases next with
      | none =>
        rw [pages_last hp, Except.ok.injEq, Option.some.injEq] at h
        exact ⟨h ▸ List.prefix_rfl, fun _ => h⟩
      | some c₁ =>
        obtain ⟨rest, -, heq⟩ := pages_next_eq_ok hp h
        exact ⟨⟨rest, heq⟩, nofun⟩
    | @next _ c₁ _ items hpage hreach =>
      obtain ⟨rest, hrest, heq⟩ := pages_next_eq_ok hpage h
      -- the pages that follow are what is left
      have hleft : left c₁ = rest := by
        rw [(hadv c items c₁ hpage).2 ⟨rest, heq⟩, ← heq, List.drop_left]
      exact ih (by rw [hrest, hleft]) hreach

/-- **Paging is exact** if and only if every page on the way is. -/
theorem pages_eq_iff {c : C} (hok : ∀ c, ∃ p, page c = .ok p) (hadv : Advances page left) :
    (∃ n, pages page n c = .ok (some (left c))) ↔
      ∀ c' p, Reaches page c c' → page c' = .ok p → PageExact left c' p :=
  ⟨fun ⟨_, h⟩ _ _ hreach hp => pageExact_of_pages hadv h hreach hp, pages_exact hok hadv⟩

end Pages

section Lists

variable {β : Type} {a b g : List β} {p : ℕ}

/-- **A page with a foreign tail**: of the items of `a ++ b`, the first `p` of `a ++ g` are a prefix if
`a` fills the page, or the tail that `g` adds is a prefix of `b`. -/
theorem take_append_prefix_iff :
    (a ++ g).take p <+: a ++ b ↔ p ≤ a.length ∨ g.take (p - a.length) <+: b := by
  rw [List.take_append]
  by_cases hp : p ≤ a.length
  · have hsub : p - a.length = 0 := by omega
    refine iff_of_true ?_ (.inl hp)
    rw [hsub, List.take_zero, List.append_nil]
    exact (List.take_prefix _ _).trans (List.prefix_append _ _)
  · rw [List.take_of_length_le (by omega), List.prefix_append_right_inj]
    exact (or_iff_right hp).symm

/-- The items up to and with the first at which `stop` says so. The first item has the number `i`. -/
def takeThrough (stop : ℕ → β → Bool) : ℕ → List β → List β
  | _, [] => []
  | i, q :: l => q :: if stop i q then [] else takeThrough stop (i + 1) l

/-- Whether `stop` says so at one of the items. -/
def stopsIn (stop : ℕ → β → Bool) : ℕ → List β → Bool
  | _, [] => false
  | i, q :: l => stop i q || stopsIn stop (i + 1) l

variable {stop stop' : ℕ → β → Bool} {i : ℕ} {l : List β}

theorem takeThrough_isPrefix : takeThrough stop i l <+: l := by
  induction l generalizing i with
  | nil => exact List.prefix_rfl
  | cons q l ih =>
    rw [takeThrough, List.prefix_cons_inj]
    split
    · exact List.nil_prefix
    · exact ih

theorem takeThrough_congr (h : ∀ j, ∀ q ∈ l, stop j q = stop' j q) :
    takeThrough stop i l = takeThrough stop' i l := by
  induction l generalizing i with
  | nil => rfl
  | cons q l ih =>
    rw [takeThrough, takeThrough, h i q List.mem_cons_self,
      ih fun j r hr => h j r (List.mem_cons_of_mem _ hr)]

/-- If the items from number `n` on all stop, there are no more than `n`. -/
theorem length_takeThrough_le {n : ℕ} (h : ∀ j q, n ≤ j → stop j q = true) (hi : i ≤ n) :
    (takeThrough stop i l).length + i ≤ n + 1 := by
  induction l generalizing i with
  | nil =>
    rw [takeThrough, List.length_nil]
    omega
  | cons q l ih =>
    rw [takeThrough, List.length_cons]
    split
    case isTrue =>
      rw [List.length_nil]
      omega
    case isFalse hgo =>
      have hlt : i < n := by
        by_contra hge
        exact hgo (h i q (Nat.le_of_not_lt hge))
      have hrest := ih (i := i + 1) hlt
      omega

theorem takeThrough_append : takeThrough stop i (a ++ g) =
    if stopsIn stop i a then takeThrough stop i a else a ++ takeThrough stop (i + a.length) g := by
  induction a generalizing i with
  | nil => rfl
  | cons q a ih =>
    rw [List.cons_append, takeThrough, stopsIn, takeThrough, ih, List.length_cons, Nat.add_comm a.length,
      ← Nat.add_assoc]
    cases hq : stop i q with
    | true => rfl
    | false =>
      simp only [Bool.false_or, Bool.false_eq_true, if_false, List.cons_append]
      split <;> rfl

/-- **Items up to the first that stops, with a foreign tail**: of the items of `a ++ b`, those of `a ++ g`
are a prefix if an item of `a` stops, or what `g` adds is a prefix of `b`. -/
theorem takeThrough_append_prefix_iff : takeThrough stop i (a ++ g) <+: a ++ b ↔
    stopsIn stop i a = true ∨ takeThrough stop (i + a.length) g <+: b := by
  rw [takeThrough_append]
  by_cases hstop : stopsIn stop i a = true
  · rw [if_pos hstop]
    exact iff_of_true (takeThrough_isPrefix.trans (List.prefix_append _ _)) (.inl hstop)
  · rw [if_neg hstop, List.prefix_append_right_inj]
    exact (or_iff_right hstop).symm

end Lists

section Sorted

variable {κ β : Type} {r : κ → κ → Prop} [IsStrictOrder κ r] [DecidableRel r]

/-- What is beyond the last key of a prefix is the rest. -/
theorem KeysBy.filter_beyond {pre rest : List (κ × β)} {k : κ} {v : β}
    (h : KeysBy r (pre ++ [(k, v)] ++ rest)) :
    (pre ++ [(k, v)] ++ rest).filter (fun q => r k q.1) = rest := by
  obtain ⟨hpre, -, hcross⟩ := List.pairwise_append.mp h
  rw [List.filter_append, List.filter_eq_nil_iff.mpr, List.filter_eq_self.mpr, List.nil_append]
  · intro q hq
    exact decide_eq_true (hcross (k, v) (by simp) q hq)
  · intro q hq
    rcases List.mem_append.mp hq with hq | hq
    · have hqk : r q.1 k := (List.pairwise_append.mp hpre).2.2 q hq (k, v) (by simp)
      simpa using fun hkq => irrefl_of r k (trans_of r hkq hqk)
    · rw [List.mem_singleton.mp hq]
      simpa using irrefl_of r k

end Sorted

/-! ### Pages of two layers -/

section Layers

variable {κ α β : Type} [LinearOrder κ] {r : κ → κ → Prop} [DecidableRel r] {ver : α → ℕ}
  {g : κ × α → Option β} {s m : List (κ × α)}

variable (r ver g)

/-- What two layers show. -/
def shown (s m : List (κ × α)) : List β := (newest ver (mergeBy r s m)).filterMap g

/-- What two layers show up to a key. -/
def shownUpTo (k : κ) (s m : List (κ × α)) : List β :=
  ((newest ver (mergeBy r s m)).filter fun q => !decide (r k q.1)).filterMap g

/-- What two layers show beyond a key. -/
def shownBeyond (k : κ) (s m : List (κ × α)) : List β :=
  ((newest ver (mergeBy r s m)).filter fun q => decide (r k q.1)).filterMap g

/-- **A page that sees the lower layer only up to its `n`-th entry is what comes next.** Up to that
entry enough is shown to fill the page, or the upper layer alone shows beyond it what both layers
show. If no page follows one with so many items, both must show the same. -/
def PageCovers (n : ℕ) (ends : ℕ → Prop) (s m : List (κ × α)) : Prop :=
  ∀ p, s[n - 1]? = some p → n < s.length →
    (n ≤ (shownUpTo r ver g p.1 s m).length ∨
      (shownBeyond r ver g p.1 [] m).take (n - (shownUpTo r ver g p.1 s m).length) <+:
        shownBeyond r ver g p.1 s m) ∧
    (ends ((shownUpTo r ver g p.1 s m).length + (shownBeyond r ver g p.1 [] m).length) →
      shownBeyond r ver g p.1 [] m = shownBeyond r ver g p.1 s m)

variable {r ver g} [IsStrictTotalOrder κ r]

omit [LinearOrder κ] in
/-- The entries up to the `n`-th one are the first `n`. -/
theorem KeysBy.take_eq_filter {n : ℕ} {p : κ × α} (h : KeysBy r s) (hn : 1 ≤ n)
    (hp : s[n - 1]? = some p) : s.take n = s.filter fun q => !decide (r p.1 q.1) := by
  obtain ⟨hlt, hget⟩ := List.getElem?_eq_some_iff.mp hp
  have hsplit : s.take n = s.take (n - 1) ++ [p] := by
    conv_lhs => rw [← Nat.sub_add_cancel hn]
    rw [List.take_add_one, hp]
    rfl
  have hs : s = s.take (n - 1) ++ [p] ++ s.drop n := by
    rw [← hsplit, List.take_append_drop]
  rw [hs] at h
  obtain ⟨hpre, -, hcross⟩ := List.pairwise_append.mp h
  conv_rhs => rw [hs]
  rw [List.filter_append, List.filter_eq_self.mpr, (List.filter_eq_nil_iff (l := s.drop n)).mpr,
    List.append_nil, hsplit]
  · intro q hq
    simpa using hcross p (by simp) q hq
  · intro q hq
    rcases List.mem_append.mp hq with hq | hq
    · have hqp : r q.1 p.1 := (List.pairwise_append.mp hpre).2.2 q hq p (by simp)
      simpa using fun hpq => irrefl_of r p.1 (trans_of r hpq hqp)
    · rw [List.mem_singleton.mp hq]
      simpa using irrefl_of r p.1

omit [LinearOrder κ] in
theorem not_beyond {k : κ} (a b : κ) (ha : (!decide (r k a)) = true) (hb : (!decide (r k b)) = false) :
    r a b := by
  simp only [Bool.not_eq_true', decide_eq_false_iff_not, Bool.not_eq_false', decide_eq_true_eq] at ha hb
  rcases trichotomous_of r k a with h | rfl | h
  · exact absurd h ha
  · exact hb
  · exact trans_of r h hb

/-- What is shown is what is shown up to a key, and beyond it. -/
theorem shown_split (hs : KeysBy r s) (hm : KeysBy r m) (k : κ) :
    shown r ver g s m = shownUpTo r ver g k s m ++ shownBeyond r ver g k s m := by
  have hover : Overlays r ver s m (newest ver (mergeBy r s m)) := .of_merge hs hm
  have hsplit := Overlays.keysBy_split hover.sorted (c := fun k' => !decide (r k k')) ?_
  · rw [shown, hsplit, List.filterMap_append]
    simp only [Bool.not_not]
    rfl
  · exact not_beyond

/-- With the lower layer cut at its `n`-th entry, only the upper layer is seen beyond it. -/
theorem shown_take {n : ℕ} {p : κ × α} (hs : KeysBy r s) (hm : KeysBy r m) (hn : 1 ≤ n)
    (hp : s[n - 1]? = some p) :
    shown r ver g (s.take n) m = shownUpTo r ver g p.1 s m ++ shownBeyond r ver g p.1 [] m := by
  have hnil : newest ver (mergeBy r [] m) = m :=
    (Overlays.of_merge .nil hm).unique (.nil_left hm)
  have hover : Overlays r ver s m (newest ver (mergeBy r s m)) := .of_merge hs hm
  have hcut := hover.of_cut hm (c := fun k => !decide (r p.1 k)) not_beyond
  rw [← hs.take_eq_filter hn hp] at hcut
  rw [shown, (Overlays.of_merge (hs.sublist (List.take_sublist n s)) hm).unique hcut,
    List.filterMap_append, shownBeyond, hnil]
  simp only [Bool.not_not]
  rfl

/-- **A page of two layers** that sees the lower layer only up to its `n`-th entry. -/
theorem pageCovers_iff {n : ℕ} {ends : ℕ → Prop} (hs : KeysBy r s) (hm : KeysBy r m) (hn : 1 ≤ n)
    (hends : ∀ i, ends i → i ≤ n) (hlt : n < s.length) :
    PageCovers r ver g n ends s m ↔ (shown r ver g (s.take n) m).take n <+: shown r ver g s m ∧
      (ends (shown r ver g (s.take n) m).length →
        (shown r ver g (s.take n) m).take n = shown r ver g s m) := by
  obtain ⟨p, hp⟩ : ∃ p, s[n - 1]? = some p := ⟨s[n - 1], List.getElem?_eq_getElem (by omega)⟩
  have hcovers : PageCovers r ver g n ends s m ↔
      (n ≤ (shownUpTo r ver g p.1 s m).length ∨
        (shownBeyond r ver g p.1 [] m).take (n - (shownUpTo r ver g p.1 s m).length) <+:
          shownBeyond r ver g p.1 s m) ∧
      (ends ((shownUpTo r ver g p.1 s m).length + (shownBeyond r ver g p.1 [] m).length) →
        shownBeyond r ver g p.1 [] m = shownBeyond r ver g p.1 s m) := by
    constructor
    · intro h
      exact h p hp hlt
    · intro h q hq _
      rw [hp] at hq
      cases hq
      exact h
  rw [hcovers, shown_take hs hm hn hp, shown_split hs hm p.1, take_append_prefix_iff,
    List.length_append]
  refine and_congr_right fun _ => imp_congr_right fun h => ?_
  -- such a page is not cut
  rw [List.take_of_length_le (by rw [List.length_append]; exact hends _ h), List.append_cancel_left_eq]

end Layers
