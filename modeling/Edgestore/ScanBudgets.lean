import Edgestore.Pagination
import Edgestore.Engine.PrefixScan

/-!
# Scans with a budget

A scan with a budget should return the first pairs of the scan without it, and say so when it left out
some. The limit on items is applied twice: first to the live entries of the segments, when neither the
tombstones nor the overwrites of the memtable are known, and then to the pairs. If tombstones hide some of
the entries that were read, entries of the memtable from behind the cut take their place.

## Main definitions

* `ScanBudget.stops`: whether a budget is used up with a pair
* `Honest`: a scan with a budget against the scan without it
* `CutCovers`: what the memtable adds behind the cut is what comes next

## Main results

* `Engine.honest_iff`: when scans with a budget are honest
* `World.deletions_mislead_budgets`: a scan with a budget that leaves out a pair in the middle
-/

variable {X : Externals} {R : List SegmentId} {fs : Fs}

namespace Engine

/-! ### Budgets -/

/-- Whether the budget is used up with pair number `i`, when so many bytes have been read. -/
def ScanBudget.usedUp (b : ScanBudget) (i bytes : ℕ) : Bool :=
  b.maxItems.any (i ≥ ·) || b.maxBytes.any (bytes ≥ ·)

/-- The bytes of the entries up to a key. -/
def bytesUpTo (l : List (Bytes × MemEntry)) (k : Bytes) : ℕ :=
  ((l.filter fun q => q.1 ≤ k).map scannedBytes).sum

/-- Whether the budget is used up with pair number `i` of the entries `l`. -/
def ScanBudget.stops (b : ScanBudget) (ns : Bytes) (l : List (Bytes × MemEntry)) (i : ℕ)
    (q : Bytes × Bytes) : Bool := b.usedUp i (bytesUpTo l (encoded ns q.1))

/-- What a scan of the segments reads of a layer. -/
def ScanBudget.cut (b : ScanBudget) (seg : List (Bytes × MemEntry)) : List (Bytes × MemEntry) :=
  match b.maxItems with
  | none => seg
  | some n => seg.take n

/-- A budget has room for an item. -/
def ScanBudget.Positive (b : ScanBudget) : Prop := ∀ n, b.maxItems = some n → 1 ≤ n

variable {b : ScanBudget} {ns k : Bytes} {l l' : List (Bytes × MemEntry)}

@[simp] theorem bytesUpTo_nil (k : Bytes) : bytesUpTo [] k = 0 := rfl

theorem bytesUpTo_cons_of_le {p : Bytes × MemEntry} (h : p.1 ≤ k) :
    bytesUpTo (p :: l) k = scannedBytes p + bytesUpTo l k := by
  simp [bytesUpTo, h]

/-- In front of all keys there are no bytes. -/
theorem bytesUpTo_eq_zero (h : ∀ p ∈ l, k < p.1) : bytesUpTo l k = 0 := by
  have hnone : l.filter (fun q => q.1 ≤ k) = [] := by
    apply List.filter_eq_nil_iff.mpr
    intro p hp
    simpa using h p hp
  rw [bytesUpTo, hnone]
  rfl

theorem bytesUpTo_perm (h : l.Perm l') (k : Bytes) : bytesUpTo l k = bytesUpTo l' k :=
  ((h.filter _).map _).sum_nat

/-! ### The scan of the merged layers -/

/-- A pair has the key of its entry. -/
theorem exists_of_mem_emitted (hl : ∀ p ∈ l, ∃ key, encodeKey ns key = .ok p.1) {q : Bytes × Bytes}
    (hq : q ∈ l.filterMap (emitted ns)) : ∃ p ∈ l, encoded ns q.1 = p.1 := by
  obtain ⟨p, hp, hpq⟩ := List.mem_filterMap.mp hq
  obtain ⟨key, hkey⟩ := hl p hp
  simp only [emitted, rawKey_encodeKey hkey, Option.map_eq_some_iff] at hpq
  obtain ⟨v, -, rfl⟩ := hpq
  obtain ⟨-, hp1⟩ := encodeKey_eq_ok.mp hkey
  exact ⟨p, hp, hp1.symm⟩

/-- Once an entry has been read, the pairs from its key on stop where they would stop with its bytes read
before. -/
theorem takeThrough_examine {p : Bytes × MemEntry} {n : List (Bytes × MemEntry)} {bytes i : ℕ}
    (hkeys : ∀ q ∈ n, ∃ key, encodeKey ns key = .ok q.1) (hn : ∀ q ∈ n, p.1 ≤ q.1) :
    takeThrough (fun i q => b.usedUp i (bytes + bytesUpTo (p :: l) (encoded ns q.1))) i
        (n.filterMap (emitted ns)) =
      takeThrough (fun i q => b.usedUp i (bytes + scannedBytes p + bytesUpTo l (encoded ns q.1))) i
        (n.filterMap (emitted ns)) := by
  apply takeThrough_congr
  intro j q hq
  obtain ⟨q', hq', heq⟩ := exists_of_mem_emitted hkeys hq
  rw [bytesUpTo_cons_of_le (heq ▸ hn q' hq'), Nat.add_assoc]

/-- From the entry `best` of a key on, a scan returns the pairs up to the first that uses up the budget. If it is not
truncated, these are all, and the segments were read whole. -/
def ScansFrom (b : ScanBudget) (ns : Bytes) (trunc : Bool) (l : List (Bytes × MemEntry)) (best : Bytes × MemEntry)
    (out : List (Bytes × Bytes)) (stats : QueryStats) : Prop :=
  let pairs := (newestFrom MemEntry.lsn best l).filterMap (emitted ns)
  let kept := takeThrough (fun i q => b.usedUp i (stats.bytesScanned + bytesUpTo l (encoded ns q.1)))
    (out.length + 1) pairs
  ∃ stats' truncated, dedupFilterScan (some b) trunc (some best) out stats l =
    .ok ⟨out ++ kept, truncated, stats'⟩ ∧ (truncated = false → trunc = false ∧ kept = pairs)

section

variable {trunc : Bool} {best p : Bytes × MemEntry} {out : List (Bytes × Bytes)} {stats : QueryStats}

/-- The last entry. -/
theorem scansFrom_nil (hkeys : ∀ q ∈ [best], ∃ key, encodeKey ns key = .ok q.1) :
    ScansFrom b ns trunc [] best out stats := by
  obtain ⟨key, hkey⟩ := hkeys best (by simp)
  refine ⟨stats, trunc, ?_, fun htrunc => ⟨htrunc, ?_⟩⟩
  all_goals
    simp only [newestFrom, List.filterMap_cons, List.filterMap_nil]
    cases hb : emitted ns best with
    | none => simp [dedupFilterScan, emitBest_eq hkey, hb, takeThrough]; try rfl
    | some q => simp [dedupFilterScan, emitBest_eq hkey, hb, takeThrough]; try rfl

/-- One more entry of the key: the newer of the two goes on. -/
theorem ScansFrom.sameKey (hkeys : ∀ q ∈ best :: p :: l, ∃ key, encodeKey ns key = .ok q.1)
    (hp : ∀ q ∈ l, p.1 ≤ q.1) (hk : p.1 = best.1)
    (h : ScansFrom b ns trunc l (best.1, if p.2.lsn > best.2.lsn then p.2 else best.2) out (stats.examine p)) :
    ScansFrom b ns trunc (p :: l) best out stats := by
  set best' := (best.1, if p.2.lsn > best.2.lsn then p.2 else best.2) with hbest'
  have hmem : ∀ q ∈ newestFrom MemEntry.lsn best' l, p.1 ≤ q.1 ∧ ∃ key, encodeKey ns key = .ok q.1 := by
    intro q hq
    rcases List.mem_cons.mp (mem_newestFrom hq) with rfl | hq
    · exact ⟨hk.le, hkeys best List.mem_cons_self⟩
    · exact ⟨hp q hq, hkeys q (List.mem_cons_of_mem _ (List.mem_cons_of_mem _ hq))⟩
  have hkept : ∀ i, takeThrough (fun i q => b.usedUp i
      (stats.bytesScanned + bytesUpTo (p :: l) (encoded ns q.1))) i
        ((newestFrom MemEntry.lsn best' l).filterMap (emitted ns)) =
      takeThrough (fun i q => b.usedUp i ((stats.examine p).bytesScanned + bytesUpTo l (encoded ns q.1))) i
        ((newestFrom MemEntry.lsn best' l).filterMap (emitted ns)) :=
    fun i => takeThrough_examine (fun q hq => (hmem q hq).2) fun q hq => (hmem q hq).1
  obtain ⟨stats', truncated, hscan, hwhole⟩ := h
  unfold ScansFrom
  rw [newestFrom, if_pos hk.symm]
  refine ⟨stats', truncated, ?_, ?_⟩
  · rw [dedupFilterScan, if_pos hk, hkept]
    exact hscan
  · rw [hkept]
    exact hwhole

/-- What the scan of the later keys returns does not depend on whether the bytes of the first entry have been
read. -/
theorem takeThrough_later (hkeys : ∀ q ∈ p :: l, ∃ key, encodeKey ns key = .ok q.1) (hp : ∀ q ∈ l, p.1 ≤ q.1)
    (i : ℕ) :
    takeThrough (fun i q => b.usedUp i (stats.bytesScanned + bytesUpTo (p :: l) (encoded ns q.1))) i
        ((newestFrom MemEntry.lsn p l).filterMap (emitted ns)) =
      takeThrough (fun i q => b.usedUp i ((stats.examine p).bytesScanned + bytesUpTo l (encoded ns q.1))) i
        ((newestFrom MemEntry.lsn p l).filterMap (emitted ns)) := by
  refine takeThrough_examine (fun q hq => hkeys q (mem_newestFrom hq)) fun q hq => ?_
  rcases List.mem_cons.mp (mem_newestFrom hq) with rfl | hq
  · exact le_rfl
  · exact hp q hq

/-- The next key, behind one that shows nothing. -/
theorem ScansFrom.drop (hkeys : ∀ q ∈ best :: p :: l, ∃ key, encodeKey ns key = .ok q.1)
    (hp : ∀ q ∈ l, p.1 ≤ q.1) (hk : p.1 ≠ best.1) (hb : emitted ns best = none)
    (h : ScansFrom b ns trunc l p out (stats.examine p)) : ScansFrom b ns trunc (p :: l) best out stats := by
  obtain ⟨key, hkey⟩ := hkeys best List.mem_cons_self
  have hemit := emitBest_eq hkey out
  rw [hb] at hemit
  have hlater := @takeThrough_later b ns l p stats (fun q hq => hkeys q (List.mem_cons_of_mem _ hq)) hp
  obtain ⟨stats', truncated, hscan, hwhole⟩ := h
  unfold ScansFrom
  rw [newestFrom, if_neg (Ne.symm hk), List.filterMap_cons_none hb]
  dsimp only
  rw [hlater]
  refine ⟨stats', truncated, ?_, hwhole⟩
  rw [dedupFilterScan_drop hk hemit]
  exact hscan

/-- The next key, behind one that shows a pair: the pair uses up the budget, or the scan goes on. -/
theorem ScansFrom.emit {r : Bytes × Bytes} (hkeys : ∀ q ∈ best :: p :: l, ∃ key, encodeKey ns key = .ok q.1)
    (hp : ∀ q ∈ l, p.1 ≤ q.1) (hbest : ∀ q ∈ p :: l, best.1 < q.1) (hb : emitted ns best = some r)
    (h : ScansFrom b ns trunc l p (out ++ [r]) (stats.examine p)) : ScansFrom b ns trunc (p :: l) best out stats := by
  have hk : p.1 ≠ best.1 := (hbest p List.mem_cons_self).ne'
  obtain ⟨key, hkey⟩ := hkeys best List.mem_cons_self
  have hemit := emitBest_eq hkey out
  rw [hb] at hemit
  have hlater := @takeThrough_later b ns l p stats (fun q hq => hkeys q (List.mem_cons_of_mem _ hq)) hp
  -- no later entry has the key of the pair
  obtain ⟨p', hp', heq⟩ : ∃ p' ∈ [best], encoded ns r.1 = p'.1 :=
    exists_of_mem_emitted (fun q hq => hkeys q (by simp [List.mem_singleton.mp hq])) (by simp [hb])
  have hzero : bytesUpTo (p :: l) (encoded ns r.1) = 0 := by
    rw [heq, List.mem_singleton.mp hp']
    exact bytesUpTo_eq_zero hbest
  have hreached : ScanBudget.reached (some b) (out ++ [r]).length stats =
      b.usedUp (out.length + 1) (stats.bytesScanned + bytesUpTo (p :: l) (encoded ns r.1)) := by
    rw [hzero, List.length_append, List.length_singleton, Nat.add_zero]
    rfl
  unfold ScansFrom
  rw [newestFrom, if_neg (Ne.symm hk), List.filterMap_cons_some hb, dedupFilterScan_emit hk hemit, hreached]
  dsimp only
  rw [takeThrough]
  split
  case isTrue => exact ⟨stats, true, rfl, fun h => absurd h (by decide)⟩
  case isFalse =>
    obtain ⟨stats', truncated, hscan, hwhole⟩ := h
    simp only [List.length_append, List.length_singleton] at hscan hwhole
    rw [hlater]
    refine ⟨stats', truncated, ?_, fun htrunc => ?_⟩
    · rw [hscan, List.append_assoc]
      rfl
    · obtain ⟨htrunc', hall⟩ := hwhole htrunc
      exact ⟨htrunc', congrArg (r :: ·) hall⟩

/-- **The scan of the merged layers**, from an entry on. -/
theorem scansFrom_of_sorted (hkeys : ∀ q ∈ best :: l, ∃ key, encodeKey ns key = .ok q.1)
    (hsorted : (best :: l).Pairwise fun p q => p.1 ≤ q.1) : ScansFrom b ns trunc l best out stats := by
  induction l generalizing best out stats with
  | nil => exact scansFrom_nil hkeys
  | cons p l ih =>
    obtain ⟨hbest, hl⟩ := List.pairwise_cons.mp hsorted
    obtain ⟨hp, hl'⟩ := List.pairwise_cons.mp hl
    have hrest : ∀ q ∈ p :: l, ∃ key, encodeKey ns key = .ok q.1 :=
      fun q hq => hkeys q (List.mem_cons_of_mem _ hq)
    by_cases hk : p.1 = best.1
    · refine ScansFrom.sameKey hkeys hp hk (ih (fun q hq => ?_) ?_)
      · rcases List.mem_cons.mp hq with rfl | hq
        · exact hkeys best List.mem_cons_self
        · exact hrest q (List.mem_cons_of_mem _ hq)
      · exact List.pairwise_cons.mpr ⟨fun q hq => hbest q (List.mem_cons_of_mem _ hq), hl'⟩
    · have hlt : ∀ q ∈ p :: l, best.1 < q.1 := by
        intro q hq
        have hbp : best.1 < p.1 := lt_of_le_of_ne (hbest p List.mem_cons_self) (Ne.symm hk)
        rcases List.mem_cons.mp hq with rfl | hq
        · exact hbp
        · exact hbp.trans_le (hp q hq)
      cases hb : emitted ns best with
      | none => exact ScansFrom.drop hkeys hp hk hb (ih hrest hl)
      | some r => exact ScansFrom.emit hkeys hp hlt hb (ih hrest hl)

end

/-- **A scan with a budget** returns the pairs up to the first that uses it up. If it is not truncated,
these are all, and the segments were read whole. -/
theorem dedupFilterScan_budget {trunc : Bool} {stats : QueryStats} (hstats : stats.bytesScanned = 0)
    (hkeys : ∀ p ∈ l, ∃ key, encodeKey ns key = .ok p.1)
    (hsorted : l.Pairwise fun p q => p.1 ≤ q.1) :
    let pairs := (newest MemEntry.lsn l).filterMap (emitted ns)
    ∃ stats' truncated, dedupFilterScan (some b) trunc none [] stats l =
      .ok ⟨takeThrough (b.stops ns l) 1 pairs, truncated, stats'⟩ ∧
        (truncated = false → trunc = false ∧ takeThrough (b.stops ns l) 1 pairs = pairs) := by
  intro pairs
  cases l with
  | nil => exact ⟨stats, trunc, rfl, fun htrunc => ⟨htrunc, rfl⟩⟩
  | cons p l =>
    obtain ⟨hp, -⟩ := List.pairwise_cons.mp hsorted
    obtain ⟨stats', truncated, hscan, hwhole⟩ := @scansFrom_of_sorted b ns l
      trunc p [] (stats.examine p) hkeys hsorted
    have hkept : takeThrough (b.stops ns (p :: l)) 1 pairs = takeThrough (fun i q => b.usedUp i
        ((stats.examine p).bytesScanned + bytesUpTo l (encoded ns q.1))) 1 pairs := by
      have hexamine := @takeThrough_examine b ns l p (newest MemEntry.lsn (p :: l)) stats.bytesScanned 1
        (fun x hx => hkeys x (mem_newest hx)) fun q hq => by
          rcases List.mem_cons.mp (mem_newest hq) with rfl | hq
          · exact le_rfl
          · exact hp q hq
      rw [hstats] at hexamine
      simp only [Nat.zero_add] at hexamine
      rw [QueryStats.examine, hstats, Nat.zero_add]
      exact hexamine
    rw [dedupFilterScan, hkept]
    exact ⟨stats', truncated, hscan, hwhole⟩

/-! ### Honest scans -/

/-- What a scan with a budget should be: it returns the first pairs of the scan without it, no more than
the budget has room for, and all of them if it is not truncated. -/
structure Honest (b : ScanBudget) (scan : BudgetedScan) (all : List (Bytes × Bytes)) : Prop where
  first : scan.items <+: all
  room : ∀ n, b.maxItems = some n → scan.items.length ≤ n
  whole : scan.truncated = false → scan.items = all

/-- **The memtable adds behind the cut what comes next.** If there are more than `n` live entries in the
segments, and `s` is the `n`-th of them, then a pair up to the key of `s` uses up the budget, or the pairs
of the memtable behind it, up to the first that does, are the first of those visible there. -/
def CutCovers (b : ScanBudget) (ns : Bytes) (seg mem : List (Bytes × MemEntry)) : Prop :=
  ∀ n s, b.maxItems = some n → n < seg.length → seg[n - 1]? = some s →
    let stops := b.stops ns (seg.take n ++ mem)
    let upTo := shownUpTo (· < ·) MemEntry.lsn (emitted ns) s.1 seg mem
    stopsIn stops 1 upTo = true ∨
      takeThrough stops (1 + upTo.length) (shownBeyond (· < ·) MemEntry.lsn (emitted ns) s.1 [] mem) <+:
        shownBeyond (· < ·) MemEntry.lsn (emitted ns) s.1 seg mem

variable {e : Engine} {start «end» p : Bytes} {seg mem : List (Bytes × MemEntry)}

theorem ScanBudget.stops_merge (s m : List (Bytes × MemEntry)) :
    b.stops ns (mergeBy (· < ·) s m) = b.stops ns (s ++ m) := by
  funext i q
  rw [ScanBudget.stops, bytesUpTo_perm (mergeBy_perm s m), ScanBudget.stops]

/-- The items kept number no more than the limit. -/
theorem length_takeThrough_stops {n : ℕ} (hb : b.Positive) (hn : b.maxItems = some n)
    (l : List (Bytes × MemEntry)) (pairs : List (Bytes × Bytes)) :
    (takeThrough (b.stops ns l) 1 pairs).length ≤ n := by
  have hstop : ∀ (j : ℕ) (q : Bytes × Bytes), n ≤ j → b.stops ns l j q = true := by
    intro j q hj
    simp [ScanBudget.stops, ScanBudget.usedUp, hn, hj]
  have hlen := length_takeThrough_le (l := pairs) hstop (hb n hn)
  omega

/-- The scan of the segments reads as much of a layer as the budget has room for. -/
theorem LimitsTo.cut {scan : Option ℕ → Except EdgestoreError ScanResult} (h : LimitsTo scan seg)
    (hb : b.Positive) : ∃ stopped, scan b.maxItems = .ok (b.cut seg, stopped) ∧
      (stopped = false → b.cut seg = seg) := by
  rw [ScanBudget.cut]
  cases hn : b.maxItems with
  | none => exact ⟨false, h.all, fun _ => rfl⟩
  | some n =>
    obtain ⟨stopped, hscan, hstopped⟩ := h.limit n (hb n hn)
    exact ⟨stopped, hscan, fun hstop => List.take_of_length_le (hstopped hstop)⟩

/-- What is kept of two layers, the lower one cut short, is the first of what they show if and only if the
upper one adds behind the cut what comes next. -/
theorem kept_prefix_iff (hs : KeySorted seg) (hm : KeySorted mem) (hb : b.Positive) :
    takeThrough (b.stops ns (b.cut seg ++ mem)) 1
        (shown (· < ·) MemEntry.lsn (emitted ns) (b.cut seg) mem) <+:
      shown (· < ·) MemEntry.lsn (emitted ns) seg mem ↔ CutCovers b ns seg mem := by
  rw [ScanBudget.cut, CutCovers]
  cases hn : b.maxItems with
  | none => exact iff_of_true takeThrough_isPrefix fun n s hn => nomatch hn
  | some n =>
    simp only
    by_cases hlt : n < seg.length
    · obtain ⟨s, hget⟩ : ∃ s, seg[n - 1]? = some s :=
        ⟨seg[n - 1], List.getElem?_eq_getElem (by omega)⟩
      rw [shown_take hs.keysBy hm.keysBy (hb n hn) hget, shown_split hs.keysBy hm.keysBy s.1,
        takeThrough_append_prefix_iff]
      constructor
      · intro h n' s' hn' _ hget'
        cases hn'
        rw [hget] at hget'
        cases hget'
        exact h
      · intro h
        exact h n s rfl hlt hget
    · -- the segments are read whole
      rw [List.take_of_length_le (not_lt.mp hlt)]
      refine iff_of_true takeThrough_isPrefix fun n' s' hn' hlt' => ?_
      cases hn'
      exact absurd hlt' hlt

/-- **A scan of two layers with a budget** is honest if and only if the upper one adds behind the cut what
comes next. -/
theorem honest_of_layers (hs : KeySorted seg) (hm : KeySorted mem) (hb : b.Positive)
    (hkeys : ∀ q ∈ mergeBy (· < ·) seg mem, ∃ key, encodeKey ns key = .ok q.1) {stopped : Bool}
    (hstopped : stopped = false → b.cut seg = seg) (segments : ℕ) :
    ∃ scan, dedupFilterScan (some b) stopped none [] { segmentsScanned := segments }
        (mergeBy (· < ·) (b.cut seg) mem) = .ok scan ∧
      (Honest b scan (shown (· < ·) MemEntry.lsn (emitted ns) seg mem) ↔ CutCovers b ns seg mem) := by
  have hsub : (b.cut seg).Sublist seg := by
    rw [ScanBudget.cut]
    split
    · exact .refl _
    · exact List.take_sublist _ _
  have hcut : KeySorted (b.cut seg) := hs.sublist hsub
  have hkeys' : ∀ q ∈ mergeBy (· < ·) (b.cut seg) mem, ∃ key, encodeKey ns key = .ok q.1 := by
    intro q hq
    exact hkeys q (mem_mergeBy.mpr ((mem_mergeBy.mp hq).imp_left fun h => hsub.subset h))
  have hsorted : (mergeBy (· < ·) (b.cut seg) mem).Pairwise fun p q => p.1 ≤ q.1 :=
    (groupsBy_mergeBy hcut.keysBy hm.keysBy).imp fun h => h.elim le_of_eq le_of_lt
  obtain ⟨stats', truncated, hscan, hwhole⟩ :=
    @dedupFilterScan_budget b ns _ stopped { segmentsScanned := segments } rfl
      hkeys' hsorted
  rw [ScanBudget.stops_merge] at hscan hwhole
  refine ⟨_, hscan, ?_⟩
  rw [← kept_prefix_iff hs hm hb]
  constructor
  · exact fun h => h.first
  · intro hfirst
    refine ⟨hfirst, fun n hn => length_takeThrough_stops hb hn _ _, fun htrunc => ?_⟩
    obtain ⟨hstop, hall⟩ := hwhole htrunc
    rw [hstopped hstop] at hall
    change takeThrough (b.stops ns (b.cut seg ++ mem)) 1 (shown (· < ·) MemEntry.lsn (emitted ns)
      (b.cut seg) mem) = _
    rw [hstopped hstop]
    exact hall

/-- A range scan with a budget is what it should be. -/
def HonestRange (fs : Fs) (e : Engine) (ns start «end» : Bytes) (b : ScanBudget) : Prop :=
  ∃ scan all, e.rangeBudgeted fs ns start «end» b = .ok scan ∧ e.range fs ns start «end» = .ok all ∧
    Honest b scan all

/-- A prefix scan with a budget is what it should be. -/
def HonestPrefix (fs : Fs) (e : Engine) (ns p : Bytes) (b : ScanBudget) : Prop :=
  ∃ scan all, e.prefixBudgeted fs ns p b = .ok scan ∧ e.prefixInner fs ns p = .ok all ∧ Honest b scan all

/-- **Scans with a budget are honest** if and only if the memtable adds behind the cut what comes next. -/
theorem honest_iff (h : StoreInv X R e.segmentStore fs) (hns : ns.length ≤ maxNsLen)
    (hb : b.Positive) :
    (start ≤ «end» → (e.HonestRange fs ns start «end» b ↔
      CutCovers b ns (e.segmentLayer fs (encoded ns start) (encoded ns «end»))
        (e.memtable.range (encoded ns start) (encoded ns «end»)))) ∧
    (e.HonestPrefix fs ns p b ↔
      CutCovers b ns (e.prefixLayer fs (encoded ns p)) (e.memtable.prefixEntries (encoded ns p))) := by
  constructor
  · intro _
    obtain ⟨stopped, hcut, hstopped⟩ := (limitsTo_range h (encoded ns start) (encoded ns «end»)).cut hb
    obtain ⟨scan, hscan, hiff⟩ := honest_of_layers (keySorted_segmentLayer h _ _)
      (MemTable.keySorted_range e.memtable (encoded ns start) (encoded ns «end»)) hb
      (fun q hq => exists_encoded hns (segmentLayer_range h) (memtable_range _ _ _) q (mem_mergeBy.mp hq))
      hstopped _
    have hcore : e.rangeBudgeted fs ns start «end» b = .ok scan := (rangeCore_eq hns hcut).trans hscan
    rw [HonestRange, hcore, range_eq_visible h hns, ← hiff]
    simp [visible]
  · obtain ⟨stopped, hcut, hstopped⟩ := (limitsTo_prefixSegments h (encoded ns p)).cut hb
    obtain ⟨scan, hscan, hiff⟩ := honest_of_layers (keySorted_prefixLayer h (encoded ns p))
      (MemTable.keySorted_prefixEntries e.memtable (encoded ns p)) hb
      (fun q hq => by
        obtain ⟨key, -, hkey⟩ := exists_of_mem_prefixLayers h hns q hq
        exact ⟨key, hkey⟩) hstopped _
    have hcore : e.prefixBudgeted fs ns p b = .ok scan := (prefixCore_eq hns hcut).trans hscan
    rw [HonestPrefix, hcore, prefixInner_eq h hns, ← hiff]
    simp [prefixVisible]

/-- In the run with two deleted keys, scans for two pairs. -/
theorem honest_iff_deletedMiddle :
    ∃ e, (Run.from (World.step plainExternals) {} World.deletedMiddle).engine = some e ∧
      let fs := (Run.from (World.step plainExternals) {} World.deletedMiddle).fs
      let b : ScanBudget := { maxItems := some 2 }
      (e.HonestRange fs [1] [1] [9] b ↔
        CutCovers b [1] (e.segmentLayer fs (encoded [1] [1]) (encoded [1] [9]))
          (e.memtable.range (encoded [1] [1]) (encoded [1] [9]))) ∧
      (e.HonestPrefix fs [1] [] b ↔
        CutCovers b [1] (e.prefixLayer fs (encoded [1] []))
          (e.memtable.prefixEntries (encoded [1] []))) := by
  obtain ⟨hw, -⟩ := World.inLsnOrder_deletedMiddle
  obtain ⟨e, he⟩ : ∃ e, (Run.from (World.step plainExternals) {} World.deletedMiddle).engine = some e :=
    Option.isSome_iff_exists.mp (by decide +kernel)
  have hpositive : ScanBudget.Positive { maxItems := some 2 } := by
    intro n hn
    cases hn
    decide
  have hboth : (([1] : Bytes) ≤ [9] → (e.HonestRange _ [1] [1] [9] { maxItems := some 2 } ↔ _)) ∧
      (e.HonestPrefix _ [1] [] { maxItems := some 2 } ↔ _) :=
    honest_iff (hw.engine e he).store (by decide) hpositive
  exact ⟨e, he, hboth.1 (by decide), hboth.2⟩

end Engine

namespace World

/-- Three keys are flushed, the first is deleted, and one behind them is put. -/
def deletedFirst : List Call :=
  [{ op := .open {} }, { op := .put [1] [1] [10] }, { op := .put [1] [2] [20] },
    { op := .put [1] [3] [30] }, { op := .flushToSegments }, { op := .delete [1] [1] },
    { op := .put [1] [5] [50] }]

/-- What a range scan for two pairs returns, and what it returns without a budget. -/
theorem range_deletedFirst :
    ((Run.from (step plainExternals) {} deletedFirst).engine.map fun e =>
      (e.rangeBudgeted (Run.from (step plainExternals) {} deletedFirst).fs [1] [1] [9]
          { maxItems := some 2 },
        e.range (Run.from (step plainExternals) {} deletedFirst).fs [1] [1] [9])) =
      some (.ok ⟨[([2], [20]), ([5], [50])], true, ⟨1, 19, 4⟩⟩,
        .ok [([2], [20]), ([3], [30]), ([5], [50])]) := by
  decide +kernel

/-- What a prefix scan for two pairs returns, and what it returns without a budget. -/
theorem prefix_deletedFirst :
    ((Run.from (step plainExternals) {} deletedFirst).engine.map fun e =>
      (e.prefixBudgeted (Run.from (step plainExternals) {} deletedFirst).fs [1] []
          { maxItems := some 2 },
        e.prefixInner (Run.from (step plainExternals) {} deletedFirst).fs [1] [])) =
      some (.ok ⟨[([2], [20]), ([5], [50])], true, ⟨1, 19, 4⟩⟩,
        .ok [([2], [20]), ([3], [30]), ([5], [50])]) := by
  decide +kernel

/-- **A deletion misleads budgets**: both scans for two pairs leave out one in the middle. -/
theorem deletions_mislead_budgets :
    ∃ e, (Run.from (step plainExternals) {} deletedFirst).engine = some e ∧
      let fs := (Run.from (step plainExternals) {} deletedFirst).fs
      ¬ e.HonestRange fs [1] [1] [9] { maxItems := some 2 } ∧
        ¬ e.HonestPrefix fs [1] [] { maxItems := some 2 } := by
  obtain ⟨e, he, hrange⟩ := Option.map_eq_some_iff.mp range_deletedFirst
  have hpre := prefix_deletedFirst
  rw [he] at hpre
  obtain ⟨hscan, hall⟩ := Prod.mk.inj hrange
  obtain ⟨hpreScan, hpreAll⟩ := Prod.mk.inj (Option.some.inj hpre)
  refine ⟨e, he, ?_, ?_⟩
  · rintro ⟨scan, all, hscan', hall', hhonest⟩
    rw [hscan] at hscan'
    rw [hall] at hall'
    cases hscan'
    cases hall'
    exact absurd hhonest.first (by decide)
  · rintro ⟨scan, all, hscan', hall', hhonest⟩
    rw [hpreScan] at hscan'
    rw [hpreAll] at hall'
    cases hscan'
    cases hall'
    exact absurd hhonest.first (by decide)

end World
