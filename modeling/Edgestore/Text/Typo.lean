import Edgestore.Lib.EditDistance
import Mathlib.Order.Bounds.Basic

/-!
# Typos

Terms that are one typo away from each other are told by their edit distance. It is computed row by row: a
row has the distances of a prefix of the one string from all prefixes of the other one, and only the last two
rows are kept.

## Main definitions

* `levenshtein`, `isOneEditAway`

## Main results

* `levenshtein_eq_distance`: the last cell of the last row is the distance
* `levenshtein_isLeast`: the distance is the least number of edits, and a metric
-/

open EditDistance

/-- Fill a row from the one above it. -/
def fillRow (aChars bChars : List Char) (i : ℕ) (prevRow currRow : List ℕ) : List ℕ :=
  (List.range' 1 bChars.length).foldl (fun row j =>
    let cost := if aChars[i - 1]? = bChars[j - 1]? then 0 else 1
    row.set j (min (min (row.getD (j - 1) 0 + 1) (prevRow.getD j 0 + 1)) (prevRow.getD (j - 1) 0 + cost)))
    (currRow.set 0 i)

/-- The edit distance of two strings. After each row, the two rows are swapped. -/
def levenshtein (a b : String) : ℕ :=
  let aChars := a.toList
  let bChars := b.toList
  if aChars.length = 0 then bChars.length
  else if bChars.length = 0 then aChars.length
  else
    let rows := (List.range' 1 aChars.length).foldl
      (fun rows i => (fillRow aChars bChars i rows.1 rows.2, rows.1))
      (List.range (bChars.length + 1), List.replicate (bChars.length + 1) 0)
    rows.1.getD bChars.length 0

/-- Whether two strings are within one edit. -/
def isOneEditAway (a b : String) : Bool := levenshtein a b ≤ 1

/-! ### Rows -/

variable {aChars bChars : List Char} {i j : ℕ} {row prevRow : List ℕ}

/-- The distance of two prefixes, which are read from their ends. -/
def cell (aChars bChars : List Char) (i j : ℕ) : ℕ :=
  distance (aChars.take i).reverse (bChars.take j).reverse

/-- The cells of a row up to some column. -/
structure RowTo (aChars bChars : List Char) (i k : ℕ) (row : List ℕ) : Prop where
  length : row.length = bChars.length + 1
  cell : ∀ j ≤ k, row.getD j 0 = cell aChars bChars i j

theorem cell_zero_left (hj : j ≤ bChars.length) : cell aChars bChars 0 j = j := by
  rw [cell, List.take_zero, List.reverse_nil, distance_nil_left, List.length_reverse, List.length_take,
    min_eq_left hj]

theorem cell_zero_right (hi : i ≤ aChars.length) : cell aChars bChars i 0 = i := by
  rw [cell, List.take_zero, List.reverse_nil, distance_nil_right, List.length_reverse, List.length_take,
    min_eq_left hi]

theorem reverse_take_succ {cs : List Char} {k : ℕ} (hk : k < cs.length) :
    (cs.take (k + 1)).reverse = cs[k] :: (cs.take k).reverse := by
  rw [List.take_succ_eq_append_getElem hk, List.reverse_append, List.reverse_singleton,
    List.singleton_append]

theorem cell_succ (hi : i < aChars.length) (hj : j < bChars.length) :
    cell aChars bChars (i + 1) (j + 1) =
      min (min (cell aChars bChars (i + 1) j + 1) (cell aChars bChars i (j + 1) + 1))
        (cell aChars bChars i j + cost aChars[i] bChars[j]) := by
  unfold cell
  rw [reverse_take_succ hi, reverse_take_succ hj, distance_cons]

theorem cost_eq (hi : i < aChars.length) (hj : j < bChars.length) :
    (if aChars[i]? = bChars[j]? then 0 else 1) = cost aChars[i] bChars[j] := by
  rw [List.getElem?_eq_getElem hi, List.getElem?_eq_getElem hj]
  unfold cost
  by_cases h : aChars[i] = bChars[j]
  · rw [if_pos h, if_pos (congrArg some h)]
  · rw [if_neg h, if_neg fun heq => h (Option.some.inj heq)]

theorem getD_set (l : List ℕ) (k v j : ℕ) (hk : k < l.length) :
    (l.set k v).getD j 0 = if k = j then v else l.getD j 0 := by
  rw [List.getD_eq_getElem?_getD, List.getElem?_set, List.getD_eq_getElem?_getD]
  split
  · rw [Option.getD_some]
  · rfl

/-- One more cell. -/
theorem RowTo.set (hprev : RowTo aChars bChars i bChars.length prevRow) (hi : i < aChars.length)
    (hj : j < bChars.length) (h : RowTo aChars bChars (i + 1) j row) :
    RowTo aChars bChars (i + 1) (j + 1) (row.set (j + 1)
      (min (min (row.getD j 0 + 1) (prevRow.getD (j + 1) 0 + 1))
        (prevRow.getD j 0 + if aChars[i]? = bChars[j]? then 0 else 1))) := by
  have hlen : j + 1 < row.length := by
    rw [h.length]
    omega
  refine ⟨by rw [List.length_set, h.length], fun k hk => ?_⟩
  rw [getD_set _ _ _ _ hlen]
  split
  case isTrue heq =>
    subst heq
    rw [h.cell j le_rfl, hprev.cell (j + 1) hj, hprev.cell j hj.le, cost_eq hi hj, cell_succ hi hj]
  case isFalse hne => exact h.cell k (by omega)

/-- **A row is filled** with the distances of the next prefix, whatever was in it. -/
theorem rowTo_fillRow (hprev : RowTo aChars bChars i bChars.length prevRow) (hi : i < aChars.length)
    (hlen : row.length = bChars.length + 1) :
    RowTo aChars bChars (i + 1) bChars.length (fillRow aChars bChars (i + 1) prevRow row) := by
  have hfold : ∀ k ≤ bChars.length, RowTo aChars bChars (i + 1) k
      ((List.range' 1 k).foldl (fun row j =>
        row.set j (min (min (row.getD (j - 1) 0 + 1) (prevRow.getD j 0 + 1))
          (prevRow.getD (j - 1) 0 + if aChars[i + 1 - 1]? = bChars[j - 1]? then 0 else 1)))
        (row.set 0 (i + 1))) := by
    intro k
    induction k with
    | zero =>
      intro _
      refine ⟨by rw [List.range'_zero, List.foldl_nil, List.length_set, hlen], fun j hj => ?_⟩
      obtain rfl : j = 0 := Nat.le_zero.mp hj
      rw [List.range'_zero, List.foldl_nil, getD_set _ _ _ _ (by omega), if_pos rfl, cell_zero_right hi]
    | succ k ih =>
      intro hk
      rw [List.range'_1_concat, List.foldl_append, List.foldl_cons, List.foldl_nil, Nat.add_comm 1 k]
      exact hprev.set hi hk (ih (by omega))
  exact hfold bChars.length le_rfl

/-- **The last cell of the last row** is the distance. -/
theorem levenshtein_eq_distance (a b : String) : levenshtein a b = distance a.toList b.toList := by
  have hrows : ∀ k ≤ a.toList.length,
      let rows := (List.range' 1 k).foldl
        (fun rows i => (fillRow a.toList b.toList i rows.1 rows.2, rows.1))
        (List.range (b.toList.length + 1), List.replicate (b.toList.length + 1) 0)
      RowTo a.toList b.toList k b.toList.length rows.1 ∧ rows.2.length = b.toList.length + 1 := by
    intro k
    induction k with
    | zero =>
      intro _
      refine ⟨⟨List.length_range, fun j hj => ?_⟩, List.length_replicate⟩
      rw [List.range'_zero, List.foldl_nil, cell_zero_left hj, List.getD_eq_getElem?_getD,
        List.getElem?_range (Nat.lt_succ_of_le hj), Option.getD_some]
    | succ k ih =>
      intro hk
      obtain ⟨hrow, hlen⟩ := ih (by omega)
      rw [List.range'_1_concat, List.foldl_append, List.foldl_cons, List.foldl_nil, Nat.add_comm 1 k]
      -- the row that was filled before the last one is overwritten
      exact ⟨rowTo_fillRow hrow hk hlen, hrow.length⟩
  unfold levenshtein
  dsimp only
  split
  case isTrue ha => rw [List.length_eq_zero_iff.mp ha, distance_nil_left]
  case isFalse =>
    split
    case isTrue hb => rw [List.length_eq_zero_iff.mp hb, distance_nil_right]
    case isFalse =>
      rw [(hrows _ le_rfl).1.cell _ le_rfl, cell, List.take_length, List.take_length, distance_reverse]

/-- **The distance of two strings** is the least number of characters that have to be inserted, deleted or
substituted. It is symmetric, and satisfies the triangle inequality. Two strings are within one edit if and
only if this number is at most one. -/
theorem levenshtein_isLeast (a b c : String) :
    IsLeast {n | Edits n a.toList b.toList} (levenshtein a b) ∧
      levenshtein a b = levenshtein b a ∧
      levenshtein a c ≤ levenshtein a b + levenshtein b c ∧
      (isOneEditAway a b = true ↔ ∀ n, IsLeast {n | Edits n a.toList b.toList} n → n ≤ 1) := by
  have hleast : IsLeast {n | Edits n a.toList b.toList} (levenshtein a b) := by
    rw [levenshtein_eq_distance]
    exact isLeast_distance _ _
  refine ⟨hleast, ?_, ?_, ?_⟩
  · rw [levenshtein_eq_distance, levenshtein_eq_distance, distance_comm]
  · simp only [levenshtein_eq_distance]
    exact distance_triangle _ _ _
  · rw [isOneEditAway, decide_eq_true_iff]
    constructor
    · intro h n hn
      rwa [hn.unique hleast]
    · exact fun h => h _ hleast

example : levenshtein "hello" "heloh" = 2 := by decide
