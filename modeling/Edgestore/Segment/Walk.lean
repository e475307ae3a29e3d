import Edgestore.Segment.Format

/-!
# Walking over the bytes of a segment

The lookup, the scan and the cursor of a segment reader walk over the blocks of a file by offsets,
and stop at the end of the file, at a block without entries, or where no block begins. On the blocks
behind the offset they do what their counterparts do on a list of blocks.

## Main definitions

* `Raw.getFrom`, `Raw.scanFrom`: the loops of `SegmentReader::get` and `SegmentReader::range_scan`
* `Raw.SegmentCursor`, with `fill` and `pop`
* `scanWith keep past`: a scan over a list of blocks
* `Raw.SegmentCursor.Yields c l`: popping from `c` yields the entries `l`

## Main results

* `Raw.getFrom_eq`, `Raw.scanFrom_eq`: the loops on bytes are those on blocks
* `Raw.SegmentCursor.pop_eq`: a cursor pops what is pending, in order
-/

variable {Z : Zstd}

/-! ### Scans over blocks -/

/-- The entries of blocks whose key is to be kept, up to the first key past the end. -/
def scanWith (keep past : Bytes → Bool) : Dat → Except EdgestoreError (List (Bytes × MemEntry))
  | [] => .ok []
  | b :: blocks => do
    let entries ← readBlock b
    if entries = [] then return []
    else
      let here := (entries.takeWhile fun p => !past p.1).filter fun p => keep p.1
      if entries.all fun p => !past p.1 then return here ++ (← scanWith keep past blocks)
      else return here

/-- A scan of a range is one that keeps the keys from its start on, and stops at its end. -/
theorem scanWith_eq_scanBlocks (start «end» : Bytes) (dat : Dat) :
    scanWith (fun k => start ≤ k) (fun k => «end» ≤ k) dat = scanBlocks start «end» dat := by
  have hnot : ∀ k : Bytes, (!decide («end» ≤ k)) = decide (k < «end») := by
    intro k
    rw [← decide_not]
    exact decide_eq_decide.mpr not_le
  induction dat with
  | nil => rfl
  | cons b blocks ih =>
    rw [scanWith, scanBlocks, ih]
    simp only [hnot]

namespace Raw

/-! ### Loops over a file -/

/-- Look for a key from an offset on, with a bound on the steps. -/
def getFromAux (Z : Zstd) (key dat : Bytes) :
    ℕ → ℕ → Except EdgestoreError (Option MemEntry)
  | 0, _ => .ok none
  | n + 1, currentOffset =>
    if currentOffset ≥ dat.length then .ok none
    else do
      let (entries, alignedSize) ← readBlockAtOffset Z dat currentOffset
      if entries = [] ∨ alignedSize = 0 then return none
      else
        match searchEntries key entries with
        | .found e => return some e
        | .past => return none
        | .continue => getFromAux Z key dat n (currentOffset + alignedSize)

/-- Look for a key from an offset on. Every block takes at least a byte, so the length of the file
bounds the steps. -/
def getFrom (Z : Zstd) (key dat : Bytes) (startOffset : ℕ) : Except EdgestoreError (Option MemEntry) :=
  getFromAux Z key dat (dat.length + 1) startOffset

/-- Scan from an offset on, with a bound on the steps. -/
def scanFromAux (Z : Zstd) (keep past : Bytes → Bool) (dat : Bytes) :
    ℕ → ℕ → Except EdgestoreError (List (Bytes × MemEntry))
  | 0, _ => .ok []
  | n + 1, currentOffset =>
    if currentOffset ≥ dat.length then .ok []
    else do
      let (entries, alignedSize) ← readBlockAtOffset Z dat currentOffset
      if entries = [] ∨ alignedSize = 0 then return []
      else
        let here := (entries.takeWhile fun p => !past p.1).filter fun p => keep p.1
        if entries.all fun p => !past p.1 then
          return here ++ (← scanFromAux Z keep past dat n (currentOffset + alignedSize))
        else return here

/-- Scan from an offset on. -/
def scanFrom (Z : Zstd) (keep past : Bytes → Bool) (dat : Bytes) (startOffset : ℕ) :
    Except EdgestoreError (List (Bytes × MemEntry)) :=
  scanFromAux Z keep past dat (dat.length + 1) startOffset

/-- **The loop of a lookup** searches the blocks behind the offset. -/
theorem getFrom_eq (key dat : Bytes) (offset : ℕ) :
    getFrom Z key dat offset = searchBlocks key (blocksOf Z (dat.drop offset)) := by
  have haux : ∀ n offset, dat.length - offset < n →
      getFromAux Z key dat n offset = searchBlocks key (blocksOf Z (dat.drop offset)) := by
    intro n
    induction n with
    | zero => intro offset hn; omega
    | succ n ih =>
      intro offset hn
      rw [getFromAux]
      by_cases hend : offset ≥ dat.length
      · rw [if_pos hend, List.drop_of_length_le hend, blocksOf_eq, framing_nil]
        rfl
      rw [if_neg hend, readBlockAtOffset_eq, blocksOf_eq]
      cases hf : framing Z (dat.drop offset) with
      | none => rfl
      | short => rfl
      | whole b size =>
        obtain ⟨hsize, -⟩ := framing_whole hf
        simp only [searchBlocks]
        cases hb : readBlock b with
        | error err => rfl
        | ok es =>
          change (if es = [] ∨ size = 0 then _ else _) = (if es = [] then _ else _)
          have hiff : (es = [] ∨ size = 0) ↔ es = [] := or_iff_left (by omega)
          simp only [hiff]
          split
          · rfl
          · cases searchEntries key es with
            | found e => rfl
            | past => rfl
            | «continue» => simp only [ih (offset + size) (by omega), List.drop_drop]
  exact haux _ _ (by omega)

/-- **The loop of a scan** scans the blocks behind the offset. -/
theorem scanFrom_eq (keep past : Bytes → Bool) (dat : Bytes) (offset : ℕ) :
    scanFrom Z keep past dat offset = scanWith keep past (blocksOf Z (dat.drop offset)) := by
  have haux : ∀ n offset, dat.length - offset < n →
      scanFromAux Z keep past dat n offset = scanWith keep past (blocksOf Z (dat.drop offset)) := by
    intro n
    induction n with
    | zero => intro offset hn; omega
    | succ n ih =>
      intro offset hn
      rw [scanFromAux]
      by_cases hend : offset ≥ dat.length
      · rw [if_pos hend, List.drop_of_length_le hend, blocksOf_eq, framing_nil]
        rfl
      rw [if_neg hend, readBlockAtOffset_eq, blocksOf_eq]
      cases hf : framing Z (dat.drop offset) with
      | none => rfl
      | short => rfl
      | whole b size =>
        obtain ⟨hsize, -⟩ := framing_whole hf
        simp only [scanWith]
        cases hb : readBlock b with
        | error err => rfl
        | ok es =>
          change (if es = [] ∨ size = 0 then _ else _) = (if es = [] then _ else _)
          have hiff : (es = [] ∨ size = 0) ↔ es = [] := or_iff_left (by omega)
          simp only [hiff, ih (offset + size) (by omega), List.drop_drop]
  exact haux _ _ (by omega)

/-! ### Cursors -/

/-- A cursor over `[start, end)` of one segment file. -/
structure SegmentCursor where
  currentOffset : ℕ
  buffer : List (Bytes × MemEntry)
  done : Bool
  deriving DecidableEq, Repr

namespace SegmentCursor

variable (Z) (dat start «end» : Bytes)

/-- Read blocks until there are entries in the buffer, or the cursor is done, with a bound on the
steps. -/
def fillAux : ℕ → SegmentCursor → Except EdgestoreError SegmentCursor
  | 0, c => .ok c
  | n + 1, c =>
    if c.buffer ≠ [] ∨ c.done then .ok c
    else if c.currentOffset ≥ dat.length then .ok { c with done := true }
    else do
      let (entries, alignedSize) ← readBlockAtOffset Z dat c.currentOffset
      if entries = [] ∨ alignedSize = 0 then return { c with done := true }
      else
        fillAux n {
          currentOffset := c.currentOffset + alignedSize
          buffer := (entries.takeWhile fun p => p.1 < «end»).filter fun p => start ≤ p.1
          done := !entries.all fun p => p.1 < «end» }

/-- Read blocks until there are entries in the buffer, or the cursor is done. -/
def fill (c : SegmentCursor) : Except EdgestoreError SegmentCursor :=
  fillAux Z dat start «end» (dat.length + 2) c

/-- The next entry, and the cursor behind it. -/
def pop (c : SegmentCursor) : Except EdgestoreError (Option (Bytes × MemEntry) × SegmentCursor) := do
  let c ← fill Z dat start «end» c
  return (c.buffer.head?, { c with buffer := c.buffer.tail })

/-- What a cursor has still to yield. -/
def pending (c : SegmentCursor) : List (Except EdgestoreError (Bytes × MemEntry)) :=
  c.buffer.map .ok ++
    if c.done then []
    else SegmentCursor.items start «end» (blocksOf Z (dat.drop c.currentOffset))

variable {Z dat start «end»}

/-- Filling the buffer keeps what is pending. A cursor that fails has only its error pending. -/
theorem fillAux_eq (n : ℕ) (c : SegmentCursor) (hn : dat.length - c.currentOffset + 2 ≤ n) :
    match fillAux Z dat start «end» n c with
    | .ok c' => pending Z dat start «end» c' = pending Z dat start «end» c ∧
        (c'.buffer ≠ [] ∨ c'.done = true)
    | .error e => pending Z dat start «end» c = [.error e] := by
  induction n generalizing c with
  | zero => omega
  | succ n ih =>
    rw [fillAux]
    by_cases hstop : c.buffer ≠ [] ∨ c.done = true
    · rw [if_pos hstop]
      exact ⟨rfl, hstop⟩
    obtain ⟨hbuf, hdone⟩ := not_or.mp hstop
    have hbuf : c.buffer = [] := not_not.mp hbuf
    have hdone : c.done = false := by simpa using hdone
    have hpending : pending Z dat start «end» c =
        SegmentCursor.items start «end» (blocksOf Z (dat.drop c.currentOffset)) := by
      simp [pending, hbuf, hdone]
    rw [if_neg hstop]
    by_cases hend : c.currentOffset ≥ dat.length
    · rw [if_pos hend]
      refine ⟨?_, .inr rfl⟩
      rw [hpending, List.drop_of_length_le hend, blocksOf_eq, framing_nil]
      simp [pending, hbuf, SegmentCursor.items]
    rw [if_neg hend, readBlockAtOffset_eq]
    rw [blocksOf_eq] at hpending
    cases hf : framing Z (dat.drop c.currentOffset) with
    | none =>
      rw [hf] at hpending
      refine ⟨?_, .inr rfl⟩
      rw [hpending]
      simp [pending, hbuf, SegmentCursor.items]
    | short =>
      rw [hf] at hpending
      exact hpending
    | whole b size =>
      obtain ⟨hsize, -⟩ := framing_whole hf
      rw [hf] at hpending
      simp only [SegmentCursor.items] at hpending
      dsimp only
      cases hb : readBlock b with
      | error err =>
        rw [hb] at hpending
        exact hpending
      | ok es =>
        rw [hb] at hpending
        have hiff : (es = [] ∨ size = 0) ↔ es = [] := or_iff_left (by omega)
        by_cases hes : es = []
        · -- a block without entries ends the walk
          subst hes
          refine ⟨?_, .inr rfl⟩
          rw [hpending]
          simp [pending, hbuf]
        have hrest := ih
          { currentOffset := c.currentOffset + size
            buffer := (es.takeWhile fun p => p.1 < «end»).filter fun p => start ≤ p.1
            done := !es.all fun p => p.1 < «end» } (by simp only; omega)
        have hsame : pending Z dat start «end»
            { currentOffset := c.currentOffset + size
              buffer := (es.takeWhile fun p => p.1 < «end»).filter fun p => start ≤ p.1
              done := !es.all fun p => p.1 < «end» } = pending Z dat start «end» c := by
          rw [hpending]
          simp only [hes, if_false, pending, ← List.drop_drop]
          by_cases hall : (es.all fun p => p.1 < «end») = true
          · simp only [hall, Bool.not_true, Bool.false_eq_true, if_false, if_true]
          · simp only [hall, Bool.not_false, if_true, Bool.false_eq_true, if_false, List.append_nil]
        rw [hsame] at hrest
        change (match (if es = [] ∨ size = 0 then _ else _ : Except EdgestoreError SegmentCursor) with
          | .ok c' => _
          | .error e => _)
        rw [if_neg (fun h => hes (hiff.mp h))]
        exact hrest

/-- **A cursor** pops what is pending, in order. -/
theorem pop_eq (c : SegmentCursor) :
    match pending Z dat start «end» c with
    | [] => ∃ c', pop Z dat start «end» c = .ok (none, c')
    | .error e :: _ => pop Z dat start «end» c = .error e
    | .ok p :: rest => ∃ c', pop Z dat start «end» c = .ok (some p, c') ∧
        pending Z dat start «end» c' = rest := by
  have hfill := @fillAux_eq Z dat start «end»
    (dat.length + 2) c (by omega)
  rw [pop, fill]
  cases hc : fillAux Z dat start «end» (dat.length + 2) c with
  | error e =>
    rw [hc] at hfill
    rw [show pending Z dat start «end» c = [.error e] from hfill]
    rfl
  | ok c' =>
    rw [hc] at hfill
    obtain ⟨hsame, hstop⟩ := hfill
    rw [← hsame]
    cases hbuf : c'.buffer with
    | nil =>
      have hdone : c'.done = true := hstop.resolve_left (not_not.mpr hbuf)
      have hnil : pending Z dat start «end» c' = [] := by simp [pending, hbuf, hdone]
      rw [hnil]
      refine ⟨c', ?_⟩
      change Except.ok (c'.buffer.head?, _) = _
      rw [hbuf]
      cases c'
      simp_all
    | cons p rest =>
      have hcons : pending Z dat start «end» c' = .ok p :: pending Z dat start «end»
          { c' with buffer := rest } := by
        simp [pending, hbuf]
      rw [hcons]
      refine ⟨{ c' with buffer := rest }, ?_, rfl⟩
      change Except.ok (c'.buffer.head?, { c' with buffer := c'.buffer.tail }) = _
      rw [hbuf]
      rfl

/-- Popping from a cursor until it is empty yields the entries. -/
inductive Yields (Z : Zstd) (dat start «end» : Bytes) : SegmentCursor → List (Bytes × MemEntry) → Prop
  | empty {c c' : SegmentCursor} : pop Z dat start «end» c = .ok (none, c') →
      Yields Z dat start «end» c []
  | entry {c c' : SegmentCursor} {p : Bytes × MemEntry} {l : List (Bytes × MemEntry)} :
      pop Z dat start «end» c = .ok (some p, c') → Yields Z dat start «end» c' l →
      Yields Z dat start «end» c (p :: l)

/-- A cursor without a pending error yields its pending entries. -/
theorem yields_of_pending {c : SegmentCursor} {l : List (Bytes × MemEntry)}
    (h : pending Z dat start «end» c = l.map .ok) : Yields Z dat start «end» c l := by
  induction l generalizing c with
  | nil =>
    have hpop := @pop_eq Z dat start «end» c
    rw [h] at hpop
    obtain ⟨c', hc'⟩ := hpop
    exact .empty hc'
  | cons p l ih =>
    have hpop := @pop_eq Z dat start «end» c
    rw [h] at hpop
    obtain ⟨c', hc', hrest⟩ := hpop
    exact .entry hc' (ih hrest)

end SegmentCursor

end Raw
