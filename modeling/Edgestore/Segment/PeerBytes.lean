import Edgestore.Segment.Files

/-!
# Segment bytes from a peer

An import parses the bytes a peer delivers with a parser of its own, adopts the file, and leaves
later scans to the block reader. The two walk over the same blocks, but react differently to a block
that is cut short and to a block without entries. So the entries that are merged are those that are
served exactly when the walk meets neither of them in a way that matters.

## Main definitions

* `Raw.parseDatEntries`: the parser of an import
* `Raw.scanAll`: a scan of all entries by the block reader
* `Agrees a b`: both fail, or both succeed with the same entries
* `SameEntries blocks`: parser and reader see the same entries in the blocks

## Main results

* `parseDatEntries_eq`: the parser walks over the blocks
* `parse_agrees_scan_iff`: when the parser agrees with the reader
-/

variable {Z : Zstd}

namespace Raw

/-- Parse entries from an offset on, with a bound on the steps. -/
def parseDatEntriesAux (Z : Zstd) (data : Bytes) :
    ℕ → ℕ → Except EdgestoreError (List (Bytes × MemEntry))
  | 0, _ => .ok []
  | n + 1, offset =>
    if offset ≥ data.length then .ok []
    else if offset + 8 > data.length then .ok []
    else if ofLe ((data.drop offset).take 4) ≠ segmentBlockMagic then .ok []
    else
      let compressedLen := ofLe ((data.drop (offset + 4)).take 4)
      if offset + 8 + compressedLen > data.length then .ok []
      else
        match Z.decode ((data.drop (offset + 8)).take compressedLen) with
        | none => .error (.segmentCorrupt "parse_dat_entries zstd decode")
        | some decompressed =>
          if decompressed.length > maxBlockDecompressed then
            .error (.segmentCorrupt "decompressed block too large")
          else do
            let rest ← parseDatEntriesAux Z data n (offset + alignedSize (8 + compressedLen))
            return parseEntries decompressed ++ rest

/-- All entries of the bytes of a `.dat` file. Every block takes at least a byte, so the length bounds
the steps. -/
def parseDatEntries (Z : Zstd) (data : Bytes) : Except EdgestoreError (List (Bytes × MemEntry)) :=
  parseDatEntriesAux Z data (data.length + 1) segmentHeaderLen

/-- All entries that the block reader serves from the end of the header on. -/
def scanAll (Z : Zstd) (data : Bytes) : Except EdgestoreError (List (Bytes × MemEntry)) :=
  scanFrom Z (fun _ => true) (fun _ => false) data segmentHeaderLen

end Raw

/-- Both fail, or both succeed with the same entries. -/
def Agrees (a b : Except EdgestoreError (List (Bytes × MemEntry))) : Prop :=
  match a, b with
  | .ok l, .ok l' => l = l'
  | .error _, .error _ => True
  | _, _ => False

instance : ∀ a b, Decidable (Agrees a b)
  | .ok l, .ok l' => inferInstanceAs (Decidable (l = l'))
  | .error _, .error _ => .isTrue trivial
  | .ok _, .error _ => .isFalse id
  | .error _, .ok _ => .isFalse id

/-- Blocks without entries, up to the end or a block that is cut short. -/
def NoEntries : Dat → Prop
  | [] => True
  | .truncated :: _ => True
  | .undecodable :: _ => False
  | .decoded size es :: blocks => size ≤ maxBlockDecompressed ∧ es = [] ∧ NoEntries blocks

/-- Parser and reader see the same entries: no block is cut short in front of the first block that
fails to decode, that is too large, or that has no entries; and behind a block without entries there
are no entries. -/
def SameEntries : Dat → Prop
  | [] => True
  | .truncated :: _ => False
  | .undecodable :: _ => True
  | .decoded size es :: blocks =>
    maxBlockDecompressed < size ∨ (es = [] ∧ NoEntries blocks) ∨ (es ≠ [] ∧ SameEntries blocks)

/-! ### The parser on blocks -/

/-- **The parser of an import** walks over the blocks behind the header. -/
theorem parseDatEntries_eq (data : Bytes) :
    Raw.parseDatEntries Z data = parseDatEntries (blocksOf Z (data.drop segmentHeaderLen)) := by
  have haux : ∀ n offset, data.length - offset < n → Raw.parseDatEntriesAux Z data n offset =
      parseDatEntries (blocksOf Z (data.drop offset)) := by
    intro n
    induction n with
    | zero => intro offset hn; omega
    | succ n ih =>
      intro offset hn
      rw [Raw.parseDatEntriesAux, blocksOf_eq]
      by_cases hend : offset ≥ data.length
      · rw [if_pos hend, List.drop_of_length_le hend, framing_nil]
        rfl
      rw [if_neg hend]
      have hlen : (data.drop offset).length = data.length - offset := List.length_drop
      have hlen8 : ((data.drop offset).drop 8).length = data.length - offset - 8 := by
        rw [List.length_drop, hlen]
      by_cases hhead : offset + 8 > data.length
      · -- too short for the head of a block: the parser stops, whatever is there
        rw [if_pos hhead, framing]
        by_cases hstop : (data.drop offset).length < 4 ∨
            ofLe ((data.drop offset).take 4) ≠ segmentBlockMagic
        · rw [if_pos hstop]
          rfl
        · rw [if_neg hstop, if_pos (.inl (by omega))]
          rfl
      rw [if_neg hhead, framing]
      by_cases hmagic : ofLe ((data.drop offset).take 4) ≠ segmentBlockMagic
      · rw [if_pos hmagic, if_pos (.inr hmagic)]
        rfl
      have hdrop : ∀ m, data.drop (offset + m) = (data.drop offset).drop m := fun m =>
        List.drop_drop.symm
      rw [if_neg hmagic, if_neg (not_or.mpr ⟨by omega, hmagic⟩), hdrop, hdrop]
      simp only
      by_cases hshort : offset + 8 + ofLe (((data.drop offset).drop 4).take 4) > data.length
      · rw [if_pos hshort, if_pos (.inr (by omega))]
        rfl
      rw [if_neg hshort, if_neg (not_or.mpr ⟨by omega, by omega⟩)]
      simp only [decodeBlock]
      have hsize := alignedSize_ge (8 + ofLe (((data.drop offset).drop 4).take 4))
      cases Z.decode (((data.drop offset).drop 8).take
          (ofLe (((data.drop offset).drop 4).take 4))) with
      | none => rfl
      | some bs =>
        simp only [parseDatEntries]
        split
        · rfl
        · rw [ih _ (by omega), hdrop (alignedSize _)]
  exact haux _ _ (by omega)

theorem scanAll_eq (data : Bytes) :
    Raw.scanAll Z data =
      scanWith (fun _ => true) (fun _ => false) (blocksOf Z (data.drop segmentHeaderLen)) :=
  Raw.scanFrom_eq _ _ _ _

/-! ### Agreement on blocks -/

theorem scanWith_all_cons {size : ℕ} {es : List (Bytes × MemEntry)} {blocks : Dat}
    (hsize : size ≤ maxBlockDecompressed) (hes : es ≠ []) :
    scanWith (fun _ => true) (fun _ => false) (.decoded size es :: blocks) =
      (scanWith (fun _ => true) (fun _ => false) blocks).map (es ++ ·) := by
  have htake : (es.takeWhile fun _ => true) = es := by
    simp
  rw [scanWith, readBlock, if_neg (by omega)]
  change (if es = [] then _ else _) = _
  rw [if_neg hes]
  simp only [Bool.not_false, htake, List.filter_true, List.all_eq_true, implies_true, if_true]
  cases scanWith (fun _ => true) (fun _ => false) blocks <;> rfl

theorem parseDatEntries_cons {size : ℕ} {es : List (Bytes × MemEntry)} {blocks : Dat}
    (hsize : size ≤ maxBlockDecompressed) :
    parseDatEntries (.decoded size es :: blocks) = (parseDatEntries blocks).map (es ++ ·) := by
  rw [parseDatEntries, if_neg (by omega)]
  cases parseDatEntries blocks <;> rfl

/-- There are no entries exactly when the parser finds none. -/
theorem noEntries_iff {blocks : Dat} : NoEntries blocks ↔ parseDatEntries blocks = .ok [] := by
  induction blocks with
  | nil => simp [NoEntries, parseDatEntries]
  | cons b blocks ih =>
    cases b with
    | truncated => simp [NoEntries, parseDatEntries]
    | undecodable => simp [NoEntries, parseDatEntries]
    | decoded size es =>
      rw [NoEntries]
      by_cases hsize : size ≤ maxBlockDecompressed
      · rw [parseDatEntries_cons hsize, ih]
        cases parseDatEntries blocks with
        | error e => simp [Except.map]
        | ok l => simp [Except.map, hsize]
      · rw [parseDatEntries, if_pos (by omega)]
        simp [hsize]

theorem agrees_map_append (es : List (Bytes × MemEntry))
    (a b : Except EdgestoreError (List (Bytes × MemEntry))) :
    Agrees (a.map (es ++ ·)) (b.map (es ++ ·)) ↔ Agrees a b := by
  cases a <;> cases b <;> simp [Agrees, Except.map]

/-- **Parser and reader agree** on blocks in which they see the same entries, and on no others. -/
theorem agrees_iff_sameEntries (blocks : Dat) :
    Agrees (parseDatEntries blocks) (scanWith (fun _ => true) (fun _ => false) blocks) ↔
      SameEntries blocks := by
  induction blocks with
  | nil => exact ⟨fun _ => trivial, fun _ => rfl⟩
  | cons b blocks ih =>
    cases b with
    | truncated => exact ⟨fun h => h, fun h => h⟩
    | undecodable => exact ⟨fun _ => trivial, fun _ => trivial⟩
    | decoded size es =>
      rw [SameEntries]
      by_cases hsize : size ≤ maxBlockDecompressed
      · have hnot : ¬ maxBlockDecompressed < size := by omega
        rw [parseDatEntries_cons hsize]
        by_cases hes : es = []
        · -- the reader stops at the block, the parser goes on
          subst hes
          have hscan : scanWith (fun _ => true) (fun _ => false) (.decoded size [] :: blocks) =
              .ok [] := by
            rw [scanWith, readBlock, if_neg hnot]
            rfl
          rw [hscan, noEntries_iff]
          cases parseDatEntries blocks with
          | error e => simp [Agrees, Except.map, hnot]
          | ok l => simp [Agrees, Except.map, hnot]
        · rw [scanWith_all_cons hsize hes, agrees_map_append, ih]
          simp [hnot, hes]
      · rw [parseDatEntries, if_pos (by omega), scanWith, readBlock, if_pos (by omega)]
        exact ⟨fun _ => .inl (by omega), fun _ => trivial⟩

/-! ### Agreement on bytes -/

/-- The entries of blocks that were written are parsed and served. -/
theorem parse_scan_written {blocks : Dat} (h : ∀ b ∈ blocks, b.Written)
    (hne : ∀ b ∈ blocks, b.entries ≠ []) :
    parseDatEntries blocks = .ok (Dat.table blocks) ∧
      scanWith (fun _ => true) (fun _ => false) blocks = .ok (Dat.table blocks) := by
  induction blocks with
  | nil => exact ⟨rfl, rfl⟩
  | cons b blocks ih =>
    obtain ⟨hparse, hscan⟩ := ih (fun b hb => h b (by simp [hb])) fun b hb => hne b (by simp [hb])
    obtain ⟨es, rfl, hsize, -⟩ := h b (by simp)
    have hes : es ≠ [] := hne _ List.mem_cons_self
    rw [parseDatEntries_cons hsize, scanWith_all_cons hsize hes, hparse, hscan, Dat.table_cons]
    exact ⟨rfl, rfl⟩

/-- **What an import merges** is what the reader serves, exactly when both see the same entries in the
blocks behind the header; and on what a writer wrote for a sorted list, both return the list. -/
theorem parse_agrees_scan_iff (Z : Zstd) :
    (∀ data, Agrees (Raw.parseDatEntries Z data) (Raw.scanAll Z data) ↔
      SameEntries (blocksOf Z (data.drop segmentHeaderLen))) ∧
    ∀ (X : Externals) (entries : List (Bytes × MemEntry)), KeySorted entries →
      (∀ p ∈ entries, EntryInRange p) →
      (∀ b ∈ (writeDatAndIndex X entries).blocks, b.size ≤ maxBlockDecompressed) →
      Raw.parseDatEntries Z (Raw.writeDatAndIndex Z entries).dat = .ok entries ∧
        Raw.scanAll Z (Raw.writeDatAndIndex Z entries).dat = .ok entries := by
  refine ⟨fun data => ?_, fun X entries hs hrange hblocks => ?_⟩
  · rw [parseDatEntries_eq, scanAll_eq]
    exact agrees_iff_sameEntries _
  · have hrep := represents_writeDatAndIndex (X := X) (Z := Z) fun p hp => (hrange p hp).stored
    have hwritten := written_writeDatAndIndex Z hs hrange hblocks
    have hdrop : blocksOf Z ((Raw.writeDatAndIndex Z entries).dat.drop segmentHeaderLen) =
        (writeDatAndIndex X entries).blocks := by
      rw [hrep.dat, List.drop_left' Raw.length_segmentHeader]
      exact blocksOf_encodeBlocks hwritten
    have htable : Dat.table (writeDatAndIndex X entries).blocks = entries := by
      rw [table_writeDatAndIndex hs]
      exact (List.map_congr_left fun p hp => (hrange p hp).stored).trans (List.map_id _)
    have hne : ∀ b ∈ (writeDatAndIndex X entries).blocks, b.entries ≠ [] := by
      intro b hb
      obtain ⟨size, es, rfl, hes, -⟩ := (packs_writeDatAndIndex (X := X) hs).1.blocks b hb
      exact hes
    obtain ⟨hparse, hscan⟩ := parse_scan_written hwritten hne
    rw [parseDatEntries_eq, scanAll_eq, hdrop, hparse, hscan, htable]
    exact ⟨rfl, rfl⟩

/-- A file that ends behind the magic of its first block: the parser finds no entries, the reader
fails. -/
theorem parse_disagrees_cut_short :
    ¬ Agrees (Raw.parseDatEntries plainZstd (Raw.segmentHeader ++ leBytes 4 segmentBlockMagic))
      (Raw.scanAll plainZstd (Raw.segmentHeader ++ leBytes 4 segmentBlockMagic)) := by
  decide +kernel

/-- A file that was written for two puts, one of them with a TTL, and a tombstone in another namespace: the
parser and the reader return the three. -/
theorem parse_agrees_scan_three :
    let entries : List (Bytes × MemEntry) :=
      [([0, 1, 1, 5], ⟨[0, 1, 1, 5], some [7, 8], .put, 1, 5, 60⟩),
        ([0, 1, 1, 6], ⟨[0, 1, 1, 6], some [], .put, 3, 7, 0⟩),
        ([0, 1, 2], ⟨[0, 1, 2], none, .delete, 2, 6, 0⟩)]
    Raw.parseDatEntries plainZstd (Raw.writeDatAndIndex plainZstd entries).dat = .ok entries ∧
      Raw.scanAll plainZstd (Raw.writeDatAndIndex plainZstd entries).dat = .ok entries := by
  intro entries
  refine (parse_agrees_scan_iff plainZstd).2 plainExternals entries (by decide) ?_ (by decide)
  refine List.forall_mem_cons.mpr ⟨?_, List.forall_mem_cons.mpr ⟨?_, List.forall_mem_singleton.mpr ?_⟩⟩
  · exact ⟨rfl, by decide, by decide, by decide, by decide, by decide⟩
  · exact ⟨rfl, by decide, by decide, by decide, by decide, by decide⟩
  · exact ⟨rfl, by decide, by decide, by decide, by decide, by decide⟩
