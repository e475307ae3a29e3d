import Edgestore.Segment.Reader

/-!
# Well-formed segments

A segment is well formed when its blocks are readable and hold a sorted table, its sparse index
never skips a key, its filter admits every key, and its metadata bounds the keys. A reader of such a
segment answers like the table.

## Main definitions

* `Dat.table`: the entries of all blocks
* `SegmentImage X`: the contents of the four files of a well-formed segment
* `SegmentWf X f`: the files `f` are those of a well-formed segment

## Main results

* `SegmentImage.openReader_files`: the reader opens
* `SegmentImage.get_reader`, `SegmentImage.rangeScan_reader`, `SegmentImage.cursor_reader`: it answers like the table
-/

variable {X : Externals}

/-- The entries of a block. -/
def Block.entries : Block → List (Bytes × MemEntry)
  | .decoded _ es => es
  | .undecodable => []
  | .truncated => []

/-- The entries of all blocks. -/
def Dat.table (dat : Dat) : List (Bytes × MemEntry) := dat.flatMap Block.entries

/-- The size a block decompresses to. -/
def Block.size : Block → ℕ
  | .decoded size _ => size
  | .undecodable => 0
  | .truncated => 0

/-- A block a reader accepts, with at least one entry. Its entries are what is read back of them. -/
def Block.Readable (b : Block) : Prop :=
  ∃ size es, b = .decoded size es ∧ size ≤ maxBlockDecompressed ∧ es ≠ [] ∧
    ∀ p ∈ es, storedEntry p = p

instance : DecidablePred Block.Readable
  | .decoded size es => decidable_of_iff
      (size ≤ maxBlockDecompressed ∧ es ≠ [] ∧ ∀ p ∈ es, storedEntry p = p)
      ⟨fun h => ⟨size, es, rfl, h⟩, fun ⟨_, _, heq, h⟩ => by cases heq; exact h⟩
  | .undecodable => .isFalse fun ⟨_, _, heq, _⟩ => by cases heq
  | .truncated => .isFalse fun ⟨_, _, heq, _⟩ => by cases heq

/-- The entries with `start ≤ key < end`. -/
def within (start «end» : Bytes) (l : List (Bytes × MemEntry)) : List (Bytes × MemEntry) :=
  l.filter fun p => start ≤ p.1 ∧ p.1 < «end»

/-- The contents of the four files of a well-formed segment. -/
structure SegmentImage (X : Externals) where
  dat : Dat
  idx : SparseIndex
  xf : XorFilter
  segMeta : SegmentMeta
  readable : ∀ b ∈ dat, b.Readable
  sorted : KeySorted (Dat.table dat)
  index_sound : ∀ q, ∀ p ∈ Dat.table (dat.take (findBlockOffset idx q)), p.1 < q
  filter_complete : ∀ p ∈ Dat.table dat, X.filterContains xf p.1 = true
  bounds : ∀ p ∈ Dat.table dat, segMeta.minKey ≤ p.1 ∧ p.1 ≤ segMeta.maxKey
  idx_le : idx.length ≤ maxIndexCount
  xf_le : xf.fingerprints.length ≤ maxFingerprints

/-- The files of an image. -/
def SegmentImage.files (img : SegmentImage X) : SegmentFiles :=
  ⟨.whole img.dat, .whole img.idx, .whole img.xf, .whole img.segMeta⟩

/-- The files of a well-formed segment. -/
def SegmentWf (X : Externals) (f : SegmentFiles) : Prop := ∃ img : SegmentImage X, f = img.files

/-- The table of a segment on disk. -/
def SegmentFiles.table (f : SegmentFiles) : List (Bytes × MemEntry) :=
  match f.dat with
  | .whole dat => Dat.table dat
  | _ => []

@[simp] theorem SegmentImage.table_files (img : SegmentImage X) :
    img.files.table = Dat.table img.dat := rfl

/-- The entries of a well-formed segment are what is read back of them. -/
theorem SegmentWf.stored {f : SegmentFiles} (h : SegmentWf X f) :
    ∀ p ∈ f.table, storedEntry p = p := by
  obtain ⟨img, rfl⟩ := h
  intro p hp
  obtain ⟨b, hb, hp⟩ := List.mem_flatMap.mp hp
  obtain ⟨size, es, rfl, -, -, hes⟩ := img.readable b hb
  exact hes p hp

theorem SegmentWf.sorted {f : SegmentFiles} (h : SegmentWf X f) : KeySorted f.table := by
  obtain ⟨img, rfl⟩ := h
  exact img.sorted

namespace Dat

@[simp] theorem table_nil : table [] = [] := rfl

@[simp] theorem table_cons (b : Block) (blocks : Dat) :
    table (b :: blocks) = b.entries ++ table blocks := by simp [table]

@[simp] theorem table_append (dat dat' : Dat) : table (dat ++ dat') = table dat ++ table dat' := by
  simp [table]

theorem table_take_append_drop (dat : Dat) (n : ℕ) :
    table (dat.take n) ++ table (dat.drop n) = table dat := by
  rw [← table_append, List.take_append_drop]

end Dat

theorem Block.Readable.readBlock {b : Block} (h : b.Readable) :
    readBlock b = .ok b.entries ∧ b.entries ≠ [] := by
  obtain ⟨size, es, rfl, hsize, hes, -⟩ := h
  exact ⟨if_neg (by omega), hes⟩

/-! ### Searching blocks -/

theorem KeySorted.of_append {l l' : List (Bytes × MemEntry)} (h : KeySorted (l ++ l')) :
    KeySorted l ∧ KeySorted l' ∧ ∀ p ∈ l, ∀ q ∈ l', p.1 < q.1 := List.pairwise_append.mp h

/-- Where the search for a key in sorted entries ends. -/
theorem searchEntries_eq {key : Bytes} {l : List (Bytes × MemEntry)} (h : KeySorted l) :
    searchEntries key l =
      match find l key with
      | some e => .found e
      | none => if ∃ p ∈ l, key < p.1 then .past else .continue := by
  induction l with
  | nil => simp [searchEntries]
  | cons p l ih =>
    rw [keySorted_cons] at h
    rw [searchEntries, find_cons]
    by_cases hk : p.1 = key
    · simp [hk]
    rw [if_neg hk, if_neg hk]
    by_cases hlt : key < p.1
    · have hnone : find l key = none := find_eq_none_of_lt fun q hq => hlt.trans (h.1 q hq)
      simp [hlt, hnone]
    · simp only [ih h.2, List.mem_cons, exists_eq_or_imp, hlt, false_or, if_false]

/-- Searching readable blocks of a sorted table finds the key. -/
theorem searchBlocks_eq {key : Bytes} {blocks : Dat} (hr : ∀ b ∈ blocks, b.Readable)
    (hs : KeySorted (Dat.table blocks)) :
    searchBlocks key blocks = .ok (find (Dat.table blocks) key) := by
  induction blocks with
  | nil => rfl
  | cons b blocks ih =>
    obtain ⟨hread, hne⟩ := (hr b (by simp)).readBlock
    rw [Dat.table_cons] at hs
    obtain ⟨hb, hrest, hlt⟩ := hs.of_append
    have ih' := ih (fun b hb => hr b (by simp [hb])) hrest
    rw [searchBlocks, hread, Dat.table_cons, find_append]
    change (if b.entries = [] then _ else _) = _
    rw [if_neg hne, searchEntries_eq hb]
    cases hf : find b.entries key with
    | some e => rfl
    | none =>
      simp only [Option.none_or]
      by_cases hpast : ∃ p ∈ b.entries, key < p.1
      · obtain ⟨p, hp, hkp⟩ := hpast
        have hnone : find (Dat.table blocks) key = none :=
          find_eq_none_of_lt fun q hq => hkp.trans (hlt p hp q hq)
        rw [if_pos ⟨p, hp, hkp⟩, hnone]
        rfl
      · rw [if_neg hpast]
        exact ih'

/-! ### Scanning blocks -/

theorem takeWhile_eq_filter_lt {«end» : Bytes} {l : List (Bytes × MemEntry)} (h : KeySorted l) :
    (l.takeWhile fun p => p.1 < «end») = l.filter fun p => p.1 < «end» := by
  induction l with
  | nil => rfl
  | cons p l ih =>
    rw [keySorted_cons] at h
    by_cases hp : p.1 < «end»
    · simp [hp, ih h.2]
    · have hnone : l.filter (fun p => decide (p.1 < «end»)) = [] := by
        refine List.filter_eq_nil_iff.mpr fun q hq => ?_
        have : ¬ q.1 < «end» := fun hlt => hp ((h.1 q hq).trans hlt)
        simpa using this
      rw [List.takeWhile_cons_of_neg (by simpa using hp),
        List.filter_cons_of_neg (by simpa using hp), hnone]

theorem filter_takeWhile_eq_within {start «end» : Bytes} {l : List (Bytes × MemEntry)}
    (h : KeySorted l) :
    ((l.takeWhile fun p => p.1 < «end»).filter fun p => start ≤ p.1) = within start «end» l := by
  rw [takeWhile_eq_filter_lt h, List.filter_filter, within]
  congr 1
  ext p
  simp

theorem within_eq_nil_of_past {start «end» : Bytes} {l l' : List (Bytes × MemEntry)}
    (hlt : ∀ p ∈ l, ∀ q ∈ l', p.1 < q.1) (hpast : ¬ (l.all fun p => p.1 < «end») = true) :
    within start «end» l' = [] := by
  obtain ⟨p, hp, hle⟩ : ∃ p ∈ l, ¬ p.1 < «end» := by simpa using hpast
  refine List.filter_eq_nil_iff.mpr fun q hq => ?_
  have : ¬ q.1 < «end» := fun h => hle ((hlt p hp q hq).trans h)
  simp [this]

theorem within_append (start «end» : Bytes) (l l' : List (Bytes × MemEntry)) :
    within start «end» (l ++ l') = within start «end» l ++ within start «end» l' :=
  List.filter_append ..

/-- Scanning readable blocks of a sorted table yields the entries in the range. -/
theorem scanBlocks_eq {start «end» : Bytes} {blocks : Dat} (hr : ∀ b ∈ blocks, b.Readable)
    (hs : KeySorted (Dat.table blocks)) :
    scanBlocks start «end» blocks = .ok (within start «end» (Dat.table blocks)) := by
  induction blocks with
  | nil => rfl
  | cons b blocks ih =>
    obtain ⟨hread, hne⟩ := (hr b (by simp)).readBlock
    rw [Dat.table_cons] at hs
    obtain ⟨hb, hrest, hlt⟩ := hs.of_append
    have ih' := ih (fun b hb => hr b (by simp [hb])) hrest
    rw [scanBlocks, hread, Dat.table_cons, within_append]
    change (if b.entries = [] then _ else _) = _
    rw [if_neg hne, filter_takeWhile_eq_within hb, ih']
    split
    · rfl
    case isFalse hpast =>
      rw [within_eq_nil_of_past hlt hpast, List.append_nil]
      rfl

/-- A cursor over readable blocks of a sorted table yields the entries in the range. -/
theorem cursorItems_eq {start «end» : Bytes} {blocks : Dat} (hr : ∀ b ∈ blocks, b.Readable)
    (hs : KeySorted (Dat.table blocks)) :
    SegmentCursor.items start «end» blocks = (within start «end» (Dat.table blocks)).map .ok := by
  induction blocks with
  | nil => rfl
  | cons b blocks ih =>
    obtain ⟨hread, hne⟩ := (hr b (by simp)).readBlock
    rw [Dat.table_cons] at hs
    obtain ⟨hb, hrest, hlt⟩ := hs.of_append
    have ih' := ih (fun b hb => hr b (by simp [hb])) hrest
    rw [SegmentCursor.items, hread, Dat.table_cons, within_append]
    simp only [hne, if_false]
    rw [filter_takeWhile_eq_within hb, ih', List.map_append]
    split
    · rfl
    case isFalse hpast => rw [within_eq_nil_of_past hlt hpast, List.map_nil, List.append_nil]

/-! ### Readers of well-formed segments -/

namespace SegmentImage

variable (img : SegmentImage X)

/-- The reader of an image. -/
def reader (id : SegmentId) : SegmentReader := ⟨id, img.segMeta, img.xf, img.idx⟩

theorem openReader_files (id : SegmentId) : openReader id img.files = .ok (img.reader id) := by
  have hx : readXfFile img.files.xf = .ok img.xf := by
    change (if _ then _ else _) = _
    rw [if_neg (by have := img.xf_le; omega)]
  have hi : readIdxFile img.files.idx = .ok img.idx := by
    change (if _ then _ else _) = _
    rw [if_neg (by have := img.idx_le; omega)]
  rw [openReader, hx, hi]
  rfl

theorem readable_drop (n : ℕ) : ∀ b ∈ img.dat.drop n, b.Readable :=
  fun b hb => img.readable b (List.mem_of_mem_drop hb)

theorem sorted_drop (n : ℕ) : KeySorted (Dat.table (img.dat.drop n)) := by
  have h := img.sorted
  rw [← Dat.table_take_append_drop img.dat n] at h
  exact h.of_append.2.1

/-- The blocks the index skips hold only lesser keys. -/
theorem find_drop (key : Bytes) :
    find (Dat.table (img.dat.drop (findBlockOffset img.idx key))) key = find (Dat.table img.dat) key := by
  rw [← Dat.table_take_append_drop img.dat (findBlockOffset img.idx key), find_append,
    find_eq_none_iff.mpr fun p hp => (img.index_sound key p hp).ne, Option.none_or]

theorem within_drop (start «end» : Bytes) :
    within start «end» (Dat.table (img.dat.drop (findBlockOffset img.idx start))) =
      within start «end» (Dat.table img.dat) := by
  rw [← Dat.table_take_append_drop img.dat (findBlockOffset img.idx start), within_append]
  have hnil : within start «end» (Dat.table (img.dat.take (findBlockOffset img.idx start))) = [] := by
    refine List.filter_eq_nil_iff.mpr fun p hp => ?_
    have := img.index_sound start p hp
    simp [not_le.mpr this]
  rw [hnil, List.nil_append]

/-- Outside the bounds of the metadata there is no entry. -/
theorem within_eq_nil {start «end» : Bytes}
    (h : «end» ≤ img.segMeta.minKey ∨ img.segMeta.maxKey < start) :
    within start «end» (Dat.table img.dat) = [] := by
  refine List.filter_eq_nil_iff.mpr fun p hp => ?_
  obtain ⟨hmin, hmax⟩ := img.bounds p hp
  rcases h with h | h
  · simp [not_lt.mpr (h.trans hmin)]
  · simp [not_le.mpr (hmax.trans_lt h)]

variable {fs : Fs} {id : SegmentId} (h : fs.segs id = img.files)
include h

/-- A lookup finds what the table holds. -/
theorem get_reader (key : Bytes) :
    (img.reader id).get X fs key = .ok (find (Dat.table img.dat) key) := by
  rw [SegmentReader.get]
  split
  case isTrue hf =>
    have hnone : find (Dat.table img.dat) key = none := by
      refine find_eq_none_iff.mpr fun p hp hk => ?_
      have hc := img.filter_complete p hp
      rw [hk] at hc
      exact absurd (hc.symm.trans hf) (by simp)
    rw [hnone]
  case isFalse =>
    change ((readDat (fs.segs id).dat) >>= fun dat =>
      searchBlocks key (dat.drop (findBlockOffset img.idx key))) = _
    rw [h]
    change searchBlocks key (img.dat.drop (findBlockOffset img.idx key)) = _
    rw [searchBlocks_eq (img.readable_drop _) (img.sorted_drop _), img.find_drop]

/-- A scan yields the entries of the table in the range. -/
theorem rangeScan_reader (start «end» : Bytes) :
    (img.reader id).rangeScan fs start «end» = .ok (within start «end» (Dat.table img.dat)) := by
  rw [SegmentReader.rangeScan]
  split
  case isTrue hout => rw [img.within_eq_nil (hout.imp_left le_of_lt)]
  case isFalse =>
    change ((readDat (fs.segs id).dat) >>= fun dat =>
      scanBlocks start «end» (dat.drop (findBlockOffset img.idx start))) = _
    rw [h]
    change scanBlocks start «end» (img.dat.drop (findBlockOffset img.idx start)) = _
    rw [scanBlocks_eq (img.readable_drop _) (img.sorted_drop _), img.within_drop]

/-- A cursor yields the entries of the table in the range. -/
theorem cursor_reader (start «end» : Bytes) :
    ∃ items, SegmentCursor.open fs (img.reader id) start «end» = .ok items ∧
      items.getD [] = (within start «end» (Dat.table img.dat)).map .ok := by
  rw [SegmentCursor.open]
  split
  case isTrue hout => exact ⟨none, rfl, by rw [img.within_eq_nil hout]; rfl⟩
  case isFalse =>
    refine ⟨some ((within start «end» (Dat.table img.dat)).map .ok), ?_, rfl⟩
    change ((readDat (fs.segs id).dat) >>= fun dat => pure (some
      (SegmentCursor.items start «end» (dat.drop (findBlockOffset img.idx start))))) = _
    rw [h]
    change Except.ok (some (SegmentCursor.items start «end»
      (img.dat.drop (findBlockOffset img.idx start)))) = _
    rw [cursorItems_eq (img.readable_drop _) (img.sorted_drop _), img.within_drop]

end SegmentImage
