import Edgestore.Lib.Bytes

/-!
# Bloom filters

A filter over the ids of the documents of an index. It never denies an id that was put into it. Its sizes come
from floating-point formulas, and its hash from a seed of its own; both are parameters here.

## Main definitions

* `BloomSizing`, `Seed`: what a new filter is made with
* `BloomFilter`: the bits of a filter and its sizes
* `BloomFilter.insert`, `BloomFilter.mightContain`

## Main results

* `BloomFilter.mightContain_insert`: what a filter contained, and what was put into it, it contains
* `BloomFilter.mightContain_insertAll`: what was put into a filter one by one, it contains
-/

/-- The sizes of a filter: the rounded values of floating-point formulas. -/
structure BloomSizing where
  /-- How many bits a filter for some number of items needs. -/
  bits : ℕ → ℕ
  /-- How many positions of an item are best, for a number of bits and a number of items. -/
  hashes : ℕ → ℕ → ℕ

/-- A seeded hash. -/
abbrev Seed := Bytes → BitVec 64

/-- The capacity of a new filter. -/
def initialCapacity : ℕ := 4096

/-- A Bloom filter. -/
structure BloomFilter where
  bits : List (BitVec 64)
  numBits : ℕ
  numHashes : ℕ
  capacity : ℕ
  count : ℕ
  seed : Seed
  numBits_eq : numBits = bits.length * 64
  numBits_pos : 0 < numBits

namespace BloomFilter

/-- An empty filter for some number of items. -/
def withCapacity (sizing : BloomSizing) (seed : Seed) (capacity : ℕ) : BloomFilter :=
  let items := max capacity 1
  let numWords := max ((sizing.bits items + 63) / 64) 1
  { bits := List.replicate numWords 0
    numBits := numWords * 64
    numHashes := max 1 (min 30 (sizing.hashes (numWords * 64) items))
    capacity := items
    count := 0
    seed := seed
    numBits_eq := by rw [List.length_replicate]
    numBits_pos := by omega }

/-- A filter counts as many items as it is made for, or more. -/
def isSaturated (f : BloomFilter) : Bool := f.capacity ≤ f.count

/-- The two halves of the hash of an item. -/
def hashPair (f : BloomFilter) (item : Bytes) : BitVec 64 × BitVec 64 :=
  (f.seed item >>> 32, f.seed item &&& 0xFFFFFFFF#64)

/-- The positions for two hashes. -/
def positions (h1 h2 : BitVec 64) (numBits numHashes : ℕ) : List ℕ :=
  (List.range numHashes).map fun i => (h1 + BitVec.ofNat 64 i * h2).toNat % numBits

/-- The positions of an item. -/
def positionsOf (f : BloomFilter) (item : Bytes) : List ℕ :=
  positions (f.hashPair item).1 (f.hashPair item).2 f.numBits f.numHashes

/-- Set a bit. -/
def setBit (bits : List (BitVec 64)) (pos : ℕ) : List (BitVec 64) :=
  bits.modify (pos / 64) (· ||| 1#64 <<< (pos % 64))

/-- Whether a bit is set. -/
def hasBit (bits : List (BitVec 64)) (pos : ℕ) : Bool :=
  bits.getD (pos / 64) 0 &&& 1#64 <<< (pos % 64) != 0

@[simp] theorem length_setBit (bits : List (BitVec 64)) (pos : ℕ) :
    (setBit bits pos).length = bits.length := List.length_modify ..

@[simp] theorem length_foldl_setBit (ps : List ℕ) (bits : List (BitVec 64)) :
    (ps.foldl setBit bits).length = bits.length := by
  induction ps generalizing bits with
  | nil => rfl
  | cons pos ps ih => exact (ih _).trans (length_setBit bits pos)

/-- Record an item. -/
def insert (f : BloomFilter) (item : Bytes) : BloomFilter where
  bits := (f.positionsOf item).foldl setBit f.bits
  numBits := f.numBits
  numHashes := f.numHashes
  capacity := f.capacity
  count := f.count + 1
  seed := f.seed
  numBits_eq := by rw [length_foldl_setBit, f.numBits_eq]
  numBits_pos := f.numBits_pos

/-- Whether an item may have been recorded. -/
def mightContain (f : BloomFilter) (item : Bytes) : Bool := (f.positionsOf item).all (hasBit f.bits)

/-! ### Bits -/

theorem hasBit_eq_getLsbD (bits : List (BitVec 64)) (pos : ℕ) :
    hasBit bits pos = (bits.getD (pos / 64) 0).getLsbD (pos % 64) := by
  have hlt : pos % 64 < 64 := Nat.mod_lt pos (by omega)
  have hne : BitVec.twoPow 64 (pos % 64) ≠ 0#64 := by
    intro h
    have hbit := congrArg (BitVec.getLsbD · (pos % 64)) h
    simp [hlt] at hbit
  unfold hasBit
  rw [← BitVec.twoPow_eq, BitVec.and_twoPow]
  cases (bits.getD (pos / 64) 0).getLsbD (pos % 64) with
  | true => simpa using hne
  | false => simp

/-- Setting a bit sets it, and no other one. -/
theorem hasBit_setBit {bits : List (BitVec 64)} {pos : ℕ} (hpos : pos < bits.length * 64) (q : ℕ) :
    hasBit (setBit bits pos) q = (hasBit bits q || decide (q = pos)) := by
  rw [hasBit_eq_getLsbD, hasBit_eq_getLsbD]
  unfold setBit
  rw [List.getD_eq_getElem?_getD, List.getElem?_modify, List.getD_eq_getElem?_getD]
  by_cases hword : pos / 64 = q / 64
  · have hin : q / 64 < bits.length := by omega
    have hbit : decide (pos % 64 = q % 64) = decide (q = pos) := by
      rw [decide_eq_decide]
      omega
    rw [List.getElem?_eq_getElem hin, ← BitVec.twoPow_eq]
    simp only [if_pos hword, Option.map_eq_map, Option.map_some, Option.getD_some, BitVec.getLsbD_or,
      BitVec.getLsbD_twoPow]
    rw [hbit, decide_eq_true (Nat.mod_lt pos (by omega) : pos % 64 < 64), Bool.true_and]
  · rw [decide_eq_false (fun h => hword (by rw [h])), Bool.or_false]
    simp only [if_neg hword, id_map']

theorem hasBit_foldl_setBit {ps : List ℕ} {bits : List (BitVec 64)}
    (hps : ∀ pos ∈ ps, pos < bits.length * 64) (q : ℕ) :
    hasBit (ps.foldl setBit bits) q = true ↔ hasBit bits q = true ∨ q ∈ ps := by
  induction ps generalizing bits with
  | nil =>
    rw [List.foldl_nil, or_iff_left List.not_mem_nil]
  | cons pos ps ih =>
    have hrest : ∀ p ∈ ps, p < (setBit bits pos).length * 64 := by
      intro p hp
      rw [length_setBit]
      exact hps p (List.mem_cons_of_mem _ hp)
    rw [List.foldl_cons, ih hrest, hasBit_setBit (hps pos List.mem_cons_self), Bool.or_eq_true,
      decide_eq_true_iff, List.mem_cons, or_assoc]

/-! ### No item is denied -/

variable {f : BloomFilter} {item : Bytes}

theorem positionsOf_lt {pos : ℕ} (h : pos ∈ f.positionsOf item) : pos < f.bits.length * 64 := by
  rw [← f.numBits_eq]
  obtain ⟨i, -, rfl⟩ := List.mem_map.mp h
  exact Nat.mod_lt _ f.numBits_pos

theorem mightContain_iff :
    f.mightContain item = true ↔ ∀ pos ∈ f.positionsOf item, hasBit f.bits pos = true :=
  List.all_eq_true

/-- **What a filter contained, and what was put into it, it contains.** -/
theorem mightContain_insert {item' : Bytes} (h : f.mightContain item' = true ∨ item' = item) :
    (f.insert item).mightContain item' = true := by
  rw [mightContain_iff]
  intro pos hpos
  -- the positions only depend on the sizes and the seed, which stay
  have hpos' : pos ∈ f.positionsOf item' := hpos
  refine (hasBit_foldl_setBit (fun _ => positionsOf_lt) pos).mpr ?_
  rcases h with h | rfl
  · exact .inl (mightContain_iff.mp h pos hpos')
  · exact .inr hpos'

/-- Record items, one by one. -/
def insertAll (f : BloomFilter) (items : List Bytes) : BloomFilter := items.foldl insert f

/-- What was put into a filter one by one, it contains. -/
theorem mightContain_insertAll {items : List Bytes}
    (h : f.mightContain item = true ∨ item ∈ items) : (f.insertAll items).mightContain item = true := by
  induction items generalizing f with
  | nil => exact h.resolve_right List.not_mem_nil
  | cons item' items ih =>
    refine ih ?_
    rcases h with h | h
    · exact .inl (mightContain_insert (.inl h))
    · rcases List.mem_cons.mp h with rfl | h
      · exact .inl (mightContain_insert (.inr rfl))
      · exact .inr h

end BloomFilter
