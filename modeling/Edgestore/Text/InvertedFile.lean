import Edgestore.Text.Postings
import Edgestore.Vector.HnswFile

/-!
# Sidecar files

The file of an inverted index. Numbers are little-endian, and cut to the width of their field; the tables are
written in the order in which they are iterated. The filter is not in the file.

## Main definitions

* `InvertedIndex.serialize`, `InvertedIndex.deserialize`
* `InvertedIndex.Storable`: an index whose lengths have room in their fields
* `InvertedIndex.RoundTrips`: an index that is read back

## Main results

* `InvertedIndex.deserialize_serialize`: what is read of the file of an index
* `InvertedIndex.storable_of_deserialize`: the lengths of an index that is read have room in their fields
* `InvertedIndex.reached_roundTrips_iff`: which indexes are read back
-/

/-- The magic of a sidecar file, `INVX`. -/
def invertedMagic : Bytes := [73, 78, 86, 88]

/-- The version of the format. -/
def invertedVersion : ℕ := 3

/-- Bytes behind their length. -/
def serializeBytes (bs : Bytes) : Bytes := leBytes 2 bs.length ++ bs

/-- A string behind its length. -/
def serializeString (s : String) : Bytes := serializeBytes (utf8Bytes s)

/-- A facet value behind its tag. -/
def FacetValue.serialize : FacetValue → Bytes
  | .string s => [0] ++ serializeString s
  | .number n => [1] ++ leBytes 8 n.toUInt64.toNat
  | .bool b => [2] ++ [if b then 1 else 0]

/-- A facet. -/
def serializeFacet (facet : String × FacetValue) : Bytes := serializeString facet.1 ++ facet.2.serialize

/-- A posting. -/
def Posting.serialize (p : Posting) : Bytes :=
  serializeBytes p.docId ++ (leBytes 4 p.termFreq.toNat ++ (leBytes 4 p.docLenTokens.toNat ++
    (leBytes 2 p.facets.entries.length ++ (p.facets.entries.flatMap serializeFacet ++
      (leBytes 2 p.positions.length ++ p.positions.flatMap fun pos => leBytes 4 pos.toNat)))))

/-- A term with its postings. -/
def serializeTerm (entry : String × List Posting) : Bytes :=
  serializeString entry.1 ++ (leBytes 4 entry.2.length ++ entry.2.flatMap Posting.serialize)

/-- The file of an index. -/
def InvertedIndex.serialize (index : InvertedIndex) : Bytes :=
  invertedMagic ++ (leBytes 2 invertedVersion ++ (leBytes 8 index.sidecarLsn.toNat ++
    (leBytes 8 index.totalDocs.toNat ++ (leBytes 8 index.totalDocLen.toNat ++
      (leBytes 4 index.postings.entries.length ++ index.postings.entries.flatMap serializeTerm)))))

/-! ### Reading -/

/-- A reader of a part of a sidecar file. -/
abbrev InvertedReader (α : Type) := HnswReader α

namespace InvertedReader

/-- Fail. -/
def corrupt {α : Type} (msg : String) : InvertedReader α :=
  fun _ => .error (.corruptData ("inverted index: " ++ msg))

/-- Read `n` bytes. -/
def read (n : ℕ) : InvertedReader Bytes := fun bs =>
  if bs.length < n then .error (.corruptData "inverted index: truncated")
  else .ok (bs.take n, bs.drop n)

/-- Read a number of `n` bytes. -/
def readNat (n : ℕ) : InvertedReader ℕ := do
  return ofLe (← read n)

/-- Read bytes behind their length. -/
def readBytes : InvertedReader Bytes := do
  let len ← readNat 2
  read len

/-- Read a string behind its length. -/
def readString (msg : String) : InvertedReader String := do
  let bs ← readBytes
  match ofUtf8 bs with
  | some s => return s
  | none => corrupt msg

/-- Read a facet value behind its tag. -/
def readFacetValue (tag : ℕ) : InvertedReader FacetValue :=
  match tag with
  | 0 => do
    let s ← readString "invalid facet string"
    return .string s
  | 1 => do
    let n ← readNat 8
    return .number (UInt64.ofNat n).toInt64
  | 2 => do
    let b ← readNat 1
    return .bool (b ≠ 0)
  | _ => corrupt "unknown facet tag"

/-- Read a facet. -/
def readFacet : InvertedReader (String × FacetValue) := do
  let k ← readString "invalid facet key"
  let tag ← readNat 1
  let v ← readFacetValue tag
  return (k, v)

/-- Read a position. -/
def readPosition : InvertedReader UInt32 := do
  let pos ← readNat 4
  return UInt32.ofNat pos

/-- Read the positions of a posting. There are none in the files of the first two versions. -/
def readPositions (version : ℕ) : InvertedReader (List UInt32) :=
  if 3 ≤ version then do
    let posCount ← readNat 2
    HnswReader.readMany readPosition posCount
  else return []

/-- Read a posting. -/
def readPosting (version : ℕ) : InvertedReader Posting := do
  let docId ← readBytes
  let termFreq ← readNat 4
  let docLenTokens ← readNat 4
  let facetCount ← readNat 2
  let facets ← HnswReader.readMany readFacet facetCount
  let positions ← readPositions version
  return {
    docId := docId
    termFreq := UInt32.ofNat termFreq
    docLenTokens := UInt32.ofNat docLenTokens
    facets := HashTable.ofEntries facets
    positions := positions }

/-- Read a term with its postings. -/
def readTerm (version : ℕ) : InvertedReader (String × List Posting) := do
  let term ← readString "invalid utf8 term"
  let postingCount ← readNat 4
  let postings ← HnswReader.readMany (readPosting version) postingCount
  return (term, postings)

/-- Read the sequence number of a file. There is none in the files of the first version. -/
def readSidecarLsn (version : ℕ) : InvertedReader ℕ :=
  match version with
  | 1 => return 0
  | 2 => readNat 8
  | 3 => readNat 8
  | version => corrupt ("unsupported version " ++ toString version)

/-- Read an index, with the filter that it has at first. -/
def readIndex (docBloom : BloomFilter) : InvertedReader InvertedIndex := do
  let magic ← read 4
  if magic ≠ invertedMagic then corrupt "invalid magic"
  else
    let version ← readNat 2
    let sidecarLsn ← readSidecarLsn version
    let totalDocs ← readNat 8
    let totalDocLen ← readNat 8
    let termCount ← readNat 4
    let postings ← HnswReader.readMany (readTerm version) termCount
    return {
      postings := HashTable.ofEntries postings
      totalDocs := UInt64.ofNat totalDocs
      totalDocLen := UInt64.ofNat totalDocLen
      sidecarLsn := UInt64.ofNat sidecarLsn
      docBloom := docBloom }

end InvertedReader

/-- Read the file of an index. The filter is made from the postings, for as many documents as there are. -/
def InvertedIndex.deserialize (sizing : BloomSizing) (seed : Seed) (bytes : Bytes) :
    Except EdgestoreError InvertedIndex :=
  if bytes.length < 6 then .error (.corruptData "inverted index: truncated header")
  else
    (InvertedReader.readIndex (.withCapacity sizing seed initialCapacity) bytes).map fun read =>
      read.1.rebuildBloomAtCapacity sizing seed read.1.totalDocs.toNat

/-! ### What is written is read back -/

/-- A facet value whose length has room in its field. -/
def FacetValue.Storable : FacetValue → Prop
  | .string s => (utf8Bytes s).length < 256 ^ 2
  | .number _ | .bool _ => True

instance : DecidablePred FacetValue.Storable
  | .string s => inferInstanceAs (Decidable ((utf8Bytes s).length < 256 ^ 2))
  | .number _ | .bool _ => .isTrue trivial

/-- A posting whose lengths have room in their fields. -/
structure Posting.Storable (p : Posting) : Prop where
  docId : p.docId.length < 256 ^ 2
  length_facets : p.facets.entries.length < 256 ^ 2
  facets : ∀ e ∈ p.facets.entries, (utf8Bytes e.1).length < 256 ^ 2 ∧ e.2.Storable
  positions : p.positions.length < 256 ^ 2

/-- Terms and postings whose lengths have room in their fields, at most `n` terms, and for each term at most `n`
postings. -/
structure StorablePostings (n : ℕ) (postings : HashTable String (List Posting)) : Prop where
  length_le : postings.entries.length ≤ n
  entries : ∀ e ∈ postings.entries,
    (utf8Bytes e.1).length < 256 ^ 2 ∧ e.2.length ≤ n ∧ ∀ p ∈ e.2, p.Storable

/-- An index whose lengths have room in their fields. -/
def InvertedIndex.Storable (index : InvertedIndex) : Prop := StorablePostings 4294967295 index.postings

namespace InvertedReader

open HnswReader (Reads Yields)

theorem reads_read {bs : Bytes} {n : ℕ} (h : bs.length = n) : (read n).Reads bs bs := by
  intro rest
  subst h
  unfold read
  rw [if_neg (by rw [List.length_append]; omega), List.take_left, List.drop_left]

theorem reads_readNat {w n : ℕ} (h : n < 256 ^ w) : (readNat w).Reads (leBytes w n) n := by
  refine (reads_read (length_leBytes w n)).bind_pure ?_
  rw [ofLe_leBytes_of_lt h]

theorem reads_readBytes {bs : Bytes} (h : bs.length < 256 ^ 2) : readBytes.Reads (serializeBytes bs) bs :=
  (reads_readNat h).bind (reads_read rfl)

theorem reads_readString {s msg : String} (h : (utf8Bytes s).length < 256 ^ 2) :
    (readString msg).Reads (serializeString s) s := by
  refine (reads_readBytes h).bind_pure ?_
  rw [ofUtf8_utf8Bytes]

/-- The tag of a facet value is read, and then the value. -/
theorem reads_readFacet {facet : String × FacetValue} (hk : (utf8Bytes facet.1).length < 256 ^ 2)
    (hv : facet.2.Storable) : readFacet.Reads (serializeFacet facet) facet := by
  obtain ⟨k, v⟩ := facet
  refine (reads_readString hk).bind ?_
  cases v with
  | string s =>
    have hs : (readFacetValue 0).Reads (serializeString s) (.string s) := (reads_readString hv).bind_pure rfl
    exact (reads_readNat (by decide : 0 < 256 ^ 1)).bind (hs.bind_pure rfl)
  | number n =>
    have hn : (readFacetValue 1).Reads (leBytes 8 n.toUInt64.toNat) (.number n) := by
      refine (reads_readNat n.toUInt64.toNat_lt).bind_pure ?_
      rw [UInt64.ofNat_toNat, Int64.toInt64_toUInt64]
    exact (reads_readNat (by decide : 1 < 256 ^ 1)).bind (hn.bind_pure rfl)
  | bool b =>
    have hb : (readFacetValue 2).Reads [if b then 1 else 0] (.bool b) := by
      cases b
      · exact (reads_readNat (by decide : 0 < 256 ^ 1)).bind_pure rfl
      · exact (reads_readNat (by decide : 1 < 256 ^ 1)).bind_pure rfl
    exact (reads_readNat (by decide : 2 < 256 ^ 1)).bind (hb.bind_pure rfl)

theorem reads_readPosition (pos : UInt32) : readPosition.Reads (leBytes 4 pos.toNat) pos := by
  refine (reads_readNat pos.toNat_lt).bind_pure ?_
  rw [UInt32.ofNat_toNat]

/-- A posting is read back. -/
theorem reads_readPosting {p : Posting} (h : p.Storable) :
    (readPosting invertedVersion).Reads p.serialize p := by
  have hpositions : (readPositions invertedVersion).Reads
      (leBytes 2 p.positions.length ++ p.positions.flatMap fun pos => leBytes 4 pos.toNat) p.positions :=
    (reads_readNat h.positions).bind (HnswReader.reads_readMany fun pos _ => reads_readPosition pos)
  refine (reads_readBytes h.docId).bind ?_
  refine (reads_readNat p.termFreq.toNat_lt).bind ?_
  refine (reads_readNat p.docLenTokens.toNat_lt).bind ?_
  refine (reads_readNat h.length_facets).bind ?_
  refine (HnswReader.reads_readMany fun e he => reads_readFacet (h.facets e he).1 (h.facets e he).2).bind ?_
  refine hpositions.bind_pure ?_
  rw [UInt32.ofNat_toNat, UInt32.ofNat_toNat, HashTable.ofEntries_entries]

/-- A term is read back with its postings. -/
theorem reads_readTerm {entry : String × List Posting} (hterm : (utf8Bytes entry.1).length < 256 ^ 2)
    (hlen : entry.2.length ≤ 4294967295) (hp : ∀ p ∈ entry.2, p.Storable) :
    (readTerm invertedVersion).Reads (serializeTerm entry) entry := by
  refine (reads_readString hterm).bind ?_
  refine (reads_readNat (hlen.trans_lt (by decide))).bind ?_
  exact (HnswReader.reads_readMany fun p hmem => reads_readPosting (hp p hmem)).bind_pure rfl

/-- An index is read back, but for the filter. -/
theorem reads_readIndex {index : InvertedIndex} (docBloom : BloomFilter) (h : index.Storable) :
    (readIndex docBloom).Reads index.serialize { index with docBloom := docBloom } := by
  have hmagic : (read 4).Reads invertedMagic invertedMagic := reads_read rfl
  refine hmagic.bind ?_
  rw [if_neg (not_not.mpr rfl)]
  refine (reads_readNat (by decide)).bind ?_
  refine (reads_readNat index.sidecarLsn.toNat_lt : (readSidecarLsn invertedVersion).Reads _ _).bind ?_
  refine (reads_readNat index.totalDocs.toNat_lt).bind ?_
  refine (reads_readNat index.totalDocLen.toNat_lt).bind ?_
  refine (reads_readNat (h.length_le.trans_lt (by decide))).bind ?_
  refine (HnswReader.reads_readMany fun e he => reads_readTerm (h.entries e he).1 (h.entries e he).2.1
    (h.entries e he).2.2).bind_pure ?_
  rw [UInt64.ofNat_toNat, UInt64.ofNat_toNat, UInt64.ofNat_toNat, HashTable.ofEntries_entries]

end InvertedReader

namespace InvertedIndex

variable {sizing : BloomSizing} {index index' : InvertedIndex}

/-- **What is read of the file of an index** is the index, with a new filter. -/
theorem deserialize_serialize (h : index.Storable) (seed : Seed) :
    deserialize sizing seed index.serialize =
      .ok (index.rebuildBloomAtCapacity sizing seed index.totalDocs.toNat) := by
  have hlen : ¬ index.serialize.length < 6 := by
    simp only [serialize, invertedMagic, List.length_append, length_leBytes, List.length_cons,
      List.length_nil]
    omega
  have hread := InvertedReader.reads_readIndex (.withCapacity sizing seed initialCapacity) h []
  rw [List.append_nil] at hread
  rw [deserialize, if_neg hlen, hread]
  rfl

/-- A new filter contains every document of the postings. -/
theorem mightContain_rebuild (seed : Seed) (capacity : ℕ) {docId : Bytes} (h : docId ∈ index.docIds) :
    (index.rebuildBloomAtCapacity sizing seed capacity).docBloom.mightContain docId = true :=
  BloomFilter.mightContain_insertAll (.inr h)

end InvertedIndex

/-! ### What is read has room in its fields -/

namespace InvertedReader

open HnswReader (Yields yields_true yields_readMany)

variable {α : Type} {P : α → Prop}

theorem yields_corrupt (msg : String) : (corrupt msg : InvertedReader α).Yields P := nofun

theorem yields_read (n : ℕ) : (read n).Yields fun bs => bs.length = n := by
  intro bs bs' rest h
  unfold read at h
  split at h
  case isTrue => cases h
  case isFalse hlen =>
    cases h
    rw [List.length_take]
    omega

theorem yields_readNat (n : ℕ) : (readNat n).Yields fun v => v < 256 ^ n :=
  (yields_read n).bind fun bs hbs => Yields.pure (hbs ▸ ofLe_lt bs)

theorem yields_readBytes : readBytes.Yields fun bs => bs.length < 256 ^ 2 := by
  refine (yields_readNat 2).bind fun len hlen => ?_
  intro bs bs' rest h
  exact (yields_read len bs bs' rest h).trans_lt hlen

theorem yields_readString (msg : String) : (readString msg).Yields fun s => (utf8Bytes s).length < 256 ^ 2 := by
  refine yields_readBytes.bind fun bs hbs => ?_
  cases hs : ofUtf8 bs with
  | none => exact yields_corrupt msg
  | some s => exact Yields.pure (ofUtf8_eq_some.mp hs ▸ hbs)

theorem yields_readFacetValue (tag : ℕ) : (readFacetValue tag).Yields FacetValue.Storable := by
  unfold readFacetValue
  split
  · exact (yields_readString _).bind fun s hs => Yields.pure hs
  · exact yields_true.bind fun n _ => Yields.pure trivial
  · exact yields_true.bind fun b _ => Yields.pure trivial
  · exact yields_corrupt _

theorem yields_readFacet :
    readFacet.Yields fun e => (utf8Bytes e.1).length < 256 ^ 2 ∧ e.2.Storable := by
  refine (yields_readString _).bind fun k hk => ?_
  refine yields_true.bind fun tag _ => ?_
  exact (yields_readFacetValue tag).bind fun v hv => Yields.pure ⟨hk, hv⟩

theorem yields_readPositions (version : ℕ) :
    (readPositions version).Yields fun positions => positions.length < 256 ^ 2 := by
  unfold readPositions
  split
  · refine (yields_readNat 2).bind fun posCount hcount => ?_
    intro bs positions rest h
    have hlen := (yields_readMany (P := fun _ => True) yields_true posCount bs positions rest h).1
    exact hlen.trans_lt hcount
  · exact Yields.pure (by decide)

theorem yields_readPosting (version : ℕ) : (readPosting version).Yields Posting.Storable := by
  refine yields_readBytes.bind fun docId hdocId => ?_
  refine yields_true.bind fun termFreq _ => ?_
  refine yields_true.bind fun docLenTokens _ => ?_
  refine (yields_readNat 2).bind fun facetCount hcount => ?_
  refine (yields_readMany yields_readFacet facetCount).bind fun facets hfacets => ?_
  refine (yields_readPositions version).bind fun positions hpositions => Yields.pure ?_
  exact {
    docId := hdocId
    length_facets := (HashTable.length_ofEntries_le facets).trans_lt (hfacets.1.trans_lt hcount)
    facets := fun e he => hfacets.2 e (HashTable.mem_of_mem_ofEntries he)
    positions := hpositions }

theorem yields_readTerm (version : ℕ) :
    (readTerm version).Yields fun e =>
      (utf8Bytes e.1).length < 256 ^ 2 ∧ e.2.length ≤ 4294967295 ∧ ∀ p ∈ e.2, p.Storable := by
  refine (yields_readString _).bind fun term hterm => ?_
  refine (yields_readNat 4).bind fun postingCount hcount => ?_
  refine (yields_readMany (yields_readPosting version) postingCount).bind fun postings hpostings => ?_
  exact Yields.pure ⟨hterm, hpostings.1.trans_le (Nat.le_of_lt_succ hcount), hpostings.2⟩

theorem yields_readIndex (docBloom : BloomFilter) : (readIndex docBloom).Yields InvertedIndex.Storable := by
  refine yields_true.bind fun magic _ => ?_
  split
  · exact yields_corrupt _
  refine yields_true.bind fun version _ => ?_
  refine yields_true.bind fun sidecarLsn _ => ?_
  refine yields_true.bind fun totalDocs _ => ?_
  refine yields_true.bind fun totalDocLen _ => ?_
  refine (yields_readNat 4).bind fun termCount hcount => ?_
  refine (yields_readMany (yields_readTerm version) termCount).bind fun postings hpostings => Yields.pure ?_
  have hlen : postings.length ≤ 4294967295 := hpostings.1.trans_le (Nat.le_of_lt_succ hcount)
  exact {
    length_le := (HashTable.length_ofEntries_le postings).trans hlen
    entries := fun e he => hpostings.2 e (HashTable.mem_of_mem_ofEntries he) }

end InvertedReader

namespace InvertedIndex

variable {sizing : BloomSizing} {index index' : InvertedIndex}

/-- **The lengths of an index that is read** have room in their fields. -/
theorem storable_of_deserialize {seed : Seed} {bytes : Bytes}
    (h : deserialize sizing seed bytes = .ok index) : index.Storable := by
  unfold deserialize at h
  split at h
  case isTrue => cases h
  case isFalse =>
    cases hread : InvertedReader.readIndex (.withCapacity sizing seed initialCapacity) bytes with
    | error e =>
      rw [hread] at h
      cases h
    | ok p =>
      rw [hread] at h
      cases h
      exact InvertedReader.yields_readIndex _ bytes p.1 p.2 hread

end InvertedIndex

/-! ### Which indexes are read back -/

/-- A posting that is the same as one whose lengths have room in their fields. -/
theorem Posting.Same.storable {p q : Posting} (h : p.Same q) (hq : q.Storable) : p.Storable where
  docId := h.docId ▸ hq.docId
  length_facets := h.facets.length_eq ▸ hq.length_facets
  facets := by
    intro e he
    obtain ⟨v, hv, heq⟩ := h.facets.exists_right he
    exact heq ▸ hq.facets (e.1, v) hv
  positions := h.positions ▸ hq.positions

namespace StorablePostings

variable {n : ℕ} {t s : HashTable String (List Posting)}

theorem of_same (h : t.Same (List.Forall₂ Posting.Same) s) (hs : StorablePostings n s) :
    StorablePostings n t where
  length_le := h.length_eq ▸ hs.length_le
  entries := by
    intro e he
    obtain ⟨qs, hqs, hall⟩ := h.exists_right he
    obtain ⟨hterm, hlen, hq⟩ := hs.entries _ hqs
    refine ⟨hterm, hall.length_eq ▸ hlen, fun p hp => ?_⟩
    obtain ⟨i, hi, rfl⟩ := List.getElem_of_mem hp
    have hi' : i < qs.length := hall.length_eq ▸ hi
    exact (hall.get hi hi').storable (hq _ (List.getElem_mem hi'))

theorem mono {m : ℕ} (hnm : n ≤ m) (h : StorablePostings n t) : StorablePostings m t where
  length_le := h.length_le.trans hnm
  entries := fun e he => ⟨(h.entries e he).1, (h.entries e he).2.1.trans hnm, (h.entries e he).2.2⟩

/-- With one more posting, there may be one more term, and one more posting for a term. -/
theorem push {term : String} {p : Posting} (h : StorablePostings n t)
    (hterm : (utf8Bytes term).length < 256 ^ 2) (hp : p.Storable) :
    StorablePostings (n + 1) (t.push term p) where
  length_le := (HashTable.length_alter_le t term _).trans (Nat.succ_le_succ h.length_le)
  entries := by
    intro e he
    rcases HashTable.mem_push he with he | rfl | ⟨ps, hps, rfl⟩
    · exact (h.mono (Nat.le_succ n)).entries e he
    · refine ⟨hterm, Nat.succ_le_succ (Nat.zero_le n), fun q hq => ?_⟩
      exact List.mem_singleton.mp hq ▸ hp
    · obtain ⟨-, hlen, hall⟩ := h.entries _ hps
      refine ⟨hterm, ?_, fun q hq => ?_⟩
      · rw [List.length_append, List.length_singleton]
        exact Nat.succ_le_succ hlen
      · rcases List.mem_append.mp hq with hq | hq
        · exact hall q hq
        · exact List.mem_singleton.mp hq ▸ hp

theorem foldl_push {mk : List UInt32 → Posting} {es : List (String × List UInt32)} (h : StorablePostings n t)
    (hes : ∀ e ∈ es, (utf8Bytes e.1).length < 256 ^ 2 ∧ (mk e.2).Storable) :
    StorablePostings (n + es.length) (es.foldl (fun t e => t.push e.1 (mk e.2)) t) := by
  induction es generalizing n t with
  | nil => exact h
  | cons e es ih =>
    obtain ⟨hterm, hp⟩ := hes e List.mem_cons_self
    have hrest := ih (h.push hterm hp) fun e' he' => hes e' (List.mem_cons_of_mem _ he')
    rw [Nat.add_assoc, Nat.add_comm 1] at hrest
    exact hrest

theorem retain {keep : Posting → Bool} {keepAll : List Posting → Bool} (h : StorablePostings n t) :
    StorablePostings n (t.retain (List.filter keep) keepAll) where
  length_le := (t.length_retain_le _ _).trans h.length_le
  entries := by
    rintro ⟨term, qs⟩ he
    obtain ⟨-, ps, hps, rfl⟩ := HashTable.mem_retain.mp he
    obtain ⟨hterm, hlen, hall⟩ := h.entries _ hps
    exact ⟨hterm, (List.length_filter_le _ _).trans hlen, fun p hp => hall p (List.mem_of_mem_filter hp)⟩

end StorablePostings

/-! ### Documents that fit -/

/-- A document with fields that have room: its id, its facets, its terms, and the positions of each term. -/
def IndexCall.Fits : IndexCall → Prop
  | .add _ docId tokens _ facets =>
    docId.length < 256 ^ 2 ∧
      (facets.entries.length < 256 ^ 2 ∧
        ∀ e ∈ facets.entries, (utf8Bytes e.1).length < 256 ^ 2 ∧ e.2.Storable) ∧
      ∀ token ∈ tokens,
        (utf8Bytes token.term).length < 256 ^ 2 ∧ tokens.countP (·.term = token.term) < 256 ^ 2
  | .remove _ => True

instance : DecidablePred IndexCall.Fits
  | .add _ docId tokens _ facets =>
    inferInstanceAs (Decidable (docId.length < 256 ^ 2 ∧
      (facets.entries.length < 256 ^ 2 ∧
        ∀ e ∈ facets.entries, (utf8Bytes e.1).length < 256 ^ 2 ∧ e.2.Storable) ∧
      ∀ token ∈ tokens,
        (utf8Bytes token.term).length < 256 ^ 2 ∧ tokens.countP (·.term = token.term) < 256 ^ 2))
  | .remove _ => .isTrue trivial

/-- The number of tokens that are added. -/
def IndexCall.tokenCount : IndexCall → ℕ
  | .add _ _ tokens _ _ => tokens.length
  | .remove _ => 0

namespace InvertedIndex

variable {sizing : BloomSizing} {index index' : InvertedIndex} {calls : List IndexCall}

/-- A term of a document is that of one of its tokens, and has no more positions than there are such tokens. -/
theorem mem_termData {tokens : List Token} {e : String × List UInt32} (he : e ∈ (termData tokens).entries) :
    (∃ token ∈ tokens, token.term = e.1) ∧ e.2.length ≤ tokens.countP (·.term = e.1) := by
  constructor
  · obtain ⟨v, hv⟩ := HashTable.exists_of_mem_group he
    obtain ⟨token, htoken, heq⟩ := List.mem_map.mp hv
    exact ⟨token, htoken, congrArg Prod.fst heq⟩
  · have hcount := (HashTable.sublist_of_mem_group he).countP_le (p := fun q => decide (q.1 = e.1))
    rw [List.countP_map, List.countP_map] at hcount
    refine le_of_eq_of_le (Eq.symm ?_) hcount
    exact List.countP_eq_length.mpr fun v _ => decide_eq_true rfl

/-- The postings of a document that fits have room in the file. -/
theorem storable_postingOf {seed : Seed} {docId : Bytes} {tokens : List Token} {docLenTokens : UInt32}
    {facets : Facets} (h : (IndexCall.add seed docId tokens docLenTokens facets).Fits)
    {e : String × List UInt32} (he : e ∈ (termData tokens).entries) :
    (utf8Bytes e.1).length < 256 ^ 2 ∧ (postingOf docId docLenTokens facets e.2).Storable := by
  obtain ⟨hdocId, hfacets, htokens⟩ := h
  obtain ⟨⟨token, htoken, hterm⟩, hlen⟩ := mem_termData he
  obtain ⟨hbytes, hcount⟩ := htokens token htoken
  rw [hterm] at hbytes hcount
  exact ⟨hbytes, hdocId, hfacets.1, hfacets.2, hlen.trans_lt hcount⟩

/-- What a call does to an index whose lengths have room. -/
theorem storablePostings_call {c : IndexCall} {n : ℕ} (hc : c.Fits) (hcall : index.call sizing c = some index')
    (h : StorablePostings n index.postings) : StorablePostings (n + c.tokenCount) index'.postings := by
  cases c with
  | add seed docId tokens docLenTokens facets =>
    cases hcall
    have hfold := h.foldl_push fun e he => storable_postingOf hc he
    have hlen : (termData tokens).entries.length ≤ tokens.length := by
      have hgroup := HashTable.length_group_le (tokens.map fun token => (token.term, UInt32.ofNat token.position))
      rwa [List.length_map] at hgroup
    rw [postings_addDocument]
    exact hfold.mono (Nat.add_le_add_left hlen n)
  | remove docId =>
    obtain ⟨⟨found, kept⟩, hremove, rfl⟩ := Option.map_eq_some_iff.mp hcall
    rw [postings_removeDocument hremove]
    exact h.retain

/-- **An index of documents that fit** has room for its lengths, if there are not too many tokens. -/
theorem storablePostings_of_reached (hreach : Reached sizing calls index) (hcalls : ∀ c ∈ calls, c.Fits) :
    StorablePostings (calls.map IndexCall.tokenCount).sum index.postings := by
  induction hreach with
  | new seed => exact ⟨Nat.zero_le _, fun e he => absurd he List.not_mem_nil⟩
  | call hreach hcall ih =>
    rw [List.map_append, List.sum_append, List.map_singleton, List.sum_singleton]
    refine storablePostings_call (hcalls _ (List.mem_append_right _ List.mem_cons_self)) hcall (ih ?_)
    exact fun c hc => hcalls c (List.mem_append_left _ hc)
  | reordered hreach hsame _ ih =>
    exact .of_same (hsame.postings.symm fun _ _ => forall₂_same_symm) (ih hcalls)

/-- An index that is read back from its file, with a filter that contains its documents. -/
def RoundTrips (sizing : BloomSizing) (seed : Seed) (index : InvertedIndex) : Prop :=
  ∃ index', deserialize sizing seed index.serialize = .ok index' ∧ index.Same index' ∧
    ∀ docId ∈ index.docIds, index'.docBloom.mightContain docId = true

theorem roundTrips_iff_storable {seed : Seed} : index.RoundTrips sizing seed ↔ index.Storable := by
  constructor
  · rintro ⟨index', hread, hsame, -⟩
    exact StorablePostings.of_same hsame.postings (storable_of_deserialize hread)
  · intro h
    refine ⟨_, deserialize_serialize h seed, ⟨rfl, rfl, rfl, ?_⟩, fun docId => mightContain_rebuild seed _⟩
    exact .of_eq (fun ps => List.forall₂_same.mpr fun p _ => .refl p) rfl

/-- **Which indexes are read back**: those whose lengths have room in their fields, as the indexes of documents that
fit. -/
theorem reached_roundTrips_iff (hreach : Reached sizing calls index) (seed : Seed) :
    (index.RoundTrips sizing seed ↔ index.Storable) ∧
      ((∀ c ∈ calls, c.Fits) → (calls.map IndexCall.tokenCount).sum < 256 ^ 4 →
        index.RoundTrips sizing seed) := by
  refine ⟨roundTrips_iff_storable, fun hcalls hcount => roundTrips_iff_storable.mpr ?_⟩
  exact (storablePostings_of_reached hreach hcalls).mono (Nat.le_of_lt_succ hcount)

/-- Calls that go through lead to an index that is reached. -/
theorem reached_foldlM {calls' : List IndexCall} (h : Reached sizing calls index)
    (hfold : calls'.foldlM (call sizing) index = some index') : Reached sizing (calls ++ calls') index' := by
  induction calls' generalizing calls index with
  | nil =>
    cases hfold
    rwa [List.append_nil]
  | cons c calls' ih =>
    rw [List.foldlM_cons] at hfold
    obtain ⟨index₁, hcall, hrest⟩ := Option.bind_eq_some_iff.mp hfold
    rw [← List.singleton_append, ← List.append_assoc]
    exact ih (h.call hcall) hrest

/-- The sizes of the filters in the examples. -/
def plainSizing : BloomSizing := ⟨fun items => 10 * items, fun _ _ => 7⟩

/-- Documents with one token, `alpha`. -/
def addAlpha (docId : Bytes) : IndexCall := .add (fun _ => 0) docId [⟨"alpha", 0⟩] 1 .empty

/-- The index of one document with one token, `alpha`. -/
def alphaIndex (docId : Bytes) : InvertedIndex :=
  (new plainSizing fun _ => 0).addDocument plainSizing (fun _ => 0) docId [⟨"alpha", 0⟩] 1 .empty

theorem reached_alphaIndex (docId : Bytes) : Reached plainSizing [addAlpha docId] (alphaIndex docId) :=
  .call (.new _) rfl

theorem entries_alphaIndex (docId : Bytes) :
    (alphaIndex docId).postings.entries = [("alpha", [postingOf docId 1 .empty [0]])] := by
  unfold alphaIndex
  rw [postings_addDocument]
  rfl

/-- Facets of three types. -/
def paintFacets : Facets :=
  ((HashTable.empty.insert "colour" (.string "red")).insert "year" (.number 1999)).insert "matt" (.bool true)

/-- Three documents are added, with facets and with a term at two positions; then the first one is removed. -/
def paintCalls : List IndexCall :=
  [.add (fun _ => 0) [1] [⟨"alpha", 0⟩] 1 paintFacets,
    .add (fun _ => 0) [2] [⟨"alpha", 0⟩, ⟨"beta", 6⟩, ⟨"alpha", 11⟩] 3 paintFacets,
    .add (fun _ => 0) [3] [⟨"beta", 0⟩] 1 (HashTable.empty.insert "year" (.number (-40))),
    .remove [1]]

/-- The index of the documents that are left is read back, with their facets and positions. -/
theorem reached_roundTrips_iff_paint : ∃ index, Reached plainSizing paintCalls index ∧
    index.postings.entries =
      [("alpha", [postingOf [2] 3 paintFacets [0, 11]]),
        ("beta", [postingOf [2] 3 paintFacets [6],
          postingOf [3] 1 (HashTable.empty.insert "year" (.number (-40))) [0]])] ∧
    index.RoundTrips plainSizing fun _ => 0 := by
  have hrun : ∃ index, paintCalls.foldlM (call plainSizing) (new plainSizing fun _ => 0) = some index ∧
      index.postings.entries =
        [("alpha", [postingOf [2] 3 paintFacets [0, 11]]),
          ("beta", [postingOf [2] 3 paintFacets [6],
            postingOf [3] 1 (HashTable.empty.insert "year" (.number (-40))) [0]])] :=
    ⟨_, rfl, rfl⟩
  obtain ⟨index, hfold, hentries⟩ := hrun
  have hreach : Reached plainSizing paintCalls index := reached_foldlM (.new _) hfold
  refine ⟨index, hreach, hentries, ?_⟩
  exact (reached_roundTrips_iff hreach fun _ => 0).2 (by decide +kernel) (by decide)

/-- **An id of 65536 bytes** has a length of zero in the file. -/
theorem alphaIndex_not_roundTrips :
    Reached plainSizing [addAlpha (List.replicate 65536 0)] (alphaIndex (List.replicate 65536 0)) ∧
      ¬ (alphaIndex (List.replicate 65536 0)).RoundTrips plainSizing fun _ => 0 := by
  refine ⟨reached_alphaIndex _, fun h => ?_⟩
  have hstorable := roundTrips_iff_storable.mp h
  have hmem : ("alpha", [postingOf (List.replicate 65536 0) 1 .empty [0]]) ∈
      (alphaIndex (List.replicate 65536 0)).postings.entries := by
    rw [entries_alphaIndex]
    exact List.mem_cons_self
  have hlen := ((hstorable.entries _ hmem).2.2 _ List.mem_cons_self).docId
  unfold postingOf at hlen
  rw [List.length_replicate] at hlen
  exact absurd hlen (by decide)

end InvertedIndex
