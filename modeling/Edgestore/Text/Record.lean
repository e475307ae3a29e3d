import Edgestore.Text.InvertedFile

/-!
# Text records

A document is stored as a record: its text behind a length of four bytes, then its facets behind their number. The
lengths of keys and strings, and the number of facets, have two bytes each, and are cut to them.

## Main definitions

* `TextRecord`, `encodeTextRecord`, `decodeTextRecord`
* `TextRecord.Storable`: a record whose lengths have room in their fields

## Main results

* `decodeTextRecord_encodeTextRecord`: a record whose lengths have room is read back
* `storable_of_decodeTextRecord`: what is read is such a record
* `text_of_decodeTextRecord`: of a text that has room, what is read at all has the text
-/

/-- A text with its facets. -/
structure TextRecord where
  text : String
  facets : Facets

/-- The bytes of a record. -/
def encodeTextRecord (record : TextRecord) : Bytes :=
  leBytes 4 (utf8Bytes record.text).length ++ (utf8Bytes record.text ++
    (leBytes 2 record.facets.entries.length ++ record.facets.entries.flatMap serializeFacet))

namespace InvertedReader

/-- Read the text of a record. -/
def readText : InvertedReader String := do
  let textLen ← readNat 4
  let bytes ← read textLen
  match ofUtf8 bytes with
  | some text => return text
  | none => corrupt "invalid text"

/-- Read the facets of a text. -/
def readFacets (text : String) : InvertedReader TextRecord := do
  let facetCount ← readNat 2
  let facets ← HnswReader.readMany readFacet facetCount
  return ⟨text, HashTable.ofEntries facets⟩

/-- Read a record. -/
def readRecord : InvertedReader TextRecord := do
  let text ← readText
  readFacets text

end InvertedReader

/-- The record of some bytes. Why there is none is not told. -/
def decodeTextRecord (bytes : Bytes) : Option TextRecord :=
  if bytes.length < 4 then none else (InvertedReader.readRecord bytes).toOption.map Prod.fst

namespace TextRecord

/-- A record whose lengths have room in their fields. -/
structure Storable (record : TextRecord) : Prop where
  text : (utf8Bytes record.text).length < 256 ^ 4
  length_facets : record.facets.entries.length < 256 ^ 2
  facets : ∀ e ∈ record.facets.entries, (utf8Bytes e.1).length < 256 ^ 2 ∧ e.2.Storable

/-- The same record, up to the order of the facets. -/
structure Same (record record' : TextRecord) : Prop where
  text : record.text = record'.text
  facets : record.facets.Same Eq record'.facets

end TextRecord

namespace InvertedReader

open HnswReader (Reads Yields yields_true yields_readMany)

theorem reads_readText {text : String} (h : (utf8Bytes text).length < 256 ^ 4) :
    readText.Reads (leBytes 4 (utf8Bytes text).length ++ utf8Bytes text) text := by
  refine (reads_readNat h).bind ((reads_read rfl).bind_pure ?_)
  rw [ofUtf8_utf8Bytes]

/-- A record is read back. -/
theorem reads_readRecord {record : TextRecord} (h : record.Storable) :
    readRecord.Reads (encodeTextRecord record) record := by
  have hfacets : (HnswReader.readMany readFacet record.facets.entries.length).Reads
      (record.facets.entries.flatMap serializeFacet) record.facets.entries :=
    HnswReader.reads_readMany fun e he => reads_readFacet (h.facets e he).1 (h.facets e he).2
  unfold encodeTextRecord
  rw [← List.append_assoc]
  refine (reads_readText h.text).bind ((reads_readNat h.length_facets).bind (hfacets.bind_pure ?_))
  rw [HashTable.ofEntries_entries]

theorem yields_readText : readText.Yields fun text => (utf8Bytes text).length < 256 ^ 4 := by
  refine (yields_readNat 4).bind fun textLen hlen => ?_
  refine (yields_read textLen).bind fun bs hbs => ?_
  cases hs : ofUtf8 bs with
  | none => exact yields_corrupt _
  | some s => exact HnswReader.Yields.pure (ofUtf8_eq_some.mp hs ▸ hbs ▸ hlen)

/-- The facets that are read go to the text. -/
theorem yields_readFacets (text : String) : (readFacets text).Yields fun record => record.text = text :=
  yields_true.bind fun _ _ => yields_true.bind fun _ _ => HnswReader.Yields.pure rfl

theorem yields_readRecord : readRecord.Yields TextRecord.Storable := by
  refine yields_readText.bind fun text htext => ?_
  refine (yields_readNat 2).bind fun facetCount hcount => ?_
  refine (yields_readMany yields_readFacet facetCount).bind fun facets hfacets => HnswReader.Yields.pure ?_
  exact {
    text := htext
    length_facets := (HashTable.length_ofEntries_le facets).trans_lt (hfacets.1.trans_lt hcount)
    facets := fun e he => hfacets.2 e (HashTable.mem_of_mem_ofEntries he) }

end InvertedReader

variable {record record' : TextRecord} {bytes : Bytes}

theorem four_le_length_encodeTextRecord (record : TextRecord) : 4 ≤ (encodeTextRecord record).length := by
  rw [encodeTextRecord, List.length_append, length_leBytes]
  omega

/-- **A record whose lengths have room is read back.** -/
theorem decodeTextRecord_encodeTextRecord (h : record.Storable) :
    decodeTextRecord (encodeTextRecord record) = some record := by
  have hread := InvertedReader.reads_readRecord h []
  rw [List.append_nil] at hread
  rw [decodeTextRecord, if_neg (Nat.not_lt.mpr (four_le_length_encodeTextRecord record)), hread]
  rfl

/-- **What is read** is a record whose lengths have room. -/
theorem storable_of_decodeTextRecord (h : decodeTextRecord bytes = some record) : record.Storable := by
  unfold decodeTextRecord at h
  split at h
  case isTrue => cases h
  case isFalse =>
    cases hread : InvertedReader.readRecord bytes with
    | error e =>
      rw [hread] at h
      cases h
    | ok p =>
      rw [hread] at h
      cases h
      exact InvertedReader.yields_readRecord bytes p.1 p.2 hread

/-- A record that is the same as one whose lengths have room. -/
theorem TextRecord.Same.storable (h : record.Same record') (h' : record'.Storable) : record.Storable where
  text := h.text ▸ h'.text
  length_facets := h.facets.length_eq ▸ h'.length_facets
  facets := by
    intro e he
    obtain ⟨v, hv, heq⟩ := h.facets.exists_right he
    exact heq ▸ h'.facets (e.1, v) hv

/-- **Which records are read back**: those whose lengths have room. -/
theorem exists_decodeTextRecord_iff :
    (∃ record', decodeTextRecord (encodeTextRecord record) = some record' ∧ record.Same record') ↔
      record.Storable := by
  constructor
  · rintro ⟨record', hread, hsame⟩
    exact hsame.storable (storable_of_decodeTextRecord hread)
  · exact fun h => ⟨record, decodeTextRecord_encodeTextRecord h, rfl, .of_eq (fun _ => rfl) rfl⟩

/-- **The text of a record** is read first: if it has room, then what is read at all has the text. -/
theorem text_of_decodeTextRecord (htext : (utf8Bytes record.text).length < 256 ^ 4)
    (h : decodeTextRecord (encodeTextRecord record) = some record') : record'.text = record.text := by
  unfold decodeTextRecord at h
  rw [if_neg (Nat.not_lt.mpr (four_le_length_encodeTextRecord record))] at h
  have hread := InvertedReader.reads_readText htext
    (leBytes 2 record.facets.entries.length ++ record.facets.entries.flatMap serializeFacet)
  rw [List.append_assoc] at hread
  have hrecord : InvertedReader.readRecord (encodeTextRecord record) =
      InvertedReader.readFacets record.text
        (leBytes 2 record.facets.entries.length ++ record.facets.entries.flatMap serializeFacet) := by
    show (InvertedReader.readText (encodeTextRecord record) >>= fun p => InvertedReader.readFacets p.1 p.2) = _
    rw [encodeTextRecord, hread]
    rfl
  rw [hrecord] at h
  generalize leBytes 2 record.facets.entries.length ++ record.facets.entries.flatMap serializeFacet = rest at h
  cases hfacets : InvertedReader.readFacets record.text rest with
  | error e =>
    rw [hfacets] at h
    cases h
  | ok p =>
    rw [hfacets] at h
    cases h
    exact InvertedReader.yields_readFacets record.text rest p.1 p.2 hfacets
