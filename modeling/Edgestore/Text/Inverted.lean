import Edgestore.Lib.HashTable
import Edgestore.Lib.Utf8
import Edgestore.Text.Bloom

/-!
# The inverted index

The postings of the documents of a namespace, by term. The index is changed by adding and by removing documents;
in between, its hash tables may be iterated in any order.

## Main definitions

* `Posting`, `InvertedIndex`
* `InvertedIndex.addDocument`, `InvertedIndex.removeDocument`
* `InvertedIndex.Same`: the same index, up to the order of its tables
* `InvertedIndex.Reached`: what an empty index becomes

## Main results

* `InvertedIndex.postings_addDocument`, `InvertedIndex.postings_removeDocument`: what a change does to the postings
-/

/-- A facet value. -/
inductive FacetValue
  | string (s : String)
  | number (n : Int64)
  | bool (b : Bool)
  deriving DecidableEq, Repr

/-- The facets of a document. -/
abbrev Facets := HashTable String FacetValue

/-- A token of a text: its term, and the index of its first character. -/
structure Token where
  term : String
  position : ℕ
  deriving DecidableEq, Repr

/-- A posting: how often a term occurs in a document, and where. -/
structure Posting where
  docId : Bytes
  termFreq : UInt32
  docLenTokens : UInt32
  facets : Facets
  positions : List UInt32

/-- The inverted index of a namespace. -/
structure InvertedIndex where
  postings : HashTable String (List Posting)
  totalDocs : UInt64
  totalDocLen : UInt64
  sidecarLsn : UInt64
  docBloom : BloomFilter

namespace InvertedIndex

variable (sizing : BloomSizing) (seed : Seed)

/-- An empty index. -/
def new : InvertedIndex where
  postings := .empty
  totalDocs := 0
  totalDocLen := 0
  sidecarLsn := 0
  docBloom := .withCapacity sizing seed initialCapacity

/-- The documents of the postings. -/
def docIds (index : InvertedIndex) : List Bytes :=
  index.postings.entries.flatMap fun e => e.2.map Posting.docId

/-- A new filter, from the postings. -/
def rebuildBloomAtCapacity (capacity : ℕ) (index : InvertedIndex) : InvertedIndex :=
  { index with
    docBloom := (BloomFilter.withCapacity sizing seed (max capacity initialCapacity)).insertAll index.docIds }

/-- Record a document in the filter, which first grows when it is full. -/
def bloomInsert (docId : Bytes) (index : InvertedIndex) : InvertedIndex :=
  let grown :=
    if index.docBloom.isSaturated then
      index.rebuildBloomAtCapacity sizing seed (index.docBloom.capacity * 2)
    else index
  { grown with docBloom := grown.docBloom.insert docId }

/-- The positions of each term of a document. -/
def termData (tokens : List Token) : HashTable String (List UInt32) :=
  .group (tokens.map fun token => (token.term, UInt32.ofNat token.position))

/-- The posting of a document for a term with some positions. -/
def postingOf (docId : Bytes) (docLenTokens : UInt32) (facets : Facets) (positions : List UInt32) : Posting where
  docId := docId
  termFreq := UInt32.ofNat positions.length
  docLenTokens := docLenTokens
  facets := facets
  positions := positions

/-- Add a document. -/
def addDocument (docId : Bytes) (tokens : List Token) (docLenTokens : UInt32) (facets : Facets)
    (index : InvertedIndex) : InvertedIndex :=
  let recorded := index.bloomInsert sizing seed docId
  { recorded with
    postings := (termData tokens).entries.foldl
      (fun postings e => postings.push e.1 (postingOf docId docLenTokens facets e.2)) recorded.postings
    totalDocs := recorded.totalDocs + 1
    totalDocLen := recorded.totalDocLen + docLenTokens.toUInt64 }

/-- Remove a document, and say whether there was one. There is no result when a total is too small for what is
removed, on which the code panics. -/
def removeDocument (docId : Bytes) (index : InvertedIndex) : Option (Bool × InvertedIndex) :=
  let removed := index.postings.entries.flatMap fun e => e.2.filter (·.docId = docId)
  let kept := index.postings.retain (fun ps => ps.filter (·.docId ≠ docId)) fun ps => !ps.isEmpty
  match removed with
  | [] => some (false, { index with postings := kept })
  | p :: _ =>
    -- the length of the document is that of the posting that is met first
    let len := p.docLenTokens.toUInt64
    if 0 < index.totalDocs ∧ len ≤ index.totalDocLen then
      some (true, { index with
        postings := kept
        totalDocs := index.totalDocs - 1
        totalDocLen := index.totalDocLen - len })
    else none

/-! ### The postings -/

variable {sizing seed} {index index' : InvertedIndex} {docId : Bytes}

theorem postings_bloomInsert : (index.bloomInsert sizing seed docId).postings = index.postings := by
  unfold bloomInsert
  split <;> rfl

/-- A document is put behind those of its terms. -/
theorem postings_addDocument {tokens : List Token} {docLenTokens : UInt32} {facets : Facets} :
    (index.addDocument sizing seed docId tokens docLenTokens facets).postings =
      (termData tokens).entries.foldl
        (fun postings e => postings.push e.1 (postingOf docId docLenTokens facets e.2)) index.postings := by
  change List.foldl _ (index.bloomInsert sizing seed docId).postings _ = _
  rw [postings_bloomInsert]

/-- Whether or not there was such a document, what is left are the postings of the others. -/
theorem postings_removeDocument {found : Bool} (h : index.removeDocument docId = some (found, index')) :
    index'.postings = index.postings.retain (List.filter (·.docId ≠ docId)) fun ps => !ps.isEmpty := by
  simp only [removeDocument] at h
  split at h
  · cases h
    rfl
  · split at h
    · cases h
      rfl
    · cases h

end InvertedIndex

/-! ### The same index -/

/-- The same posting, up to the order of the facets. -/
structure Posting.Same (p q : Posting) : Prop where
  docId : p.docId = q.docId
  termFreq : p.termFreq = q.termFreq
  docLenTokens : p.docLenTokens = q.docLenTokens
  facets : p.facets.Same Eq q.facets
  positions : p.positions = q.positions

/-- The same index, up to the order of the tables, and but for the filter. -/
structure InvertedIndex.Same (index index' : InvertedIndex) : Prop where
  sidecarLsn : index.sidecarLsn = index'.sidecarLsn
  totalDocs : index.totalDocs = index'.totalDocs
  totalDocLen : index.totalDocLen = index'.totalDocLen
  postings : index.postings.Same (List.Forall₂ Posting.Same) index'.postings

theorem Posting.Same.refl (p : Posting) : p.Same p :=
  ⟨rfl, rfl, rfl, .of_eq (fun _ => rfl) rfl, rfl⟩

/-! ### Runs -/

/-- A change of an index, with what a new filter is made with. -/
inductive IndexCall
  | add (seed : Seed) (docId : Bytes) (tokens : List Token) (docLenTokens : UInt32) (facets : Facets)
  | remove (docId : Bytes)

namespace InvertedIndex

/-- A call on an index, unless it panics. -/
def call (sizing : BloomSizing) (index : InvertedIndex) : IndexCall → Option InvertedIndex
  | .add seed docId tokens docLenTokens facets =>
    some (index.addDocument sizing seed docId tokens docLenTokens facets)
  | .remove docId => (index.removeDocument docId).map Prod.snd

/-- What an empty index becomes by some calls. In between, its tables may change their order. -/
inductive Reached (sizing : BloomSizing) : List IndexCall → InvertedIndex → Prop
  | new (seed : Seed) : Reached sizing [] (new sizing seed)
  | call {calls : List IndexCall} {index index' : InvertedIndex} {c : IndexCall} :
    Reached sizing calls index → index.call sizing c = some index' → Reached sizing (calls ++ [c]) index'
  | reordered {calls : List IndexCall} {index index' : InvertedIndex} :
    Reached sizing calls index → index.Same index' → index.docBloom = index'.docBloom →
      Reached sizing calls index'

end InvertedIndex
