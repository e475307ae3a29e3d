import Edgestore.Text.Inverted

/-!
# The postings of documents

What an index has for a document, term by term, and what adding and removing a document does to it. Two indexes
agree when they have the same postings for each term, up to the order of facets, and the same totals. That the
tables of an index may be iterated in any order does not matter, as long as all postings of a document have the
same length: a removal subtracts the length that it meets first.

## Main definitions

* `InvertedIndex.postingsOf`: the postings of a term
* `InvertedIndex.docPostings`: the postings that a document has for a term
* `InvertedIndex.Agree`: the same postings and the same totals
* `InvertedIndex.Coherent`, `InvertedIndex.Uniform`: all postings of a document agree, and have the same length
* `InvertedIndex.indexDocument`: a document is put in the place of the old one
* `InvertedIndex.addDocuments`: documents are added one by one

## Main results

* `InvertedIndex.postingsOf_addDocument`, `InvertedIndex.postingsOf_removeDocument`: what a change does
* `InvertedIndex.removeDocument_of_mem`, `InvertedIndex.removeDocument_of_notMem`: what a removal returns
* `InvertedIndex.Agree.addDocument`, `InvertedIndex.Agree.removeDocument`: indexes that agree still do
* `InvertedIndex.mightContain_addDocument`: the filter contains every document with postings
-/

theorem Posting.Same.symm {p q : Posting} (h : p.Same q) : q.Same p where
  docId := h.docId.symm
  termFreq := h.termFreq.symm
  docLenTokens := h.docLenTokens.symm
  facets := h.facets.symm fun _ _ => Eq.symm
  positions := h.positions.symm

theorem Posting.Same.trans {p q r : Posting} (h : p.Same q) (h' : q.Same r) : p.Same r where
  docId := h.docId.trans h'.docId
  termFreq := h.termFreq.trans h'.termFreq
  docLenTokens := h.docLenTokens.trans h'.docLenTokens
  facets := h.facets.trans (fun _ _ _ => Eq.trans) h'.facets
  positions := h.positions.trans h'.positions

theorem forall₂_same_refl (ps : List Posting) : List.Forall₂ Posting.Same ps ps :=
  List.forall₂_same.mpr fun p _ => .refl p

theorem forall₂_same_symm {ps qs : List Posting} (h : List.Forall₂ Posting.Same ps qs) :
    List.Forall₂ Posting.Same qs ps := h.flip.imp fun _ _ => Posting.Same.symm

namespace InvertedIndex

variable {sizing : BloomSizing} {seed : Seed} {index index' other : InvertedIndex} {docId : Bytes}
  {term : String} {tokens : List Token} {docLenTokens : UInt32} {facets : Facets} {found : Bool}

/-- The postings of a term. -/
def postingsOf (index : InvertedIndex) (term : String) : List Posting := (index.postings.get term).getD []

/-- The postings that a document has for a term: one if the term occurs in it. -/
def docPostings (docId : Bytes) (tokens : List Token) (docLenTokens : UInt32) (facets : Facets)
    (term : String) : List Posting :=
  ((termData tokens).get term).toList.map (postingOf docId docLenTokens facets)

theorem mem_postingsOf {p : Posting} :
    p ∈ index.postingsOf term ↔ ∃ ps, index.postings.get term = some ps ∧ p ∈ ps := by
  unfold postingsOf
  cases index.postings.get term with
  | none => simp
  | some ps => simp

theorem mem_docIds : docId ∈ index.docIds ↔ ∃ term, ∃ p ∈ index.postingsOf term, p.docId = docId := by
  unfold docIds
  rw [List.mem_flatMap]
  constructor
  · rintro ⟨e, he, hdoc⟩
    obtain ⟨p, hp, hid⟩ := List.mem_map.mp hdoc
    exact ⟨e.1, p, mem_postingsOf.mpr ⟨e.2, HashTable.mem_entries_iff.mp he, hp⟩, hid⟩
  · rintro ⟨term, p, hp, hid⟩
    obtain ⟨ps, hps, hp⟩ := mem_postingsOf.mp hp
    exact ⟨(term, ps), HashTable.mem_entries_iff.mpr hps, List.mem_map.mpr ⟨p, hp, hid⟩⟩

theorem docId_of_mem_docPostings {p : Posting} (h : p ∈ docPostings docId tokens docLenTokens facets term) :
    p.docId = docId := by
  obtain ⟨ps, -, rfl⟩ := List.mem_map.mp h
  rfl

/-! ### Adding a document -/

theorem totals_bloomInsert : (index.bloomInsert sizing seed docId).totalDocs = index.totalDocs ∧
    (index.bloomInsert sizing seed docId).totalDocLen = index.totalDocLen := by
  unfold bloomInsert
  split <;> exact ⟨rfl, rfl⟩

theorem totalDocs_addDocument : (index.addDocument sizing seed docId tokens docLenTokens facets).totalDocs =
    index.totalDocs + 1 := congrArg (· + 1) totals_bloomInsert.1

theorem totalDocLen_addDocument :
    (index.addDocument sizing seed docId tokens docLenTokens facets).totalDocLen =
      index.totalDocLen + docLenTokens.toUInt64 := congrArg (· + docLenTokens.toUInt64) totals_bloomInsert.2

theorem get_addDocument :
    (index.addDocument sizing seed docId tokens docLenTokens facets).postings.get term =
      match (termData tokens).get term with
      | some ps => some (index.postingsOf term ++ [postingOf docId docLenTokens facets ps])
      | none => index.postings.get term := by
  rw [postings_addDocument, HashTable.get_foldl_push (termData tokens).nodup]
  unfold HashTable.get
  cases HashTable.getEntry term (termData tokens).entries <;> rfl

/-- **A document is put** behind the others. -/
theorem postingsOf_addDocument :
    (index.addDocument sizing seed docId tokens docLenTokens facets).postingsOf term =
      index.postingsOf term ++ docPostings docId tokens docLenTokens facets term := by
  rw [postingsOf, get_addDocument, docPostings]
  cases (termData tokens).get term with
  | none => exact (List.append_nil _).symm
  | some ps => rfl

theorem docIds_addDocument {d : Bytes}
    (h : d ∈ (index.addDocument sizing seed docId tokens docLenTokens facets).docIds) :
    d ∈ index.docIds ∨ d = docId := by
  obtain ⟨term, p, hp, rfl⟩ := mem_docIds.mp h
  rw [postingsOf_addDocument] at hp
  rcases List.mem_append.mp hp with hp | hp
  · exact .inl (mem_docIds.mpr ⟨term, p, hp, rfl⟩)
  · exact .inr (docId_of_mem_docPostings hp)

/-- **The filter contains every document with postings**, also if it had to grow. -/
theorem mightContain_addDocument (h : ∀ d ∈ index.docIds, index.docBloom.mightContain d = true) :
    ∀ d ∈ (index.addDocument sizing seed docId tokens docLenTokens facets).docIds,
      (index.addDocument sizing seed docId tokens docLenTokens facets).docBloom.mightContain d = true := by
  intro d hd
  have hbloom : (index.addDocument sizing seed docId tokens docLenTokens facets).docBloom =
      (index.bloomInsert sizing seed docId).docBloom := rfl
  rw [hbloom, bloomInsert]
  refine BloomFilter.mightContain_insert ?_
  refine (docIds_addDocument hd).imp_left fun hd => ?_
  split
  · exact BloomFilter.mightContain_insertAll (.inr hd)
  · exact h d hd

/-! ### Removing a document -/

/-- The postings without those of a document. -/
def without (index : InvertedIndex) (docId : Bytes) : HashTable String (List Posting) :=
  index.postings.retain (fun ps => ps.filter (·.docId ≠ docId)) fun ps => !ps.isEmpty

theorem get_without (docId : Bytes) : (index.without docId).get term =
    ((index.postings.get term).map (List.filter (·.docId ≠ docId))).filter fun ps => !ps.isEmpty :=
  HashTable.get_retain index.postings _ _ term

theorem getD_without (docId : Bytes) :
    ((index.without docId).get term).getD [] = (index.postingsOf term).filter (·.docId ≠ docId) := by
  rw [get_without, postingsOf]
  cases index.postings.get term with
  | none => rfl
  | some ps =>
    rw [Option.map_some, Option.getD_some]
    cases hps : ps.filter (·.docId ≠ docId) with
    | nil => rfl
    | cons p rest => rfl

/-- The postings that a removal meets, in this order. -/
def met (index : InvertedIndex) (docId : Bytes) : List Posting :=
  index.postings.entries.flatMap fun e => e.2.filter (·.docId = docId)

theorem mem_met {p : Posting} :
    p ∈ index.met docId ↔ (∃ term, p ∈ index.postingsOf term) ∧ p.docId = docId := by
  unfold met
  rw [List.mem_flatMap]
  constructor
  · rintro ⟨e, he, hp⟩
    obtain ⟨hp, hid⟩ := List.mem_filter.mp hp
    exact ⟨⟨e.1, mem_postingsOf.mpr ⟨e.2, HashTable.mem_entries_iff.mp he, hp⟩⟩, of_decide_eq_true hid⟩
  · rintro ⟨⟨term, hp⟩, hid⟩
    obtain ⟨ps, hps, hp⟩ := mem_postingsOf.mp hp
    exact ⟨(term, ps), HashTable.mem_entries_iff.mpr hps,
      List.mem_filter.mpr ⟨hp, decide_eq_true hid⟩⟩

/-- All postings of a document agree in some part. -/
def Coherent {β : Type} (index : InvertedIndex) (part : Posting → β) : Prop :=
  ∀ term term', ∀ p ∈ index.postingsOf term, ∀ q ∈ index.postingsOf term', p.docId = q.docId → part p = part q

/-- All postings of a document have the same length. -/
abbrev Uniform (index : InvertedIndex) : Prop := index.Coherent Posting.docLenTokens

theorem met_eq : (index.postings.entries.flatMap fun e => e.2.filter (·.docId = docId)) = index.met docId := rfl

/-- A removal finds no posting of the document. -/
theorem removeDocument_of_notMem (h : docId ∉ index.docIds) :
    index.removeDocument docId = some (false, { index with postings := index.without docId }) := by
  have hmet : index.met docId = [] := by
    refine List.eq_nil_iff_forall_not_mem.mpr fun p hp => h ?_
    obtain ⟨⟨term, hp⟩, hid⟩ := mem_met.mp hp
    exact mem_docIds.mpr ⟨term, p, hp, hid⟩
  rw [removeDocument, met_eq, hmet]
  rfl

/-- A removal that finds a posting of the document counts it. -/
theorem totalDocs_removeDocument (h : index.removeDocument docId = some (found, index'))
    (hdoc : docId ∈ index.docIds) : 0 < index.totalDocs ∧ index'.totalDocs = index.totalDocs - 1 := by
  rw [removeDocument, met_eq] at h
  cases hmet : index.met docId with
  | nil =>
    obtain ⟨term, p, hp, hid⟩ := mem_docIds.mp hdoc
    have hmem : p ∈ index.met docId := mem_met.mpr ⟨⟨term, hp⟩, hid⟩
    rw [hmet] at hmem
    cases hmem
  | cons p rest =>
    rw [hmet] at h
    dsimp only at h
    split at h
    case isTrue hroom =>
      cases h
      exact ⟨hroom.1, rfl⟩
    case isFalse => cases h

/-- **A removal subtracts the length of the document**, if the totals are large enough. -/
theorem removeDocument_of_mem {p : Posting} (hp : p ∈ index.postingsOf term)
    (huniform : ∀ term', ∀ q ∈ index.postingsOf term', q.docId = p.docId → q.docLenTokens = p.docLenTokens) :
    index.removeDocument p.docId =
      if 0 < index.totalDocs ∧ p.docLenTokens.toUInt64 ≤ index.totalDocLen then
        some (true, { index with
          postings := index.without p.docId
          totalDocs := index.totalDocs - 1
          totalDocLen := index.totalDocLen - p.docLenTokens.toUInt64 })
      else none := by
  rw [removeDocument, met_eq]
  cases hmet : index.met p.docId with
  | nil =>
    have hmem : p ∈ index.met p.docId := mem_met.mpr ⟨⟨term, hp⟩, rfl⟩
    rw [hmet] at hmem
    cases hmem
  | cons q rest =>
    have hq : q ∈ index.met p.docId := by
      rw [hmet]
      exact List.mem_cons_self
    obtain ⟨⟨term', hq⟩, hid⟩ := mem_met.mp hq
    -- the posting that is met first has the length of any other one
    have hlen : q.docLenTokens = p.docLenTokens := huniform term' q hq hid
    dsimp only
    rw [hlen]
    rfl

/-- **The postings of the others** are left. -/
theorem postingsOf_removeDocument (h : index.removeDocument docId = some (found, index')) :
    index'.postingsOf term = (index.postingsOf term).filter (·.docId ≠ docId) := by
  rw [postingsOf, postings_removeDocument h]
  exact getD_without docId

theorem docIds_removeDocument (h : index.removeDocument docId = some (found, index'))
    {d : Bytes} : d ∈ index'.docIds ↔ d ∈ index.docIds ∧ d ≠ docId := by
  rw [mem_docIds, mem_docIds]
  constructor
  · rintro ⟨term, p, hp, rfl⟩
    rw [postingsOf_removeDocument h] at hp
    obtain ⟨hp, hne⟩ := List.mem_filter.mp hp
    exact ⟨⟨term, p, hp, rfl⟩, of_decide_eq_true hne⟩
  · rintro ⟨⟨term, p, hp, rfl⟩, hne⟩
    refine ⟨term, p, ?_, rfl⟩
    rw [postingsOf_removeDocument h]
    exact List.mem_filter.mpr ⟨hp, decide_eq_true hne⟩

theorem docBloom_removeDocument (h : index.removeDocument docId = some (found, index')) :
    index'.docBloom = index.docBloom := by
  simp only [removeDocument] at h
  split at h
  · cases h
    rfl
  · split at h
    · cases h
      rfl
    · cases h

/-! ### Coherent postings -/

section Coherent

variable {β : Type} {part : Posting → β}

theorem coherent_new : (new sizing seed).Coherent part := fun _ _ p hp => by
  obtain ⟨ps, hps, -⟩ := mem_postingsOf.mp hp
  cases hps

/-- A new document is coherent if the part does not depend on the term. -/
theorem Coherent.addDocument (h : index.Coherent part) (hdoc : docId ∉ index.docIds)
    (hpart : ∀ ps ps', part (postingOf docId docLenTokens facets ps) =
      part (postingOf docId docLenTokens facets ps')) :
    (index.addDocument sizing seed docId tokens docLenTokens facets).Coherent part := by
  intro term term' p hp q hq hid
  rw [postingsOf_addDocument] at hp hq
  -- a posting of the new document is none of the old ones
  have hold : ∀ {term : String} {p : Posting}, p ∈ index.postingsOf term → p.docId ≠ docId :=
    fun hp hid => hdoc (mem_docIds.mpr ⟨_, _, hp, hid⟩)
  rcases List.mem_append.mp hp with hp | hp
  · rcases List.mem_append.mp hq with hq | hq
    · exact h term term' p hp q hq hid
    · exact absurd (hid.trans (docId_of_mem_docPostings hq)) (hold hp)
  · rcases List.mem_append.mp hq with hq | hq
    · exact absurd (hid.symm.trans (docId_of_mem_docPostings hp)) (hold hq)
    · obtain ⟨ps, -, rfl⟩ := List.mem_map.mp hp
      obtain ⟨ps', -, rfl⟩ := List.mem_map.mp hq
      exact hpart ps ps'

theorem Coherent.removeDocument (h : index.Coherent part)
    (hremove : index.removeDocument docId = some (found, index')) : index'.Coherent part := by
  intro term term' p hp q hq
  rw [postingsOf_removeDocument hremove] at hp hq
  exact h term term' p (List.mem_of_mem_filter hp) q (List.mem_of_mem_filter hq)

end Coherent

/-! ### Indexes that agree -/

/-- The same postings for each term, up to the order of facets, and the same totals. -/
structure Agree (index other : InvertedIndex) : Prop where
  totalDocs : index.totalDocs = other.totalDocs
  totalDocLen : index.totalDocLen = other.totalDocLen
  postings : ∀ term, Option.Rel (List.Forall₂ Posting.Same) (index.postings.get term) (other.postings.get term)

theorem Same.agree (h : index.Same index') : index.Agree index' :=
  ⟨h.totalDocs, h.totalDocLen, h.postings.get⟩

theorem Agree.of_eq (hdocs : index.totalDocs = other.totalDocs) (hlen : index.totalDocLen = other.totalDocLen)
    (h : ∀ term, index.postings.get term = other.postings.get term) : index.Agree other := by
  refine ⟨hdocs, hlen, fun term => ?_⟩
  rw [h]
  cases other.postings.get term with
  | none => exact .none
  | some ps => exact .some (forall₂_same_refl ps)

theorem Agree.symm (h : index.Agree other) : other.Agree index := by
  refine ⟨h.totalDocs.symm, h.totalDocLen.symm, fun term => ?_⟩
  have hrel := h.postings term
  generalize index.postings.get term = a, other.postings.get term = b at hrel
  cases hrel with
  | none => exact .none
  | some hps => exact .some (forall₂_same_symm hps)

theorem Agree.trans (h : index.Agree other) (h' : other.Agree index') : index.Agree index' := by
  refine ⟨h.totalDocs.trans h'.totalDocs, h.totalDocLen.trans h'.totalDocLen, fun term => ?_⟩
  have hrel := h.postings term
  have hrel' := h'.postings term
  generalize index.postings.get term = a, other.postings.get term = b, index'.postings.get term = c at hrel hrel'
  cases hrel with
  | none => exact hrel'
  | some hps =>
    cases hrel' with
    | some hqs => exact .some (forall₂_comp (fun _ _ _ h h' => h.trans h') hps hqs)

/-- The terms are the same. -/
theorem Agree.mem_keys_iff (h : index.Agree other) :
    term ∈ index.postings.entries.map Prod.fst ↔ term ∈ other.postings.entries.map Prod.fst := by
  have hrel := h.postings term
  rw [HashTable.mem_keys_iff, HashTable.mem_keys_iff]
  generalize index.postings.get term = a, other.postings.get term = b at hrel
  cases hrel with
  | none => exact Iff.rfl
  | some _ => exact iff_of_true ⟨_, rfl⟩ ⟨_, rfl⟩

theorem Agree.postingsOf (h : index.Agree other) (term : String) :
    List.Forall₂ Posting.Same (index.postingsOf term) (other.postingsOf term) := by
  have hrel := h.postings term
  unfold InvertedIndex.postingsOf
  generalize index.postings.get term = a, other.postings.get term = b at hrel
  cases hrel with
  | none => exact .nil
  | some hps => exact hps

theorem Agree.exists_right (h : index.Agree other) {p : Posting} (hp : p ∈ index.postingsOf term) :
    ∃ q ∈ other.postingsOf term, p.Same q := by
  obtain ⟨i, hi, rfl⟩ := List.getElem_of_mem hp
  have hall := h.postingsOf term
  have hi' : i < (other.postingsOf term).length := hall.length_eq ▸ hi
  exact ⟨_, List.getElem_mem hi', hall.get hi hi'⟩

theorem Agree.docIds (h : index.Agree other) {d : Bytes} (hd : d ∈ index.docIds) : d ∈ other.docIds := by
  obtain ⟨term, p, hp, rfl⟩ := mem_docIds.mp hd
  obtain ⟨q, hq, hsame⟩ := h.exists_right hp
  exact mem_docIds.mpr ⟨term, q, hq, hsame.docId.symm⟩

theorem Agree.uniform (h : index.Agree other) (hother : other.Uniform) : index.Uniform := by
  intro term term' p hp q hq hid
  obtain ⟨p', hp', hsame⟩ := h.exists_right hp
  obtain ⟨q', hq', hsame'⟩ := h.exists_right hq
  rw [hsame.docLenTokens, hsame'.docLenTokens]
  exact hother term term' p' hp' q' hq' (hsame.docId.symm.trans (hid.trans hsame'.docId))

theorem Agree.without (h : index.Agree other) (docId : Bytes) (term : String) :
    Option.Rel (List.Forall₂ Posting.Same) ((index.without docId).get term) ((other.without docId).get term) := by
  have hrel := h.postings term
  rw [get_without, get_without]
  generalize index.postings.get term = a, other.postings.get term = b at hrel
  cases hrel with
  | none => exact .none
  | @some ps qs hps =>
    have hfilter : List.Forall₂ Posting.Same (ps.filter (·.docId ≠ docId)) (qs.filter (·.docId ≠ docId)) :=
      forall₂_filter (fun p q hpq => by rw [hpq.docId]) hps
    simp only [Option.map_some]
    cases hps' : ps.filter (·.docId ≠ docId) with
    | nil =>
      rw [hps'] at hfilter
      rw [List.forall₂_nil_left_iff.mp hfilter]
      exact .none
    | cons p rest =>
      cases hqs' : qs.filter (·.docId ≠ docId) with
      | nil =>
        rw [hps', hqs'] at hfilter
        cases hfilter
      | cons q rest' => exact .some (hps' ▸ hqs' ▸ hfilter)

/-- **A removal from indexes that agree.** -/
theorem Agree.removeDocument (h : index.Agree other) (huniform : other.Uniform) (docId : Bytes) :
    Option.Rel (fun a b => a.1 = b.1 ∧ a.2.Agree b.2) (index.removeDocument docId)
      (other.removeDocument docId) := by
  by_cases hdoc : docId ∈ index.docIds
  · obtain ⟨term, p, hp, rfl⟩ := mem_docIds.mp hdoc
    obtain ⟨q, hq, hsame⟩ := h.exists_right hp
    rw [removeDocument_of_mem hp fun term' p' hp' hid => h.uniform huniform term' term p' hp' p hp hid,
      hsame.docId, removeDocument_of_mem hq fun term' q' hq' hid => huniform term' term q' hq' q hq hid,
      hsame.docLenTokens, h.totalDocs, h.totalDocLen]
    split
    · exact .some ⟨rfl, rfl, rfl, h.without q.docId⟩
    · exact .none
  · have hdoc' : docId ∉ other.docIds := fun hd => hdoc (h.symm.docIds hd)
    rw [removeDocument_of_notMem hdoc, removeDocument_of_notMem hdoc']
    exact .some ⟨rfl, h.totalDocs, h.totalDocLen, h.without docId⟩

/-- **An addition to indexes that agree**, whatever their filters are. -/
theorem Agree.addDocument (h : index.Agree other) (seed' : Seed) :
    (index.addDocument sizing seed docId tokens docLenTokens facets).Agree
      (other.addDocument sizing seed' docId tokens docLenTokens facets) := by
  refine ⟨?_, ?_, fun term => ?_⟩
  · rw [totalDocs_addDocument, totalDocs_addDocument, h.totalDocs]
  · rw [totalDocLen_addDocument, totalDocLen_addDocument, h.totalDocLen]
  · rw [get_addDocument, get_addDocument]
    cases (termData tokens).get term with
    | none => exact h.postings term
    | some ps => exact .some (List.rel_append (h.postingsOf term) (forall₂_same_refl _))

/-! ### Putting a document in the place of the old one -/

variable (sizing seed)

/-- What a call to index a document does to the index: the old document is removed if there may be one, and
the new one is added. -/
def indexDocument (docId : Bytes) (tokens : List Token) (facets : Facets) (index : InvertedIndex) :
    Option InvertedIndex :=
  let removed :=
    if index.docBloom.mightContain docId then (index.removeDocument docId).map Prod.snd else some index
  removed.map (addDocument sizing seed docId tokens (UInt32.ofNat tokens.length) facets)

end InvertedIndex

/-- A document of a namespace, as it is indexed. -/
structure Document where
  docId : Bytes
  tokens : List Token
  facets : Facets

/-- The length of a document. -/
def Document.len (doc : Document) : UInt32 := UInt32.ofNat doc.tokens.length

namespace InvertedIndex

/-- Add documents, one by one, each with the seed of a filter that it may need. -/
def addDocuments (sizing : BloomSizing) : (ℕ → Seed) → List Document → InvertedIndex → InvertedIndex
  | _, [], index => index
  | seeds, doc :: docs, index =>
    addDocuments sizing (fun n => seeds (n + 1)) docs
      (index.addDocument sizing (seeds 0) doc.docId doc.tokens doc.len doc.facets)

variable {sizing : BloomSizing} {index other : InvertedIndex}

/-- **Additions to indexes that agree.** -/
theorem agree_addDocuments {docs : List Document} (h : index.Agree other) (seeds seeds' : ℕ → Seed) :
    (index.addDocuments sizing seeds docs).Agree (other.addDocuments sizing seeds' docs) := by
  induction docs generalizing index other seeds seeds' with
  | nil => exact h
  | cons doc docs ih => exact ih (h.addDocument _) _ _

end InvertedIndex
