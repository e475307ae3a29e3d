import Edgestore.ReadBack
import Edgestore.Text.FailedUpdates

/-!
# The index of a corpus

An index is that of some documents when it has their postings, counts them and their tokens, and its filter knows
those that have postings. Adding a document to an index adds it to its documents. Removing one removes it, if it has a
token: a document without tokens has no postings, and leaves no trace in an index but in the number of documents, from
which it cannot be removed.

## Main definitions

* `corpusPostings`, `corpusLen`: the postings of some documents, and the number of their tokens
* `InvertedIndex.Of`: the index of some documents

## Main results

* `InvertedIndex.Of.alike`: all indexes of the same documents are alike
* `InvertedIndex.Of.addDocument`, `InvertedIndex.Of.removeDocument`, `InvertedIndex.Of.indexDocument`: what changes do
* `InvertedIndex.of_addDocuments`: a rebuild makes the index of its documents
* `InvertedIndex.Of.docIds_searchInIndex_perm`: a search without a limit finds the documents with a query term
-/

/-- The postings of some documents for a term. -/
def corpusPostings (docs : List Document) (term : String) : List Posting :=
  docs.flatMap fun doc => InvertedIndex.docPostings doc.docId doc.tokens doc.len doc.facets term

/-- The number of tokens of some documents. -/
def corpusLen (docs : List Document) : ℕ := (docs.map fun doc => doc.len.toNat).sum

/-- The documents but for one id. -/
def dropDocument (docs : List Document) (docId : Bytes) : List Document := docs.filter (·.docId ≠ docId)

/-- The documents with a query term. -/
def matchingDocuments (queryTokens : List Token) (docs : List Document) : List Document :=
  docs.filter fun doc => doc.tokens.any fun token => queryTokens.any (·.term = token.term)

namespace InvertedIndex

/-- The index of some documents. -/
structure Of (index : InvertedIndex) (docs : List Document) : Prop where
  postings : ∀ term, PermUpTo Posting.Same (index.postingsOf term) (corpusPostings docs term)
  totalDocs : index.totalDocs = UInt64.ofNat docs.length
  totalDocLen : index.totalDocLen = UInt64.ofNat (corpusLen docs)
  complete : ∀ d ∈ index.docIds, index.docBloom.mightContain d = true

variable {sizing : BloomSizing} {seed : Seed} {index index' other : InvertedIndex} {docs docs' : List Document}
  {doc : Document} {docId : Bytes} {term : String} {tokens : List Token} {facets : Facets}

theorem corpusLen_append : corpusLen (docs ++ docs') = corpusLen docs + corpusLen docs' := by
  rw [corpusLen, List.map_append, List.sum_append]
  rfl

theorem of_new (seed : Seed) : (new sizing seed).Of [] where
  postings := fun _ => .of_forall₂ .nil
  totalDocs := rfl
  totalDocLen := rfl
  complete := fun _ hd => absurd hd List.not_mem_nil

/-- The order of the documents does not matter. -/
theorem Of.perm (h : index.Of docs) (hdocs : docs.Perm docs') : index.Of docs' where
  postings := fun term => (h.postings term).trans (fun _ _ _ h h' => h.trans h')
    (.of_perm Posting.Same.refl (hdocs.flatMap_right _))
  totalDocs := by rw [h.totalDocs, hdocs.length_eq]
  totalDocLen := by rw [h.totalDocLen, corpusLen, corpusLen, (hdocs.map _).sum_eq]
  complete := h.complete

/-- **All indexes of the same documents are alike.** -/
theorem Of.alike (h : index.Of docs) (h' : other.Of docs) : index.Alike other where
  totalDocs := h.totalDocs.trans h'.totalDocs.symm
  totalDocLen := h.totalDocLen.trans h'.totalDocLen.symm
  postings := fun term => (h.postings term).trans (fun _ _ _ h h' => h.trans h')
    ((h'.postings term).symm fun _ _ => Posting.Same.symm)

/-- The order of the tables does not matter. -/
theorem Of.reordered (h : index.Of docs) (hsame : index.Same index') (hbloom : index.docBloom = index'.docBloom) :
    index'.Of docs where
  postings := fun term => by
    have hall : PermUpTo Posting.Same (index'.postingsOf term) (index.postingsOf term) :=
      .of_forall₂ (forall₂_same_symm (hsame.agree.postingsOf term))
    exact hall.trans (fun _ _ _ h h' => h.trans h') (h.postings term)
  totalDocs := hsame.totalDocs ▸ h.totalDocs
  totalDocLen := hsame.totalDocLen ▸ h.totalDocLen
  complete := fun d hd => hbloom ▸ h.complete d (hsame.agree.symm.docIds hd)

/-- A document with a token has a posting, and each posting is that of a document. -/
theorem Of.mem_docIds_iff (h : index.Of docs) :
    docId ∈ index.docIds ↔ ∃ doc ∈ docs, doc.docId = docId ∧ doc.tokens ≠ [] := by
  rw [mem_docIds]
  constructor
  · rintro ⟨term, p, hp, rfl⟩
    obtain ⟨q, hq, hsame⟩ := mem_of_permUpTo (h.postings term) hp
    obtain ⟨doc, hdoc, hq⟩ := List.mem_flatMap.mp hq
    refine ⟨doc, hdoc, (docId_of_mem_docPostings hq).symm.trans hsame.docId.symm, fun hnil => ?_⟩
    rw [hnil] at hq
    cases hq
  · rintro ⟨doc, hdoc, rfl, hne⟩
    obtain ⟨token, htoken⟩ := List.exists_mem_of_ne_nil _ hne
    obtain ⟨q, hq⟩ := exists_mem_docPostings doc.docId doc.len doc.facets htoken
    obtain ⟨p, hp, hsame⟩ := mem_of_permUpTo ((h.postings token.term).symm fun _ _ => Posting.Same.symm)
      (List.mem_flatMap.mpr ⟨doc, hdoc, hq⟩)
    exact ⟨token.term, p, hp, hsame.docId.symm.trans (docId_of_mem_docPostings hq)⟩

/-! ### Adding and removing documents -/

/-- **A document is added** behind the others. -/
theorem Of.addDocument (h : index.Of docs) (sizing : BloomSizing) (seed : Seed) (doc : Document) :
    (index.addDocument sizing seed doc.docId doc.tokens doc.len doc.facets).Of (docs ++ [doc]) where
  postings := fun term => by
    rw [postingsOf_addDocument, corpusPostings, List.flatMap_append, List.flatMap_singleton]
    exact (h.postings term).append (.of_forall₂ (forall₂_same_refl _))
  totalDocs := by
    rw [totalDocs_addDocument, h.totalDocs, List.length_append, List.length_singleton, UInt64.ofNat_add]
    rfl
  totalDocLen := by
    rw [totalDocLen_addDocument, h.totalDocLen, corpusLen_append, UInt64.ofNat_add, ← UInt64.ofNat_uInt32ToNat]
    rfl
  complete := mightContain_addDocument h.complete

/-- The postings of the documents but for one id. -/
theorem filter_corpusPostings (docs : List Document) (docId : Bytes) (term : String) :
    (corpusPostings docs term).filter (·.docId ≠ docId) = corpusPostings (dropDocument docs docId) term := by
  rw [corpusPostings, corpusPostings, dropDocument, List.filter_flatMap]
  induction docs with
  | nil => rfl
  | cons doc docs ih =>
    rw [List.flatMap_cons, ih, List.filter_cons]
    split
    case isTrue hne =>
      rw [List.flatMap_cons]
      refine congrArg (· ++ _) (List.filter_eq_self.mpr fun p hp => ?_)
      rw [docId_of_mem_docPostings hp]
      exact hne
    case isFalse heq =>
      have hnil : (docPostings doc.docId doc.tokens doc.len doc.facets term).filter (·.docId ≠ docId) = [] := by
        refine List.filter_eq_nil_iff.mpr fun p hp => ?_
        rw [docId_of_mem_docPostings hp]
        exact heq
      rw [hnil, List.nil_append]

/-- Without the postings of a document, the index has those of the others. -/
theorem Of.without (h : index.Of docs) (docId : Bytes) (term : String) :
    PermUpTo Posting.Same ((index.postingsOf term).filter (·.docId ≠ docId))
      (corpusPostings (dropDocument docs docId) term) := by
  rw [← filter_corpusPostings]
  exact (h.postings term).filter fun p q hpq => by rw [hpq.docId]

theorem dropDocument_of_notMem (h : docId ∉ docs.map Document.docId) : dropDocument docs docId = docs :=
  List.filter_eq_self.mpr fun doc hdoc => decide_eq_true fun heq => h (List.mem_map.mpr ⟨doc, hdoc, heq⟩)

/-- **A document that is not there** is removed by leaving the others. -/
theorem Of.removeDocument_of_notMem (h : index.Of docs) (hdoc : docId ∉ docs.map Document.docId) :
    ∃ index', index.removeDocument docId = some (false, index') ∧ index'.Of (dropDocument docs docId) := by
  have hnot : docId ∉ index.docIds := by
    rw [h.mem_docIds_iff]
    rintro ⟨doc, hmem, heq, -⟩
    exact hdoc (List.mem_map.mpr ⟨doc, hmem, heq⟩)
  have hremove := InvertedIndex.removeDocument_of_notMem hnot
  refine ⟨_, hremove, ?_, ?_, ?_, fun d hd => ?_⟩
  · intro term
    rw [postingsOf_removeDocument hremove]
    exact h.without docId term
  · rw [dropDocument_of_notMem hdoc]
    exact h.totalDocs
  · rw [dropDocument_of_notMem hdoc]
    exact h.totalDocLen
  · exact h.complete d ((docIds_removeDocument hremove).mp hd).1

/-- With distinct ids, one document has an id. -/
theorem perm_cons_dropDocument (hnodup : (docs.map Document.docId).Nodup) (hdoc : doc ∈ docs) :
    docs.Perm (doc :: dropDocument docs doc.docId) := by
  induction docs with
  | nil => cases hdoc
  | cons doc' docs ih =>
    rw [List.map_cons, List.nodup_cons] at hnodup
    rw [dropDocument, List.filter_cons]
    rcases List.mem_cons.mp hdoc with rfl | hmem
    · rw [if_neg (by simp), ← dropDocument, dropDocument_of_notMem hnodup.1]
    · have hne : doc'.docId ≠ doc.docId := fun heq => hnodup.1 (heq ▸ List.mem_map_of_mem hmem)
      rw [if_pos (decide_eq_true hne)]
      exact ((ih hnodup.2 hmem).cons doc').trans (List.Perm.swap _ _ _)

/-- All postings of a document have its length. -/
theorem Of.docLenTokens_eq (h : index.Of docs) (hnodup : (docs.map Document.docId).Nodup) (hdoc : doc ∈ docs)
    {p : Posting} (hp : p ∈ index.postingsOf term) (hid : p.docId = doc.docId) : p.docLenTokens = doc.len := by
  obtain ⟨q, hq, hsame⟩ := mem_of_permUpTo (h.postings term) hp
  obtain ⟨doc', hdoc', hq⟩ := List.mem_flatMap.mp hq
  have heq : doc'.docId = doc.docId := by
    rw [← docId_of_mem_docPostings hq, ← hsame.docId, hid]
  obtain rfl : doc' = doc := List.inj_on_of_nodup_map hnodup hdoc' hdoc heq
  obtain ⟨ps, -, rfl⟩ := List.mem_map.mp hq
  exact hsame.docLenTokens

/-- **A document with a token** is removed from the index, if its totals have not overflowed. -/
theorem Of.removeDocument (h : index.Of docs) (hnodup : (docs.map Document.docId).Nodup)
    (hdocs : docs.length < 2 ^ 64) (hlen : corpusLen docs < 2 ^ 64) (hdoc : doc ∈ docs) (hne : doc.tokens ≠ []) :
    ∃ index', index.removeDocument doc.docId = some (true, index') ∧ index'.Of (dropDocument docs doc.docId) := by
  obtain ⟨term, p, hp, hid⟩ := mem_docIds.mp (h.mem_docIds_iff.mpr ⟨doc, hdoc, rfl, hne⟩)
  have hperm := perm_cons_dropDocument hnodup hdoc
  have hlength : docs.length = (dropDocument docs doc.docId).length + 1 := hperm.length_eq
  have hsum : corpusLen docs = corpusLen (dropDocument docs doc.docId) + doc.len.toNat := by
    rw [corpusLen, (hperm.map _).sum_eq, List.map_cons, List.sum_cons, add_comm]
    rfl
  have hroom : 0 < index.totalDocs ∧ p.docLenTokens.toUInt64 ≤ index.totalDocLen := by
    rw [h.totalDocs, h.totalDocLen, h.docLenTokens_eq hnodup hdoc hp hid, UInt64.lt_iff_toNat_lt,
      UInt64.le_iff_toNat_le, UInt64.toNat_ofNat_of_lt' hdocs, UInt64.toNat_ofNat_of_lt' hlen,
      UInt32.toNat_toUInt64, hsum, hlength]
    exact ⟨Nat.succ_pos _, Nat.le_add_left _ _⟩
  have hremove := removeDocument_of_mem hp fun term' q hq hidq =>
    (h.docLenTokens_eq hnodup hdoc hq (hidq.trans hid)).trans (h.docLenTokens_eq hnodup hdoc hp hid).symm
  rw [if_pos hroom, hid] at hremove
  refine ⟨_, hremove, fun term => ?_, ?_, ?_, fun d hd => h.complete d ((docIds_removeDocument hremove).mp hd).1⟩
  · rw [postingsOf_removeDocument hremove]
    exact h.without doc.docId term
  · show index.totalDocs - 1 = _
    rw [h.totalDocs, hlength, UInt64.ofNat_add]
    exact UInt64.add_sub_cancel _ _
  · show index.totalDocLen - p.docLenTokens.toUInt64 = _
    rw [h.totalDocLen, hsum, UInt64.ofNat_add, h.docLenTokens_eq hnodup hdoc hp hid, UInt64.ofNat_uInt32ToNat]
    exact UInt64.add_sub_cancel _ _

/-- **A removal** leaves the other documents, if the one that is removed has a token or is not there. -/
theorem Of.exists_removeDocument (h : index.Of docs) (hnodup : (docs.map Document.docId).Nodup)
    (hdocs : docs.length < 2 ^ 64) (hlen : corpusLen docs < 2 ^ 64)
    (hne : ∀ doc ∈ docs, doc.docId = docId → doc.tokens ≠ []) :
    ∃ found index', index.removeDocument docId = some (found, index') ∧ index'.Of (dropDocument docs docId) := by
  by_cases hmem : docId ∈ docs.map Document.docId
  · obtain ⟨doc, hdoc, rfl⟩ := List.mem_map.mp hmem
    exact ⟨true, h.removeDocument hnodup hdocs hlen hdoc (hne doc hdoc rfl)⟩
  · exact ⟨false, h.removeDocument_of_notMem hmem⟩

/-- **A document is put in the place of the old one**, if that has a token. -/
theorem Of.indexDocument (h : index.Of docs) (hnodup : (docs.map Document.docId).Nodup)
    (hdocs : docs.length < 2 ^ 64) (hlen : corpusLen docs < 2 ^ 64) (seed : Seed)
    (hne : ∀ doc' ∈ docs, doc'.docId = doc.docId → doc'.tokens ≠ []) :
    ∃ index', index.indexDocument sizing seed doc.docId doc.tokens doc.facets = some index' ∧
      index'.Of (dropDocument docs doc.docId ++ [doc]) := by
  unfold InvertedIndex.indexDocument
  by_cases hknown : index.docBloom.mightContain doc.docId = true
  · obtain ⟨found, removed, hremove, hof⟩ := h.exists_removeDocument hnodup hdocs hlen hne
    refine ⟨_, ?_, hof.addDocument sizing seed doc⟩
    rw [if_pos hknown, hremove]
    rfl
  · -- a document that the filter does not know is not there
    have hnot : doc.docId ∉ docs.map Document.docId := by
      intro hmem
      obtain ⟨doc', hdoc', heq⟩ := List.mem_map.mp hmem
      exact hknown (h.complete _ (h.mem_docIds_iff.mpr ⟨doc', hdoc', heq, hne doc' hdoc' heq⟩))
    refine ⟨_, ?_, (dropDocument_of_notMem hnot).symm ▸ h.addDocument sizing seed doc⟩
    rw [if_neg hknown]
    rfl

theorem Of.addDocuments (h : index.Of docs) (seeds : ℕ → Seed) (docs' : List Document) :
    (index.addDocuments sizing seeds docs').Of (docs ++ docs') := by
  induction docs' generalizing index docs seeds with
  | nil =>
    rw [List.append_nil]
    exact h
  | cons doc docs' ih =>
    rw [← List.singleton_append, ← List.append_assoc]
    exact ih (h.addDocument sizing (seeds 0) doc) _

/-- **A rebuild** makes the index of its documents. -/
theorem of_addDocuments (seed : Seed) (seeds : ℕ → Seed) (docs : List Document) :
    ((new sizing seed).addDocuments sizing seeds docs).Of docs := (of_new seed).addDocuments seeds docs

/-! ### Searches -/

section

variable {S : Type} [AddCommMonoid S] [LinearOrder S]

/-- A document has a posting for a term that occurs in it. -/
theorem docPostings_ne_nil_iff {len : UInt32} :
    docPostings docId tokens len facets term ≠ [] ↔ ∃ token ∈ tokens, token.term = term := by
  constructor
  · intro hne
    by_contra hnone
    refine hne ?_
    rw [docPostings, termData, HashTable.get_group, if_pos]
    · rfl
    · refine List.filter_eq_nil_iff.mpr fun p hp hterm => hnone ?_
      obtain ⟨token, htoken, rfl⟩ := List.mem_map.mp hp
      exact ⟨token, htoken, of_decide_eq_true hterm⟩
  · rintro ⟨token, htoken, rfl⟩
    obtain ⟨p, hp⟩ := exists_mem_docPostings docId len facets htoken
    exact List.ne_nil_of_mem hp

/-- The documents with postings for a term are those in which it occurs. -/
theorem Of.exists_posting_iff (h : index.Of docs) {d : Bytes} :
    (∃ p ∈ index.postingsOf term, p.docId = d) ↔
      ∃ doc ∈ docs, doc.docId = d ∧ ∃ token ∈ doc.tokens, token.term = term := by
  constructor
  · rintro ⟨p, hp, rfl⟩
    obtain ⟨q, hq, hsame⟩ := mem_of_permUpTo (h.postings term) hp
    obtain ⟨doc, hdoc, hq⟩ := List.mem_flatMap.mp hq
    exact ⟨doc, hdoc, (docId_of_mem_docPostings hq).symm.trans hsame.docId.symm,
      docPostings_ne_nil_iff.mp (List.ne_nil_of_mem hq)⟩
  · rintro ⟨doc, hdoc, rfl, hterm⟩
    have hne : docPostings doc.docId doc.tokens doc.len doc.facets term ≠ [] := docPostings_ne_nil_iff.mpr hterm
    obtain ⟨q, hq⟩ := List.exists_mem_of_ne_nil _ hne
    obtain ⟨p, hp, hsame⟩ := mem_of_permUpTo ((h.postings term).symm fun _ _ => Posting.Same.symm)
      (List.mem_flatMap.mpr ⟨doc, hdoc, hq⟩)
    exact ⟨p, hp, hsame.docId.symm.trans (docId_of_mem_docPostings hq)⟩

/-- The documents that are found when no limit cuts. -/
theorem Of.mem_docIds_ranked_iff (scoring : Scoring S) (h : index.Of docs) (queryTokens : List Token) {limit : ℕ}
    {d : Bytes} :
    d ∈ (ranked scoring index queryTokens { limit := limit }).map TextSearchResult.docId ↔
      d ∈ (matchingDocuments queryTokens docs).map Document.docId := by
  have haccepted : ∀ p : Posting, p.accepted [] = true := fun _ => rfl
  have hterms : searchTerms index queryTokens { limit := limit } = queryTokens.map Token.term := rfl
  rw [mem_docIds_ranked, hterms]
  simp only [haccepted, and_true, h.exists_posting_iff, matchingDocuments, List.mem_map, List.mem_filter,
    List.any_eq_true, decide_eq_true_iff]
  constructor
  · rintro ⟨_, ⟨query, hquery, rfl⟩, doc, hdoc, hid, token, htoken, hterm⟩
    exact ⟨doc, ⟨hdoc, token, htoken, query, hquery, hterm.symm⟩, hid⟩
  · rintro ⟨doc, ⟨hdoc, token, htoken, query, hquery, hterm⟩, hid⟩
    exact ⟨_, ⟨query, hquery, rfl⟩, doc, hdoc, hid, token, htoken, hterm.symm⟩

/-- **A search without a limit** finds the documents with a query term, each once. -/
theorem Of.docIds_searchInIndex_perm (scoring : Scoring S) (h : index.Of docs)
    (hnodup : (docs.map Document.docId).Nodup) (queryTokens : List Token) {limit : ℕ} (hlimit : docs.length ≤ limit) :
    ((searchInIndex scoring index queryTokens { limit := limit }).map TextSearchResult.docId).Perm
      ((matchingDocuments queryTokens docs).map Document.docId) := by
  have hnodup' : ((matchingDocuments queryTokens docs).map Document.docId).Nodup :=
    (List.filter_sublist.map Document.docId).nodup hnodup
  have hperm : ((ranked scoring index queryTokens { limit := limit }).map TextSearchResult.docId).Perm
      ((matchingDocuments queryTokens docs).map Document.docId) :=
    (List.perm_ext_iff_of_nodup nodup_docIds_ranked hnodup').mpr fun d => h.mem_docIds_ranked_iff scoring queryTokens
  have hlen := hperm.length_eq
  rw [List.length_map, List.length_map] at hlen
  have hcut : (ranked scoring index queryTokens { limit := limit }).length ≤ limit :=
    (hlen.trans_le (List.length_filter_le _ _)).trans hlimit
  rw [searchInIndex_eq]
  show ((List.take limit _).map _).Perm _
  rw [List.take_of_length_le hcut]
  exact hperm

end

end InvertedIndex
