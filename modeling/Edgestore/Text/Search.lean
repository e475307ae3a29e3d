import Edgestore.Lib.Ranking
import Edgestore.Text.Postings
import Edgestore.Text.Typo

/-!
# Scores and options

The documents of an index are scored for the terms of a query, and for those that are one typo away from one of
them, if that is tolerated. Documents may be left out by their facets. The code computes scores in floating point;
here they are taken in any ordered commutative monoid, and the score of a single posting is a parameter.

## Main definitions

* `FacetFilter`, `SearchOptions`, `TextSearchResult`, `TextSearchStats`
* `filterByFacets`, `expandTypoTerms`, `scoreIndexImpl`, `searchInIndex`
* `InvertedIndex.UniformFacets`: a document has the same facets in all its postings
* `InvertedIndex.satisfies`: the facets of a document satisfy some filters

## Main results

* `mem_expandTypoTerms`: the terms that are searched for with typos
* `searchInIndex_eq`: what is found, as a ranking of scores that are added up
* `searchInIndex_options`: what a limit, facet filters and typo tolerance do to the results
-/

/-- A filter by a facet. -/
structure FacetFilter where
  field : String
  value : FacetValue

/-- The options of a search. -/
structure SearchOptions where
  limit : ℕ
  facetFilters : List FacetFilter := []
  typoTolerance : Bool := false

/-- A document that was found. -/
structure TextSearchResult (S : Type) where
  docId : Bytes
  score : S

/-- What a search has looked at. -/
structure TextSearchStats where
  totalDocsIndexed : UInt64 := 0
  docsExamined : UInt64 := 0
  bytesScanned : UInt64 := 0

/-- How a posting is scored. -/
structure Scoring (S : Type) where
  /-- The quotient of two totals. -/
  quotient : UInt64 → UInt64 → S
  /-- The score of a posting, from the number of documents, that of the postings of its term, the frequency of the
  term in the document, the length of the document, and the average length. -/
  bm25Score : UInt64 → UInt64 → UInt32 → UInt32 → S → S
  /-- The weight of a typo, which is 0.5. -/
  half : S → S
  /-- The size of a posting in memory. -/
  postingSize : UInt64

/-- The facets of a posting have the value of a filter. -/
def Posting.accepted (filters : List FacetFilter) (posting : Posting) : Bool :=
  filters.all fun filter =>
    match posting.facets.get filter.field with
    | some facetValue => facetValue = filter.value
    | none => false

/-- The postings that all filters accept. -/
def filterByFacets (postings : List Posting) (filters : List FacetFilter) : List Posting :=
  if filters.isEmpty then postings else postings.filter (Posting.accepted filters)

/-- Put the terms of the index that are one typo away from a query term behind the terms that are searched for. -/
def expandTypoTerms (index : InvertedIndex) (queryTokens : List Token) (searchTerms : List String) : List String :=
  queryTokens.foldl (fun terms token =>
    (index.postings.entries.map Prod.fst).foldl (fun terms term =>
      if term ≠ token.term ∧ isOneEditAway term token.term = true ∧ term ∉ terms then terms ++ [term]
      else terms) terms) searchTerms

section

variable {S : Type} [AddCommMonoid S] [LinearOrder S] (scoring : Scoring S)

/-- The average length of a document. -/
def InvertedIndex.avgDocLen (index : InvertedIndex) : S :=
  if index.totalDocs = 0 then 0 else scoring.quotient index.totalDocLen index.totalDocs

/-- The terms of a search. -/
def searchTerms (index : InvertedIndex) (queryTokens : List Token) (options : SearchOptions) : List String :=
  let terms := queryTokens.map Token.term
  if options.typoTolerance then expandTypoTerms index queryTokens terms else terms

/-- The score of a posting of a term with some number of postings. A term that is none of the query has the weight
of a typo. -/
def postingScore (index : InvertedIndex) (queryTokens : List Token) (term : String) (docFreq : UInt64)
    (posting : Posting) : S :=
  let isFuzzy := !queryTokens.any (·.term = term)
  let score := scoring.bm25Score index.totalDocs docFreq posting.termFreq posting.docLenTokens
    (index.avgDocLen scoring)
  if isFuzzy then scoring.half score else score

/-- Score the documents of a term, and count the bytes of its postings. -/
def scoreTerm (index : InvertedIndex) (queryTokens : List Token) (options : SearchOptions)
    (acc : HashTable Bytes S × UInt64) (term : String) : HashTable Bytes S × UInt64 :=
  match index.postings.get term with
  | some postings =>
    let docFreq := UInt64.ofNat postings.length
    let filtered :=
      if !options.facetFilters.isEmpty then filterByFacets postings options.facetFilters else postings
    (filtered.foldl (fun docScores posting =>
        docScores.alter posting.docId fun old =>
          old.getD 0 + postingScore scoring index queryTokens term docFreq posting) acc.1,
      acc.2 + docFreq * scoring.postingSize)
  | none => acc

/-- Score the documents of an index for a query. The callers have checked that the query has tokens and that the
limit is positive. -/
def scoreIndexImpl (index : InvertedIndex) (queryTokens : List Token) (options : SearchOptions) :
    List (TextSearchResult S) × TextSearchStats :=
  let scored := (searchTerms index queryTokens options).foldl
    (scoreTerm scoring index queryTokens options) (.empty, 0)
  let results := scored.1.entries.map fun e => (⟨e.1, e.2⟩ : TextSearchResult S)
  ((ranking TextSearchResult.score TextSearchResult.docId results).take options.limit,
    { totalDocsIndexed := index.totalDocs
      docsExamined := UInt64.ofNat scored.1.entries.length
      bytesScanned := scored.2 })

/-- The results of a search in an index. -/
def searchInIndex (index : InvertedIndex) (queryTokens : List Token) (options : SearchOptions) :
    List (TextSearchResult S) :=
  (scoreIndexImpl scoring index queryTokens options).1

end

/-! ### The terms of a search -/

section Terms

variable {index : InvertedIndex} {queryTokens : List Token} {terms : List String}

/-- The terms that are put behind others for a token. -/
theorem mem_foldl_typo {keys : List String} {token : Token} {term : String} :
    term ∈ keys.foldl (fun terms term =>
        if term ≠ token.term ∧ isOneEditAway term token.term = true ∧ term ∉ terms then terms ++ [term]
        else terms) terms ↔
      term ∈ terms ∨ term ∈ keys ∧ term ≠ token.term ∧ isOneEditAway term token.term = true := by
  induction keys generalizing terms with
  | nil => exact (or_iff_left fun h => List.not_mem_nil h.1).symm
  | cons key keys ih =>
    rw [List.foldl_cons, ih, List.mem_cons]
    split
    case isTrue hadd =>
      rw [List.mem_append, List.mem_singleton, or_assoc]
      refine or_congr_right ?_
      constructor
      · rintro (rfl | ⟨hmem, hne⟩)
        · exact ⟨.inl rfl, hadd.1, hadd.2.1⟩
        · exact ⟨.inr hmem, hne⟩
      · rintro ⟨rfl | hmem, hne⟩
        · exact .inl rfl
        · exact .inr ⟨hmem, hne⟩
    case isFalse hskip =>
      constructor
      · exact Or.imp_right fun h => ⟨.inr h.1, h.2⟩
      · rintro (hterm | ⟨rfl | hmem, hne⟩)
        · exact .inl hterm
        · -- a term that is left out is already there
          exact .inl (by_contra fun hnot => hskip ⟨hne.1, hne.2, hnot⟩)
        · exact .inr ⟨hmem, hne⟩

theorem mem_expandTypoTerms {term : String} :
    term ∈ expandTypoTerms index queryTokens terms ↔
      term ∈ terms ∨ term ∈ index.postings.entries.map Prod.fst ∧
        ∃ token ∈ queryTokens, term ≠ token.term ∧ isOneEditAway term token.term = true := by
  unfold expandTypoTerms
  induction queryTokens generalizing terms with
  | nil => exact (or_iff_left fun h => by obtain ⟨_, _, h, _⟩ := h; cases h).symm
  | cons token tokens ih =>
    rw [List.foldl_cons, ih, mem_foldl_typo, or_assoc]
    refine or_congr_right ?_
    constructor
    · rintro (⟨hkey, h⟩ | ⟨hkey, token', htoken', h⟩)
      · exact ⟨hkey, token, List.mem_cons_self, h⟩
      · exact ⟨hkey, token', List.mem_cons_of_mem _ htoken', h⟩
    · rintro ⟨hkey, token', htoken', h⟩
      rcases List.mem_cons.mp htoken' with rfl | htoken'
      · exact .inl ⟨hkey, h⟩
      · exact .inr ⟨hkey, token', htoken', h⟩

/-- What is put behind the terms of a search are different terms, and none of them. -/
theorem exists_expandTypoTerms (index : InvertedIndex) (queryTokens : List Token) (terms : List String) :
    ∃ extra, expandTypoTerms index queryTokens terms = terms ++ extra ∧
      extra.Nodup ∧ ∀ term ∈ extra, term ∉ terms := by
  have hinner : ∀ (keys : List String) (token : Token) (extra : List String),
      extra.Nodup → (∀ term ∈ extra, term ∉ terms) → ∃ extra', extra'.Nodup ∧ (∀ term ∈ extra', term ∉ terms) ∧
        keys.foldl (fun terms term =>
          if term ≠ token.term ∧ isOneEditAway term token.term = true ∧ term ∉ terms then terms ++ [term]
          else terms) (terms ++ extra) = terms ++ extra' := by
    intro keys token
    induction keys with
    | nil => exact fun extra hnodup hnot => ⟨extra, hnodup, hnot, rfl⟩
    | cons key keys ih =>
      intro extra hnodup hnot
      rw [List.foldl_cons]
      split
      case isTrue hadd =>
        obtain ⟨hnew, hnew'⟩ := not_or.mp (mt List.mem_append.mpr hadd.2.2)
        rw [List.append_assoc]
        refine ih _ (List.nodup_append.mpr ⟨hnodup, List.nodup_singleton key, ?_⟩) fun term hterm => ?_
        · rintro a ha b hb rfl
          exact hnew' (List.mem_singleton.mp hb ▸ ha)
        · rcases List.mem_append.mp hterm with hterm | hterm
          · exact hnot term hterm
          · exact List.mem_singleton.mp hterm ▸ hnew
      case isFalse => exact ih extra hnodup hnot
  have houter : ∀ (tokens : List Token) (extra : List String), extra.Nodup → (∀ term ∈ extra, term ∉ terms) →
      ∃ extra', expandTypoTerms index tokens (terms ++ extra) = terms ++ extra' ∧ extra'.Nodup ∧
        ∀ term ∈ extra', term ∉ terms := by
    intro tokens
    induction tokens with
    | nil => exact fun extra hnodup hnot => ⟨extra, rfl, hnodup, hnot⟩
    | cons token tokens ih =>
      intro extra hnodup hnot
      obtain ⟨extra', hnodup', hnot', heq⟩ :=
        hinner (index.postings.entries.map Prod.fst) token extra hnodup hnot
      obtain ⟨extra'', heq', h⟩ := ih extra' hnodup' hnot'
      refine ⟨extra'', ?_, h⟩
      rw [← heq', expandTypoTerms, List.foldl_cons, heq]
      rfl
  have h := houter queryTokens [] List.nodup_nil fun _ => nofun
  rwa [List.append_nil] at h

theorem levenshtein_eq_one_iff {a b : String} :
    levenshtein a b = 1 ↔ a ≠ b ∧ isOneEditAway a b = true := by
  have hzero : levenshtein a b = 0 ↔ a = b := by
    rw [levenshtein_eq_distance, EditDistance.distance_eq_zero_iff, String.toList_inj]
  rw [isOneEditAway, decide_eq_true_iff, ne_eq, ← hzero]
  omega

end Terms

/-- **The terms of a search** are the same for indexes that agree, in some order. -/
theorem searchTerms_perm {index other : InvertedIndex} (h : index.Agree other) (queryTokens : List Token)
    (options : SearchOptions) :
    (searchTerms index queryTokens options).Perm (searchTerms other queryTokens options) := by
  unfold searchTerms
  cases options.typoTolerance with
  | false => exact List.Perm.refl _
  | true =>
    obtain ⟨extra, heq, hnodup, hnot⟩ := exists_expandTypoTerms index queryTokens (queryTokens.map Token.term)
    obtain ⟨extra', heq', hnodup', hnot'⟩ := exists_expandTypoTerms other queryTokens (queryTokens.map Token.term)
    have hmem : ∀ {l : List String}, (∀ term ∈ l, term ∉ queryTokens.map Token.term) → ∀ term,
        term ∈ l ↔ term ∈ queryTokens.map Token.term ++ l ∧ term ∉ queryTokens.map Token.term := by
      intro l hl term
      rw [List.mem_append]
      exact ⟨fun h => ⟨.inr h, hl term h⟩, fun h => h.1.resolve_left h.2⟩
    show (expandTypoTerms index _ _).Perm (expandTypoTerms other _ _)
    rw [heq, heq']
    refine List.Perm.append_left _ ((List.perm_ext_iff_of_nodup hnodup hnodup').mpr fun term => ?_)
    rw [hmem hnot, hmem hnot', ← heq, ← heq', mem_expandTypoTerms, mem_expandTypoTerms,
      h.mem_keys_iff]

/-! ### Scores -/

namespace InvertedIndex

/-- A document has the same facets in all its postings. -/
def UniformFacets (index : InvertedIndex) : Prop :=
  ∀ field, index.Coherent fun p => p.facets.get field

/-- Whether the facets of a document satisfy some filters. -/
def satisfies (index : InvertedIndex) (filters : List FacetFilter) (docId : Bytes) : Bool :=
  index.postings.entries.any fun e => e.2.any fun p => p.docId = docId ∧ p.accepted filters = true

theorem satisfies_iff {index : InvertedIndex} {filters : List FacetFilter} {docId : Bytes} :
    index.satisfies filters docId = true ↔
      ∃ term, ∃ p ∈ index.postingsOf term, p.docId = docId ∧ p.accepted filters = true := by
  simp only [satisfies, List.any_eq_true, decide_eq_true_iff, mem_postingsOf]
  constructor
  · rintro ⟨e, he, p, hp, h⟩
    exact ⟨e.1, p, ⟨e.2, HashTable.mem_entries_iff.mp he, hp⟩, h⟩
  · rintro ⟨term, p, ⟨ps, hps, hp⟩, h⟩
    exact ⟨(term, ps), HashTable.mem_entries_iff.mpr hps, p, hp, h⟩

/-- **A posting is accepted** if and only if its document is. -/
theorem UniformFacets.accepted_iff {index : InvertedIndex} (h : index.UniformFacets) {filters : List FacetFilter}
    {term : String} {p : Posting} (hp : p ∈ index.postingsOf term) :
    p.accepted filters = index.satisfies filters p.docId := by
  rw [Bool.eq_iff_iff, satisfies_iff]
  refine ⟨fun haccepted => ⟨term, p, hp, rfl, haccepted⟩, ?_⟩
  rintro ⟨term', q, hq, hid, haccepted⟩
  rw [← haccepted, Posting.accepted, Posting.accepted]
  simp only [h _ term term' p hp q hq hid.symm]

end InvertedIndex

section Scores

variable {S : Type}

theorem nodup_results (t : HashTable Bytes S) :
    ((t.entries.map fun e => (⟨e.1, e.2⟩ : TextSearchResult S)).map TextSearchResult.docId).Nodup := by
  rw [List.map_map]
  exact t.nodup

variable [AddCommMonoid S] (scoring : Scoring S) (index : InvertedIndex) (queryTokens : List Token)
  (options : SearchOptions)

/-- The score that each posting of a term gives to its document. -/
def termScores (term : String) : List (Bytes × S) :=
  ((index.postingsOf term).filter (Posting.accepted options.facetFilters)).map fun posting =>
    (posting.docId,
      postingScore scoring index queryTokens term (UInt64.ofNat (index.postingsOf term).length) posting)

/-- The score that each posting of a search gives to its document. -/
def postingScores : List (Bytes × S) :=
  (searchTerms index queryTokens options).flatMap (termScores scoring index queryTokens options)

theorem filter_accepted_eq (postings : List Posting) :
    (if !options.facetFilters.isEmpty then filterByFacets postings options.facetFilters else postings) =
      postings.filter (Posting.accepted options.facetFilters) := by
  unfold filterByFacets
  cases hfilters : options.facetFilters with
  | nil => exact (List.filter_eq_self.mpr fun p _ => rfl).symm
  | cons filter filters => rfl

variable {scoring index queryTokens options}

theorem scoreTerm_fst (acc : HashTable Bytes S × UInt64) (term : String) :
    (scoreTerm scoring index queryTokens options acc term).1 =
      acc.1.tally (termScores scoring index queryTokens options term) := by
  unfold scoreTerm termScores InvertedIndex.postingsOf
  cases index.postings.get term with
  | none => rfl
  | some postings =>
    dsimp only
    rw [filter_accepted_eq, Option.getD_some, HashTable.tally, List.foldl_map]

/-- The terms are scored one by one. -/
theorem foldl_scoreTerm_fst (terms : List String) (acc : HashTable Bytes S × UInt64) :
    (terms.foldl (scoreTerm scoring index queryTokens options) acc).1 =
      acc.1.tally (terms.flatMap (termScores scoring index queryTokens options)) := by
  induction terms generalizing acc with
  | nil => rfl
  | cons term terms ih =>
    rw [List.foldl_cons, ih, scoreTerm_fst, List.flatMap_cons, HashTable.tally, HashTable.tally,
      HashTable.tally, List.foldl_append]

/-- A document has a score if it has a posting for one of the terms, which all filters accept. -/
theorem mem_docs_postingScores {docId : Bytes} :
    docId ∈ (postingScores scoring index queryTokens options).map Prod.fst ↔
      ∃ term ∈ searchTerms index queryTokens options, ∃ p ∈ index.postingsOf term,
        p.docId = docId ∧ p.accepted options.facetFilters = true := by
  rw [postingScores, List.map_flatMap, List.mem_flatMap]
  refine exists_congr fun term => and_congr_right fun _ => ?_
  rw [termScores, List.map_map, List.mem_map]
  constructor
  · rintro ⟨p, hp, rfl⟩
    obtain ⟨hp, haccepted⟩ := List.mem_filter.mp hp
    exact ⟨p, hp, rfl, haccepted⟩
  · rintro ⟨p, hp, rfl, haccepted⟩
    exact ⟨p, List.mem_filter.mpr ⟨hp, haccepted⟩, rfl⟩

theorem Posting.Same.accepted_eq {p q : Posting} (h : p.Same q) (filters : List FacetFilter) :
    p.accepted filters = q.accepted filters := by
  have hget : ∀ field, p.facets.get field = q.facets.get field := fun field => by
    have hrel := h.facets.get field
    generalize p.facets.get field = a, q.facets.get field = b at hrel
    cases hrel with
    | none => rfl
    | some heq => rw [heq]
  simp only [Posting.accepted, hget]

/-- **Indexes that agree** give the same scores for a term. -/
theorem termScores_congr {other : InvertedIndex} (h : index.Agree other) (term : String) :
    termScores scoring index queryTokens options term = termScores scoring other queryTokens options term := by
  have hscore : ∀ (docFreq : UInt64) {p q : Posting}, p.Same q →
      postingScore scoring index queryTokens term docFreq p =
        postingScore scoring other queryTokens term docFreq q := by
    intro docFreq p q hpq
    unfold postingScore InvertedIndex.avgDocLen
    rw [hpq.termFreq, hpq.docLenTokens, h.totalDocs, h.totalDocLen]
  have hall := h.postingsOf term
  unfold termScores
  rw [hall.length_eq]
  generalize UInt64.ofNat (other.postingsOf term).length = docFreq
  generalize index.postingsOf term = ps, other.postingsOf term = qs at hall
  induction hall with
  | nil => rfl
  | @cons p q ps qs hpq _ ih =>
    rw [List.filter_cons, List.filter_cons, hpq.accepted_eq]
    split
    · rw [List.map_cons, List.map_cons, ih, hpq.docId, hscore docFreq hpq]
    · exact ih

theorem postingScores_perm {other : InvertedIndex} (h : index.Agree other) :
    (postingScores scoring index queryTokens options).Perm (postingScores scoring other queryTokens options) := by
  unfold postingScores
  have hterms : termScores scoring index queryTokens options = termScores scoring other queryTokens options :=
    funext (termScores_congr h)
  rw [hterms]
  exact (searchTerms_perm h queryTokens options).flatMap_right _

/-- The postings that are accepted are those of the documents that satisfy the filters. -/
theorem postingScores_filters (h : index.UniformFacets) :
    postingScores scoring index queryTokens options =
      (postingScores scoring index queryTokens { options with facetFilters := [] }).filter
        fun p => index.satisfies options.facetFilters p.1 := by
  have hterms : searchTerms index queryTokens { options with facetFilters := [] } =
      searchTerms index queryTokens options := rfl
  rw [postingScores, postingScores, hterms, List.filter_flatMap]
  refine List.flatMap_congr fun term _ => ?_
  have hall : (index.postingsOf term).filter (Posting.accepted []) = index.postingsOf term :=
    List.filter_eq_self.mpr fun p _ => rfl
  rw [termScores, termScores, hall, List.filter_map]
  refine congrArg _ (List.filter_congr fun p hp => ?_)
  exact h.accepted_iff hp

end Scores

/-! ### Results -/

section Results

variable {S : Type} [AddCommMonoid S] [LinearOrder S] (scoring : Scoring S) (index : InvertedIndex)
  (queryTokens : List Token) (options : SearchOptions)

/-- The documents of a search with their scores, before they are cut at a limit. -/
def ranked : List (TextSearchResult S) :=
  ranking TextSearchResult.score TextSearchResult.docId
    ((HashTable.empty.tally (postingScores scoring index queryTokens options)).entries.map fun e =>
      ⟨e.1, e.2⟩)

variable {scoring index queryTokens options}

/-- **What is found** is what the scores are, which are added up, ranked and cut at the limit. -/
theorem searchInIndex_eq :
    searchInIndex scoring index queryTokens options =
      (ranked scoring index queryTokens options).take options.limit := by
  unfold searchInIndex scoreIndexImpl
  dsimp only
  rw [foldl_scoreTerm_fst]
  rfl

theorem docIds_ranked_perm :
    ((ranked scoring index queryTokens options).map TextSearchResult.docId).Perm
      ((HashTable.empty.tally (postingScores scoring index queryTokens options)).entries.map Prod.fst) := by
  refine ((ranking_perm _).map _).trans (List.Perm.of_eq ?_)
  rw [List.map_map]
  rfl

theorem nodup_docIds_ranked :
    ((ranked scoring index queryTokens options).map TextSearchResult.docId).Nodup :=
  docIds_ranked_perm.nodup_iff.mpr (HashTable.nodup _)

/-- **Which documents are found** when no limit cuts. -/
theorem mem_docIds_ranked {docId : Bytes} :
    docId ∈ (ranked scoring index queryTokens options).map TextSearchResult.docId ↔
      ∃ term ∈ searchTerms index queryTokens options, ∃ p ∈ index.postingsOf term,
        p.docId = docId ∧ p.accepted options.facetFilters = true := by
  rw [docIds_ranked_perm.mem_iff, HashTable.mem_keys_tally, mem_docs_postingScores]

/-- No more documents are found than there are. -/
theorem length_ranked_le : (ranked scoring index queryTokens options).length ≤ index.docIds.length := by
  have hsub : (ranked scoring index queryTokens options).map TextSearchResult.docId ⊆ index.docIds := by
    intro docId hdoc
    obtain ⟨term, -, p, hp, hid, -⟩ := mem_docIds_ranked.mp hdoc
    exact InvertedIndex.mem_docIds.mpr ⟨term, p, hp, hid⟩
  have hle := (List.subperm_of_subset nodup_docIds_ranked hsub).length_le
  rwa [List.length_map] at hle

theorem searchInIndex_of_le (options : SearchOptions) {m : ℕ} (hm : index.docIds.length ≤ m) :
    searchInIndex scoring index queryTokens { options with limit := m } =
      ranked scoring index queryTokens options := by
  rw [searchInIndex_eq]
  exact List.take_of_length_le (length_ranked_le.trans hm)

/-- **The order of the tables** does not matter. -/
theorem ranked_congr {other : InvertedIndex} (h : index.Agree other) :
    ranked scoring index queryTokens options = ranked scoring other queryTokens options :=
  ranking_eq_of_perm (nodup_results _) ((HashTable.tally_perm (postingScores_perm h)).map _)

/-- **Facet filters** keep the documents that satisfy them, with their scores. -/
theorem ranked_filters (h : index.UniformFacets) :
    ranked scoring index queryTokens options =
      (ranked scoring index queryTokens { options with facetFilters := [] }).filter
        fun r => index.satisfies options.facetFilters r.docId := by
  rw [ranked, ranked, filter_ranking (nodup_results _), List.filter_map, postingScores_filters h]
  refine ranking_eq_of_perm (nodup_results _) (List.Perm.map _ ?_)
  exact HashTable.tally_filter_perm _ (index.satisfies options.facetFilters)

/-- **Typo tolerance** adds the documents with a term at distance one from a query term. -/
theorem mem_docIds_typo {docId : Bytes} :
    docId ∈ (ranked scoring index queryTokens { options with typoTolerance := true }).map
        TextSearchResult.docId ↔
      docId ∈ (ranked scoring index queryTokens { options with typoTolerance := false }).map
          TextSearchResult.docId ∨
        ∃ token ∈ queryTokens, ∃ term, levenshtein term token.term = 1 ∧
          ∃ p ∈ index.postingsOf term, p.docId = docId ∧ p.accepted options.facetFilters = true := by
  rw [mem_docIds_ranked, mem_docIds_ranked]
  have hterms : ∀ term, term ∈ searchTerms index queryTokens { options with typoTolerance := true } ↔
      term ∈ searchTerms index queryTokens { options with typoTolerance := false } ∨
        term ∈ index.postings.entries.map Prod.fst ∧
          ∃ token ∈ queryTokens, term ≠ token.term ∧ isOneEditAway term token.term = true :=
    fun term => mem_expandTypoTerms
  simp only [hterms, ← levenshtein_eq_one_iff]
  constructor
  · rintro ⟨term, hterm | ⟨-, token, htoken, hone⟩, hp⟩
    · exact .inl ⟨term, hterm, hp⟩
    · exact .inr ⟨token, htoken, term, hone, hp⟩
  · rintro (⟨term, hterm, hp⟩ | ⟨token, htoken, term, hone, p, hp, hdoc⟩)
    · exact ⟨term, .inl hterm, hp⟩
    · -- a term with a posting is one of the index
      obtain ⟨ps, hps, -⟩ := InvertedIndex.mem_postingsOf.mp hp
      have hkey : term ∈ index.postings.entries.map Prod.fst :=
        List.mem_map_of_mem (f := Prod.fst) (HashTable.mem_entries_iff.mpr hps)
      exact ⟨term, .inr ⟨hkey, token, htoken, hone⟩, p, hp, hdoc⟩

/-- **Options restrict, extend or cut.** A limit cuts the results of any larger one, in whatever order the tables
are; the results are in strict order, and no document is there twice. With facet filters, the results are those
without, as many as the limit allows, of the documents that satisfy them. With typo tolerance, the documents with a
term at distance one from a query term are added. -/
theorem searchInIndex_options (scoring : Scoring S) {index : InvertedIndex} (h : index.UniformFacets)
    (queryTokens : List Token) (options : SearchOptions) :
    (∀ other, index.Agree other → ∀ n m, n ≤ m →
      searchInIndex scoring other queryTokens { options with limit := n } =
        (searchInIndex scoring index queryTokens { options with limit := m }).take n) ∧
    (searchInIndex scoring index queryTokens options).Pairwise
      (Outranks TextSearchResult.score TextSearchResult.docId) ∧
    ((searchInIndex scoring index queryTokens options).map TextSearchResult.docId).Nodup ∧
    (∀ m, index.docIds.length ≤ m → searchInIndex scoring index queryTokens options =
      ((searchInIndex scoring index queryTokens { options with limit := m, facetFilters := [] }).filter
        fun r => index.satisfies options.facetFilters r.docId).take options.limit) ∧
    ∀ m, index.docIds.length ≤ m → ∀ docId,
      docId ∈ (searchInIndex scoring index queryTokens
          { options with limit := m, typoTolerance := true }).map TextSearchResult.docId ↔
        docId ∈ (searchInIndex scoring index queryTokens
            { options with limit := m, typoTolerance := false }).map TextSearchResult.docId ∨
          ∃ token ∈ queryTokens, ∃ term, levenshtein term token.term = 1 ∧
            ∃ p ∈ index.postingsOf term, p.docId = docId ∧ p.accepted options.facetFilters = true := by
  refine ⟨fun other hagree n m hnm => ?_, ?_, ?_, fun m hm => ?_, fun m hm docId => ?_⟩
  · rw [searchInIndex_eq, searchInIndex_eq]
    show List.take n (ranked scoring other queryTokens options) =
      List.take n (List.take m (ranked scoring index queryTokens options))
    rw [List.take_take, min_eq_left hnm, ranked_congr hagree]
  · rw [searchInIndex_eq]
    exact (ranking_pairwise (nodup_results _)).sublist (List.take_sublist _ _)
  · rw [searchInIndex_eq, List.map_take]
    exact nodup_docIds_ranked.sublist (List.take_sublist _ _)
  · rw [searchInIndex_of_le { options with facetFilters := [] } hm, searchInIndex_eq,
      ranked_filters h]
  · rw [searchInIndex_of_le { options with typoTolerance := true } hm,
      searchInIndex_of_le { options with typoTolerance := false } hm, mem_docIds_typo]

/-- The sum of the frequencies of the terms, in which a typo counts half. -/
def frequencyScoring : Scoring ℕ where
  quotient := fun a b => a.toNat / b.toNat
  bm25Score := fun _ _ termFreq _ _ => termFreq.toNat
  half := (· / 2)
  postingSize := 104

/-- A document with one token, and a year as its facet. -/
def InvertedIndex.addYear (index : InvertedIndex) (docId : Bytes) (term : String) (year : Int64) : InvertedIndex :=
  index.addDocument ⟨id, fun _ _ => 1⟩ (fun _ => 0) docId [⟨term, 0⟩] 1 (HashTable.empty.insert "year" (.number year))

theorem InvertedIndex.UniformFacets.addYear {index : InvertedIndex} (h : index.UniformFacets) (docId : Bytes)
    (term : String) (year : Int64) (hdoc : docId ∉ index.docIds) : (index.addYear docId term year).UniformFacets :=
  fun field => (h field).addDocument hdoc fun _ _ => rfl

/-- The index of three documents, two with the token `alpha` and one with `alpho`. -/
def alphaAlpho : InvertedIndex :=
  (((InvertedIndex.new ⟨id, fun _ _ => 1⟩ fun _ => 0).addYear [1] "alpha" 1999).addYear [2] "alpho" 2001).addYear
    [3] "alpha" 2001

theorem uniformFacets_alphaAlpho : alphaAlpho.UniformFacets := by
  have hnew : (InvertedIndex.new ⟨id, fun _ _ => 1⟩ fun _ => 0).UniformFacets := fun _ => InvertedIndex.coherent_new
  have hone := hnew.addYear [1] "alpha" 1999 (by decide)
  have htwo := hone.addYear [2] "alpho" 2001 (by decide)
  exact htwo.addYear [3] "alpha" 2001 (by decide)

/-- Of the documents of 2001, the one with a typo is found besides the other one if typos are tolerated; the document
of 1999 is left out by the filter, and a limit of one leaves the first of the two. -/
theorem searchInIndex_options_alphaAlpho :
    let filters : List FacetFilter := [⟨"year", .number 2001⟩]
    let found := searchInIndex frequencyScoring alphaAlpho [⟨"alpha", 0⟩]
    found ⟨1, filters, true⟩ = (found ⟨3, filters, true⟩).take 1 ∧
      found ⟨3, filters, true⟩ =
        ((found ⟨3, [], true⟩).filter fun r => alphaAlpho.satisfies filters r.docId).take 3 ∧
      alphaAlpho.docIds.map (alphaAlpho.satisfies filters) = [false, true, true] ∧
      (found ⟨3, filters, false⟩).map TextSearchResult.docId = [[3]] ∧
      [2] ∈ (found ⟨3, filters, true⟩).map TextSearchResult.docId := by
  intro filters found
  obtain ⟨hlimit, -, -, hfilters, htypo⟩ :=
    searchInIndex_options frequencyScoring uniformFacets_alphaAlpho [⟨"alpha", 0⟩] ⟨3, filters, true⟩
  have hagree : alphaAlpho.Agree alphaAlpho := .of_eq rfl rfl fun _ => rfl
  have hdocs : alphaAlpho.docIds.length ≤ 3 := by decide
  refine ⟨hlimit alphaAlpho hagree 1 3 (by decide), hfilters 3 hdocs, by decide +kernel, by decide +kernel, ?_⟩
  apply (htypo 3 hdocs [2]).mpr
  -- the term of the second document is at distance one from the query term
  refine .inr ⟨⟨"alpha", 0⟩, List.mem_cons_self, "alpho", by decide +kernel, ?_⟩
  exact ⟨_, List.mem_cons_self, rfl, by decide +kernel⟩

end Results
