import Edgestore.Text.TextIndex

/-!
# Documents that are read back

The record of a document that was indexed should decode to what was indexed, so that a rebuild finds the same
tokens and facets. The lengths in a record are cut to the width of their fields, and nothing checks them. A rebuild
also passes over the key of the sidecar, under which a document can be put as well.

## Main definitions

* `StoredAsIndexed`: bytes from which a rebuild indexes a document as it was indexed
* `plainStore`: a store that keeps pairs in memory

## Main results

* `TextIndex.storedAsIndexed_iff`: which documents are read back
-/

/-- The bytes decode to the text and the facets, and a rebuild indexes the document with its tokens and facets. -/
def StoredAsIndexed (tools : TextTools) (lang : TextLanguage) (key : Bytes) (text : String) (facets : Facets)
    (bytes : Bytes) : Prop :=
  (∃ record, decodeTextRecord bytes = some record ∧ record.Same ⟨text, facets⟩) ∧
    ∃ doc, storedDocument tools lang (key, bytes) = some doc ∧ doc.docId = key ∧
      doc.tokens = tokenize tools lang text ∧ doc.facets.Same Eq facets

theorem TextRecord.Same.symm {record record' : TextRecord} (h : record.Same record') : record'.Same record :=
  ⟨h.text.symm, h.facets.symm fun _ _ => Eq.symm⟩

variable {tools : TextTools} {sizing : BloomSizing} {store : TextStore} {seeds : ℕ → Seed} {seed : Seed}
  {lang : TextLanguage} {t t' : TextIndex} {s s' : store.State} {ns key : Bytes} {text : String} {facets : Facets}

/-- What is stored of a document is read back if its lengths have room and its key is not that of the sidecar. -/
theorem storedAsIndexed_encode_iff :
    StoredAsIndexed tools lang key text facets (encodeTextRecord ⟨text, facets⟩) ↔
      (⟨text, facets⟩ : TextRecord).Storable ∧ key ≠ textIndexKey := by
  constructor
  · rintro ⟨⟨record, hdecode, hsame⟩, doc, hdoc, -⟩
    refine ⟨exists_decodeTextRecord_iff.mp ⟨record, hdecode, hsame.symm⟩, fun hkey => ?_⟩
    rw [storedDocument, if_pos hkey] at hdoc
    cases hdoc
  · rintro ⟨hstorable, hkey⟩
    have hdecode := decodeTextRecord_encodeTextRecord hstorable
    have hfacets : facets.Same Eq facets := .of_eq (fun _ => rfl) rfl
    refine ⟨⟨_, hdecode, rfl, hfacets⟩, ⟨key, tokenize tools lang text, facets⟩, ?_, rfl, rfl, hfacets⟩
    rw [storedDocument, if_neg hkey, hdecode]
    rfl

/-- **Which documents are read back.** The bytes that a successful call has put are read back as what was indexed
if and only if the lengths of the record have room in their fields, and the key is not that of the sidecar. -/
theorem TextIndex.storedAsIndexed_iff {lsn : Lsn}
    (h : t.indexDocument tools sizing store seeds seed ns key text facets s = some (.ok lsn, t', s')) :
    store.put (textNamespace ns) key (encodeTextRecord ⟨text, facets⟩) s = (.ok lsn, s') ∧
      (StoredAsIndexed tools t.language key text facets (encodeTextRecord ⟨text, facets⟩) ↔
        (⟨text, facets⟩ : TextRecord).Storable ∧ key ≠ textIndexKey) := by
  refine ⟨?_, storedAsIndexed_encode_iff⟩
  rcases indexDocument_cases h with ⟨err, -, hr, -⟩ | ⟨-, -, -, -, -, -, hput⟩
  · cases hr
  · exact hput

/-! ### A store of pairs -/

/-- A store that keeps the pairs of namespaces and keys with their values, and never fails. -/
def plainStore : TextStore where
  State := HashTable (Bytes × Bytes) Bytes
  put ns key val s := (.ok s.entries.length, s.insert (ns, key) val)
  delete ns key s := (.ok s.entries.length, s.erase (ns, key))
  get s ns key := .ok (s.get (ns, key))
  scan s ns := .ok ((s.entries.filter fun e => e.1.1 = ns).map fun e => (e.1.2, e.2))

/-- Words are runs of letters and digits, and are their own stems. Some words are stopwords of English. -/
def plainTools : TextTools where
  isAlphanumeric := Char.isAlphanum
  toLowercase := String.toLower
  stopwords := fun lang word => lang = .english ∧
    word ∈ ["a", "an", "and", "are", "as", "at", "be", "by", "for", "in", "is", "it", "of", "on", "or", "the", "to"]
  stem := fun _ word => word

/-- Filters of one word, with one position for each item. -/
def smallSizing : BloomSizing := ⟨fun _ => 0, fun _ _ => 1⟩

/-- What is left when a document is put into the plain store, under the key `1` of the namespace `1`. -/
theorem indexDocument_plainStore (text : String) (facets : Facets) : ∃ t',
    (TextIndex.withLanguage .english).indexDocument plainTools smallSizing plainStore (fun _ _ => 0) (fun _ => 0)
        [1] [1] text facets .empty =
      some (.ok 0, t', HashTable.empty.insert (textNamespace [1], [1]) (encodeTextRecord ⟨text, facets⟩)) :=
  ⟨_, rfl⟩

/-- A facet of each type. -/
def mixedFacets : Facets :=
  ((HashTable.empty.insert "unit" (.string "mm")).insert "year" (.number 1999)).insert "open" (.bool true)

theorem storable_mixedFacets {text : String} (htext : (utf8Bytes text).length < 256 ^ 4) :
    (⟨text, mixedFacets⟩ : TextRecord).Storable where
  text := htext
  length_facets := by
    show mixedFacets.entries.length < _
    decide
  facets := by
    intro e he
    rcases HashTable.mem_alter he with he | rfl
    · rcases HashTable.mem_alter he with he | rfl
      · rcases HashTable.mem_alter he with he | rfl
        · cases he
        · have hunit : (utf8Bytes "mm").length < 256 ^ 2 := by decide
          exact ⟨by decide, hunit⟩
      · exact ⟨by decide, trivial⟩
    · exact ⟨by decide, trivial⟩

/-- A document with facets of all types is read back: the stopwords of its text are no tokens. -/
theorem storedAsIndexed_iff_plain :
    StoredAsIndexed plainTools .english [1] "The zeta of a theta" mixedFacets
        (encodeTextRecord ⟨"The zeta of a theta", mixedFacets⟩) ∧
      tokenize plainTools .english "The zeta of a theta" = [⟨"zeta", 4⟩, ⟨"theta", 14⟩] := by
  obtain ⟨t', h⟩ := indexDocument_plainStore "The zeta of a theta" mixedFacets
  refine ⟨(TextIndex.storedAsIndexed_iff h).2.mpr ⟨storable_mixedFacets (by decide +kernel), by decide⟩, ?_⟩
  decide +kernel

/-- **A facet of 65536 bytes** is stored, and is not read back. -/
theorem storedAsIndexed_fails :
    ∃ facets t' s',
      (TextIndex.withLanguage .english).indexDocument plainTools smallSizing plainStore (fun _ _ => 0) (fun _ => 0)
        [1] [1] "" facets .empty = some (.ok 0, t', s') ∧
      plainStore.get s' (textNamespace [1]) [1] = .ok (some (encodeTextRecord ⟨"", facets⟩)) ∧
      ¬ StoredAsIndexed plainTools .english [1] "" facets (encodeTextRecord ⟨"", facets⟩) := by
  set facets : Facets :=
    HashTable.empty.insert "k" (.string (String.ofList (List.replicate 65536 'a'))) with hfacets
  obtain ⟨t', h⟩ := indexDocument_plainStore "" facets
  refine ⟨facets, t', _, h, rfl, fun hstored => ?_⟩
  have hmem : ("k", FacetValue.string (String.ofList (List.replicate 65536 'a'))) ∈ facets.entries :=
    List.mem_cons_self
  have hroom := ((storedAsIndexed_encode_iff.mp hstored).1.facets _ hmem).2
  rw [FacetValue.Storable, length_utf8Bytes_ofList, utf8Len, List.map_replicate, List.sum_replicate] at hroom
  exact absurd hroom (by decide)
