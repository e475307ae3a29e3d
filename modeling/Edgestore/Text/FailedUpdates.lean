import Edgestore.ReadOnly
import Edgestore.Text.StoredDocuments

/-!
# Updates that fail

When a call on a store fails, the text index has already been changed in memory. A failed update behaves as if it had
not been made when a later search finds the same postings and totals, a later rebuild makes the same indexes, and no
namespace that was ahead of its sidecar has been forgotten.

## Main definitions

* `InvertedIndex.Alike`: the same postings, in any order, and the same totals
* `TextCall`, `TextIndex.perform`: an update
* `AsIfNotMade`: what a failed update should leave
* `InvertedIndex.HasDocument`: an index that already has the postings of a document
* `TextCall.Harmless`: the updates whose failure changes nothing

## Main results

* `InvertedIndex.alike_indexDocument_iff`, `InvertedIndex.alike_removeDocument_iff`: which changes change nothing
* `TextIndex.asIfNotMade_iff_harmless`: a failed update behaves as if it had not been made if and only if it is
  harmless
-/

/-! ### Indexes that are alike -/

namespace InvertedIndex

variable {sizing : BloomSizing} {seed : Seed} {index index' other : InvertedIndex} {docId : Bytes}
  {tokens : List Token} {facets : Facets} {found : Bool}

/-- The same postings for each term, in any order and up to the order of facets, and the same totals. -/
structure Alike (index other : InvertedIndex) : Prop where
  totalDocs : index.totalDocs = other.totalDocs
  totalDocLen : index.totalDocLen = other.totalDocLen
  postings : ∀ term, PermUpTo Posting.Same (index.postingsOf term) (other.postingsOf term)

theorem Agree.alike (h : index.Agree other) : index.Alike other :=
  ⟨h.totalDocs, h.totalDocLen, fun term => .of_forall₂ (h.postingsOf term)⟩

theorem Alike.refl (index : InvertedIndex) : index.Alike index :=
  ⟨rfl, rfl, fun _ => .of_forall₂ (forall₂_same_refl _)⟩

theorem Alike.symm (h : index.Alike other) : other.Alike index :=
  ⟨h.totalDocs.symm, h.totalDocLen.symm, fun term => (h.postings term).symm fun _ _ => Posting.Same.symm⟩

theorem Alike.trans (h : index.Alike other) (h' : other.Alike index') : index.Alike index' :=
  ⟨h.totalDocs.trans h'.totalDocs, h.totalDocLen.trans h'.totalDocLen,
    fun term => (h.postings term).trans (fun _ _ _ h h' => h.trans h') (h'.postings term)⟩

/-- The index has the postings of a document, and no others under its id, and the filter knows it. -/
structure HasDocument (index : InvertedIndex) (docId : Bytes) (tokens : List Token) (facets : Facets) : Prop where
  known : index.docBloom.mightContain docId = true
  tokens_ne : tokens ≠ []
  postings : ∀ term, PermUpTo Posting.Same ((index.postingsOf term).filter (·.docId = docId))
    (docPostings docId tokens (UInt32.ofNat tokens.length) facets term)

theorem exists_mem_docPostings (docId : Bytes) (docLenTokens : UInt32) (facets : Facets) {token : Token}
    (h : token ∈ tokens) : ∃ p, p ∈ docPostings docId tokens docLenTokens facets token.term := by
  have hkey : (termData tokens).get token.term ≠ none := by
    rw [termData, HashTable.get_group, if_neg]
    · exact Option.some_ne_none _
    · refine List.ne_nil_of_mem (List.mem_filter.mpr ⟨List.mem_map_of_mem h, ?_⟩)
      exact decide_eq_true rfl
  obtain ⟨ps, hps⟩ := Option.ne_none_iff_exists'.mp hkey
  unfold docPostings
  rw [hps]
  exact ⟨_, List.mem_singleton_self _⟩

theorem mem_of_permUpTo {ps qs : List Posting} (h : PermUpTo Posting.Same ps qs) {p : Posting} (hp : p ∈ ps) :
    ∃ q ∈ qs, p.Same q := by
  obtain ⟨rs, hperm, hall⟩ := h
  obtain ⟨i, hi, rfl⟩ := List.getElem_of_mem (hperm.mem_iff.mp hp)
  have hi' : i < qs.length := hall.length_eq ▸ hi
  exact ⟨_, List.getElem_mem hi', hall.get hi hi'⟩

/-- The postings of a document, after it has been put in the place of the old one. -/
theorem filter_postingsOf_addDocument {removed : InvertedIndex}
    (hremove : index.removeDocument docId = some (found, removed)) (term : String) :
    ((removed.addDocument sizing seed docId tokens (UInt32.ofNat tokens.length) facets).postingsOf term).filter
        (·.docId = docId) = docPostings docId tokens (UInt32.ofNat tokens.length) facets term := by
  have hold : ((index.postingsOf term).filter (·.docId ≠ docId)).filter (·.docId = docId) = [] :=
    List.filter_eq_nil_iff.mpr fun p hp => by simpa using (List.mem_filter.mp hp).2
  have hnew : (docPostings docId tokens (UInt32.ofNat tokens.length) facets term).filter (·.docId = docId) =
      docPostings docId tokens (UInt32.ofNat tokens.length) facets term :=
    List.filter_eq_self.mpr fun p hp => decide_eq_true (docId_of_mem_docPostings hp)
  rw [postingsOf_addDocument, postingsOf_removeDocument hremove, List.filter_append, hold, hnew,
    List.nil_append]

/-- An index with a document more is another one. -/
theorem totalDocs_addDocument_ne :
    (index.addDocument sizing seed docId tokens (UInt32.ofNat tokens.length) facets).totalDocs ≠
      index.totalDocs := by
  rw [totalDocs_addDocument]
  intro h
  have hnat := congrArg UInt64.toNat h
  rw [UInt64.toNat_add] at hnat
  have hlt := index.totalDocs.toNat_lt
  have hone : (1 : UInt64).toNat = 1 := rfl
  omega

/-- **A document that is indexed** leaves the index as it was if and only if it was there. -/
theorem alike_indexDocument_iff (h : index.indexDocument sizing seed docId tokens facets = some index') :
    index'.Alike index ↔ index.HasDocument docId tokens facets := by
  unfold indexDocument at h
  obtain ⟨removed, hremoved, rfl⟩ := Option.map_eq_some_iff.mp h
  constructor
  · intro halike
    -- otherwise there is one document more
    have hknown : index.docBloom.mightContain docId = true := by
      by_contra hnot
      rw [if_neg hnot] at hremoved
      cases hremoved
      exact totalDocs_addDocument_ne halike.totalDocs
    rw [if_pos hknown] at hremoved
    obtain ⟨⟨found, removed'⟩, hremove, heq⟩ := Option.map_eq_some_iff.mp hremoved
    obtain rfl : removed' = removed := heq
    have hmem : docId ∈ index.docIds := by
      by_contra hnot
      have hremove' := hremove
      rw [removeDocument_of_notMem hnot] at hremove'
      cases hremove'
      exact totalDocs_addDocument_ne halike.totalDocs
    have hpostings : ∀ term, PermUpTo Posting.Same ((index.postingsOf term).filter (·.docId = docId))
        (docPostings docId tokens (UInt32.ofNat tokens.length) facets term) := by
      intro term
      have hfilter := (halike.symm.postings term).filter (p := (·.docId = docId)) fun p q hpq => by rw [hpq.docId]
      rwa [filter_postingsOf_addDocument hremove] at hfilter
    refine ⟨hknown, ?_, hpostings⟩
    rintro rfl
    obtain ⟨term, p, hp, hid⟩ := mem_docIds.mp hmem
    obtain ⟨q, hq, -⟩ := mem_of_permUpTo (hpostings term) (List.mem_filter.mpr ⟨hp, decide_eq_true hid⟩)
    cases hq
  · rintro ⟨hknown, hne, hpostings⟩
    rw [if_pos hknown] at hremoved
    obtain ⟨⟨found, removed'⟩, hremove, heq⟩ := Option.map_eq_some_iff.mp hremoved
    obtain rfl : removed' = removed := heq
    -- all postings of the document have the new length
    have hlen : ∀ term, ∀ q ∈ index.postingsOf term, q.docId = docId →
        q.docLenTokens = UInt32.ofNat tokens.length := by
      intro term q hq hid
      obtain ⟨r, hr, hsame⟩ :=
        mem_of_permUpTo (hpostings term) (List.mem_filter.mpr ⟨hq, decide_eq_true hid⟩)
      obtain ⟨ps, -, rfl⟩ := List.mem_map.mp hr
      exact hsame.docLenTokens
    obtain ⟨token, htoken⟩ := List.exists_mem_of_ne_nil _ hne
    obtain ⟨q, hq⟩ := exists_mem_docPostings docId (UInt32.ofNat tokens.length) facets htoken
    obtain ⟨p, hmem, -⟩ := mem_of_permUpTo ((hpostings token.term).symm fun _ _ => Posting.Same.symm) hq
    have hp := List.mem_of_mem_filter hmem
    obtain rfl : p.docId = docId := of_decide_eq_true (List.mem_filter.mp hmem).2
    have hremove' := hremove
    rw [removeDocument_of_mem hp fun term' r hr hid => (hlen term' r hr hid).trans (hlen _ p hp rfl).symm,
      hlen _ p hp rfl] at hremove'
    split at hremove'
    case isFalse => cases hremove'
    case isTrue hroom =>
      cases hremove'
      refine ⟨?_, ?_, fun term => ?_⟩
      · rw [totalDocs_addDocument]
        exact UInt64.sub_add_cancel _ _
      · rw [totalDocLen_addDocument]
        exact UInt64.sub_add_cancel _ _
      · -- the postings of the document, put behind the others
        rw [postingsOf_addDocument, postingsOf_removeDocument hremove]
        have hothers : PermUpTo Posting.Same ((index.postingsOf term).filter (·.docId ≠ p.docId)) _ :=
          .of_forall₂ (forall₂_same_refl _)
        have hback := hothers.append ((hpostings term).symm fun _ _ => Posting.Same.symm)
        refine hback.trans (fun _ _ _ h h' => h.trans h') (.of_perm Posting.Same.refl ?_)
        have hsplit := List.filter_append_perm (fun q : Posting => decide (q.docId = p.docId)) (index.postingsOf term)
        simp only [← decide_not] at hsplit
        exact List.perm_append_comm.trans hsplit

/-- **A document that is removed** leaves the index as it was if and only if it was not there. -/
theorem alike_removeDocument_iff (h : index.removeDocument docId = some (found, index')) :
    index'.Alike index ↔ docId ∉ index.docIds := by
  constructor
  · intro halike hmem
    obtain ⟨term, p, hp, hid⟩ := mem_docIds.mp hmem
    have hpostings := (halike.symm.postings term)
    rw [postingsOf_removeDocument h] at hpostings
    obtain ⟨q, hq, hsame⟩ := mem_of_permUpTo hpostings hp
    exact of_decide_eq_true (List.mem_filter.mp hq).2 (hsame.docId.symm.trans hid)
  · intro hnot
    have h' := h
    rw [removeDocument_of_notMem hnot] at h'
    cases h'
    refine ⟨rfl, rfl, fun term => ?_⟩
    rw [postingsOf_removeDocument h]
    refine .of_perm Posting.Same.refl (List.Perm.of_eq (List.filter_eq_self.mpr fun p hp => ?_))
    exact decide_eq_true fun hid => hnot (mem_docIds.mpr ⟨term, p, hp, hid⟩)

/-- A document is the last one if the total counts it alone, or counts none, and it is not there. -/
theorem totalDocs_removeDocument_eq_zero_iff (h : index.removeDocument docId = some (found, index')) :
    index'.totalDocs = 0 ↔ index.totalDocs = if docId ∈ index.docIds then 1 else 0 := by
  split
  case isTrue hmem =>
    obtain ⟨hpos, htotal⟩ := totalDocs_removeDocument h hmem
    rw [htotal, UInt64.sub_eq_iff_eq_add, UInt64.zero_add]
  case isFalse hnot =>
    rw [removeDocument_of_notMem hnot] at h
    cases h
    exact Iff.rfl

end InvertedIndex

/-! ### Updates -/

/-- The same outcome of loading an index: the same error, or indexes that are alike. -/
def SameLoad : Except EdgestoreError InvertedIndex → Except EdgestoreError InvertedIndex → Prop
  | .ok index, .ok other => index.Alike other
  | .error err, .error err' => err = err'
  | _, _ => False

theorem SameLoad.refl : ∀ r, SameLoad r r
  | .ok index => InvertedIndex.Alike.refl index
  | .error _ => rfl

theorem SameLoad.symm : ∀ {r r' : Except EdgestoreError InvertedIndex}, SameLoad r r' → SameLoad r' r
  | .ok _, .ok _, h => InvertedIndex.Alike.symm h
  | .error _, .error _, h => Eq.symm h
  | .ok _, .error _, h => h.elim
  | .error _, .ok _, h => h.elim

theorem SameLoad.trans : ∀ {r r' r'' : Except EdgestoreError InvertedIndex},
    SameLoad r r' → SameLoad r' r'' → SameLoad r r''
  | .ok _, .ok _, .ok _, h, h' => InvertedIndex.Alike.trans h h'
  | .error _, .error _, .error _, h, h' => Eq.trans h h'
  | .ok _, .error _, _, h, _ => h.elim
  | .error _, .ok _, _, h, _ => h.elim
  | .ok _, .ok _, .error _, _, h => h.elim
  | .error _, .error _, .ok _, _, h => h.elim

/-- An update. -/
inductive TextCall
  | indexDocument (seed : Seed) (ns key : Bytes) (text : String) (facets : Facets)
  | deleteDocument (ns key : Bytes)
  | persist

section

variable (tools : TextTools) (sizing : BloomSizing) (store : TextStore)

/-- Perform an update. -/
def TextIndex.perform (seeds : ℕ → Seed) (t : TextIndex) (s : store.State) :
    TextCall → Option (Except EdgestoreError Unit × TextIndex × store.State)
  | .indexDocument seed ns key text facets =>
    (t.indexDocument tools sizing store seeds seed ns key text facets s).map fun r => (r.1.map fun _ => (), r.2)
  | .deleteDocument ns key =>
    (t.deleteDocument tools sizing store seeds ns key s).map fun r => (r.1.map fun _ => (), r.2)
  | .persist => some (t.persist store s)

/-- The index that a search finds. -/
def TextIndex.load (seeds : ℕ → Seed) (t : TextIndex) (s : store.State) (textNs : Bytes) :
    Except EdgestoreError InvertedIndex := (t.ensureLoaded tools sizing store seeds s textNs).map Prod.fst

/-- A rebuild of a namespace makes the same index as before. -/
def RebuildsKept (lang : TextLanguage) (s s' : store.State) : Prop :=
  ∀ (seeds : ℕ → Seed) (textNs : Bytes), SameLoad (rebuildFromEngine tools sizing store seeds lang s textNs)
    (rebuildFromEngine tools sizing store seeds lang s' textNs)

/-- A later search finds the same index, a later rebuild makes the same one, and what was ahead of its sidecar has not
been forgotten. -/
structure AsIfNotMade (t : TextIndex) (s : store.State) (t' : TextIndex) (s' : store.State) : Prop where
  loads : ∀ (seeds : ℕ → Seed) (textNs : Bytes),
    SameLoad (t.load tools sizing store seeds s textNs) (t'.load tools sizing store seeds s' textNs)
  rebuilds : RebuildsKept tools sizing store t.language s s'
  dirty : t.dirty ⊆ t'.dirty

/-- The state after the deletes of a document that was the last one. -/
def afterDeletes (textNs key : Bytes) (s : store.State) : store.State :=
  let sidecar := store.delete textNs textIndexKey s
  match sidecar.1 with
  | .error _ => sidecar.2
  | .ok _ => (store.delete textNs key sidecar.2).2

/-- An update whose failure changes nothing. It cannot load the index; or what it writes before it fails does not
change what is rebuilt, and it does not change the index: the document was there, or was not there to be deleted; or
it drops the index, which is not ahead of its sidecar, and is that of the documents. -/
def TextCall.Harmless (seeds : ℕ → Seed) (t : TextIndex) (s : store.State) : TextCall → Prop
  | .indexDocument _ ns key text facets =>
    match t.load tools sizing store seeds s (textNamespace ns) with
    | .error _ => True
    | .ok index =>
      index.HasDocument key (tokenize tools t.language text) facets ∧
        RebuildsKept tools sizing store t.language s
          (store.put (textNamespace ns) key (encodeTextRecord ⟨text, facets⟩) s).2
  | .deleteDocument ns key =>
    match t.load tools sizing store seeds s (textNamespace ns) with
    | .error _ => True
    | .ok index =>
      if index.totalDocs = if key ∈ index.docIds then 1 else 0 then
        (textNamespace ns ∉ t.dirty ∧
          SameLoad (.ok index) (rebuildFromEngine tools sizing store seeds t.language s (textNamespace ns))) ∧
          RebuildsKept tools sizing store t.language s (afterDeletes store (textNamespace ns) key s)
      else
        key ∉ index.docIds ∧
          RebuildsKept tools sizing store t.language s (store.delete (textNamespace ns) key s).2
  | .persist => RebuildsKept tools sizing store t.language s (TextIndex.putAll store t.toPersist s).2

end

/-! ### What a failed update leaves -/

section

variable {tools : TextTools} {sizing : BloomSizing} {store : TextStore} {seeds seeds' : ℕ → Seed}
  {t t' loaded : TextIndex} {s s' : store.State} {textNs : Bytes} {index : InvertedIndex} {lang : TextLanguage}

theorem InvertedIndex.agree_addDocuments_new (docs : List Document) :
    ((InvertedIndex.new sizing (seeds 0)).addDocuments sizing (fun n => seeds (n + 1)) docs).Agree
      ((InvertedIndex.new sizing (seeds' 0)).addDocuments sizing (fun n => seeds' (n + 1)) docs) := by
  have hnew : (InvertedIndex.new sizing (seeds 0)).Agree (InvertedIndex.new sizing (seeds' 0)) :=
    .of_eq rfl rfl fun _ => rfl
  exact agree_addDocuments hnew _ _

/-- The seeds of filters do not matter. -/
theorem sameLoad_rebuild (s : store.State) (textNs : Bytes) :
    SameLoad (rebuildFromEngine tools sizing store seeds lang s textNs)
      (rebuildFromEngine tools sizing store seeds' lang s textNs) := by
  unfold rebuildFromEngine
  cases store.scan s textNs with
  | error err => rfl
  | ok pairs => exact (InvertedIndex.agree_addDocuments_new _).alike

namespace TextIndex

theorem load_eq : t.load tools sizing store seeds s textNs =
    match t.indices.get textNs with
    | some index => .ok index
    | none => rebuildFromEngine tools sizing store seeds t.language s textNs := by
  unfold load ensureLoaded
  cases t.indices.get textNs with
  | some index => rfl
  | none => cases rebuildFromEngine tools sizing store seeds t.language s textNs <;> rfl

theorem sameLoad_load (t : TextIndex) (s : store.State) (textNs : Bytes) :
    SameLoad (t.load tools sizing store seeds s textNs) (t.load tools sizing store seeds' s textNs) := by
  rw [load_eq, load_eq]
  cases t.indices.get textNs with
  | some index => exact .refl _
  | none => exact sameLoad_rebuild s textNs

/-- What loading an index does. -/
theorem ensureLoaded_eq_ok (h : t.ensureLoaded tools sizing store seeds s textNs = .ok (index, loaded)) :
    t.load tools sizing store seeds s textNs = .ok index ∧ loaded.language = t.language ∧
      loaded.dirty = t.dirty ∧ ∀ ns, ns ≠ textNs → loaded.indices.get ns = t.indices.get ns := by
  refine ⟨by rw [load, h]; rfl, ?_⟩
  unfold ensureLoaded at h
  split at h
  · cases h
    exact ⟨rfl, rfl, fun _ _ => rfl⟩
  · cases hrebuild : rebuildFromEngine tools sizing store seeds t.language s textNs with
    | error err =>
      rw [hrebuild] at h
      cases h
    | ok rebuilt =>
      rw [hrebuild] at h
      cases h
      refine ⟨rfl, rfl, fun ns hns => ?_⟩
      rw [HashTable.get_insert, if_neg hns.symm]

end TextIndex

theorem AsIfNotMade.refl (t : TextIndex) (s : store.State) : AsIfNotMade tools sizing store t s t s :=
  ⟨fun _ _ => .refl _, fun _ _ => .refl _, Finset.Subset.refl _⟩

/-- **Where only one index has changed in memory**, it is enough to look at this one. -/
theorem asIfNotMade_iff (seeds : ℕ → Seed) (textNs : Bytes) (hlang : t'.language = t.language)
    (hothers : ∀ ns, ns ≠ textNs → t'.indices.get ns = t.indices.get ns) :
    AsIfNotMade tools sizing store t s t' s' ↔
      (SameLoad (t.load tools sizing store seeds s textNs) (t'.load tools sizing store seeds s' textNs) ∧
        t.dirty ⊆ t'.dirty) ∧ RebuildsKept tools sizing store t.language s s' := by
  constructor
  · exact fun h => ⟨⟨h.loads seeds textNs, h.dirty⟩, h.rebuilds⟩
  · rintro ⟨⟨hload, hdirty⟩, hrebuilds⟩
    refine ⟨fun seeds' ns => ?_, hrebuilds, hdirty⟩
    by_cases hns : ns = textNs
    · subst hns
      exact (TextIndex.sameLoad_load t s ns).trans (hload.trans (TextIndex.sameLoad_load t' s' ns))
    · rw [TextIndex.load_eq, TextIndex.load_eq, hothers ns hns, hlang]
      cases t.indices.get ns with
      | some index => exact .refl _
      | none => exact hrebuilds seeds' ns

/-- An index that was changed in memory. -/
theorem asIfNotMade_changed_iff {index' : InvertedIndex}
    (h : t.ensureLoaded tools sizing store seeds s textNs = .ok (index, loaded)) :
    AsIfNotMade tools sizing store t s (loaded.changed textNs index') s' ↔
      index'.Alike index ∧ RebuildsKept tools sizing store t.language s s' := by
  obtain ⟨hload, hlang, hdirty, hothers⟩ := TextIndex.ensureLoaded_eq_ok h
  have hget : (loaded.changed textNs index').indices.get textNs = some index' := by
    rw [TextIndex.changed, HashTable.get_insert, if_pos rfl]
  have hlang' : (loaded.changed textNs index').language = t.language := hlang
  have hall : ∀ ns, ns ≠ textNs → (loaded.changed textNs index').indices.get ns = t.indices.get ns := fun ns hns => by
    rw [TextIndex.changed, HashTable.get_insert, if_neg hns.symm, hothers ns hns]
  rw [asIfNotMade_iff seeds textNs hlang' hall, TextIndex.load_eq (t := loaded.changed textNs index'), hget, hload]
  refine and_congr_left fun _ => ?_
  refine (and_iff_left ?_).trans ⟨InvertedIndex.Alike.symm, InvertedIndex.Alike.symm⟩
  rw [← hdirty]
  exact Finset.subset_insert _ _

/-- An index that was dropped. -/
theorem asIfNotMade_dropped_iff
    (h : t.ensureLoaded tools sizing store seeds s textNs = .ok (index, loaded)) :
    AsIfNotMade tools sizing store t s (loaded.dropped textNs) s' ↔
      (textNs ∉ t.dirty ∧ SameLoad (.ok index) (rebuildFromEngine tools sizing store seeds t.language s textNs)) ∧
        RebuildsKept tools sizing store t.language s s' := by
  obtain ⟨hload, hlang, hdirty, hothers⟩ := TextIndex.ensureLoaded_eq_ok h
  have hget : (loaded.dropped textNs).indices.get textNs = none := by
    rw [TextIndex.dropped, HashTable.get_erase, if_pos rfl]
  have hlang' : (loaded.dropped textNs).language = t.language := hlang
  have hall : ∀ ns, ns ≠ textNs → (loaded.dropped textNs).indices.get ns = t.indices.get ns := fun ns hns => by
    rw [TextIndex.dropped, HashTable.get_erase, if_neg hns.symm, hothers ns hns]
  rw [asIfNotMade_iff seeds textNs hlang' hall, TextIndex.load_eq (t := loaded.dropped textNs), hget, hload]
  refine and_congr_left fun hkept => ?_
  have hsubset : t.dirty ⊆ (loaded.dropped textNs).dirty ↔ textNs ∉ t.dirty := by
    show t.dirty ⊆ loaded.dirty.erase textNs ↔ _
    rw [hdirty, Finset.subset_erase, and_iff_right (Finset.Subset.refl _)]
  -- what is rebuilt afterwards is what was rebuilt before
  have hrebuild : SameLoad (.ok index) (rebuildFromEngine tools sizing store seeds t.language s' textNs) ↔
      SameLoad (.ok index) (rebuildFromEngine tools sizing store seeds t.language s textNs) :=
    ⟨fun h => h.trans (hkept seeds textNs).symm, fun h => h.trans (hkept seeds textNs)⟩
  show SameLoad _ (rebuildFromEngine tools sizing store seeds loaded.language s' textNs) ∧ _ ↔ _
  rw [hlang, hrebuild, hsubset, and_comm]

/-- **A failed update** behaves as if it had not been made if and only if it is harmless. -/
theorem TextIndex.asIfNotMade_iff_harmless {call : TextCall} {err : EdgestoreError}
    (h : t.perform tools sizing store seeds s call = some (.error err, t', s')) :
    AsIfNotMade tools sizing store t s t' s' ↔ call.Harmless tools sizing store seeds t s := by
  cases call with
  | indexDocument seed ns key text facets =>
    obtain ⟨⟨r, t'', s''⟩, hcall, heq⟩ := Option.map_eq_some_iff.mp h
    simp only [Prod.mk.injEq] at heq
    obtain ⟨-, rfl, rfl⟩ := heq
    rcases indexDocument_cases hcall with ⟨err', hload, -, rfl, rfl⟩ | ⟨index, loaded, index', hload, hindex, rfl, hput⟩
    · simp only [TextCall.Harmless, load, hload, Except.map]
      exact iff_true_intro (.refl _ _)
    · simp only [TextCall.Harmless, load, hload, Except.map]
      rw [asIfNotMade_changed_iff hload, InvertedIndex.alike_indexDocument_iff hindex, hput]
  | deleteDocument ns key =>
    obtain ⟨⟨r, t'', s''⟩, hcall, heq⟩ := Option.map_eq_some_iff.mp h
    simp only [Prod.mk.injEq] at heq
    obtain ⟨-, rfl, rfl⟩ := heq
    rcases deleteDocument_cases hcall with
      ⟨err', hload, -, rfl, rfl⟩ | ⟨index, loaded, found, index', hload, hremove, hcases⟩
    · simp only [TextCall.Harmless, load, hload, Except.map]
      exact iff_true_intro (.refl _ _)
    · simp only [TextCall.Harmless, load, hload, Except.map]
      have hlast := InvertedIndex.totalDocs_removeDocument_eq_zero_iff hremove
      rcases hcases with ⟨hzero, rfl, hdelete⟩ | ⟨hmore, rfl, hdelete⟩
      · rw [if_pos (hlast.mp hzero), asIfNotMade_dropped_iff hload]
        have hafter : afterDeletes store (textNamespace ns) key s = s'' := by
          unfold afterDeletes
          rcases hdelete with ⟨err', hsidecar, -⟩ | ⟨lsn, mid, hsidecar, hkey⟩
          · rw [hsidecar]
          · rw [hsidecar]
            exact congrArg Prod.snd hkey
        rw [hafter]
      · rw [if_neg fun hzero => hmore (hlast.mpr hzero), asIfNotMade_changed_iff hload,
          InvertedIndex.alike_removeDocument_iff hremove, hdelete]
  | persist =>
    have hpersist : t.persist store s = (.error err, t', s') := Option.some.inj h
    unfold persist at hpersist
    split at hpersist
    case isTrue => cases hpersist
    case isFalse =>
      dsimp only at hpersist
      split at hpersist
      case h_1 err' hput =>
        simp only [Prod.mk.injEq] at hpersist
        obtain ⟨-, rfl, rfl⟩ := hpersist
        show _ ↔ RebuildsKept _ _ _ _ _ _
        refine ⟨fun h => h.rebuilds, fun hkept => ⟨fun seeds' ns => ?_, hkept, Finset.Subset.refl _⟩⟩
        rw [load_eq, load_eq]
        cases t.indices.get ns with
        | some index => exact .refl _
        | none => exact hkept seeds' ns
      case h_2 => cases hpersist

/-- A document whose record the store refuses is in the index all the same. -/
theorem TextIndex.perform_indexDocument_error {seed : Seed} {ns key : Bytes} {text : String} {facets : Facets}
    {index' : InvertedIndex} {err : EdgestoreError} (hnames : ¬ (ns = [] ∨ key = []))
    (hload : t.ensureLoaded tools sizing store seeds s (textNamespace ns) = .ok (index, loaded))
    (hindex : index.indexDocument sizing seed key (tokenize tools t.language text) facets = some index')
    (hput : store.put (textNamespace ns) key (encodeTextRecord ⟨text, facets⟩) s = (.error err, s')) :
    t.perform tools sizing store seeds s (.indexDocument seed ns key text facets) =
      some (.error err, loaded.changed (textNamespace ns) index', s') := by
  unfold perform TextIndex.indexDocument
  dsimp only
  rw [if_neg hnames, hload]
  dsimp only
  rw [hindex, hput]
  rfl

end

/-! ### A read-only engine -/

/-- A new database, opened read-only. -/
def openedReadonly : World := Run.from (World.step plainExternals) {} [{ op := .openReadonly {} }]

/-- The text index before the first call. -/
def freshText : TextIndex := .withLanguage .english

/-- The first call, which indexes a document. -/
def firstDocument : TextCall := .indexDocument (fun _ => 0) [1] [1] "alpha" .empty

/-- The index of the first document. -/
def firstIndex : InvertedIndex :=
  (InvertedIndex.new smallSizing fun _ => 0).addDocument smallSizing (fun _ => 0) [1]
    (tokenize plainTools .english "alpha") (UInt32.ofNat (tokenize plainTools .english "alpha").length) .empty

/-- The text index that has loaded an empty index. -/
def loadedText : TextIndex :=
  { freshText with indices := freshText.indices.insert (textNamespace [1]) (.new smallSizing fun _ => 0) }

/-- The text index after the first call. -/
def refusedText : TextIndex := loadedText.changed (textNamespace [1]) firstIndex

/-- There are no documents yet, and the engine refuses the first one. -/
structure RefusesFirst (s : (engineStore plainExternals).State) : Prop where
  scan : (engineStore plainExternals).scan s (textNamespace [1]) = .ok []
  put : ∀ val, (engineStore plainExternals).put (textNamespace [1]) [1] val s = (.error .readOnly, s)

theorem refusesFirst_openedReadonly :
    ∃ e, openedReadonly.engine = some e ∧ RefusesFirst (⟨e, fun _ => 0⟩, openedReadonly.fs) := by
  have hopen : openedReadonly.engine.isSome = true := by decide +kernel
  obtain ⟨e, he⟩ := Option.isSome_iff_exists.mp hopen
  have hreadonly : ∀ e ∈ openedReadonly.engine, e.config.readonly = true := by decide +kernel
  have hempty : ∀ e ∈ openedReadonly.engine,
      e.prefixInner openedReadonly.fs (textNamespace [1]) [] = .ok [] := by decide +kernel
  refine ⟨e, he, hempty e he, fun val => ?_⟩
  show runOnEngine _ (⟨e, fun _ => 0⟩, openedReadonly.fs) = _
  rw [runOnEngine, Engine.run_put_readonly (hreadonly e he)]
  rfl

namespace RefusesFirst

variable {s : (engineStore plainExternals).State}

/-- The index is rebuilt from no documents. -/
theorem ensureLoaded_freshText (h : RefusesFirst s) :
    freshText.ensureLoaded plainTools smallSizing (engineStore plainExternals) (fun _ _ => 0) s
      (textNamespace [1]) = .ok (.new smallSizing fun _ => 0, loadedText) := by
  have hget : freshText.indices.get (textNamespace [1]) = none := rfl
  unfold TextIndex.ensureLoaded rebuildFromEngine
  rw [hget, h.scan]
  rfl

theorem indexDocument_new :
    (InvertedIndex.new smallSizing fun _ => 0).indexDocument smallSizing (fun _ => 0) [1]
      (tokenize plainTools freshText.language "alpha") .empty = some firstIndex := by
  -- the document is not in the filter yet
  have hnew : ¬ (InvertedIndex.new smallSizing fun _ => 0).docBloom.mightContain [1] = true := by decide
  unfold InvertedIndex.indexDocument
  rw [if_neg hnew]
  rfl

/-- The first call is refused, and the document is in the index all the same. -/
theorem perform_freshText (h : RefusesFirst s) :
    freshText.perform plainTools smallSizing (engineStore plainExternals) (fun _ _ => 0) s firstDocument =
      some (.error .readOnly, refusedText, s) :=
  TextIndex.perform_indexDocument_error (by decide) h.ensureLoaded_freshText indexDocument_new (h.put _)

theorem not_asIfNotMade (h : RefusesFirst s) :
    ¬ AsIfNotMade plainTools smallSizing (engineStore plainExternals) freshText s refusedText s := by
  intro hkept
  have halike := ((asIfNotMade_changed_iff h.ensureLoaded_freshText).mp hkept).1
  have hdoc := (InvertedIndex.alike_indexDocument_iff indexDocument_new).mp halike
  exact absurd hdoc.known (by decide)

/-- The same call again finds the index that the first one has left. -/
theorem ensureLoaded_refusedText :
    refusedText.ensureLoaded plainTools smallSizing (engineStore plainExternals) (fun _ _ => 0) s
      (textNamespace [1]) = .ok (firstIndex, refusedText) := by
  have hget : refusedText.indices.get (textNamespace [1]) = some firstIndex := by
    rw [refusedText, TextIndex.changed, HashTable.get_insert, if_pos rfl]
  unfold TextIndex.ensureLoaded
  rw [hget]

theorem perform_refusedText (h : RefusesFirst s) : ∃ t',
    refusedText.perform plainTools smallSizing (engineStore plainExternals) (fun _ _ => 0) s firstDocument =
      some (.error .readOnly, t', s) := by
  have hsome : (firstIndex.indexDocument smallSizing (fun _ => 0) [1]
      (tokenize plainTools refusedText.language "alpha") .empty).isSome = true := by decide +kernel
  obtain ⟨index', hindex⟩ := Option.isSome_iff_exists.mp hsome
  exact ⟨_, TextIndex.perform_indexDocument_error (by decide) ensureLoaded_refusedText hindex (h.put _)⟩

theorem harmless_refusedText (h : RefusesFirst s) :
    firstDocument.Harmless plainTools smallSizing (engineStore plainExternals) (fun _ _ => 0) refusedText s := by
  have hdoc : firstIndex.HasDocument [1] (tokenize plainTools refusedText.language "alpha") .empty := by
    refine ⟨by decide +kernel, by decide +kernel, fun term => ?_⟩
    have hnone : (InvertedIndex.new smallSizing fun _ => 0).postingsOf term = [] := rfl
    rw [firstIndex, InvertedIndex.postingsOf_addDocument, hnone, List.nil_append,
      List.filter_eq_self.mpr fun p hp => decide_eq_true (InvertedIndex.docId_of_mem_docPostings hp)]
    exact .of_forall₂ (forall₂_same_refl _)
  -- the store has kept nothing of the call
  have hkept : RebuildsKept plainTools smallSizing (engineStore plainExternals) refusedText.language s
      ((engineStore plainExternals).put (textNamespace [1]) [1] (encodeTextRecord ⟨"alpha", .empty⟩) s).2 := by
    rw [h.put]
    exact fun _ _ => .refl _
  unfold firstDocument TextCall.Harmless TextIndex.load
  dsimp only
  rw [ensureLoaded_refusedText]
  exact ⟨hdoc, hkept⟩

end RefusesFirst

/-- The first call is not harmless. The same call again is, since the index has the document already; it fails as if it
had not been made. -/
theorem TextIndex.asIfNotMade_iff_harmless_twice : ∃ e, openedReadonly.engine = some e ∧
    ¬ firstDocument.Harmless plainTools smallSizing (engineStore plainExternals) (fun _ _ => 0) freshText
        (⟨e, fun _ => 0⟩, openedReadonly.fs) ∧
    ∃ t', refusedText.perform plainTools smallSizing (engineStore plainExternals) (fun _ _ => 0)
        (⟨e, fun _ => 0⟩, openedReadonly.fs) firstDocument =
          some (.error .readOnly, t', (⟨e, fun _ => 0⟩, openedReadonly.fs)) ∧
      AsIfNotMade plainTools smallSizing (engineStore plainExternals) refusedText
        (⟨e, fun _ => 0⟩, openedReadonly.fs) t' (⟨e, fun _ => 0⟩, openedReadonly.fs) := by
  obtain ⟨e, he, hrefuses⟩ := refusesFirst_openedReadonly
  obtain ⟨t', hagain⟩ := hrefuses.perform_refusedText
  refine ⟨e, he, fun hharmless => ?_, t', hagain, ?_⟩
  · exact hrefuses.not_asIfNotMade
      ((TextIndex.asIfNotMade_iff_harmless hrefuses.perform_freshText).mpr hharmless)
  · exact (TextIndex.asIfNotMade_iff_harmless hagain).mpr hrefuses.harmless_refusedText

/-- **A failed update that changes the index**: a read-only engine refuses the document, which a search then finds. -/
theorem failed_update_shows : ∃ e, openedReadonly.engine = some e ∧ ∃ t' s',
    freshText.perform plainTools smallSizing (engineStore plainExternals) (fun _ _ => 0)
        (⟨e, fun _ => 0⟩, openedReadonly.fs) firstDocument = some (.error .readOnly, t', s') ∧
    ¬ AsIfNotMade plainTools smallSizing (engineStore plainExternals) freshText
      (⟨e, fun _ => 0⟩, openedReadonly.fs) t' s' := by
  obtain ⟨e, he, hrefuses⟩ := refusesFirst_openedReadonly
  exact ⟨e, he, refusedText, _, hrefuses.perform_freshText, hrefuses.not_asIfNotMade⟩
