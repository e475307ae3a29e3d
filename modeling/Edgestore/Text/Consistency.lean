import Edgestore.Lib.Run
import Edgestore.StoreScans
import Edgestore.Text.Corpus
import Mathlib.Algebra.Order.BigOperators.Group.List
import Mathlib.Data.List.Nodup

/-!
# Consistency of the text index

The index of a namespace in memory should be what a rebuild from the stored documents would make: the same postings,
and the same totals. It is changed by calls that also change the store, and each keeps it so, as long as the document
that is replaced or deleted has a token, the record of a new one can be read back, its key is not that of the sidecar,
and the store takes what is written.

## Main definitions

* `StoreLaw`: what is asked of a store, with the limits within which it keeps what is written
* `engineLaw`, `plainLaw`: the engine and the plain store keep what is written
* `storedDocuments`: the documents of a namespace in a store
* `TextWorld`, `TextOp`, `TextWorld.step`: a text index over a store, and calls
* `TextWorld.Meets`: the condition on a call
* `TextWorld.Consistent`: the indexes in memory are those of the stored documents

## Main results

* `TextWorld.Inv.step`: a call that meets the condition keeps the indexes those of the stored documents
* `TextWorld.consistent_run`: in a run whose calls meet the condition, no call panics, and the indexes are consistent
-/

/-- **What is asked of a store.** Its states represent contents. A scan of a namespace that it can scan returns the
pairs of the namespace, and a write that it accepts and that succeeds updates the contents. -/
structure StoreLaw (store : TextStore) where
  Represents : store.State → Contents → Prop
  Readable : Bytes → Prop
  Accepts : store.State → (ns key : Bytes) → Option Bytes → Prop
  scan : ∀ {s c ns}, Represents s c → Readable ns → ∃ pairs, store.scan s ns = .ok pairs ∧
    (pairs.map Prod.fst).Nodup ∧ ∀ key val, (key, val) ∈ pairs ↔ c (ns, key) = some val
  put : ∀ {s s' c ns key val lsn}, Represents s c → Accepts s ns key (some val) →
    store.put ns key val s = (.ok lsn, s') → Represents s' (Function.update c (ns, key) (some val))
  delete : ∀ {s s' c ns key lsn}, Represents s c → Accepts s ns key none →
    store.delete ns key s = (.ok lsn, s') → Represents s' (Function.update c (ns, key) none)

/-- The documents of a namespace in a store, as a rebuild finds them. -/
def storedDocuments (tools : TextTools) (lang : TextLanguage) (store : TextStore) (s : store.State) (textNs : Bytes) :
    List Document :=
  match store.scan s textNs with
  | .ok pairs => pairs.filterMap (storedDocument tools lang)
  | .error _ => []

/-- The document under a key of a namespace in some contents. -/
def documentAt (tools : TextTools) (lang : TextLanguage) (c : Contents) (textNs key : Bytes) : Option Document :=
  (c (textNs, key)).bind fun bytes => storedDocument tools lang (key, bytes)

section

variable {tools : TextTools} {lang : TextLanguage} {store : TextStore} {law : StoreLaw store} {s s' : store.State}
  {c c' : Contents} {textNs key : Bytes} {docs docs' : List Document} {doc : Document} {text : String}
  {facets : Facets}

theorem docId_of_storedDocument {pair : Bytes × Bytes} (h : storedDocument tools lang pair = some doc) :
    doc.docId = pair.1 := by
  unfold storedDocument at h
  split at h
  case isTrue => cases h
  case isFalse =>
    obtain ⟨record, -, rfl⟩ := Option.map_eq_some_iff.mp h
    rfl

theorem docId_of_documentAt (h : documentAt tools lang c textNs key = some doc) : doc.docId = key := by
  obtain ⟨bytes, -, hdoc⟩ := Option.bind_eq_some_iff.mp h
  exact docId_of_storedDocument hdoc

/-- The sidecar is no document. -/
theorem documentAt_textIndexKey : documentAt tools lang c textNs textIndexKey = none := by
  unfold documentAt
  cases c (textNs, textIndexKey) with
  | none => rfl
  | some bytes => rw [Option.bind_some, storedDocument, if_pos rfl]

/-- A document that can be read back. -/
theorem documentAt_update_put (hstorable : (⟨text, facets⟩ : TextRecord).Storable) (hkey : key ≠ textIndexKey) :
    documentAt tools lang (Function.update c (textNs, key) (some (encodeTextRecord ⟨text, facets⟩))) textNs key =
      some ⟨key, tokenize tools lang text, facets⟩ := by
  rw [documentAt, Function.update_self, Option.bind_some, storedDocument, if_neg hkey,
    decodeTextRecord_encodeTextRecord hstorable]
  rfl

theorem documentAt_update_delete : documentAt tools lang (Function.update c (textNs, key) none) textNs key = none := by
  rw [documentAt, Function.update_self]
  rfl

theorem documentAt_update_of_ne {ns key' : Bytes} {val : Option Bytes} (h : (textNs, key) ≠ (ns, key')) :
    documentAt tools lang (Function.update c (ns, key') val) textNs key = documentAt tools lang c textNs key := by
  rw [documentAt, Function.update_of_ne h]
  rfl

/-- The documents of a namespace in some contents, each once. -/
structure IsCorpus (tools : TextTools) (lang : TextLanguage) (c : Contents) (textNs : Bytes) (docs : List Document) :
    Prop where
  nodup : (docs.map Document.docId).Nodup
  mem_iff : ∀ doc, doc ∈ docs ↔ documentAt tools lang c textNs doc.docId = some doc

/-- The documents of a namespace are the same in some order. -/
theorem IsCorpus.perm (h : IsCorpus tools lang c textNs docs) (h' : IsCorpus tools lang c textNs docs') :
    docs.Perm docs' :=
  (List.perm_ext_iff_of_nodup (.of_map _ h.nodup) (.of_map _ h'.nodup)).mpr fun doc =>
    (h.mem_iff doc).trans (h'.mem_iff doc).symm

/-- **A document is put** in the place of the old one. -/
theorem IsCorpus.put (h : IsCorpus tools lang c textNs docs) (hdoc : documentAt tools lang c' textNs key = some doc)
    (hothers : ∀ key', key' ≠ key → documentAt tools lang c' textNs key' = documentAt tools lang c textNs key') :
    IsCorpus tools lang c' textNs (dropDocument docs key ++ [doc]) := by
  obtain rfl : doc.docId = key := docId_of_documentAt hdoc
  constructor
  · rw [List.map_append, List.nodup_append]
    refine ⟨(List.filter_sublist.map _).nodup h.nodup, List.nodup_singleton _, ?_⟩
    rintro a ha b hb rfl
    obtain ⟨doc', hdoc', heq⟩ := List.mem_map.mp ha
    exact of_decide_eq_true (List.mem_filter.mp hdoc').2 (heq.trans (List.mem_singleton.mp hb))
  · intro doc'
    rw [List.mem_append, List.mem_singleton, dropDocument, List.mem_filter, h.mem_iff, decide_eq_true_iff]
    by_cases hid : doc'.docId = doc.docId
    · rw [hid, hdoc, Option.some_inj]
      constructor
      · rintro (⟨-, hne⟩ | rfl)
        · exact absurd rfl hne
        · rfl
      · exact fun heq => .inr heq.symm
    · rw [hothers _ hid, and_iff_left hid, or_iff_left]
      rintro rfl
      exact hid rfl

/-- **A document is dropped.** -/
theorem IsCorpus.drop (h : IsCorpus tools lang c textNs docs)
    (hdoc : documentAt tools lang c' textNs key = none)
    (hothers : ∀ key', key' ≠ key → documentAt tools lang c' textNs key' = documentAt tools lang c textNs key') :
    IsCorpus tools lang c' textNs (dropDocument docs key) where
  nodup := (List.filter_sublist.map _).nodup h.nodup
  mem_iff := fun doc => by
    rw [dropDocument, List.mem_filter, h.mem_iff, decide_eq_true_iff]
    by_cases hid : doc.docId = key
    · rw [hid, hdoc]
      exact iff_of_false (fun hmem => hmem.2 rfl) fun heq => Option.some_ne_none _ heq.symm
    · rw [hothers _ hid, and_iff_left hid]

theorem IsCorpus.congr (h : IsCorpus tools lang c textNs docs)
    (heq : ∀ key, documentAt tools lang c' textNs key = documentAt tools lang c textNs key) :
    IsCorpus tools lang c' textNs docs := ⟨h.nodup, fun doc => by rw [heq, h.mem_iff]⟩

/-- **The stored documents** are those of the contents. -/
theorem StoreLaw.isCorpus (hs : law.Represents s c) (hns : law.Readable textNs) :
    IsCorpus tools lang c textNs (storedDocuments tools lang store s textNs) := by
  obtain ⟨pairs, hscan, hnodup, hmem⟩ := law.scan hs hns
  rw [storedDocuments, hscan]
  dsimp only
  constructor
  · -- the ids are some of the keys
    have hkeys : ((pairs.filterMap (storedDocument tools lang)).map Document.docId).Sublist (pairs.map Prod.fst) := by
      clear hscan hnodup hmem
      induction pairs with
      | nil => exact List.Sublist.refl _
      | cons pair pairs ih =>
        rw [List.filterMap_cons, List.map_cons]
        cases hdoc : storedDocument tools lang pair with
        | none => exact ih.cons _
        | some doc =>
          rw [List.map_cons, docId_of_storedDocument hdoc]
          exact ih.cons_cons _
    exact hkeys.nodup hnodup
  · intro doc
    rw [List.mem_filterMap, documentAt, Option.bind_eq_some_iff]
    constructor
    · rintro ⟨⟨key, bytes⟩, hpair, hdoc⟩
      obtain rfl : doc.docId = key := docId_of_storedDocument hdoc
      exact ⟨bytes, (hmem _ _).mp hpair, hdoc⟩
    · rintro ⟨bytes, hbytes, hdoc⟩
      exact ⟨(doc.docId, bytes), (hmem _ _).mpr hbytes, hdoc⟩

/-! ### What writes do to the stored documents -/

/-- Other namespaces keep their documents. -/
theorem StoreLaw.documents_of_ne {ns : Bytes} {val : Option Bytes} (hs : law.Represents s c)
    (hs' : law.Represents s' (Function.update c (ns, key) val)) (hns : law.Readable textNs) (hne : textNs ≠ ns) :
    (storedDocuments tools lang store s textNs).Perm (storedDocuments tools lang store s' textNs) :=
  ((law.isCorpus hs hns).congr fun _ => documentAt_update_of_ne fun heq => hne (Prod.mk.inj heq).1).perm
    (law.isCorpus hs' hns)

/-- A write of the sidecar leaves the documents. -/
theorem StoreLaw.documents_sidecar {ns : Bytes} {val : Option Bytes} (hs : law.Represents s c)
    (hs' : law.Represents s' (Function.update c (ns, textIndexKey) val)) (hns : law.Readable textNs) :
    (storedDocuments tools lang store s textNs).Perm (storedDocuments tools lang store s' textNs) := by
  refine ((law.isCorpus hs hns).congr fun key => ?_).perm (law.isCorpus hs' hns)
  by_cases hkey : (textNs, key) = (ns, textIndexKey)
  · rw [(Prod.mk.inj hkey).2, documentAt_textIndexKey, documentAt_textIndexKey]
  · exact documentAt_update_of_ne hkey

/-- A document that is put is in the place of the old one. -/
theorem StoreLaw.documents_put (hs : law.Represents s c)
    (hs' : law.Represents s' (Function.update c (textNs, key) (some (encodeTextRecord ⟨text, facets⟩))))
    (hns : law.Readable textNs) (hstorable : (⟨text, facets⟩ : TextRecord).Storable) (hkey : key ≠ textIndexKey) :
    (dropDocument (storedDocuments tools lang store s textNs) key ++
        [(⟨key, tokenize tools lang text, facets⟩ : Document)]).Perm (storedDocuments tools lang store s' textNs) := by
  refine IsCorpus.perm ((law.isCorpus hs hns).put (documentAt_update_put hstorable hkey) fun key' hne => ?_)
    (law.isCorpus hs' hns)
  exact documentAt_update_of_ne fun heq => hne (Prod.mk.inj heq).2

/-- A document that is deleted is gone. -/
theorem StoreLaw.documents_delete (hs : law.Represents s c)
    (hs' : law.Represents s' (Function.update c (textNs, key) none)) (hns : law.Readable textNs) :
    (dropDocument (storedDocuments tools lang store s textNs) key).Perm
      (storedDocuments tools lang store s' textNs) :=
  ((law.isCorpus hs hns).drop documentAt_update_delete fun _ hne =>
    documentAt_update_of_ne fun heq => hne (Prod.mk.inj heq).2).perm (law.isCorpus hs' hns)

end

/-! ### Stores that keep what is written -/

/-- A write to an engine. -/
def engineWrite {X : Externals} (ns key : Bytes) : Option Bytes → Exec X Engine Lsn
  | some val => Engine.put ns key val
  | none => Engine.delete ns key

theorem runOnEngine_state {X : Externals} {α : Type} {m : Exec X Engine α} {s s' : Process Engine × Fs}
    {r : Except EdgestoreError α} (h : runOnEngine m s = (r, s')) : (disk X).run (m.run s.1 s.2).2.2 s.2 = s'.2 :=
  congrArg (fun p => p.2.2) h

/-- What a specification says of a call to an engine that succeeds. -/
theorem runOnEngine_result {X : Externals} {α : Type} {m : Exec X Engine α}
    {Q : Prog.Post (disk X) (Process Engine) EdgestoreError α} {s s' : Process Engine × Fs} {a : α}
    (hm : Prog.wp m Q s.1 s.2) (hall : (disk X).All Q.rely (m.run s.1 s.2).2.2 s.2)
    (h : runOnEngine m s = (.ok a, s')) : Q.ok a s'.1 s'.2 := by
  have hresult := Prog.wp_result hm hall
  unfold runOnEngine at h
  generalize m.run s.1 s.2 = r at h hresult
  obtain ⟨result, p, effects⟩ := r
  cases h
  exact hresult

/-- **The engine keeps what is written**, within the limits of its readers: a namespace has at most 65535 bytes and is
not 0xFF throughout, the effects of a write are within the limits of the files, and it leaves no two records of a key
under one LSN in segments. -/
def engineLaw (X : Externals) (R : List SegmentId) : StoreLaw (engineStore X) where
  Represents s c := s.1.state.Represents X R s.2 c ∧ OneRecordPerLsn X s.2
  Readable ns := ns.length ≤ maxNsLen ∧ ¬ Unbounded ns []
  Accepts s ns key val := ns.length ≤ maxNsLen ∧
    (disk X).All (AdmitsEffect X) ((engineWrite ns key val).run s.1 s.2).2.2 s.2 ∧
    OneRecordPerLsn X ((disk X).run ((engineWrite (X := X) ns key val).run s.1 s.2).2.2 s.2)
  scan := fun {s c ns} hs hns => by
    obtain ⟨items, hitems, hsorted, hfind⟩ := hs.1.prefixInner hs.2 hns.1 hns.2
    refine ⟨items, hitems, ?_, fun key val => ?_⟩
    · exact List.pairwise_map.mpr (hsorted.imp ne_of_lt)
    · rw [← hfind, hsorted.find_eq_some_iff]
  put := fun hs haccepts hput => ⟨runOnEngine_result (Engine.wp_put_represents hs.1) haccepts.2.1 hput,
    runOnEngine_state hput ▸ haccepts.2.2⟩
  delete := fun hs haccepts hdelete =>
    ⟨runOnEngine_result (Engine.wp_delete_represents hs.1 haccepts.1) haccepts.2.1 hdelete,
      runOnEngine_state hdelete ▸ haccepts.2.2⟩

/-- A text namespace with at most 65535 bytes can be scanned, since its name starts with underscores. -/
theorem readable_textNamespace {X : Externals} {R : List SegmentId} {ns : Bytes}
    (h : (textNamespace ns).length ≤ maxNsLen) : (engineLaw X R).Readable (textNamespace ns) := by
  refine ⟨h, fun hunbounded => ?_⟩
  have hfirst : (95 : Byte) = 255 := hunbounded.2 95 (List.mem_append_left _ List.mem_cons_self)
  exact absurd hfirst (by decide)

/-- The pairs that a scan of the plain store returns. -/
theorem scan_pairs (t : HashTable (Bytes × Bytes) Bytes) (ns : Bytes) :
    let pairs := (t.entries.filter fun e => e.1.1 = ns).map fun e => (e.1.2, e.2)
    (pairs.map Prod.fst).Nodup ∧ ∀ key val, (key, val) ∈ pairs ↔ t.get (ns, key) = some val := by
  intro pairs
  constructor
  · rw [List.map_map]
    refine List.pairwise_map.mpr ?_
    refine ((List.pairwise_map.mp t.nodup).filter _).imp_of_mem fun {a b} ha hb hne heq => hne ?_
    have hns := of_decide_eq_true (List.mem_filter.mp ha).2
    have hns' := of_decide_eq_true (List.mem_filter.mp hb).2
    exact Prod.ext (hns.trans hns'.symm) heq
  · intro key val
    rw [← HashTable.mem_entries_iff, List.mem_map]
    constructor
    · rintro ⟨⟨⟨ns', key'⟩, val'⟩, hmem, heq⟩
      cases heq
      obtain ⟨hentry, hns⟩ := List.mem_filter.mp hmem
      cases of_decide_eq_true hns
      exact hentry
    · exact fun hmem => ⟨((ns, key), val), List.mem_filter.mpr ⟨hmem, decide_eq_true rfl⟩, rfl⟩

/-- What a write does to the pairs. -/
theorem get_insert_eq_update (t : HashTable (Bytes × Bytes) Bytes) (p : Bytes × Bytes) (val : Bytes) :
    (t.insert p val).get = Function.update t.get p (some val) := by
  funext j
  rw [HashTable.get_insert, Function.update_apply, if_congr eq_comm rfl rfl]

theorem get_erase_eq_update (t : HashTable (Bytes × Bytes) Bytes) (p : Bytes × Bytes) :
    (t.erase p).get = Function.update t.get p none := by
  funext j
  rw [HashTable.get_erase, Function.update_apply, if_congr eq_comm rfl rfl]

/-- **The plain store keeps what is written.** -/
def plainLaw : StoreLaw plainStore where
  Represents (t : HashTable (Bytes × Bytes) Bytes) c := t.get = c
  Readable _ := True
  Accepts _ _ _ _ := True
  scan := fun {t c ns} hs _ => ⟨_, rfl, by
    rw [← show HashTable.get t = c from hs]
    exact scan_pairs t ns⟩
  put := fun hs _ hput => by
    cases hput
    cases hs
    exact get_insert_eq_update _ _ _
  delete := fun hs _ hdelete => by
    cases hdelete
    cases hs
    exact get_erase_eq_update _ _

/-! ### Runs -/

/-- A text index over a store. -/
structure TextWorld (store : TextStore) where
  index : TextIndex
  state : store.State

/-- The calls of a text index. A search loads the index of its namespace. Between calls, tables may be iterated in
another order, and after a crash there is a new text index over whatever the store has then. -/
inductive TextOp (store : TextStore)
  | indexDocument (seed : Seed) (ns key : Bytes) (text : String) (facets : Facets)
  | deleteDocument (ns key : Bytes)
  | persist
  | load (ns : Bytes)
  | reorder (textNs : Bytes) (index : InvertedIndex)
  | crash (lang : TextLanguage) (state : store.State)

namespace TextWorld

section

variable (tools : TextTools) (sizing : BloomSizing) {store : TextStore} (seeds : ℕ → Seed)

/-- The documents of a namespace that are stored. -/
def documents (w : TextWorld store) (textNs : Bytes) : List Document :=
  storedDocuments tools w.index.language store w.state textNs

/-- Make a call. One that panics leaves everything as it was. -/
def step (w : TextWorld store) : TextOp store → TextWorld store
  | .indexDocument seed ns key text facets =>
    match w.index.indexDocument tools sizing store seeds seed ns key text facets w.state with
    | some r => ⟨r.2.1, r.2.2⟩
    | none => w
  | .deleteDocument ns key =>
    match w.index.deleteDocument tools sizing store seeds ns key w.state with
    | some r => ⟨r.2.1, r.2.2⟩
    | none => w
  | .persist =>
    let r := w.index.persist store w.state
    ⟨r.2.1, r.2.2⟩
  | .load ns =>
    match w.index.ensureLoaded tools sizing store seeds w.state (textNamespace ns) with
    | .ok r => { w with index := r.2 }
    | .error _ => w
  | .reorder textNs index => { w with index := { w.index with indices := w.index.indices.insert textNs index } }
  | .crash lang state => ⟨.withLanguage lang, state⟩

/-- A call does not panic. -/
def Returns (w : TextWorld store) : TextOp store → Prop
  | .indexDocument seed ns key text facets =>
    w.index.indexDocument tools sizing store seeds seed ns key text facets w.state ≠ none
  | .deleteDocument ns key => w.index.deleteDocument tools sizing store seeds ns key w.state ≠ none
  | _ => True

variable (law : StoreLaw store)

/-- There are fewer than 2^64 documents, and fewer than 2^64 tokens. -/
def Room (docs : List Document) : Prop := docs.length < 2 ^ 64 ∧ corpusLen docs < 2 ^ 64

/-- A store from which a text index can be loaded. -/
structure Ready (lang : TextLanguage) (s : store.State) : Prop where
  represents : ∃ c, law.Represents s c
  room : ∀ textNs, law.Readable textNs → Room (storedDocuments tools lang store s textNs)

/-- Deletes that are accepted and succeed. -/
def Deletes (textNs : Bytes) : List Bytes → store.State → Prop
  | [], _ => True
  | key :: keys, s => law.Accepts s textNs key none ∧
    ∃ lsn s', store.delete textNs key s = (.ok lsn, s') ∧ Deletes textNs keys s'

/-- Writes of sidecars that are accepted and succeed. -/
def PutsSidecars : List (Bytes × Bytes) → store.State → Prop
  | [], _ => True
  | (textNs, bytes) :: rest, s => law.Accepts s textNs textIndexKey (some bytes) ∧
    ∃ lsn s', store.put textNs textIndexKey bytes s = (.ok lsn, s') ∧ PutsSidecars rest s'

/-- **The condition on a call.** Namespaces can be scanned, and the writes of a call are accepted and succeed. A
document that is indexed can be read back, and its key is not that of the sidecar. The stored document that is
replaced or deleted has a token. -/
def Meets (w : TextWorld store) : TextOp store → Prop
  | .indexDocument _ ns key text facets =>
    (ns ≠ [] ∧ key ≠ [] ∧ law.Readable (textNamespace ns)) ∧
      (key ≠ textIndexKey ∧ (⟨text, facets⟩ : TextRecord).Storable) ∧
      (∀ doc ∈ w.documents tools (textNamespace ns), doc.docId = key → doc.tokens ≠ []) ∧
      Room (dropDocument (w.documents tools (textNamespace ns)) key ++
        [⟨key, tokenize tools w.index.language text, facets⟩]) ∧
      law.Accepts w.state (textNamespace ns) key (some (encodeTextRecord ⟨text, facets⟩)) ∧
      ∃ lsn s', store.put (textNamespace ns) key (encodeTextRecord ⟨text, facets⟩) w.state = (.ok lsn, s')
  | .deleteDocument ns key =>
    (ns ≠ [] ∧ key ≠ [] ∧ law.Readable (textNamespace ns)) ∧
      (∀ doc ∈ w.documents tools (textNamespace ns), doc.docId = key → doc.tokens ≠ []) ∧
      -- with the last document, the sidecar is deleted first
      (dropDocument (w.documents tools (textNamespace ns)) key = [] →
        Deletes law (textNamespace ns) [textIndexKey, key] w.state) ∧
      (dropDocument (w.documents tools (textNamespace ns)) key ≠ [] →
        Deletes law (textNamespace ns) [key] w.state)
  | .persist => PutsSidecars law w.index.toPersist w.state
  | .load ns => law.Readable (textNamespace ns)
  | .reorder textNs index => ∃ old, w.index.indices.get textNs = some old ∧ old.Same index ∧
    old.docBloom = index.docBloom
  | .crash lang state => Ready tools law lang state

/-- **The indexes are those of the stored documents.** An index in memory is alike to what a rebuild makes, and its
totals are the numbers of documents and of their tokens. A search without a limit, whether or not the index is in
memory, finds the documents with a query term, each once. -/
structure Consistent (w : TextWorld store) : Prop where
  rebuilds : ∀ textNs index, w.index.indices.get textNs = some index → ∀ seeds, ∃ rebuilt,
    rebuildFromEngine tools sizing store seeds w.index.language w.state textNs = .ok rebuilt ∧ index.Alike rebuilt
  totals : ∀ textNs index, w.index.indices.get textNs = some index →
    index.totalDocs.toNat = (w.documents tools textNs).length ∧
      index.totalDocLen.toNat = ((w.documents tools textNs).map fun doc => doc.tokens.length).sum
  searches : ∀ {S : Type} [AddCommMonoid S] [LinearOrder S] (scoring : Scoring S) ns query limit,
    ns ≠ [] → law.Readable (textNamespace ns) → tokenize tools w.index.language query ≠ [] → 0 < limit →
    (w.documents tools (textNamespace ns)).length ≤ limit →
    ∃ results index', w.index.searchWithOptions tools sizing store seeds scoring ns query { limit := limit } w.state =
        some (.ok results, index') ∧
      (results.map TextSearchResult.docId).Perm
        ((matchingDocuments (tokenize tools w.index.language query) (w.documents tools (textNamespace ns))).map
          Document.docId)

end

/-! ### The invariant -/

/-- The store represents contents, and the indexes in memory are those of the stored documents. -/
structure Inv (tools : TextTools) (law : StoreLaw store) (w : TextWorld store) : Prop where
  ready : Ready tools law w.index.language w.state
  indexes : ∀ textNs index, w.index.indices.get textNs = some index →
    law.Readable textNs ∧ index.Of (w.documents tools textNs)

variable {tools : TextTools} {sizing : BloomSizing} {store : TextStore} {seeds : ℕ → Seed} {law : StoreLaw store}
  {w : TextWorld store} {ns key textNs : Bytes}

/-- A rebuild makes the index of the stored documents. -/
theorem Ready.rebuild {lang : TextLanguage} {s : store.State} (h : Ready tools law lang s) (sizing : BloomSizing)
    (seeds : ℕ → Seed) (hns : law.Readable textNs) :
    ∃ rebuilt, rebuildFromEngine tools sizing store seeds lang s textNs = .ok rebuilt ∧
      rebuilt.Of (storedDocuments tools lang store s textNs) := by
  obtain ⟨c, hc⟩ := h.represents
  obtain ⟨pairs, hscan, -⟩ := law.scan hc hns
  refine ⟨_, by rw [rebuildFromEngine, hscan]; rfl, ?_⟩
  rw [storedDocuments, hscan]
  exact InvertedIndex.of_addDocuments _ _ _

/-- **What loading does.** The index that is loaded is that of the stored documents. -/
theorem Inv.ensureLoaded (h : Inv tools law w) (sizing : BloomSizing) (seeds : ℕ → Seed) (hns : law.Readable textNs) :
    ∃ index loaded, w.index.ensureLoaded tools sizing store seeds w.state textNs = .ok (index, loaded) ∧
      index.Of (w.documents tools textNs) ∧ loaded.indices.get textNs = some index ∧
      loaded.language = w.index.language ∧ ∀ ns, ns ≠ textNs → loaded.indices.get ns = w.index.indices.get ns := by
  unfold TextIndex.ensureLoaded
  cases hget : w.index.indices.get textNs with
  | some index => exact ⟨index, w.index, rfl, (h.indexes textNs index hget).2, hget, rfl, fun _ _ => rfl⟩
  | none =>
    obtain ⟨rebuilt, hrebuild, hof⟩ := h.ready.rebuild sizing seeds hns
    refine ⟨rebuilt, { w.index with indices := w.index.indices.insert textNs rebuilt }, ?_, hof, ?_, rfl, ?_⟩
    · dsimp only
      rw [hrebuild]
      rfl
    · rw [HashTable.get_insert, if_pos rfl]
    · intro ns hne
      rw [HashTable.get_insert, if_neg hne.symm]

/-- The length of a stored document is not cut. -/
theorem len_of_mem_documents {doc : Document} (h : doc ∈ w.documents tools textNs) :
    doc.len.toNat = doc.tokens.length := by
  unfold documents storedDocuments at h
  split at h
  case h_2 => cases h
  case h_1 pairs hscan =>
    obtain ⟨pair, -, hdoc⟩ := List.mem_filterMap.mp h
    unfold storedDocument at hdoc
    split at hdoc
    case isTrue => cases hdoc
    case isFalse =>
      obtain ⟨record, hrecord, rfl⟩ := Option.map_eq_some_iff.mp hdoc
      have hbytes := (storable_of_decodeTextRecord hrecord).text
      have hchars := length_le_utf8Len record.text.toList
      have htokens := length_tokenize_le tools w.index.language record.text
      rw [length_utf8Bytes] at hbytes
      exact UInt32.toNat_ofNat_of_lt' ((htokens.trans hchars).trans_lt hbytes)

theorem Inv.room (h : Inv tools law w) (hns : law.Readable textNs) : Room (w.documents tools textNs) :=
  h.ready.room textNs hns

/-- **What the invariant says** about rebuilds, totals and searches. -/
theorem Inv.consistent (h : Inv tools law w) (sizing : BloomSizing) (seeds : ℕ → Seed) :
    Consistent tools sizing seeds law w where
  rebuilds := fun textNs index hindex seeds => by
    obtain ⟨hns, hof⟩ := h.indexes textNs index hindex
    obtain ⟨rebuilt, hrebuild, hof'⟩ := h.ready.rebuild sizing seeds hns
    exact ⟨rebuilt, hrebuild, hof.alike hof'⟩
  totals := fun textNs index hindex => by
    obtain ⟨hns, hof⟩ := h.indexes textNs index hindex
    obtain ⟨hdocs, hlen⟩ := h.room hns
    refine ⟨hof.totalDocs ▸ UInt64.toNat_ofNat_of_lt' hdocs, ?_⟩
    rw [hof.totalDocLen, UInt64.toNat_ofNat_of_lt' hlen, corpusLen]
    exact congrArg List.sum (List.map_congr_left fun doc hdoc => len_of_mem_documents hdoc)
  searches := fun scoring ns query limit hne hns hquery hlimit hle => by
    obtain ⟨index, loaded, hload, hof, -⟩ := h.ensureLoaded sizing seeds hns
    obtain ⟨c, hc⟩ := h.ready.represents
    have hnodup : ((w.documents tools (textNamespace ns)).map Document.docId).Nodup := (law.isCorpus hc hns).nodup
    have hempty : (tokenize tools w.index.language query).isEmpty = false := List.isEmpty_eq_false_iff.mpr hquery
    unfold TextIndex.searchWithOptions
    rw [if_neg hne, if_neg hlimit.ne']
    dsimp only
    rw [hempty, if_neg Bool.false_ne_true, hload]
    dsimp only
    split
    case isTrue hzero =>
      -- no documents are counted, and there are none
      have hnil : w.documents tools (textNamespace ns) = [] := by
        have hdocs := (h.room hns).1
        rw [hof.totalDocs] at hzero
        have hlen := congrArg UInt64.toNat hzero
        rw [UInt64.toNat_ofNat_of_lt' hdocs] at hlen
        exact List.eq_nil_of_length_eq_zero hlen
      rw [hnil]
      exact ⟨[], loaded, rfl, List.Perm.refl _⟩
    case isFalse =>
      exact ⟨_, loaded, rfl, hof.docIds_searchInIndex_perm scoring hnodup _ hle⟩

/-! ### Steps -/

theorem Room.perm {docs docs' : List Document} (h : Room docs) (hdocs : docs.Perm docs') : Room docs' := by
  refine ⟨hdocs.length_eq ▸ h.1, ?_⟩
  rw [corpusLen, ← (hdocs.map _).sum_eq]
  exact h.2

/-- **A change of one namespace** keeps the invariant, if its index in memory is that of its documents. -/
theorem Inv.change {w' : TextWorld store} (h : Inv tools law w) (hrep : ∃ c, law.Represents w'.state c)
    (hothers : ∀ ns, law.Readable ns → ns ≠ textNs → (w.documents tools ns).Perm (w'.documents tools ns))
    (hget : ∀ ns, ns ≠ textNs → w'.index.indices.get ns = w.index.indices.get ns)
    (hns : law.Readable textNs) (hroom : Room (w'.documents tools textNs))
    (hindex : ∀ index, w'.index.indices.get textNs = some index → index.Of (w'.documents tools textNs)) :
    Inv tools law w' where
  ready := ⟨hrep, fun ns hreadable => by
    by_cases heq : ns = textNs
    · rw [heq]
      exact hroom
    · exact (h.room hreadable).perm (hothers ns hreadable heq)⟩
  indexes := fun ns index hns' => by
    by_cases heq : ns = textNs
    · rw [heq] at hns' ⊢
      exact ⟨hns, hindex index hns'⟩
    · rw [hget ns heq] at hns'
      obtain ⟨hreadable, hof⟩ := h.indexes ns index hns'
      exact ⟨hreadable, hof.perm (hothers ns hreadable heq)⟩

/-- **Indexing a document** that meets the condition. -/
theorem Inv.indexDocument {seed : Seed} {text : String} {facets : Facets} (h : Inv tools law w)
    (hop : w.Meets tools law (.indexDocument seed ns key text facets)) :
    Returns tools sizing seeds w (.indexDocument seed ns key text facets) ∧
      Inv tools law (w.step tools sizing seeds (.indexDocument seed ns key text facets)) := by
  obtain ⟨⟨hne, hkey, hns⟩, ⟨hsidecar, hstorable⟩, htoken, hroom, haccepts, lsn, s', hput⟩ := hop
  obtain ⟨c, hc⟩ := h.ready.represents
  have hc' := law.put hc haccepts hput
  obtain ⟨index, loaded, hload, hof, -, hlang, hothers⟩ := h.ensureLoaded sizing seeds hns
  have hnodup : ((w.documents tools (textNamespace ns)).map Document.docId).Nodup := (law.isCorpus hc hns).nodup
  obtain ⟨hdocs, hlen⟩ := h.room hns
  obtain ⟨index', hindex, hof'⟩ := @InvertedIndex.Of.indexDocument sizing _ _
    ⟨key, tokenize tools w.index.language text, facets⟩ hof hnodup hdocs hlen seed htoken
  have hcall : w.index.indexDocument tools sizing store seeds seed ns key text facets w.state =
      some (.ok lsn, loaded.changed (textNamespace ns) index', s') := by
    rw [TextIndex.indexDocument, if_neg (not_or.mpr ⟨hne, hkey⟩)]
    dsimp only
    rw [hload]
    dsimp only
    rw [hindex, Option.map_some, hput]
    rfl
  have hstep : w.step tools sizing seeds (.indexDocument seed ns key text facets) =
      ⟨loaded.changed (textNamespace ns) index', s'⟩ := by
    rw [step, hcall]
  refine ⟨by rw [Returns, hcall]; exact Option.some_ne_none _, ?_⟩
  rw [hstep]
  have hperm : (dropDocument (w.documents tools (textNamespace ns)) key ++
      [(⟨key, tokenize tools w.index.language text, facets⟩ : Document)]).Perm
        (documents tools (⟨loaded.changed (textNamespace ns) index', s'⟩ : TextWorld store) (textNamespace ns)) := by
    unfold documents
    rw [TextIndex.changed, hlang]
    exact law.documents_put hc hc' hns hstorable hsidecar
  refine h.change ⟨_, hc'⟩ (fun ns' hns' hne' => ?_) (fun ns' hne' => ?_) hns (hroom.perm hperm) ?_
  · unfold documents
    rw [TextIndex.changed, hlang]
    exact law.documents_of_ne hc hc' hns' hne'
  · rw [TextIndex.changed, HashTable.get_insert, if_neg hne'.symm]
    exact hothers ns' hne'
  · intro found hfound
    rw [TextIndex.changed, HashTable.get_insert, if_pos rfl] at hfound
    cases hfound
    exact hof'.perm hperm

theorem Room.drop {docs : List Document} (h : Room docs) (key : Bytes) : Room (dropDocument docs key) := by
  refine ⟨(List.length_filter_le _ _).trans_lt h.1, lt_of_le_of_lt ?_ h.2⟩
  exact (List.filter_sublist.map _).sum_le_sum fun _ _ => Nat.zero_le _

/-- **Deleting a document** that meets the condition. -/
theorem Inv.deleteDocument (h : Inv tools law w) (hop : w.Meets tools law (.deleteDocument ns key)) :
    Returns tools sizing seeds w (.deleteDocument ns key) ∧
      Inv tools law (w.step tools sizing seeds (.deleteDocument ns key)) := by
  obtain ⟨⟨hne, hkey, hns⟩, htoken, hlast, hnotLast⟩ := hop
  obtain ⟨c, hc⟩ := h.ready.represents
  obtain ⟨index, loaded, hload, hof, -, hlang, hothers⟩ := h.ensureLoaded sizing seeds hns
  have hnodup : ((w.documents tools (textNamespace ns)).map Document.docId).Nodup := (law.isCorpus hc hns).nodup
  have hroom := h.room hns
  obtain ⟨found, removed, hremove, hof'⟩ := hof.exists_removeDocument hnodup hroom.1 hroom.2 htoken
  have hzero : removed.totalDocs = 0 ↔ dropDocument (w.documents tools (textNamespace ns)) key = [] := by
    rw [hof'.totalDocs, ← UInt64.toNat_inj, UInt64.toNat_ofNat_of_lt' (hroom.drop key).1]
    exact List.length_eq_zero_iff
  by_cases hempty : dropDocument (w.documents tools (textNamespace ns)) key = []
  · -- the index is dropped, and so is the sidecar
    obtain ⟨haccepts, lsn, s₁, hdelete, haccepts', lsn', s₂, hdelete', -⟩ := hlast hempty
    have hc₁ := law.delete hc haccepts hdelete
    have hc₂ := law.delete hc₁ haccepts' hdelete'
    have hcall : w.index.deleteDocument tools sizing store seeds ns key w.state =
        some (.ok lsn', loaded.dropped (textNamespace ns), s₂) := by
      rw [TextIndex.deleteDocument, if_neg (not_or.mpr ⟨hne, hkey⟩)]
      dsimp only
      rw [hload]
      dsimp only
      rw [hremove, Option.map_some, if_pos (hzero.mpr hempty), hdelete]
      dsimp only
      rw [hdelete']
      rfl
    have hstep : w.step tools sizing seeds (.deleteDocument ns key) = ⟨loaded.dropped (textNamespace ns), s₂⟩ := by
      rw [step, hcall]
    refine ⟨by rw [Returns, hcall]; exact Option.some_ne_none _, ?_⟩
    rw [hstep]
    have hmid : ∀ ns', law.Readable ns' →
        (w.documents tools ns').Perm (storedDocuments tools w.index.language store s₁ ns') :=
      fun ns' hns' => law.documents_sidecar hc hc₁ hns'
    refine h.change ⟨_, hc₂⟩ (fun ns' hns' hne' => ?_) (fun ns' hne' => ?_) hns ?_ fun found hfound => ?_
    · unfold documents
      rw [TextIndex.dropped, hlang]
      exact (hmid ns' hns').trans (law.documents_of_ne hc₁ hc₂ hns' hne')
    · rw [TextIndex.dropped, HashTable.get_erase, if_neg hne'.symm]
      exact hothers ns' hne'
    · refine ((hroom.perm (hmid _ hns)).drop key).perm ?_
      unfold documents
      rw [TextIndex.dropped, hlang]
      exact law.documents_delete hc₁ hc₂ hns
    · rw [TextIndex.dropped, HashTable.get_erase, if_pos rfl] at hfound
      cases hfound
  · obtain ⟨haccepts, lsn, s', hdelete, -⟩ := hnotLast hempty
    have hc' := law.delete hc haccepts hdelete
    have hcall : w.index.deleteDocument tools sizing store seeds ns key w.state =
        some (.ok lsn, loaded.changed (textNamespace ns) removed, s') := by
      rw [TextIndex.deleteDocument, if_neg (not_or.mpr ⟨hne, hkey⟩)]
      dsimp only
      rw [hload]
      dsimp only
      rw [hremove, Option.map_some, if_neg (hzero.not.mpr hempty), hdelete]
      rfl
    have hstep : w.step tools sizing seeds (.deleteDocument ns key) =
        ⟨loaded.changed (textNamespace ns) removed, s'⟩ := by
      rw [step, hcall]
    refine ⟨by rw [Returns, hcall]; exact Option.some_ne_none _, ?_⟩
    rw [hstep]
    have hperm : (dropDocument (w.documents tools (textNamespace ns)) key).Perm
        (documents tools (⟨loaded.changed (textNamespace ns) removed, s'⟩ : TextWorld store) (textNamespace ns)) := by
      unfold documents
      rw [TextIndex.changed, hlang]
      exact law.documents_delete hc hc' hns
    refine h.change ⟨_, hc'⟩ (fun ns' hns' hne' => ?_) (fun ns' hne' => ?_) hns ((hroom.drop key).perm hperm)
      fun found hfound => ?_
    · unfold documents
      rw [TextIndex.changed, hlang]
      exact law.documents_of_ne hc hc' hns' hne'
    · rw [TextIndex.changed, HashTable.get_insert, if_neg hne'.symm]
      exact hothers ns' hne'
    · rw [TextIndex.changed, HashTable.get_insert, if_pos rfl] at hfound
      cases hfound
      exact hof'.perm hperm

/-- **A change that leaves the documents** keeps the invariant, if the indexes in memory are still those of the same
documents. -/
theorem Inv.keep {w' : TextWorld store} (h : Inv tools law w) (hrep : ∃ c, law.Represents w'.state c)
    (hdocs : ∀ ns, law.Readable ns → (w.documents tools ns).Perm (w'.documents tools ns))
    (hget : ∀ ns index', w'.index.indices.get ns = some index' →
      ∃ index, w.index.indices.get ns = some index ∧ ∀ docs, index.Of docs → index'.Of docs) : Inv tools law w' where
  ready := ⟨hrep, fun ns hns => (h.room hns).perm (hdocs ns hns)⟩
  indexes := fun ns index' hindex' => by
    obtain ⟨index, hindex, hof⟩ := hget ns index' hindex'
    obtain ⟨hns, hindexOf⟩ := h.indexes ns index hindex
    exact ⟨hns, (hof _ hindexOf).perm (hdocs ns hns)⟩

/-- Sidecars that are written leave the documents. -/
theorem putAll_of_putsSidecars {l : List (Bytes × Bytes)} {s : store.State} {c : Contents} (tools : TextTools)
    (lang : TextLanguage) (hs : law.Represents s c) (h : PutsSidecars law l s) :
    ∃ lsns s' c', TextIndex.putAll store l s = (.ok lsns, s') ∧ law.Represents s' c' ∧
      ∀ ns, law.Readable ns →
        (storedDocuments tools lang store s ns).Perm (storedDocuments tools lang store s' ns) := by
  induction l generalizing s c with
  | nil => exact ⟨[], s, c, rfl, hs, fun _ _ => List.Perm.refl _⟩
  | cons pair rest ih =>
    obtain ⟨haccepts, lsn, s₁, hput, hrest⟩ := h
    have hs₁ := law.put hs haccepts hput
    obtain ⟨lsns, s', c', hputs, hs', hdocs⟩ := ih hs₁ hrest
    refine ⟨(pair.1, lsn) :: lsns, s', c', ?_, hs', fun ns hns => ?_⟩
    · rw [TextIndex.putAll]
      dsimp only
      rw [hput]
      dsimp only
      rw [hputs]
      rfl
    · exact (law.documents_sidecar hs hs₁ hns).trans (hdocs ns hns)

/-- What noting sidecars does: it sets their LSNs. -/
theorem get_foldl_persisted (lsns : List (Bytes × Lsn)) (t : TextIndex) :
    (lsns.foldl (fun t p => t.persisted p.1 p.2) t).language = t.language ∧
      ∀ ns index', (lsns.foldl (fun t p => t.persisted p.1 p.2) t).indices.get ns = some index' →
        ∃ index, t.indices.get ns = some index ∧ ∀ docs, index.Of docs → index'.Of docs := by
  induction lsns generalizing t with
  | nil => exact ⟨rfl, fun ns index hindex => ⟨index, hindex, fun _ => id⟩⟩
  | cons p lsns ih =>
    obtain ⟨hlang, hget⟩ := ih (t.persisted p.1 p.2)
    refine ⟨hlang, fun ns index' hindex' => ?_⟩
    obtain ⟨mid, hmid, hof⟩ := hget ns index' hindex'
    unfold TextIndex.persisted at hmid
    dsimp only at hmid
    split at hmid
    case h_1 index hindex =>
      rw [HashTable.get_insert] at hmid
      split at hmid
      case isTrue heq =>
        cases hmid
        exact ⟨index, heq ▸ hindex, fun docs hdocs =>
          hof docs ⟨hdocs.postings, hdocs.totalDocs, hdocs.totalDocLen, hdocs.complete⟩⟩
      case isFalse => exact ⟨mid, hmid, hof⟩
    case h_2 => exact ⟨mid, hmid, hof⟩

/-- **Writing sidecars** that meets the condition. -/
theorem Inv.persist (h : Inv tools law w) (hop : PutsSidecars law w.index.toPersist w.state) :
    Inv tools law (w.step tools sizing seeds .persist) := by
  obtain ⟨c, hc⟩ := h.ready.represents
  obtain ⟨lsns, s', c', hputs, hc', hdocs⟩ := putAll_of_putsSidecars tools w.index.language hc hop
  by_cases hclean : w.index.dirty = ∅
  · have hstep : w.step tools sizing seeds .persist = w := by
      rw [step, TextIndex.persist, if_pos hclean]
    rw [hstep]
    exact h
  · have hstep : w.step tools sizing seeds .persist =
        ⟨lsns.foldl (fun t p => t.persisted p.1 p.2) w.index, s'⟩ := by
      rw [step, TextIndex.persist, if_neg hclean]
      dsimp only
      rw [hputs]
    rw [hstep]
    obtain ⟨hlang, hget⟩ := get_foldl_persisted lsns w.index
    refine h.keep ⟨c', hc'⟩ (fun ns hns => ?_) hget
    unfold documents
    rw [hlang]
    exact hdocs ns hns

/-- **A call that meets the condition** does not panic, and keeps the indexes those of the stored documents. -/
theorem Inv.step {op : TextOp store} (h : Inv tools law w) (hop : w.Meets tools law op) :
    Returns tools sizing seeds w op ∧ Inv tools law (w.step tools sizing seeds op) := by
  cases op with
  | indexDocument seed ns key text facets => exact h.indexDocument hop
  | deleteDocument ns key => exact h.deleteDocument hop
  | persist => exact ⟨trivial, h.persist hop⟩
  | load ns =>
    obtain ⟨index, loaded, hload, hof, hget, hlang, hothers⟩ := h.ensureLoaded sizing seeds hop
    have hstep : w.step tools sizing seeds (.load ns) = { w with index := loaded } := by
      rw [TextWorld.step, hload]
    rw [hstep]
    have hdocs : ∀ ns, documents tools { w with index := loaded } ns = w.documents tools ns := by
      intro ns
      unfold documents
      rw [hlang]
    refine ⟨trivial, h.change h.ready.represents (fun ns' _ _ => ?_) hothers hop ?_ fun found hfound => ?_⟩
    · rw [hdocs]
    · rw [hdocs]
      exact h.room hop
    · rw [hdocs]
      rw [hget] at hfound
      cases hfound
      exact hof
  | reorder textNs index =>
    obtain ⟨old, hold, hsame, hbloom⟩ := hop
    refine ⟨trivial, h.keep h.ready.represents (fun ns _ => List.Perm.refl _) fun ns index' hindex' => ?_⟩
    rw [TextWorld.step, HashTable.get_insert] at hindex'
    split at hindex'
    case isTrue heq =>
      cases hindex'
      exact ⟨old, heq ▸ hold, fun docs hof => hof.reordered hsame hbloom⟩
    case isFalse => exact ⟨index', hindex', fun _ => id⟩
  | crash lang state =>
    refine ⟨trivial, hop, fun textNs index hindex => ?_⟩
    rw [TextWorld.step, TextIndex.withLanguage] at hindex
    cases hindex

/-- **The indexes are those of the stored documents**: in a run whose calls meet the condition, no call panics, and
afterwards the indexes are consistent with the store. -/
theorem consistent_run {lang : TextLanguage} {s : store.State} {ops : List (TextOp store)}
    (hs : Ready tools law lang s)
    (h : Run.All (step tools sizing seeds) (Meets tools law) ⟨.withLanguage lang, s⟩ ops) :
    Run.All (step tools sizing seeds) (Returns tools sizing seeds) ⟨.withLanguage lang, s⟩ ops ∧
      Consistent tools sizing seeds law
        (Run.from (step tools sizing seeds) ⟨.withLanguage lang, s⟩ ops) := by
  have hinv : Inv tools law ⟨.withLanguage lang, s⟩ := ⟨hs, fun _ _ hindex => nomatch hindex⟩
  refine ⟨h.imp_of_invariant (I := Inv tools law) (fun _ _ hw hop => (hw.step hop).2)
    (fun _ _ hw hop => (hw.step hop).1) hinv, ?_⟩
  exact (h.invariant (I := Inv tools law) (fun _ _ hw hop => (hw.step hop).2) hinv).consistent sizing seeds

/-! ### A run of every call -/

/-- A text index without documents. -/
def empty : TextWorld plainStore := ⟨.withLanguage .english, .empty⟩

/-- A crash of the plain store, which keeps the pairs of one namespace. -/
theorem ready_plainStore {lang : TextLanguage} {pairs : HashTable (Bytes × Bytes) Bytes} (textNs : Bytes)
    (hns : ∀ e ∈ pairs.entries, e.1.1 = textNs)
    (hroom : Room (storedDocuments plainTools lang plainStore pairs textNs)) :
    Ready plainTools plainLaw lang (pairs : plainStore.State) where
  represents := ⟨_, rfl⟩
  room := by
    intro other _
    by_cases heq : other = textNs
    · rw [heq]
      exact hroom
    · -- there is nothing in another namespace
      have hnone : (pairs.entries.filter fun e => e.1.1 = other) = [] :=
        List.filter_eq_nil_iff.mpr fun e he => by simpa [hns e he] using Ne.symm heq
      have hdocs : storedDocuments plainTools lang plainStore pairs other = [] := by
        show (((pairs.entries.filter fun e => e.1.1 = other).map _).filterMap _) = _
        rw [hnone]
        rfl
      rw [hdocs]
      exact ⟨by decide, by decide⟩

/-- The plain store accepts the sidecars. -/
theorem putsSidecars_plainStore (l : List (Bytes × Bytes)) (pairs : plainStore.State) :
    PutsSidecars plainLaw l pairs := by
  induction l generalizing pairs with
  | nil => trivial
  | cons pair l ih => exact ⟨trivial, _, _, rfl, ih _⟩

/-- A document can be indexed in the plain store. -/
theorem meets_indexDocument_plainStore {w : TextWorld plainStore} {seed : Seed} {ns key : Bytes} {text : String}
    {facets : Facets} (hns : ns ≠ []) (hkey : key ≠ [] ∧ key ≠ textIndexKey)
    (hstorable : (⟨text, facets⟩ : TextRecord).Storable)
    (htokens : ∀ doc ∈ w.documents plainTools (textNamespace ns), doc.docId = key → doc.tokens ≠ [])
    (hroom : Room (dropDocument (w.documents plainTools (textNamespace ns)) key ++
      [⟨key, tokenize plainTools w.index.language text, facets⟩])) :
    w.Meets plainTools plainLaw (.indexDocument seed ns key text facets) :=
  ⟨⟨hns, hkey.1, trivial⟩, ⟨hkey.2, hstorable⟩, htokens, hroom, trivial, _, _, rfl⟩

/-- Two documents are indexed, the first again, the second is deleted, and the sidecar is written in between. -/
def sessionCalls : List (TextOp plainStore) := [
  .indexDocument (fun _ => 0) [1] [1] "the zeta of a theta" mixedFacets,
  .indexDocument (fun _ => 0) [1] [2] "zeta zeta" .empty,
  .persist,
  .indexDocument (fun _ => 0) [1] [1] "theta" .empty,
  .deleteDocument [1] [2]]

/-- What is left when the session ends. -/
def sessionEnd : TextWorld plainStore := Run.from (step plainTools smallSizing fun _ _ => 0) empty sessionCalls

/-- A session, a crash, a load of the namespace, and one more document. -/
theorem consistent_run_session :
    let ops := sessionCalls ++
      [.crash .english sessionEnd.state, .load [1], .indexDocument (fun _ => 0) [1] [3] "zeta" mixedFacets]
    Run.All (step plainTools smallSizing fun _ _ => 0) (Returns plainTools smallSizing fun _ _ => 0) empty ops ∧
      Consistent plainTools smallSizing (fun _ _ => 0) plainLaw
        (Run.from (step plainTools smallSizing fun _ _ => 0) empty ops) := by
  intro ops
  have hempty : Ready plainTools plainLaw .english (HashTable.empty : HashTable (Bytes × Bytes) Bytes) :=
    ready_plainStore [] (fun _ he => by cases he) ⟨by decide, by decide⟩
  have hend : Ready plainTools plainLaw .english sessionEnd.state :=
    ready_plainStore (textNamespace [1]) (by decide +kernel) (by unfold Room; decide +kernel)
  have hplain : ∀ {text : String}, (utf8Bytes text).length < 256 ^ 4 → (⟨text, .empty⟩ : TextRecord).Storable :=
    fun htext => ⟨htext, Nat.zero_lt_succ _, fun e he => by cases he⟩
  refine consistent_run hempty ⟨?_, ?_, ?_, ?_, ?_, hend, trivial, ?_, trivial⟩
  · refine meets_indexDocument_plainStore (by decide) (by decide) (storable_mixedFacets (by decide +kernel)) ?_ ?_
    · decide +kernel
    · unfold Room
      decide +kernel
  · refine meets_indexDocument_plainStore (by decide) (by decide) (hplain (by decide +kernel)) ?_ ?_
    · decide +kernel
    · unfold Room
      decide +kernel
  · exact putsSidecars_plainStore _ _
  · refine meets_indexDocument_plainStore (by decide) (by decide) (hplain (by decide +kernel)) ?_ ?_
    · decide +kernel
    · unfold Room
      decide +kernel
  · refine ⟨⟨by decide, by decide, trivial⟩, by decide +kernel, fun hlast => ?_, fun _ => ⟨trivial, _, _, rfl, trivial⟩⟩
    exact ⟨trivial, _, _, rfl, trivial, _, _, rfl, trivial⟩
  · refine meets_indexDocument_plainStore (by decide) (by decide) (storable_mixedFacets (by decide +kernel)) ?_ ?_
    · decide +kernel
    · unfold Room
      decide +kernel

/-- A new database. -/
def newDatabase : World := Run.from (World.step plainExternals) {} [{ op := .open {} }]

/-- An empty text is indexed twice under the same key, in a text index over an engine. -/
def emptyTwice (e : Engine) : TextWorld (engineStore plainExternals) :=
  Run.from (step plainTools smallSizing fun _ _ => 0) ⟨.withLanguage .english, ⟨e, fun _ => 0⟩, newDatabase.fs⟩
    [.indexDocument (fun _ => 0) [1] [1] "" .empty, .indexDocument (fun _ => 0) [1] [1] "" .empty]

/-- **A document without tokens that is indexed again** is counted twice. -/
theorem counted_twice : ∃ e ∈ newDatabase.engine, ∀ R,
    ¬ Consistent plainTools smallSizing (fun _ _ => 0) (engineLaw plainExternals R) (emptyTwice e) := by
  have hopen : newDatabase.engine.isSome = true := by decide +kernel
  obtain ⟨e, he⟩ := Option.isSome_iff_exists.mp hopen
  have htotal : ∀ e ∈ newDatabase.engine,
      ((emptyTwice e).index.indices.get (textNamespace [1])).map InvertedIndex.totalDocs = some 2 := by
    decide +kernel
  have hdocs : ∀ e ∈ newDatabase.engine,
      ((emptyTwice e).documents plainTools (textNamespace [1])).length = 1 := by
    decide +kernel
  refine ⟨e, he, fun R h => ?_⟩
  obtain ⟨index, hindex, htwo⟩ := Option.map_eq_some_iff.mp (htotal e he)
  have hcount := (h.totals _ index hindex).1
  rw [htwo, hdocs e he] at hcount
  exact absurd hcount (by decide)

end TextWorld
