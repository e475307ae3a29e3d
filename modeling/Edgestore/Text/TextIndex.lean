import Edgestore.Engine.PrefixScan
import Edgestore.Text.Record
import Edgestore.Text.Search
import Edgestore.Text.Tokenizer
import Mathlib.Data.Finset.Insert
import Mathlib.Data.Finset.Basic

/-!
# The text index

The inverted indexes of some namespaces, over a store that holds the documents. A document is a text record under
its key; the sidecar of a namespace has a key of its own. The first call on a namespace loads its index from the
documents; later calls change the index in memory, and then write to the store. Assertions that fail are panics, and
have no result.

## Main definitions

* `TextStore`: what the text index needs of an engine; `engineStore`: the engine
* `TextIndex`: the indexes in memory, and which of them are ahead of their sidecars
* `TextIndex.indexDocument`, `TextIndex.deleteDocument`, `TextIndex.persist`
* `rebuildFromEngine`, `TextIndex.ensureLoaded`: loading
* `TextIndex.searchWithOptions`
-/

/-- What the text index needs of an engine. A call that fails may have changed the state. -/
structure TextStore where
  State : Type
  put (ns key val : Bytes) : State → Except EdgestoreError Lsn × State
  delete (ns key : Bytes) : State → Except EdgestoreError Lsn × State
  get : State → (ns key : Bytes) → Except EdgestoreError (Option Bytes)
  scan : State → (ns : Bytes) → Except EdgestoreError (List (Bytes × Bytes))

/-- A call to an engine on a directory. -/
def runOnEngine {X : Externals} {α : Type} (m : Exec X Engine α) (s : Process Engine × Fs) :
    Except EdgestoreError α × (Process Engine × Fs) :=
  let r := m.run s.1 s.2
  (r.1, r.2.1, (disk X).run r.2.2 s.2)

/-- The engine. All documents are scanned with an empty prefix. -/
def engineStore (X : Externals) : TextStore where
  State := Process Engine × Fs
  put ns key val := runOnEngine (Engine.put (X := X) ns key val)
  delete ns key := runOnEngine (Engine.delete (X := X) ns key)
  get s ns key := Engine.get X s.2 s.1.state ns key
  scan s ns := s.1.state.prefixInner s.2 ns []

/-- The key of the sidecar, `__index__`. -/
def textIndexKey : Bytes := [95, 95, 105, 110, 100, 101, 120, 95, 95]

/-- The namespace of the documents of a namespace, `__text__` and its name. -/
def textNamespace (ns : Bytes) : Bytes := [95, 95, 116, 101, 120, 116, 95, 95] ++ ns

/-- The inverted indexes in memory, and the namespaces whose index is ahead of its sidecar. -/
structure TextIndex where
  indices : HashTable Bytes InvertedIndex
  language : TextLanguage
  dirty : Finset Bytes

/-- An index with the given language. -/
def TextIndex.withLanguage (language : TextLanguage) : TextIndex := ⟨.empty, language, ∅⟩

/-- The document of a stored pair, unless it is the sidecar, or no record. -/
def storedDocument (tools : TextTools) (lang : TextLanguage) (pair : Bytes × Bytes) : Option Document :=
  if pair.1 = textIndexKey then none
  else
    (decodeTextRecord pair.2).map fun record =>
      { docId := pair.1, tokens := tokenize tools lang record.text, facets := record.facets }

section

variable (tools : TextTools) (sizing : BloomSizing) (store : TextStore) (seeds : ℕ → Seed)

/-- Make the index of a namespace from its documents. -/
def rebuildFromEngine (lang : TextLanguage) (s : store.State) (textNs : Bytes) : Except EdgestoreError InvertedIndex :=
  (store.scan s textNs).map fun pairs =>
    (InvertedIndex.new sizing (seeds 0)).addDocuments sizing (fun n => seeds (n + 1))
      (pairs.filterMap (storedDocument tools lang))

namespace TextIndex

/-- Load the index of a namespace, and look it up. -/
def ensureLoaded (t : TextIndex) (s : store.State) (textNs : Bytes) :
    Except EdgestoreError (InvertedIndex × TextIndex) :=
  match t.indices.get textNs with
  | some index => .ok (index, t)
  | none =>
    (rebuildFromEngine tools sizing store seeds t.language s textNs).map fun rebuilt =>
      (rebuilt, { t with indices := t.indices.insert textNs rebuilt })

/-- Index a document: first in memory, then in the store. The last seed is for a filter that has to grow. -/
def indexDocument (seed : Seed) (ns key : Bytes) (text : String) (facets : Facets) (t : TextIndex)
    (s : store.State) : Option (Except EdgestoreError Lsn × TextIndex × store.State) :=
  if ns = [] ∨ key = [] then none
  else
    let tokens := tokenize tools t.language text
    let textNs := textNamespace ns
    match t.ensureLoaded tools sizing store seeds s textNs with
    | .error err => some (.error err, t, s)
    | .ok (index, t) =>
      (index.indexDocument sizing seed key tokens facets).map fun index =>
        let t := { t with indices := t.indices.insert textNs index, dirty := insert textNs t.dirty }
        let r := store.put textNs key (encodeTextRecord ⟨text, facets⟩) s
        (r.1, t, r.2)

/-- Delete a document. The index of a namespace is dropped with its last document, and so is the sidecar. -/
def deleteDocument (ns key : Bytes) (t : TextIndex) (s : store.State) :
    Option (Except EdgestoreError Lsn × TextIndex × store.State) :=
  if ns = [] ∨ key = [] then none
  else
    let textNs := textNamespace ns
    match t.ensureLoaded tools sizing store seeds s textNs with
    | .error err => some (.error err, t, s)
    | .ok (index, t) =>
      (index.removeDocument key).map fun (removed : Bool × InvertedIndex) =>
        if removed.2.totalDocs = 0 then
          let t := { t with indices := t.indices.erase textNs, dirty := t.dirty.erase textNs }
          let sidecar := store.delete textNs textIndexKey s
          match sidecar.1 with
          | .error err => (.error err, t, sidecar.2)
          | .ok _ =>
            let r := store.delete textNs key sidecar.2
            (r.1, t, r.2)
        else
          let t := { t with indices := t.indices.insert textNs removed.2, dirty := insert textNs t.dirty }
          let r := store.delete textNs key s
          (r.1, t, r.2)

/-- Write sidecars, until one fails. -/
def putAll : List (Bytes × Bytes) → store.State → Except EdgestoreError (List (Bytes × Lsn)) × store.State
  | [], s => (.ok [], s)
  | (ns, bytes) :: rest, s =>
    let r := store.put ns textIndexKey bytes s
    match r.1 with
    | .error err => (.error err, r.2)
    | .ok lsn =>
      let rs := putAll rest r.2
      (rs.1.map ((ns, lsn) :: ·), rs.2)

/-- Note that the sidecar of a namespace has been written. -/
def persisted (t : TextIndex) (ns : Bytes) (lsn : Lsn) : TextIndex :=
  { t with
    indices :=
      match t.indices.get ns with
      | some index => t.indices.insert ns { index with sidecarLsn := UInt64.ofNat lsn }
      | none => t.indices
    dirty := t.dirty.erase ns }

/-- The sidecars to be written: those of the indexes in memory that are ahead of theirs. -/
def toPersist (t : TextIndex) : List (Bytes × Bytes) :=
  (t.indices.entries.filter fun e => e.1 ∈ t.dirty).map fun e => (e.1, e.2.serialize)

/-- Write the sidecars of the indexes that are ahead of theirs. -/
def persist (t : TextIndex) (s : store.State) : Except EdgestoreError Unit × TextIndex × store.State :=
  if t.dirty = ∅ then (.ok (), t, s)
  else
    let written := putAll store t.toPersist s
    match written.1 with
    | .error err => (.error err, t, written.2)
    | .ok lsns => (.ok (), lsns.foldl (fun t p => t.persisted p.1 p.2) t, written.2)

/-- Search with options. -/
def searchWithOptions {S : Type} [AddCommMonoid S] [LinearOrder S] (scoring : Scoring S) (ns : Bytes)
    (query : String) (options : SearchOptions) (t : TextIndex) (s : store.State) :
    Option (Except EdgestoreError (List (TextSearchResult S)) × TextIndex) :=
  if ns = [] then none
  else if options.limit = 0 then some (.ok [], t)
  else
    let queryTokens := tokenize tools t.language query
    if queryTokens.isEmpty then some (.ok [], t)
    else
      match t.ensureLoaded tools sizing store seeds s (textNamespace ns) with
      | .error err => some (.error err, t)
      | .ok (index, t) =>
        if index.totalDocs = 0 then some (.ok [], t)
        else some (.ok (searchInIndex scoring index queryTokens options), t)

end TextIndex

end

/-! ### What a call does -/

section

variable {tools : TextTools} {sizing : BloomSizing} {store : TextStore} {seeds : ℕ → Seed} {seed : Seed}
  {t t' : TextIndex} {s s' : store.State} {ns key : Bytes} {text : String} {facets : Facets}

namespace TextIndex

/-- The index as it is left in memory, ahead of its sidecar. -/
def changed (t : TextIndex) (textNs : Bytes) (index : InvertedIndex) : TextIndex :=
  { t with indices := t.indices.insert textNs index, dirty := insert textNs t.dirty }

/-- The index as it is left when the last document of a namespace is gone. -/
def dropped (t : TextIndex) (textNs : Bytes) : TextIndex :=
  { t with indices := t.indices.erase textNs, dirty := t.dirty.erase textNs }

/-- Indexing a document fails when the index cannot be loaded; else the index changes, and a record is put. -/
theorem indexDocument_cases {r : Except EdgestoreError Lsn}
    (h : t.indexDocument tools sizing store seeds seed ns key text facets s = some (r, t', s')) :
    (∃ err, t.ensureLoaded tools sizing store seeds s (textNamespace ns) = .error err ∧
      r = .error err ∧ t' = t ∧ s' = s) ∨
    ∃ index loaded index', t.ensureLoaded tools sizing store seeds s (textNamespace ns) = .ok (index, loaded) ∧
      index.indexDocument sizing seed key (tokenize tools t.language text) facets = some index' ∧
      t' = loaded.changed (textNamespace ns) index' ∧
      store.put (textNamespace ns) key (encodeTextRecord ⟨text, facets⟩) s = (r, s') := by
  unfold indexDocument at h
  split at h
  case isTrue => cases h
  case isFalse =>
    dsimp only at h
    split at h
    case h_1 err hload =>
      cases h
      exact .inl ⟨err, hload, rfl, rfl, rfl⟩
    case h_2 index loaded hload =>
      obtain ⟨index', hindex, heq⟩ := Option.map_eq_some_iff.mp h
      cases heq
      exact .inr ⟨index, loaded, index', hload, hindex, rfl, rfl⟩

/-- Deleting a document fails when the index cannot be loaded; else the index changes, or is dropped, and the key
is deleted, after that of the sidecar if the index is dropped. -/
theorem deleteDocument_cases {r : Except EdgestoreError Lsn}
    (h : t.deleteDocument tools sizing store seeds ns key s = some (r, t', s')) :
    (∃ err, t.ensureLoaded tools sizing store seeds s (textNamespace ns) = .error err ∧
      r = .error err ∧ t' = t ∧ s' = s) ∨
    ∃ index loaded found index',
      t.ensureLoaded tools sizing store seeds s (textNamespace ns) = .ok (index, loaded) ∧
      index.removeDocument key = some (found, index') ∧
      (index'.totalDocs = 0 ∧ t' = loaded.dropped (textNamespace ns) ∧
          ((∃ err, store.delete (textNamespace ns) textIndexKey s = (.error err, s') ∧ r = .error err) ∨
            ∃ lsn mid, store.delete (textNamespace ns) textIndexKey s = (.ok lsn, mid) ∧
              store.delete (textNamespace ns) key mid = (r, s')) ∨
        index'.totalDocs ≠ 0 ∧ t' = loaded.changed (textNamespace ns) index' ∧
          store.delete (textNamespace ns) key s = (r, s')) := by
  unfold deleteDocument at h
  split at h
  case isTrue => cases h
  case isFalse =>
    dsimp only at h
    split at h
    case h_1 err hload =>
      cases h
      exact .inl ⟨err, hload, rfl, rfl, rfl⟩
    case h_2 index loaded hload =>
      obtain ⟨⟨found, index'⟩, hremove, heq⟩ := Option.map_eq_some_iff.mp h
      refine .inr ⟨index, loaded, found, index', hload, hremove, ?_⟩
      split at heq
      case isTrue hempty =>
        refine .inl ⟨hempty, ?_⟩
        generalize hsidecar : store.delete (textNamespace ns) textIndexKey s = sidecar at heq
        obtain ⟨err | lsn, mid⟩ := sidecar
        · cases heq
          exact ⟨rfl, .inl ⟨err, rfl, rfl⟩⟩
        · cases heq
          exact ⟨rfl, .inr ⟨lsn, mid, rfl, rfl⟩⟩
      case isFalse hsome =>
        cases heq
        exact .inr ⟨hsome, rfl, rfl⟩

end TextIndex

end
