import Edgestore.Text.InvertedFile

/-!
# The filter as a shortcut

A document is only looked for in the postings when the filter says that it may be there. The plain algorithm looks
for it at every addition. Both are run by the same calls on the index of a namespace, each with its own seeds and
its own order of the tables: documents are indexed and deleted, the index is written and read back, and, after it
has been dropped, it is made anew from the stored documents, of which there is one for each key.

## Main definitions

* `InvertedIndex.plainIndexDocument`: the plain algorithm
* `Lockstep`: the indexes of both algorithms, by the same calls
* `Lockstep.Inv`: what holds of them throughout

## Main results

* `Lockstep.inv`: the indexes agree, and the filter contains every document with postings
* `Lockstep.shortcut`: the filter changes nothing, and both algorithms panic on the same calls
-/

namespace InvertedIndex

variable {sizing : BloomSizing} {index other : InvertedIndex}

/-- The plain algorithm: the old document is removed before the new one is added. -/
def plainIndexDocument (sizing : BloomSizing) (seed : Seed) (docId : Bytes) (tokens : List Token) (facets : Facets)
    (index : InvertedIndex) : Option InvertedIndex :=
  ((index.removeDocument docId).map Prod.snd).map
    (addDocument sizing seed docId tokens (UInt32.ofNat tokens.length) facets)

/-! ### No empty entries, and room in the fields -/

/-- Every term has a posting. -/
def NoEmpty (index : InvertedIndex) : Prop := ∀ term ps, index.postings.get term = some ps → ps ≠ []

theorem noEmpty_new (seed : Seed) : (new sizing seed).NoEmpty := fun _ _ h => by cases h

theorem NoEmpty.addDocument {seed : Seed} {docId : Bytes} {tokens : List Token} {docLenTokens : UInt32}
    {facets : Facets} (h : index.NoEmpty) :
    (index.addDocument sizing seed docId tokens docLenTokens facets).NoEmpty := by
  intro term ps hps
  rw [get_addDocument] at hps
  split at hps
  · cases hps
    exact List.append_ne_nil_of_right_ne_nil _ (List.cons_ne_nil _ _)
  · exact h term ps hps

theorem noEmpty_of_removeDocument {docId : Bytes} {found : Bool} {index' : InvertedIndex}
    (h : index.removeDocument docId = some (found, index')) : index'.NoEmpty := by
  intro term ps hps hnil
  rw [postings_removeDocument h, HashTable.get_retain, hnil] at hps
  exact absurd (Option.filter_eq_some_iff.mp hps).2 Bool.false_ne_true

theorem NoEmpty.of_agree (hempty : index.NoEmpty) (h : index.Agree other) : other.NoEmpty := by
  intro term ps hps hnil
  have hrel := h.postings term
  rw [hps, hnil] at hrel
  -- a term without postings had none before
  generalize hget : index.postings.get term = a at hrel
  cases hrel with
  | some hall => exact hempty term _ hget (List.forall₂_nil_right_iff.mp hall)

/-- A removal of a document without postings changes nothing. -/
theorem agree_without {docId : Bytes} (hempty : index.NoEmpty) (h : docId ∉ index.docIds) :
    index.Agree { index with postings := index.without docId } := by
  refine .of_eq rfl rfl fun term => ?_
  have hget : (index.without docId).get term = _ := get_without docId
  cases hps : index.postings.get term with
  | none =>
    rw [hps] at hget
    exact hget.symm
  | some ps =>
    have hall : ps.filter (·.docId ≠ docId) = ps := List.filter_eq_self.mpr fun p hp => by
      refine decide_eq_true fun hid => h (mem_docIds.mpr ⟨term, p, ?_, hid⟩)
      exact mem_postingsOf.mpr ⟨ps, hps, hp⟩
    rw [hps, Option.map_some, hall] at hget
    refine Eq.symm (hget.trans (Option.filter_some_pos ?_))
    cases ps with
    | nil => exact absurd rfl (hempty term [] hps)
    | cons p rest => rfl

theorem Agree.length_eq (h : index.Agree other) :
    index.postings.entries.length = other.postings.entries.length := by
  have hperm : (index.postings.entries.map Prod.fst).Perm (other.postings.entries.map Prod.fst) :=
    (List.perm_ext_iff_of_nodup index.postings.nodup other.postings.nodup).mpr fun term => h.mem_keys_iff
  rw [← List.length_map (f := Prod.fst), hperm.length_eq, List.length_map]

/-- Indexes that agree have room in the fields of a file together. -/
theorem Agree.storable (h : index.Agree other) (hother : other.Storable) : index.Storable where
  length_le := h.length_eq ▸ hother.length_le
  entries := by
    intro e he
    have hrel := h.postings e.1
    rw [HashTable.mem_entries_iff.mp he] at hrel
    generalize hget : other.postings.get e.1 = b at hrel
    cases hrel with
    | some hall =>
      obtain ⟨hterm, hlen, hps⟩ := hother.entries _ (HashTable.mem_entries_iff.mpr hget)
      refine ⟨hterm, hall.length_eq ▸ hlen, fun p hp => ?_⟩
      obtain ⟨i, hi, rfl⟩ := List.getElem_of_mem hp
      have hi' := hall.length_eq ▸ hi
      exact (hall.get hi hi').storable (hps _ (List.getElem_mem hi'))

end InvertedIndex

open InvertedIndex

/-! ### Two algorithms -/

/-- The index with the filter, and the index of the plain algorithm, by the same calls. -/
inductive Lockstep (sizing : BloomSizing) : InvertedIndex → InvertedIndex → Prop
  | new (seed seed' : Seed) : Lockstep sizing (InvertedIndex.new sizing seed) (InvertedIndex.new sizing seed')
  | indexDocument {i j i' j' : InvertedIndex} (seed seed' : Seed) (docId : Bytes) (tokens : List Token)
      (facets : Facets) : Lockstep sizing i j →
    i.indexDocument sizing seed docId tokens facets = some i' →
    j.plainIndexDocument sizing seed' docId tokens facets = some j' → Lockstep sizing i' j'
  | deleteDocument {i j i' j' : InvertedIndex} (docId : Bytes) {found found' : Bool} : Lockstep sizing i j →
    i.removeDocument docId = some (found, i') → j.removeDocument docId = some (found', j') →
      Lockstep sizing i' j'
  | reload {i j i' j' : InvertedIndex} (seed seed' : Seed) : Lockstep sizing i j → i.Storable →
    InvertedIndex.deserialize sizing seed i.serialize = .ok i' →
    InvertedIndex.deserialize sizing seed' j.serialize = .ok j' → Lockstep sizing i' j'
  | rebuild {i j : InvertedIndex} (seeds seeds' : ℕ → Seed) {docs : List Document}
      (hdocs : (docs.map Document.docId).Nodup) : Lockstep sizing i j →
    Lockstep sizing
      ((InvertedIndex.new sizing (seeds 0)).addDocuments sizing (fun n => seeds (n + 1)) docs)
      ((InvertedIndex.new sizing (seeds' 0)).addDocuments sizing (fun n => seeds' (n + 1)) docs)
  | reorderedLeft {i i' j : InvertedIndex} : Lockstep sizing i j → i.Same i' → i.docBloom = i'.docBloom →
    Lockstep sizing i' j
  | reorderedRight {i j j' : InvertedIndex} : Lockstep sizing i j → j.Same j' → Lockstep sizing i j'

namespace Lockstep

variable {sizing : BloomSizing} {i j i' j' : InvertedIndex}

/-- The invariant: the indexes agree, all postings of a document have one length, and the filter contains the
documents that have postings. -/
structure Inv (i j : InvertedIndex) : Prop where
  agree : i.Agree j
  uniform : j.Uniform
  noEmpty : j.NoEmpty
  complete : ∀ docId ∈ i.docIds, i.docBloom.mightContain docId = true

/-- **An addition to both**, of a document that neither has. -/
theorem Inv.addDocument (h : Inv i j) {docId : Bytes} (hdoc : docId ∉ j.docIds) (seed seed' : Seed)
    (tokens : List Token) (docLenTokens : UInt32) (facets : Facets) :
    Inv (i.addDocument sizing seed docId tokens docLenTokens facets)
      (j.addDocument sizing seed' docId tokens docLenTokens facets) where
  agree := h.agree.addDocument seed'
  uniform := h.uniform.addDocument hdoc fun _ _ => rfl
  noEmpty := h.noEmpty.addDocument
  complete := mightContain_addDocument h.complete

/-- **A removal from both** has the same outcome. -/
theorem Inv.removeDocument (h : Inv i j) (docId : Bytes) :
    Option.Rel (fun a b => Inv a.2 b.2 ∧ docId ∉ b.2.docIds) (i.removeDocument docId)
      (j.removeDocument docId) := by
  have hrel := h.agree.removeDocument h.uniform docId
  cases hi : i.removeDocument docId with
  | none =>
    cases hj : j.removeDocument docId with
    | none => exact .none
    | some b =>
      rw [hi, hj] at hrel
      cases hrel
  | some a =>
    cases hj : j.removeDocument docId with
    | none =>
      rw [hi, hj] at hrel
      cases hrel
    | some b =>
      rw [hi, hj] at hrel
      obtain ⟨found, i'⟩ := a
      obtain ⟨found', j'⟩ := b
      cases hrel with
      | some hab =>
        refine .some ⟨?_, fun hmem => ((docIds_removeDocument hj).mp hmem).2 rfl⟩
        refine ⟨hab.2, h.uniform.removeDocument hj, noEmpty_of_removeDocument hj, fun d hd => ?_⟩
        rw [docBloom_removeDocument hi]
        exact h.complete d ((docIds_removeDocument hi).mp hd).1

/-- **A document is indexed by both.** Where the filter denies the document, a removal would find nothing. -/
theorem Inv.indexDocument (h : Inv i j) (seed seed' : Seed) (docId : Bytes) (tokens : List Token)
    (facets : Facets) :
    Option.Rel Inv (i.indexDocument sizing seed docId tokens facets)
      (j.plainIndexDocument sizing seed' docId tokens facets) := by
  unfold InvertedIndex.indexDocument plainIndexDocument
  by_cases hbloom : i.docBloom.mightContain docId = true
  · rw [if_pos hbloom]
    have hrel := h.removeDocument docId
    generalize i.removeDocument docId = a, j.removeDocument docId = b at hrel
    cases hrel with
    | none => exact .none
    | some hab => exact .some (hab.1.addDocument hab.2 seed seed' tokens _ facets)
  · have hi : docId ∉ i.docIds := fun hmem => hbloom (h.complete docId hmem)
    have hj : docId ∉ j.docIds := fun hmem => hi (h.agree.symm.docIds hmem)
    have hremove := removeDocument_of_notMem hj
    have hinv : Inv i { j with postings := j.without docId } := by
      have hagree := agree_without h.noEmpty hj
      refine ⟨?_, hagree.symm.uniform h.uniform, noEmpty_of_removeDocument hremove, h.complete⟩
      exact h.agree.trans hagree
    rw [if_neg hbloom, hremove]
    exact .some (hinv.addDocument (fun hmem => ((docIds_removeDocument hremove).mp hmem).2 rfl)
      seed seed' tokens _ facets)

/-- A new filter, for both. -/
theorem Inv.rebuildBloom (h : Inv i j) (seed seed' : Seed) (capacity capacity' : ℕ) :
    Inv (i.rebuildBloomAtCapacity sizing seed capacity) (j.rebuildBloomAtCapacity sizing seed' capacity') where
  agree := ⟨h.agree.totalDocs, h.agree.totalDocLen, h.agree.postings⟩
  uniform := h.uniform
  noEmpty := h.noEmpty
  complete := fun _ => mightContain_rebuild seed capacity

theorem inv_new (seed seed' : Seed) : Inv (InvertedIndex.new sizing seed) (InvertedIndex.new sizing seed') where
  agree := .of_eq rfl rfl fun _ => rfl
  uniform := coherent_new
  noEmpty := noEmpty_new seed'
  complete := nofun

/-- **Documents are added to both**, one for each id. -/
theorem Inv.addDocuments {docs : List Document} (h : Inv i j) (seeds seeds' : ℕ → Seed)
    (hdocs : (docs.map Document.docId).Nodup) (hnew : ∀ doc ∈ docs, doc.docId ∉ j.docIds) :
    Inv (i.addDocuments sizing seeds docs) (j.addDocuments sizing seeds' docs) := by
  induction docs generalizing i j seeds seeds' with
  | nil => exact h
  | cons doc docs ih =>
    rw [List.map_cons, List.nodup_cons] at hdocs
    refine ih (h.addDocument (hnew doc List.mem_cons_self) _ _ doc.tokens doc.len doc.facets) _ _ hdocs.2 ?_
    intro doc' hdoc' hmem
    -- a later document is neither an old one nor the one that was added
    rcases docIds_addDocument hmem with hmem | hid
    · exact hnew doc' (List.mem_cons_of_mem _ hdoc') hmem
    · exact hdocs.1 (hid ▸ List.mem_map_of_mem hdoc')

/-- **The invariant holds throughout.** -/
theorem inv (h : Lockstep sizing i j) : Inv i j := by
  induction h with
  | new seed seed' => exact inv_new seed seed'
  | indexDocument seed seed' docId tokens facets _ hi hj ih =>
    have hrel : Option.Rel Inv (some _) (some _) := hi ▸ hj ▸ ih.indexDocument seed seed' docId tokens facets
    cases hrel with
    | some h => exact h
  | deleteDocument docId _ hi hj ih =>
    have hrel := ih.removeDocument docId
    rw [hi, hj] at hrel
    cases hrel with
    | some h => exact h.1
  | reload seed seed' _ hstorable hi hj ih =>
    rw [deserialize_serialize hstorable] at hi
    rw [deserialize_serialize (ih.agree.symm.storable hstorable)] at hj
    cases hi
    cases hj
    exact ih.rebuildBloom _ _ _ _
  | rebuild seeds seeds' hdocs _ _ => exact (inv_new _ _).addDocuments _ _ hdocs fun _ _ => nofun
  | reorderedLeft _ hsame hbloom ih =>
    refine ⟨hsame.agree.symm.trans ih.agree, ih.uniform, ih.noEmpty, fun docId hdoc => ?_⟩
    rw [← hbloom]
    exact ih.complete docId (hsame.agree.symm.docIds hdoc)
  | reorderedRight _ hsame ih =>
    exact ⟨ih.agree.trans hsame.agree, hsame.agree.symm.uniform ih.uniform, ih.noEmpty.of_agree hsame.agree,
      ih.complete⟩

/-- **The filter changes nothing**: the postings and the totals are those of the plain algorithm, no document with
postings is denied, and both algorithms panic on the same calls. -/
theorem shortcut (h : Lockstep sizing i j) :
    i.Agree j ∧ (∀ docId ∈ i.docIds, i.docBloom.mightContain docId = true) ∧
      (∀ seed seed' docId tokens facets,
        i.indexDocument sizing seed docId tokens facets = none ↔
          j.plainIndexDocument sizing seed' docId tokens facets = none) ∧
      ∀ docId, i.removeDocument docId = none ↔ j.removeDocument docId = none := by
  have hnone : ∀ {α β : Type} {R : α → β → Prop} {a : Option α} {b : Option β},
      Option.Rel R a b → (a = none ↔ b = none) := by
    intro α β R a b hrel
    cases hrel with
    | none => exact iff_of_true rfl rfl
    | some _ => exact iff_of_false (Option.some_ne_none _) (Option.some_ne_none _)
  refine ⟨h.inv.agree, h.inv.complete, fun seed seed' docId tokens facets => ?_, fun docId => ?_⟩
  · exact hnone (h.inv.indexDocument seed seed' docId tokens facets)
  · exact hnone (h.inv.removeDocument docId)

/-- A document is indexed twice, with a filter of one word. -/
theorem shortcut_twice :
    ∃ i j : InvertedIndex, i.Agree j ∧ i.totalDocs = 1 ∧ ∀ docId ∈ i.docIds, i.docBloom.mightContain docId = true := by
  have hfirst : Lockstep ⟨fun _ => 0, fun _ _ => 1⟩ _ _ :=
    .indexDocument (fun _ => 0) (fun _ => 0) [1] [⟨"alpha", 0⟩] .empty
      (.new (fun _ => 0) fun _ => 0) rfl rfl
  have hsecond := hfirst.indexDocument (fun _ => 0) (fun _ => 0) [1] [⟨"beta", 0⟩] .empty rfl rfl
  exact ⟨_, _, hsecond.shortcut.1, rfl, hsecond.shortcut.2.1⟩

end Lockstep
