import Edgestore.Text.StoredDocuments
import Mathlib.Data.List.Destutter
import Mathlib.Data.List.Sort

/-!
# Snippets

A snippet is a piece of a document around an occurrence of a query term: from some characters in front of it to some
characters behind the word. The positions come from the index, where they have 32 bits, and the text from the store.

## Main definitions

* `snippetAt`, `buildSnippets`: the snippets of a document
* `Snippet.OnTarget`: a snippet around the word at a position
* `HoldsDocument`, `Indexed`: a document whose postings, and whose record, are those of a text
* `SnippetsRight`: one snippet for each occurrence of a query term, on target

## Main results

* `HoldsDocument.sortedPositions_eq`: the positions that are found are those of the tokens with a query term
* `TextIndex.indexed_indexDocument`: a document that was put is indexed
* `buildSnippets_right_iff`: when the snippets are right
-/

/-- A piece of a document, and where in it a word is, in bytes. -/
structure Snippet where
  text : String
  byteStart : ℕ
  byteEnd : ℕ

/-- The characters with the Unicode property `White_Space`. -/
def isWhitespace (c : Char) : Bool :=
  (9 ≤ c.val ∧ c.val ≤ 13) ∨ c.val = 0x20 ∨ c.val = 0x85 ∨ c.val = 0xA0 ∨ c.val = 0x1680 ∨
    (0x2000 ≤ c.val ∧ c.val ≤ 0x200A) ∨ c.val = 0x2028 ∨ c.val = 0x2029 ∨ c.val = 0x202F ∨ c.val = 0x205F ∨
    c.val = 0x3000

/-- The sum of two sizes. When it overflows, a checked sum panics, and another one wraps. -/
def usizeAdd (checked : Bool) (a b : ℕ) : Option ℕ :=
  if a + b < 2 ^ 64 then some (a + b) else if checked then none else some ((a + b) % 2 ^ 64)

/-- Some of the characters. -/
def slice (chars : List Char) (start «end» : ℕ) : List Char := (chars.take «end»).drop start

/-- The end of the word at a position: the next whitespace, or the end of the text. -/
def charEndOf (chars : List Char) (charStart : ℕ) : ℕ :=
  match (chars.drop charStart).findIdx? isWhitespace with
  | some i => charStart + i
  | none => chars.length

/-- The snippet of a window around a word. -/
def snippetOf (chars : List Char) (ctxStart charStart charEnd ctxEnd : ℕ) : Snippet :=
  let byteStart := (utf8Bytes (String.ofList (slice chars ctxStart charStart))).length
  { text := String.ofList (slice chars ctxStart ctxEnd)
    byteStart := byteStart
    byteEnd := byteStart + (utf8Bytes (String.ofList (slice chars charStart charEnd))).length }

/-- The snippet around a position, unless this is behind the text. There is no result when a sum overflows and is
checked, or when a slice would end before it starts. -/
def snippetAt (checked : Bool) (chars : List Char) (contextChars : UInt64) (pos : UInt32) :
    Option (Option Snippet) :=
  let charStart := pos.toNat
  if chars.length ≤ charStart then some none
  else
    let charEnd := charEndOf chars charStart
    let ctxStart := charStart - contextChars.toNat
    (usizeAdd checked charEnd contextChars.toNat).bind fun sum =>
      let ctxEnd := min sum chars.length
      if ctxStart ≤ ctxEnd then some (some (snippetOf chars ctxStart charStart charEnd ctxEnd)) else none

/-- The snippets around some positions. -/
def snippetsAt (checked : Bool) (chars : List Char) (contextChars : UInt64) : List UInt32 → Option (List Snippet)
  | [] => some []
  | pos :: rest =>
    (snippetAt checked chars contextChars pos).bind fun found =>
      (snippetsAt checked chars contextChars rest).map fun snippets => found.toList ++ snippets

/-- The positions of the query terms in a document, term by term. -/
def charPositionsOf (index : InvertedIndex) (docId : Bytes) (queryTerms : List String) : List UInt32 :=
  index.postings.entries.flatMap fun e =>
    if e.1 ∈ queryTerms then
      match e.2.find? (·.docId = docId) with
      | some posting => posting.positions
      | none => []
    else []

/-- The positions in ascending order, each once. -/
def sortedPositions (positions : List UInt32) : List UInt32 :=
  (positions.mergeSort fun a b => a ≤ b).destutter (· ≠ ·)

/-- The snippets of a document. A record that does not decode has none. -/
def buildSnippets (checked : Bool) (store : TextStore) (index : InvertedIndex) (docId : Bytes)
    (queryTerms : List String) (s : store.State) (textNs : Bytes) (contextChars : UInt64) :
    Option (Except EdgestoreError (List Snippet)) :=
  if docId = [] ∨ textNs = [] then none
  else
    let charPositions := charPositionsOf index docId queryTerms
    if charPositions = [] then some (.ok [])
    else
      match store.get s textNs docId with
      | .error err => some (.error err)
      | .ok none => some (.ok [])
      | .ok (some raw) =>
        match decodeTextRecord raw with
        | none => some (.ok [])
        | some record =>
          (snippetsAt checked record.text.toList contextChars (sortedPositions charPositions)).map .ok

/-! ### Snippets on target -/

/-- The snippet is a piece of the text. In it, the slice in bytes begins at the position, and ends at the next
whitespace or at the end of the text. -/
def Snippet.OnTarget (chars : List Char) (pos : ℕ) (snippet : Snippet) : Prop :=
  ∃ front before word after back : List Char,
    chars = front ++ (before ++ (word ++ (after ++ back))) ∧ pos = (front ++ before).length ∧
      snippet.text = String.ofList (before ++ (word ++ after)) ∧
      snippet.byteStart = utf8Len before ∧ snippet.byteEnd = utf8Len (before ++ word) ∧
      (∀ c ∈ word, isWhitespace c = false) ∧ ∀ c ∈ (after ++ back).head?, isWhitespace c = true

variable {chars : List Char} {pos : ℕ} {snippet : Snippet} {a b c : ℕ}

/-- The slice in bytes is in the snippet. -/
theorem Snippet.OnTarget.bounds (h : snippet.OnTarget chars pos) :
    snippet.byteStart ≤ snippet.byteEnd ∧ snippet.byteEnd ≤ (utf8Bytes snippet.text).length := by
  obtain ⟨front, before, word, after, back, -, -, htext, hstart, hend, -⟩ := h
  rw [htext, hstart, hend, length_utf8Bytes_ofList, ← List.append_assoc, utf8Len_append (before ++ word),
    utf8Len_append before]
  omega

theorem slice_append (ha : a ≤ chars.length) (hab : a ≤ b) (hbc : b ≤ c) :
    slice chars a b ++ slice chars b c = slice chars a c := by
  have hlen : a ≤ (chars.take b).length := by
    rw [List.length_take]
    exact le_min hab ha
  have htake : chars.take c = chars.take b ++ (chars.take c).drop b := by
    have h := List.take_append_drop b (chars.take c)
    rwa [List.take_take, min_eq_left hbc, eq_comm] at h
  unfold slice
  conv_rhs => rw [htake, List.drop_append_of_le_length hlen]

theorem take_append_slice (hab : a ≤ b) : chars.take a ++ slice chars a b = chars.take b := by
  have h := slice_append (Nat.zero_le chars.length) (Nat.zero_le a) hab
  simpa only [slice, List.drop_zero] using h

/-- The word at a position has no whitespace, and ends where there is one. -/
theorem charEndOf_spec (hpos : pos ≤ chars.length) :
    pos ≤ charEndOf chars pos ∧ charEndOf chars pos ≤ chars.length ∧
      (∀ c ∈ slice chars pos (charEndOf chars pos), isWhitespace c = false) ∧
      ∀ c ∈ (chars.drop (charEndOf chars pos)).head?, isWhitespace c = true := by
  have hslice : ∀ i, slice chars pos (pos + i) = (chars.drop pos).take i := fun i => List.drop_take.trans
    (congrArg (List.take · _) (Nat.add_sub_cancel_left pos i))
  unfold charEndOf
  split
  case h_1 i hfound =>
    obtain ⟨hi, hspace, hbefore⟩ := List.findIdx?_eq_some_iff_getElem.mp hfound
    rw [List.length_drop] at hi
    refine ⟨Nat.le_add_right pos i, by omega, fun c hc => ?_, fun c hc => ?_⟩
    · rw [hslice] at hc
      obtain ⟨j, hj, rfl⟩ := List.mem_take_iff_getElem.mp hc
      exact Bool.not_eq_true _ ▸ hbefore j (by omega)
    · rw [← List.drop_drop, List.head?_drop, List.getElem?_eq_getElem (by rw [List.length_drop]; omega)] at hc
      cases hc
      exact hspace
  case h_2 hnone =>
    refine ⟨hpos, le_rfl, fun c hc => ?_, fun c hc => ?_⟩
    · rw [slice, List.take_length] at hc
      exact List.findIdx?_eq_none_iff.mp hnone c hc
    · rw [List.drop_length] at hc
      cases hc

/-- A snippet is on target if its window has the word and is in the text. -/
theorem onTarget_snippetOf (hpos : pos ≤ chars.length) (hfront : a ≤ pos) (hback : charEndOf chars pos ≤ c)
    (hc : c ≤ chars.length) : (snippetOf chars a pos (charEndOf chars pos) c).OnTarget chars pos := by
  obtain ⟨hword, hlen, hblank, hnext⟩ := charEndOf_spec hpos
  generalize charEndOf chars pos = b at *
  have hafter : slice chars b c ++ chars.drop c = chars.drop b := by
    have h := slice_append hlen hback hc
    rwa [slice, slice, slice, List.take_length] at h
  have hwindow : slice chars a c = slice chars a pos ++ (slice chars pos b ++ slice chars b c) := by
    rw [slice_append hpos hword hback, slice_append (hfront.trans hpos) hfront (hword.trans hback)]
  refine ⟨chars.take a, slice chars a pos, slice chars pos b, slice chars b c, chars.drop c, ?_, ?_, ?_, ?_, ?_,
    hblank, ?_⟩
  · rw [hafter, ← List.append_assoc, take_append_slice hfront, ← List.append_assoc, take_append_slice hword,
      List.take_append_drop]
  · rw [take_append_slice hfront, List.length_take, min_eq_left hpos]
  · rw [← hwindow]
    rfl
  · exact length_utf8Bytes_ofList _
  · rw [snippetOf, length_utf8Bytes_ofList, length_utf8Bytes_ofList, utf8Len_append]
  · rw [hafter]
    exact hnext

/-- A snippet ends behind its text if its window ends before the word does. -/
theorem lt_byteEnd_snippetOf (hab : a ≤ b) (hb : b ≤ chars.length) (hc : c < b) :
    (utf8Bytes (snippetOf chars 0 a b c).text).length < (snippetOf chars 0 a b c).byteEnd := by
  have hcut : slice chars 0 c ++ slice chars c b = slice chars 0 a ++ slice chars a b := by
    rw [slice_append (Nat.zero_le _) (Nat.zero_le _) hc.le, slice_append (Nat.zero_le _) (Nat.zero_le _) hab]
  have hrest : 0 < (slice chars c b).length := by
    rw [slice, List.length_drop, List.length_take]
    omega
  have hbytes := congrArg utf8Len hcut
  rw [utf8Len_append, utf8Len_append] at hbytes
  have hchars := length_le_utf8Len (slice chars c b)
  rw [snippetOf, length_utf8Bytes_ofList, length_utf8Bytes_ofList, length_utf8Bytes_ofList]
  show utf8Len (slice chars 0 c) < utf8Len (slice chars 0 a) + utf8Len (slice chars a b)
  omega

variable {checked : Bool} {contextChars : UInt64} {at32 : UInt32}

/-- A snippet whose end is summed up without an overflow. -/
theorem snippetAt_of_lt (checked : Bool) (hpos : at32.toNat < chars.length)
    (hsum : charEndOf chars at32.toNat + contextChars.toNat < 2 ^ 64) :
    ∃ snippet, snippetAt checked chars contextChars at32 = some (some snippet) ∧ snippet.OnTarget chars at32.toNat := by
  obtain ⟨hword, hlen, -⟩ := charEndOf_spec hpos.le
  have hfront : at32.toNat - contextChars.toNat ≤ at32.toNat := Nat.sub_le _ _
  have hback : charEndOf chars at32.toNat ≤ min (charEndOf chars at32.toNat + contextChars.toNat) chars.length :=
    le_min (Nat.le_add_right _ _) hlen
  refine ⟨_, ?_, onTarget_snippetOf hpos.le hfront hback (min_le_right _ _)⟩
  rw [snippetAt]
  dsimp only
  rw [if_neg (Nat.not_le.mpr hpos), usizeAdd, if_pos hsum, Option.bind_some,
    if_pos (hfront.trans (hword.trans hback))]

/-- If the sum overflows, then it panics when it is checked, and else the window ends before the word does. -/
theorem snippetAt_of_le (hlen : chars.length < 2 ^ 32) (hpos : at32.toNat < chars.length)
    (hsum : 2 ^ 64 ≤ charEndOf chars at32.toNat + contextChars.toNat) :
    snippetAt checked chars contextChars at32 = none ∨
      ∃ snippet, snippetAt checked chars contextChars at32 = some (some snippet) ∧
        (utf8Bytes snippet.text).length < snippet.byteEnd := by
  obtain ⟨hword, hend, -⟩ := charEndOf_spec hpos.le
  have hcontext := contextChars.toNat_lt
  unfold snippetAt
  dsimp only
  rw [if_neg (Nat.not_le.mpr hpos), usizeAdd, if_neg (Nat.not_lt.mpr hsum)]
  cases checked with
  | true => exact .inl rfl
  | false =>
    have hstart : at32.toNat - contextChars.toNat = 0 := by omega
    have hwrap : (charEndOf chars at32.toNat + contextChars.toNat) % 2 ^ 64 < charEndOf chars at32.toNat := by
      omega
    rw [if_neg Bool.false_ne_true, Option.bind_some, hstart, if_pos (Nat.zero_le _)]
    exact .inr ⟨_, rfl, lt_byteEnd_snippetOf hword hend ((min_le_left _ _).trans_lt hwrap)⟩

/-- The positions of the tokens are in the text, and have 32 bits. -/
def Addressed (chars : List Char) (tokens : List Token) : Prop :=
  ∀ token ∈ tokens, token.position < chars.length ∧ (UInt32.ofNat token.position).toNat = token.position

/-- The positions of some tokens, as they are recorded. -/
def recorded (tokens : List Token) : List UInt32 := tokens.map fun token => UInt32.ofNat token.position

/-- As many snippets as tokens. -/
theorem snippetsAt_of_lt (checked : Bool) {tokens : List Token} (hpos : Addressed chars tokens)
    (hsum : ∀ token ∈ tokens, charEndOf chars token.position + contextChars.toNat < 2 ^ 64) :
    ∃ snippets, snippetsAt checked chars contextChars (recorded tokens) = some snippets ∧
      List.Forall₂ (fun token snippet => snippet.OnTarget chars token.position) tokens snippets := by
  induction tokens with
  | nil => exact ⟨[], rfl, .nil⟩
  | cons token rest ih =>
    obtain ⟨hlt, hat⟩ := hpos token List.mem_cons_self
    obtain ⟨snippet, hsnippet, honTarget⟩ := snippetAt_of_lt checked (hat.symm ▸ hlt)
      (hat.symm ▸ hsum token List.mem_cons_self)
    obtain ⟨snippets, hrest, hall⟩ := ih (fun t ht => hpos t (List.mem_cons_of_mem _ ht))
      fun t ht => hsum t (List.mem_cons_of_mem _ ht)
    refine ⟨snippet :: snippets, ?_, .cons (hat ▸ honTarget) hall⟩
    rw [recorded, List.map_cons, snippetsAt, hsnippet, Option.bind_some]
    change (snippetsAt checked chars contextChars (recorded rest)).map _ = _
    rw [hrest]
    rfl

/-- The snippet at a position is among the snippets. -/
theorem mem_snippetsAt {positions : List UInt32} {snippets : List Snippet}
    (h : snippetsAt checked chars contextChars positions = some snippets) (hat : at32 ∈ positions) :
    ∃ found, snippetAt checked chars contextChars at32 = some found ∧ ∀ snippet ∈ found, snippet ∈ snippets := by
  induction positions generalizing snippets with
  | nil => cases hat
  | cons p rest ih =>
    rw [snippetsAt] at h
    obtain ⟨found, hfound, h⟩ := Option.bind_eq_some_iff.mp h
    obtain ⟨later, hlater, rfl⟩ := Option.map_eq_some_iff.mp h
    rcases List.mem_cons.mp hat with rfl | hat
    · exact ⟨found, hfound, fun snippet hs => List.mem_append_left _ (Option.mem_toList.mpr hs)⟩
    · obtain ⟨found', hfound', hmem⟩ := ih hlater hat
      exact ⟨found', hfound', fun snippet hs => List.mem_append_right _ (hmem snippet hs)⟩

/-! ### The positions of the query terms -/

theorem mem_destutter'_ne {x y : UInt32} {l : List UInt32} :
    x ∈ l.destutter' (· ≠ ·) y ↔ x = y ∨ x ∈ l := by
  induction l generalizing y with
  | nil => simp
  | cons z l ih =>
    rw [List.destutter'_cons]
    split
    case isTrue => rw [List.mem_cons, ih, List.mem_cons]
    case isFalse h => rw [ih, List.mem_cons, not_not.mp h, ← or_assoc, or_self]

theorem mem_sortedPositions {positions : List UInt32} : at32 ∈ sortedPositions positions ↔ at32 ∈ positions := by
  have hmem : (at32 ∈ positions.mergeSort fun a b => a ≤ b) ↔ at32 ∈ positions := List.mem_mergeSort
  rw [sortedPositions, ← hmem]
  cases positions.mergeSort fun a b => a ≤ b with
  | nil => rfl
  | cons y l => rw [List.destutter_cons', mem_destutter'_ne, List.mem_cons]

theorem sortedPositions_pairwise (positions : List UInt32) : (sortedPositions positions).Pairwise (· < ·) := by
  have hle : (sortedPositions positions).Pairwise (· ≤ ·) :=
    (List.pairwise_mergeSort' (· ≤ ·) positions).sublist (List.destutter_sublist _ _)
  have hne : (sortedPositions positions).IsChain (· ≠ ·) := List.isChain_destutter _ _
  -- neighbours ascend, and are different
  refine List.isChain_iff_pairwise.mp (List.isChain_iff_forall_rel_of_append_cons_cons.mpr ?_)
  intro a b before after heq
  exact UInt32.lt_of_le_of_ne (List.isChain_iff_forall_rel_of_append_cons_cons.mp hle.isChain heq)
    (List.isChain_iff_forall_rel_of_append_cons_cons.mp hne heq)


variable {tools : TextTools} {lang : TextLanguage} {index index' : InvertedIndex} {store : TextStore}
  {s : store.State} {textNs key other : Bytes} {text : String} {facets : Facets} {queryTerms : List String}
  {tokens : List Token}

/-- The positions of a document for a term. -/
def termPositions (tokens : List Token) (term : String) : List UInt32 :=
  (tokens.filter (·.term = term)).map fun token => UInt32.ofNat token.position

theorem get_termData (term : String) :
    (InvertedIndex.termData tokens).get term =
      if termPositions tokens term = [] then none else some (termPositions tokens term) := by
  rw [InvertedIndex.termData, HashTable.get_group, List.filter_map, List.map_map, termPositions]
  simp only [List.map_eq_nil_iff]
  rfl

theorem mem_termPositions {term : String} :
    at32 ∈ termPositions tokens term ↔
      ∃ token ∈ tokens, token.term = term ∧ UInt32.ofNat token.position = at32 := by
  unfold termPositions
  simp only [List.mem_map, List.mem_filter, decide_eq_true_eq, and_assoc]

/-- The index has the postings of a document with some tokens, and no other ones under its key. -/
def HoldsDocument (index : InvertedIndex) (key : Bytes) (tokens : List Token) (facets : Facets) : Prop :=
  ∀ term, (index.postingsOf term).filter (·.docId = key) =
    InvertedIndex.docPostings key tokens (UInt32.ofNat tokens.length) facets term

/-- The first posting under a key has the positions of the document. -/
theorem HoldsDocument.find (h : HoldsDocument index key tokens facets) {e : String × List Posting}
    (he : e ∈ index.postings.entries) :
    (match e.2.find? (·.docId = key) with
      | some posting => posting.positions
      | none => []) = termPositions tokens e.1 := by
  have hpostings : index.postingsOf e.1 = e.2 := by
    rw [InvertedIndex.postingsOf, HashTable.mem_entries_iff.mp he]
    rfl
  rw [← List.head?_filter, ← hpostings, h, InvertedIndex.docPostings, get_termData]
  by_cases hnone : termPositions tokens e.1 = []
  · rw [if_pos hnone, hnone]
    rfl
  · rw [if_neg hnone]
    rfl

/-- **The positions that are found** are those of the tokens with a query term. -/
theorem HoldsDocument.mem_charPositionsOf (h : HoldsDocument index key tokens facets) :
    at32 ∈ charPositionsOf index key queryTerms ↔
      ∃ token ∈ tokens.filter (·.term ∈ queryTerms), UInt32.ofNat token.position = at32 := by
  unfold charPositionsOf
  rw [List.mem_flatMap]
  constructor
  · rintro ⟨e, he, hat⟩
    split at hat
    case isTrue hquery =>
      rw [h.find he] at hat
      obtain ⟨token, htoken, hterm, hat⟩ := mem_termPositions.mp hat
      exact ⟨token, List.mem_filter.mpr ⟨htoken, decide_eq_true (hterm ▸ hquery)⟩, hat⟩
    case isFalse => cases hat
  · rintro ⟨token, htoken, hat⟩
    obtain ⟨htoken, hquery⟩ := List.mem_filter.mp htoken
    have hpos : at32 ∈ termPositions tokens token.term := mem_termPositions.mpr ⟨token, htoken, rfl, hat⟩
    have hposting : InvertedIndex.postingOf key (UInt32.ofNat tokens.length) facets (termPositions tokens token.term) ∈
        index.postingsOf token.term := by
      refine List.mem_of_mem_filter (p := (·.docId = key)) ?_
      rw [h, InvertedIndex.docPostings, get_termData, if_neg (List.ne_nil_of_mem hpos)]
      exact List.mem_singleton_self _
    obtain ⟨ps, hps, -⟩ := InvertedIndex.mem_postingsOf.mp hposting
    have he := HashTable.mem_entries_iff.mpr hps
    refine ⟨_, he, ?_⟩
    rw [if_pos (of_decide_eq_true hquery), h.find he]
    exact hpos

theorem HoldsDocument.charPositionsOf_eq_nil (h : HoldsDocument index key tokens facets) :
    charPositionsOf index key queryTerms = [] ↔ tokens.filter (·.term ∈ queryTerms) = [] := by
  rw [List.eq_nil_iff_forall_not_mem, List.eq_nil_iff_forall_not_mem]
  simp only [h.mem_charPositionsOf]
  exact ⟨fun hnone token htoken => hnone _ ⟨token, htoken, rfl⟩,
    fun hnone _ ⟨token, htoken, _⟩ => hnone token htoken⟩

/-- The positions ascend, and none is repeated. -/
theorem HoldsDocument.sortedPositions_eq (h : HoldsDocument index key tokens facets)
    (hascend : tokens.Pairwise fun a b => a.position < b.position) (hpos : Addressed chars tokens) :
    sortedPositions (charPositionsOf index key queryTerms) = recorded (tokens.filter (·.term ∈ queryTerms)) := by
  refine List.Pairwise.eq_of_mem_iff (sortedPositions_pairwise _) ?_ fun at32 => ?_
  · refine List.pairwise_map.mpr (List.Pairwise.imp_of_mem ?_ (hascend.sublist List.filter_sublist))
    intro a b ha hb hlt
    rw [UInt32.lt_iff_toNat_lt, (hpos a (List.mem_of_mem_filter ha)).2, (hpos b (List.mem_of_mem_filter hb)).2]
    exact hlt
  · rw [mem_sortedPositions, h.mem_charPositionsOf, recorded, List.mem_map]

/-! ### Changes of the index -/

section

variable {sizing : BloomSizing} {seed : Seed} {len : UInt32} {found : Bool}

theorem filter_docPostings (docId : Bytes) (term : String) :
    (InvertedIndex.docPostings docId tokens len facets term).filter (·.docId = key) =
      if docId = key then InvertedIndex.docPostings docId tokens len facets term else [] := by
  split
  case isTrue heq =>
    exact List.filter_eq_self.mpr fun p hp =>
      decide_eq_true ((InvertedIndex.docId_of_mem_docPostings hp).trans heq)
  case isFalse hne =>
    refine List.filter_eq_nil_iff.mpr fun p hp hid => hne ?_
    exact (InvertedIndex.docId_of_mem_docPostings hp).symm.trans (of_decide_eq_true hid)

/-- A document that is added to an index that has none under its key. -/
theorem holdsDocument_addDocument (h : key ∉ index.docIds) :
    HoldsDocument (index.addDocument sizing seed key tokens (UInt32.ofNat tokens.length) facets) key tokens facets := by
  intro term
  have hold : (index.postingsOf term).filter (·.docId = key) = [] :=
    List.filter_eq_nil_iff.mpr fun p hp hid =>
      h (InvertedIndex.mem_docIds.mpr ⟨term, p, hp, of_decide_eq_true hid⟩)
  rw [InvertedIndex.postingsOf_addDocument, List.filter_append, hold, filter_docPostings, if_pos rfl, List.nil_append]

/-- Other documents may be added. -/
theorem HoldsDocument.addDocument {tokens' : List Token} {facets' : Facets}
    (h : HoldsDocument index key tokens facets) (hne : other ≠ key) :
    HoldsDocument (index.addDocument sizing seed other tokens' len facets') key tokens facets := by
  intro term
  rw [InvertedIndex.postingsOf_addDocument, List.filter_append, h, filter_docPostings, if_neg hne, List.append_nil]

/-- Other documents may be removed. -/
theorem HoldsDocument.removeDocument (h : HoldsDocument index key tokens facets)
    (hremove : index.removeDocument other = some (found, index')) (hne : other ≠ key) :
    HoldsDocument index' key tokens facets := by
  intro term
  rw [InvertedIndex.postingsOf_removeDocument hremove, List.filter_filter, ← h term]
  refine List.filter_congr fun p _ => ?_
  by_cases hid : p.docId = key
  · rw [hid]
    exact (Bool.and_eq_left_iff_imp.mpr fun _ => decide_eq_true hne.symm)
  · rw [decide_eq_false hid, Bool.false_and]

/-- **What indexing a document leaves**, if the filter knows every document with postings. -/
theorem holdsDocument_indexDocument (hbloom : ∀ d ∈ index.docIds, index.docBloom.mightContain d = true)
    (h : index.indexDocument sizing seed key tokens facets = some index') : HoldsDocument index' key tokens facets := by
  unfold InvertedIndex.indexDocument at h
  obtain ⟨removed, hremoved, rfl⟩ := Option.map_eq_some_iff.mp h
  refine holdsDocument_addDocument fun hmem => ?_
  split at hremoved
  case isTrue =>
    obtain ⟨⟨found, removed⟩, hremove, rfl⟩ := Option.map_eq_some_iff.mp hremoved
    exact ((InvertedIndex.docIds_removeDocument hremove).mp hmem).2 rfl
  case isFalse hnew =>
    cases hremoved
    exact hnew (hbloom key hmem)

/-- Other documents may be indexed. -/
theorem HoldsDocument.indexDocument {tokens' : List Token} {facets' : Facets}
    (h : HoldsDocument index key tokens facets) (hne : other ≠ key)
    (hindex : index.indexDocument sizing seed other tokens' facets' = some index') :
    HoldsDocument index' key tokens facets := by
  unfold InvertedIndex.indexDocument at hindex
  obtain ⟨removed, hremoved, rfl⟩ := Option.map_eq_some_iff.mp hindex
  refine HoldsDocument.addDocument ?_ hne
  split at hremoved
  case isTrue =>
    obtain ⟨⟨found, removed⟩, hremove, rfl⟩ := Option.map_eq_some_iff.mp hremoved
    exact h.removeDocument hremove hne
  case isFalse =>
    cases hremoved
    exact h

end

/-! ### Documents that are indexed -/

/-- A document whose postings and whose record are those of a text. After a rebuild, the facets of the postings are
those that were read back. -/
structure Indexed (tools : TextTools) (lang : TextLanguage) (store : TextStore) (index : InvertedIndex)
    (s : store.State) (textNs key : Bytes) (text : String) (facets : Facets) : Prop where
  textNs_ne : textNs ≠ []
  key_ne : key ≠ []
  postings : ∃ indexed, HoldsDocument index key (tokenize tools lang text) indexed
  record : store.get s textNs key = .ok (some (encodeTextRecord ⟨text, facets⟩))

section

variable {sizing : BloomSizing} {seeds : ℕ → Seed} {seed : Seed} {t t' : TextIndex} {s' : store.State} {ns ns' : Bytes}

theorem textNamespace_ne_nil (ns : Bytes) : textNamespace ns ≠ [] := List.cons_ne_nil _ _

/-- **A document that was put is indexed**, if the filter knows every document with postings, and the store has what
was put. -/
theorem TextIndex.indexed_indexDocument {r : Except EdgestoreError Lsn} {loaded : TextIndex}
    (hload : t.ensureLoaded tools sizing store seeds s (textNamespace ns) = .ok (index, loaded))
    (hbloom : ∀ d ∈ index.docIds, index.docBloom.mightContain d = true)
    (h : t.indexDocument tools sizing store seeds seed ns key text facets s = some (r, t', s'))
    (hput : store.get s' (textNamespace ns) key = .ok (some (encodeTextRecord ⟨text, facets⟩))) :
    ∃ index', t'.indices.get (textNamespace ns) = some index' ∧
      Indexed tools t.language store index' s' (textNamespace ns) key text facets := by
  have hkey : key ≠ [] := by
    rintro rfl
    rw [TextIndex.indexDocument, if_pos (.inr rfl)] at h
    cases h
  rcases TextIndex.indexDocument_cases h with ⟨err, herr, -⟩ | ⟨_, _, index', hload', hindex, rfl, -⟩
  · rw [hload] at herr
    cases herr
  · rw [hload] at hload'
    cases hload'
    refine ⟨index', ?_, textNamespace_ne_nil ns, hkey, ⟨facets, holdsDocument_indexDocument hbloom hindex⟩, hput⟩
    rw [TextIndex.changed, HashTable.get_insert, if_pos rfl]

/-- A document stays indexed when another one is indexed in its namespace, if the store has its record. -/
theorem Indexed.indexDocument {r : Except EdgestoreError Lsn} {loaded : TextIndex} {text' : String} {facets' : Facets}
    (hload : t.ensureLoaded tools sizing store seeds s (textNamespace ns) = .ok (index, loaded))
    (h : Indexed tools lang store index s (textNamespace ns) key text facets) (hne : other ≠ key)
    (hcall : t.indexDocument tools sizing store seeds seed ns other text' facets' s = some (r, t', s'))
    (hkept : store.get s' (textNamespace ns) key = store.get s (textNamespace ns) key) :
    ∃ index', t'.indices.get (textNamespace ns) = some index' ∧
      Indexed tools lang store index' s' (textNamespace ns) key text facets := by
  obtain ⟨indexed, hpostings⟩ := h.postings
  rcases TextIndex.indexDocument_cases hcall with ⟨err, herr, -⟩ | ⟨_, _, index', hload', hindex, rfl, -⟩
  · rw [hload] at herr
    cases herr
  · rw [hload] at hload'
    cases hload'
    refine ⟨index', ?_, h.textNs_ne, h.key_ne, ⟨indexed, hpostings.indexDocument hne hindex⟩, hkept.trans h.record⟩
    rw [TextIndex.changed, HashTable.get_insert, if_pos rfl]

end

/-! ### When snippets are right -/

/-- One snippet for each of the tokens, on target. -/
def SnippetsRight (chars : List Char) (tokens : List Token)
    (outcome : Option (Except EdgestoreError (List Snippet))) : Prop :=
  ∃ snippets, outcome = some (.ok snippets) ∧
    List.Forall₂ (fun token snippet => snippet.OnTarget chars token.position) tokens snippets ∧
    ∀ snippet ∈ snippets, snippet.byteStart ≤ snippet.byteEnd ∧
      snippet.byteEnd ≤ (utf8Bytes snippet.text).length

/-- The record of a document has room for the length of its text and decodes, and no sum of the end of a word and
the context overflows. -/
structure SnippetsFit (chars : List Char) (tokens : List Token) (contextChars : UInt64) (record : TextRecord) :
    Prop where
  text : (utf8Bytes record.text).length < 256 ^ 4
  decodes : ∃ record', decodeTextRecord (encodeTextRecord record) = some record'
  sum : ∀ token ∈ tokens, charEndOf chars token.position + contextChars.toNat < 2 ^ 64

theorem snippetsRight_of_forall₂ {outcome : Option (Except EdgestoreError (List Snippet))} {snippets : List Snippet}
    (houtcome : outcome = some (.ok snippets))
    (h : List.Forall₂ (fun token snippet => snippet.OnTarget chars token.position) tokens snippets) :
    SnippetsRight chars tokens outcome := by
  refine ⟨snippets, houtcome, h, fun snippet hs => ?_⟩
  obtain ⟨i, hi, rfl⟩ := List.getElem_of_mem hs
  exact (h.get (h.length_eq ▸ hi) hi).bounds

/-- The snippets of an indexed document with some occurrences are made from what its record decodes to. -/
theorem Indexed.buildSnippets_eq (h : Indexed tools lang store index s textNs key text facets)
    (hsome : charPositionsOf index key queryTerms ≠ []) :
    buildSnippets checked store index key queryTerms s textNs contextChars =
      match decodeTextRecord (encodeTextRecord ⟨text, facets⟩) with
      | none => some (.ok [])
      | some record =>
        (snippetsAt checked record.text.toList contextChars
          (sortedPositions (charPositionsOf index key queryTerms))).map .ok := by
  unfold buildSnippets
  rw [if_neg (not_or.mpr ⟨h.key_ne, h.textNs_ne⟩)]
  dsimp only
  rw [if_neg hsome, h.record]

/-- A document without an occurrence has no snippets. -/
theorem Indexed.buildSnippets_of_nil (h : Indexed tools lang store index s textNs key text facets)
    (hnone : charPositionsOf index key queryTerms = []) :
    buildSnippets checked store index key queryTerms s textNs contextChars = some (.ok []) := by
  unfold buildSnippets
  rw [if_neg (not_or.mpr ⟨h.key_ne, h.textNs_ne⟩)]
  exact if_pos hnone

/-- The positions of a text whose length has room in a record have 32 bits. -/
theorem addressed_of_text (tools : TextTools) (lang : TextLanguage) (htext : (utf8Bytes text).length < 256 ^ 4) :
    text.toList.length < 2 ^ 32 ∧ Addressed text.toList (tokenize tools lang text) := by
  have hchars : text.toList.length < 2 ^ 32 := by
    refine (length_le_utf8Len text.toList).trans_lt ?_
    rwa [← length_utf8Bytes]
  refine ⟨hchars, fun token htoken => ?_⟩
  have hpos := position_lt_of_mem_tokenize htoken
  exact ⟨hpos, UInt32.toNat_ofNat_of_lt' (hpos.trans hchars)⟩

/-- The tokens of a text that have a query term. -/
def occurrences (tools : TextTools) (lang : TextLanguage) (text : String) (queryTerms : List String) : List Token :=
  (tokenize tools lang text).filter (·.term ∈ queryTerms)

/-- The snippets of an indexed document, if its record decodes. -/
theorem Indexed.buildSnippets_of_decodes (h : Indexed tools lang store index s textNs key text facets)
    (htext : (utf8Bytes text).length < 256 ^ 4) (hsome : occurrences tools lang text queryTerms ≠ [])
    {record : TextRecord} (hdecodes : decodeTextRecord (encodeTextRecord ⟨text, facets⟩) = some record) :
    buildSnippets checked store index key queryTerms s textNs contextChars =
      (snippetsAt checked text.toList contextChars
        (recorded (occurrences tools lang text queryTerms))).map .ok := by
  obtain ⟨indexed, hpostings⟩ := h.postings
  rw [h.buildSnippets_eq (hpostings.charPositionsOf_eq_nil.not.mpr hsome), hdecodes,
    hpostings.sortedPositions_eq (tokenize_pairwise text) (addressed_of_text tools lang htext).2]
  dsimp only
  rw [text_of_decodeTextRecord htext hdecodes]
  rfl

theorem Indexed.snippetsRight_of_fit (h : Indexed tools lang store index s textNs key text facets)
    (hsome : occurrences tools lang text queryTerms ≠ [])
    (hfit : SnippetsFit text.toList (occurrences tools lang text queryTerms) contextChars ⟨text, facets⟩) :
    SnippetsRight text.toList (occurrences tools lang text queryTerms)
      (buildSnippets checked store index key queryTerms s textNs contextChars) := by
  obtain ⟨record, hdecodes⟩ := hfit.decodes
  have hpos : Addressed text.toList (occurrences tools lang text queryTerms) :=
    fun token ht => (addressed_of_text tools lang hfit.text).2 token (List.mem_of_mem_filter ht)
  obtain ⟨snippets, hsnippets, hall⟩ := snippetsAt_of_lt checked hpos hfit.sum
  refine snippetsRight_of_forall₂ ?_ hall
  rw [h.buildSnippets_of_decodes hfit.text hsome hdecodes, hsnippets]
  rfl

/-- Snippets that are right are those of a record that decodes, and no sum overflows. -/
theorem Indexed.fit_of_snippetsRight (h : Indexed tools lang store index s textNs key text facets)
    (htext : (utf8Bytes text).length < 256 ^ 4) (hsome : occurrences tools lang text queryTerms ≠ [])
    (hright : SnippetsRight text.toList (occurrences tools lang text queryTerms)
      (buildSnippets checked store index key queryTerms s textNs contextChars)) :
    SnippetsFit text.toList (occurrences tools lang text queryTerms) contextChars ⟨text, facets⟩ := by
  obtain ⟨snippets, houtcome, hall, hbounds⟩ := hright
  obtain ⟨indexed, hpostings⟩ := h.postings
  obtain ⟨hchars, hpos⟩ := addressed_of_text tools lang htext
  cases hdecodes : decodeTextRecord (encodeTextRecord ⟨text, facets⟩) with
  | none =>
    -- without a record there are no snippets
    rw [h.buildSnippets_eq (hpostings.charPositionsOf_eq_nil.not.mpr hsome), hdecodes] at houtcome
    cases houtcome
    exact absurd (List.forall₂_nil_right_iff.mp hall) hsome
  | some record =>
    refine ⟨htext, ⟨record, hdecodes⟩, fun token htoken => ?_⟩
    by_contra hsum
    obtain ⟨hlt, hat⟩ := hpos token (List.mem_of_mem_filter htoken)
    rw [h.buildSnippets_of_decodes htext hsome hdecodes] at houtcome
    obtain ⟨_, hsnippets, heq⟩ := Option.map_eq_some_iff.mp houtcome
    cases heq
    obtain ⟨found, hfound, hmem⟩ := mem_snippetsAt hsnippets (List.mem_map_of_mem htoken)
    rcases snippetAt_of_le hchars (hat.symm ▸ hlt) (hat.symm ▸ Nat.not_lt.mp hsum) with hpanic | ⟨snippet, hwrap, hend⟩
    · rw [hpanic] at hfound
      cases hfound
    · rw [hwrap] at hfound
      cases hfound
      exact absurd (hbounds snippet (hmem snippet rfl)).2 (Nat.not_le.mpr hend)

/-- **When the snippets are right.** There is one snippet for each occurrence of a query term in an indexed
document, on target, if there is no occurrence, or if the record has room and no sum overflows. Of texts whose
length has room in a record, these are the only ones. -/
theorem buildSnippets_right_iff (h : Indexed tools lang store index s textNs key text facets) :
    (occurrences tools lang text queryTerms = [] ∨
          SnippetsFit text.toList (occurrences tools lang text queryTerms) contextChars ⟨text, facets⟩ →
        SnippetsRight text.toList (occurrences tools lang text queryTerms)
          (buildSnippets checked store index key queryTerms s textNs contextChars)) ∧
      ((utf8Bytes text).length < 256 ^ 4 →
        SnippetsRight text.toList (occurrences tools lang text queryTerms)
          (buildSnippets checked store index key queryTerms s textNs contextChars) →
        occurrences tools lang text queryTerms = [] ∨
          SnippetsFit text.toList (occurrences tools lang text queryTerms) contextChars ⟨text, facets⟩) := by
  by_cases hsome : occurrences tools lang text queryTerms = []
  · obtain ⟨indexed, hpostings⟩ := h.postings
    refine ⟨fun _ => ?_, fun _ _ => .inl hsome⟩
    rw [h.buildSnippets_of_nil (hpostings.charPositionsOf_eq_nil.mpr hsome), hsome]
    exact snippetsRight_of_forall₂ rfl .nil
  · refine ⟨fun hfit => h.snippetsRight_of_fit hsome (hfit.resolve_left hsome), fun htext hright => .inr ?_⟩
    exact h.fit_of_snippetsRight htext hsome hright

/-! ### One word -/

/-- A document in the plain store, under the key `1` of the namespace `1`. -/
theorem indexed_plainStore (text : String) : ∃ t' index,
    (TextIndex.withLanguage .english).indexDocument plainTools smallSizing plainStore (fun _ _ => 0) (fun _ => 0)
        [1] [1] text .empty .empty =
      some (.ok 0, t', HashTable.empty.insert (textNamespace [1], [1]) (encodeTextRecord ⟨text, .empty⟩)) ∧
    t'.indices.get (textNamespace [1]) = some index ∧
    Indexed plainTools .english plainStore index
      (HashTable.empty.insert (textNamespace [1], [1]) (encodeTextRecord ⟨text, .empty⟩)) (textNamespace [1]) [1] text
      .empty := by
  obtain ⟨t', h⟩ := indexDocument_plainStore text .empty
  obtain ⟨index, hindex, hindexed⟩ := TextIndex.indexed_indexDocument rfl (fun _ hd => absurd hd List.not_mem_nil) h rfl
  exact ⟨t', index, h, hindex, hindexed⟩

theorem occurrences_zeta : occurrences plainTools .english "zeta" ["zeta"] = [⟨"zeta", 0⟩] := by decide +kernel

/-- The snippet around the only word of a text, with a context of three characters. -/
theorem buildSnippets_right_iff_first : ∃ index,
    SnippetsRight "zeta".toList (occurrences plainTools .english "zeta" ["zeta"])
      (buildSnippets true plainStore index [1] ["zeta"]
        (HashTable.empty.insert (textNamespace [1], [1]) (encodeTextRecord ⟨"zeta", .empty⟩)) (textNamespace [1]) 3) := by
  obtain ⟨t', index, -, -, h⟩ := indexed_plainStore "zeta"
  have hlen : (utf8Bytes "zeta").length < 256 ^ 4 := by decide
  have hrecord : decodeTextRecord (encodeTextRecord ⟨"zeta", .empty⟩) = some ⟨"zeta", .empty⟩ :=
    decodeTextRecord_encodeTextRecord ⟨hlen, by decide, fun e he => nomatch he⟩
  refine ⟨index, (buildSnippets_right_iff h).1 (.inr ⟨hlen, ⟨_, hrecord⟩, ?_⟩)⟩
  rw [occurrences_zeta]
  decide

/-- **The largest context.** The only word of a text has no snippet that is right when the context is the largest
size, whether or not sums are checked. -/
theorem snippets_overflow : ∃ t' index,
    (TextIndex.withLanguage .english).indexDocument plainTools smallSizing plainStore (fun _ _ => 0) (fun _ => 0)
        [1] [1] "zeta" .empty .empty =
      some (.ok 0, t', HashTable.empty.insert (textNamespace [1], [1]) (encodeTextRecord ⟨"zeta", .empty⟩)) ∧
    t'.indices.get (textNamespace [1]) = some index ∧
    ∀ checked, ¬ SnippetsRight "zeta".toList (occurrences plainTools .english "zeta" ["zeta"])
      (buildSnippets checked plainStore index [1] ["zeta"]
        (HashTable.empty.insert (textNamespace [1], [1]) (encodeTextRecord ⟨"zeta", .empty⟩)) (textNamespace [1])
        (UInt64.ofNat (2 ^ 64 - 1))) := by
  obtain ⟨t', index, hcall, hindex, h⟩ := indexed_plainStore "zeta"
  refine ⟨t', index, hcall, hindex, fun checked hright => ?_⟩
  have hsome : occurrences plainTools .english "zeta" ["zeta"] ≠ [] := by
    rw [occurrences_zeta]
    exact List.cons_ne_nil _ _
  have hfit := h.fit_of_snippetsRight (by decide) hsome hright
  rw [occurrences_zeta] at hfit
  exact absurd (hfit.sum _ List.mem_cons_self) (by decide)
