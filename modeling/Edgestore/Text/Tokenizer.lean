import Edgestore.Text.Inverted

/-!
# Tokens

The words of a text are its longest runs of alphanumeric characters. A word that is no stopword is a token: its
term is the stem of the word in lower case, and its position the number of characters in front of it. The
character tables, the stopwords and the stemmer come from outside, and are parameters.

## Main definitions

* `TextTools`: what comes from outside
* `tokenize`: the tokens of a text

## Main results

* `tokenize_pairwise`, `position_lt_of_mem_tokenize`: positions ascend, and are those of characters
* `length_tokenize_le`: there are no more tokens than characters
-/

/-- The language of a text. -/
inductive TextLanguage
  | english
  | portugueseBrazilian
  deriving DecidableEq, Repr

/-- What the tokenizer takes from outside. -/
structure TextTools where
  isAlphanumeric : Char → Bool
  toLowercase : String → String
  stopwords : TextLanguage → String → Bool
  stem : TextLanguage → String → String

section

variable (tools : TextTools) (lang : TextLanguage)

/-- The token of a word, unless this is a stopword. -/
def wordToken (charStart : ℕ) (word : List Char) : List Token :=
  let lower := tools.toLowercase (String.ofList word)
  if tools.stopwords lang lower then [] else [⟨tools.stem lang lower, charStart⟩]

/-- The tokens from the `i`-th character on. Inside a word, its first position and its characters so far are at
hand. -/
def tokenizeFrom : Option (ℕ × List Char) → ℕ → List Char → List Token
  | none, _, [] => []
  | some (charStart, word), _, [] => wordToken tools lang charStart word
  | none, i, c :: cs =>
    if tools.isAlphanumeric c then tokenizeFrom (some (i, [c])) (i + 1) cs
    else tokenizeFrom none (i + 1) cs
  | some (charStart, word), i, c :: cs =>
    if tools.isAlphanumeric c then tokenizeFrom (some (charStart, word ++ [c])) (i + 1) cs
    else wordToken tools lang charStart word ++ tokenizeFrom none (i + 1) cs

/-- The tokens of a text. -/
def tokenize (text : String) : List Token := tokenizeFrom tools lang none 0 text.toList

end

/-! ### Positions -/

variable {tools : TextTools} {lang : TextLanguage} {i : ℕ} {cs : List Char} {token : Token}

theorem position_of_mem_wordToken {charStart : ℕ} {word : List Char}
    (h : token ∈ wordToken tools lang charStart word) : token.position = charStart := by
  unfold wordToken at h
  dsimp only at h
  split at h
  · cases h
  · cases List.mem_singleton.mp h
    rfl

/-- Where the tokens from a character on are: at the start of the word at hand, or at one of the characters. -/
theorem position_of_mem_tokenizeFrom {inWord : Option (ℕ × List Char)}
    (h : token ∈ tokenizeFrom tools lang inWord i cs) :
    token.position ∈ inWord.map Prod.fst ∨ i ≤ token.position ∧ token.position < i + cs.length := by
  induction cs generalizing inWord i with
  | nil =>
    cases inWord with
    | none => cases h
    | some w => exact .inl (congrArg some (position_of_mem_wordToken h).symm)
  | cons c cs ih =>
    have hlater : i + 1 ≤ token.position ∧ token.position < i + 1 + cs.length →
        i ≤ token.position ∧ token.position < i + (c :: cs).length := by
      rw [List.length_cons]
      omega
    cases inWord with
    | none =>
      rw [tokenizeFrom] at h
      split at h
      · -- a word begins here
        rcases ih h with hstart | hpos
        · obtain hstart : i = token.position := Option.some.inj hstart
          rw [List.length_cons]
          exact .inr (by omega)
        · exact .inr (hlater hpos)
      · exact (ih h).imp_right hlater
    | some w =>
      obtain ⟨charStart, word⟩ := w
      rw [tokenizeFrom] at h
      split at h
      · exact (ih h).imp_right hlater
      · rcases List.mem_append.mp h with h | h
        · exact .inl (congrArg some (position_of_mem_wordToken h).symm)
        · exact .inr (hlater ((ih h).resolve_left nofun))

theorem tokenizeFrom_pairwise {inWord : Option (ℕ × List Char)}
    (hat : ∀ charStart ∈ inWord.map Prod.fst, charStart < i) :
    (tokenizeFrom tools lang inWord i cs).Pairwise fun a b => a.position < b.position := by
  have hword : ∀ charStart word, (wordToken tools lang charStart word).Pairwise
      fun a b => a.position < b.position := by
    intro charStart word
    unfold wordToken
    dsimp only
    split
    · exact List.Pairwise.nil
    · exact List.pairwise_singleton _ _
  induction cs generalizing inWord i with
  | nil =>
    cases inWord with
    | none => exact List.Pairwise.nil
    | some w => exact hword w.1 w.2
  | cons c cs ih =>
    cases inWord with
    | none =>
      rw [tokenizeFrom]
      split
      · refine ih ?_
        rintro _ ⟨⟩
        exact Nat.lt_succ_self i
      · exact ih nofun
    | some w =>
      obtain ⟨charStart, word⟩ := w
      have hstart : charStart < i := hat charStart rfl
      rw [tokenizeFrom]
      split
      · refine ih ?_
        rintro _ ⟨⟩
        exact Nat.lt_succ_of_lt hstart
      · refine List.pairwise_append.mpr ⟨hword charStart word, ih nofun, fun a ha b hb => ?_⟩
        -- the word at hand begins before the characters that follow
        have hb' := (position_of_mem_tokenizeFrom hb).resolve_left nofun
        rw [position_of_mem_wordToken ha]
        omega

/-- **Positions ascend.** -/
theorem tokenize_pairwise (text : String) :
    (tokenize tools lang text).Pairwise fun a b => a.position < b.position := tokenizeFrom_pairwise nofun

/-- **Positions are those of characters.** -/
theorem position_lt_of_mem_tokenize {text : String} (h : token ∈ tokenize tools lang text) :
    token.position < text.toList.length := by
  have hpos := (position_of_mem_tokenizeFrom h).resolve_left nofun
  omega

/-- There are no more tokens than characters. -/
theorem length_tokenize_le (tools : TextTools) (lang : TextLanguage) (text : String) :
    (tokenize tools lang text).length ≤ text.toList.length := by
  -- the positions are distinct, and are those of characters
  have hnodup : ((tokenize tools lang text).map Token.position).Nodup :=
    List.pairwise_map.mpr ((tokenize_pairwise text).imp Nat.ne_of_lt)
  have hrange : (tokenize tools lang text).map Token.position ⊆ List.range text.toList.length := by
    intro position hmem
    obtain ⟨token, htoken, rfl⟩ := List.mem_map.mp hmem
    exact List.mem_range.mpr (position_lt_of_mem_tokenize htoken)
  have hle := (List.subperm_of_subset hnodup hrange).length_le
  rwa [List.length_map, List.length_range] at hle
