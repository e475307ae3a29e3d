import Edgestore.Lib.Bytes

/-!
# Logs of length-prefixed, checksummed frames

An append-only log is a sequence of frames `[checksum : 4][length : 4][payload]`. The reader stops
at the first frame whose header or payload is cut short, or whose length exceeds the limit of the
format. A frame whose checksum or payload does not decode is skipped by its declared length.

## Main definitions

* `FramedLog.Format α`: the length limit, the checksum and the payload codec of a log of `α`
* `FramedLog.read`, `FramedLog.residue`: the entries a reader returns, and the bytes it never
  crosses
* `FramedLog.Framed F bs xs`: `bs` is the frames of `xs`, then bytes at which the reader stops
* `FramedLog.complete xs t`: the entries whose frames lie within the first `t` bytes

## Main results

* `read_frames_append`: the reader returns what was framed and goes on behind it
* `Framed.append`: appending a frame behind a log without residue appends the entry
* `Framed.take`: a log cut at any byte holds exactly its complete entries
-/

namespace FramedLog

variable {α : Type}

/-- The parameters of a framed log: the largest payload a reader accepts, the checksum, and the
payload codec. -/
structure Format (α : Type) where
  maxLen : ℕ
  checksum : Bytes → ℕ
  encode : α → Bytes
  decode : Bytes → Option α

variable (F : Format α)

/-- One entry as it is written. -/
def frame (a : α) : Bytes :=
  leBytes 4 (F.checksum (F.encode a)) ++ leBytes 4 (F.encode a).length ++ F.encode a

/-- The entries written one after the other. -/
def frames (xs : List α) : Bytes := xs.flatMap (frame F)

/-- One step of the reader: `none` where it stops, otherwise the entry of the frame, if it has
one, and the bytes behind the frame. -/
def next (bs : Bytes) : Option (Option α × Bytes) :=
  if bs.length < 8 then none
  else if F.maxLen < ofLe ((bs.drop 4).take 4) then none
  else if (bs.drop 8).length < ofLe ((bs.drop 4).take 4) then none
  else
    let payload := (bs.drop 8).take (ofLe ((bs.drop 4).take 4))
    some (if F.checksum payload = ofLe (bs.take 4) then F.decode payload else none,
      (bs.drop 8).drop (ofLe ((bs.drop 4).take 4)))

/-- The reader with a bound on its steps. -/
def readAux : ℕ → Bytes → List α
  | 0, _ => []
  | n + 1, bs =>
    match next F bs with
    | none => []
    | some (x, rest) => x.toList ++ readAux n rest

/-- The bytes left when the bounded reader stops. -/
def residueAux : ℕ → Bytes → Bytes
  | 0, bs => bs
  | n + 1, bs =>
    match next F bs with
    | none => bs
    | some (_, rest) => residueAux n rest

/-- The entries a reader returns. Every frame is at least eight bytes long, so the length of the
log bounds the steps. -/
def read (bs : Bytes) : List α := readAux F bs.length bs

/-- The bytes the reader never crosses. -/
def residue (bs : Bytes) : Bytes := residueAux F bs.length bs

/-- An entry that survives the format: its payload is within the limit and decodes to it. -/
structure Fits (a : α) : Prop where
  length_le : (F.encode a).length ≤ F.maxLen
  length_lt : (F.encode a).length < 256 ^ 4
  checksum_lt : F.checksum (F.encode a) < 256 ^ 4
  decode_encode : F.decode (F.encode a) = some a

/-- `bs` is the frames of `xs` followed by bytes at which the reader stops. -/
def Framed (bs : Bytes) (xs : List α) : Prop :=
  (∀ a ∈ xs, Fits F a) ∧ ∃ tail, bs = frames F xs ++ tail ∧ next F tail = none

/-- The entries whose frames lie within the first `t` bytes of the log of `xs`. -/
def complete : List α → ℕ → List α
  | [], _ => []
  | a :: xs, t =>
    if (frame F a).length ≤ t then a :: complete xs (t - (frame F a).length) else []

/-! ### Frames -/

variable {F}

theorem length_frame (a : α) : (frame F a).length = 8 + (F.encode a).length := by
  simp only [frame, List.length_append, length_leBytes]

@[simp] theorem frames_nil : frames F [] = [] := rfl

@[simp] theorem frames_cons (a : α) (xs : List α) :
    frames F (a :: xs) = frame F a ++ frames F xs := by
  simp [frames]

@[simp] theorem frames_append (xs ys : List α) :
    frames F (xs ++ ys) = frames F xs ++ frames F ys := by
  simp [frames]

theorem frames_singleton (a : α) : frames F [a] = frame F a := by simp

/-! ### The reader -/

theorem next_nil : next F [] = none := by simp [next]

theorem next_length {bs : Bytes} {x : Option α} {rest : Bytes}
    (h : next F bs = some (x, rest)) : rest.length < bs.length := by
  unfold next at h
  split at h
  · cases h
  · split at h
    · cases h
    · split at h
      · cases h
      · simp only [Option.some.injEq, Prod.mk.injEq] at h
        rw [← h.2]
        simp only [List.length_drop]
        omega

theorem readAux_eq_of_le {n m : ℕ} {bs : Bytes} (hn : bs.length ≤ n) (hm : bs.length ≤ m) :
    readAux F n bs = readAux F m bs := by
  induction n generalizing m bs with
  | zero =>
    have : bs = [] := List.length_eq_zero_iff.mp (by omega)
    subst this
    cases m <;> simp [readAux, next_nil]
  | succ n ih =>
    cases m with
    | zero =>
      have : bs = [] := List.length_eq_zero_iff.mp (by omega)
      subst this
      simp [readAux, next_nil]
    | succ m =>
      cases hx : next F bs with
      | none => simp [readAux, hx]
      | some p =>
        obtain ⟨x, rest⟩ := p
        have hlt := next_length hx
        simp only [readAux, hx]
        rw [ih (m := m) (by omega) (by omega)]

theorem residueAux_eq_of_le {n m : ℕ} {bs : Bytes} (hn : bs.length ≤ n) (hm : bs.length ≤ m) :
    residueAux F n bs = residueAux F m bs := by
  induction n generalizing m bs with
  | zero =>
    have : bs = [] := List.length_eq_zero_iff.mp (by omega)
    subst this
    cases m <;> simp [residueAux, next_nil]
  | succ n ih =>
    cases m with
    | zero =>
      have : bs = [] := List.length_eq_zero_iff.mp (by omega)
      subst this
      simp [residueAux, next_nil]
    | succ m =>
      cases hx : next F bs with
      | none => simp [residueAux, hx]
      | some p =>
        obtain ⟨x, rest⟩ := p
        have hlt := next_length hx
        simp only [residueAux, hx]
        exact ih (by omega) (by omega)

theorem read_of_next_none {bs : Bytes} (h : next F bs = none) : read F bs = [] := by
  unfold read
  cases hl : bs.length with
  | zero => rfl
  | succ n => simp [readAux, h]

theorem read_of_next {bs rest : Bytes} {x : Option α} (h : next F bs = some (x, rest)) :
    read F bs = x.toList ++ read F rest := by
  have hlt := next_length h
  obtain ⟨n, hn⟩ : ∃ n, bs.length = n + 1 := ⟨bs.length - 1, by omega⟩
  rw [read, hn, readAux, h]
  simp only [read]
  rw [readAux_eq_of_le (n := n) (m := rest.length) (by omega) le_rfl]

theorem residue_of_next_none {bs : Bytes} (h : next F bs = none) : residue F bs = bs := by
  unfold residue
  cases hl : bs.length with
  | zero => rfl
  | succ n => simp [residueAux, h]

theorem residue_of_next {bs rest : Bytes} {x : Option α} (h : next F bs = some (x, rest)) :
    residue F bs = residue F rest := by
  have hlt := next_length h
  obtain ⟨n, hn⟩ : ∃ n, bs.length = n + 1 := ⟨bs.length - 1, by omega⟩
  rw [residue, hn, residueAux, h]
  exact residueAux_eq_of_le (by omega) le_rfl

/-- Bytes behind a frame do not change what is read of it. -/
theorem next_append {bs rest : Bytes} {x : Option α} (h : next F bs = some (x, rest)) (ys : Bytes) :
    next F (bs ++ ys) = some (x, rest ++ ys) := by
  unfold next at h
  split at h
  · cases h
  · next h8 =>
    split at h
    · cases h
    · next hmax =>
      split at h
      · cases h
      · next hlen =>
        -- the header and the payload lie within `bs`
        have hfield : ((bs ++ ys).drop 4).take 4 = (bs.drop 4).take 4 := by
          rw [List.drop_append_of_le_length (by omega), List.take_append_of_le_length]
          rw [List.length_drop]
          omega
        have hchecksum : (bs ++ ys).take 4 = bs.take 4 := List.take_append_of_le_length (by omega)
        have hbody : (bs ++ ys).drop 8 = bs.drop 8 ++ ys := List.drop_append_of_le_length (by omega)
        have hlength : ¬ (bs ++ ys).length < 8 := by
          rw [List.length_append]
          omega
        have hpayload : ¬ ((bs ++ ys).drop 8).length < ofLe ((bs.drop 4).take 4) := by
          rw [hbody, List.length_append]
          omega
        rw [next, hfield, if_neg hlength, if_neg hmax, if_neg hpayload, hchecksum, hbody,
          List.take_append_of_le_length (by omega), List.drop_append_of_le_length (by omega)]
        simp only [Option.some.injEq, Prod.mk.injEq] at h ⊢
        exact ⟨h.1, by rw [h.2]⟩

/-- **Behind a log that is read to its end**, reading goes on. -/
theorem append_of_residue_nil {bs : Bytes} (h : residue F bs = []) (ys : Bytes) :
    read F (bs ++ ys) = read F bs ++ read F ys ∧ residue F (bs ++ ys) = residue F ys := by
  induction hn : bs.length using Nat.strong_induction_on generalizing bs with
  | _ n ih =>
    cases hx : next F bs with
    | none =>
      rw [residue_of_next_none hx] at h
      subst h
      simp [read_of_next_none next_nil]
    | some p =>
      obtain ⟨x, rest⟩ := p
      rw [residue_of_next hx] at h
      have hlt : rest.length < n := hn ▸ next_length hx
      obtain ⟨hread, hresidue⟩ := ih rest.length hlt h rfl
      have hnext := next_append hx ys
      rw [read_of_next hnext, read_of_next hx, residue_of_next hnext, hread, List.append_assoc]
      exact ⟨rfl, hresidue⟩

/-! ### Reading what was framed -/

theorem next_frame_append {a : α} (h : Fits F a) (bs : Bytes) :
    next F (frame F a ++ bs) = some (some a, bs) := by
  have h4 : ofLe (((frame F a ++ bs).drop 4).take 4) = (F.encode a).length := by
    rw [← ofLe_leBytes_of_lt h.length_lt]
    rfl
  have h0 : ofLe ((frame F a ++ bs).take 4) = F.checksum (F.encode a) := by
    rw [← ofLe_leBytes_of_lt h.checksum_lt]
    rfl
  have h8 : (frame F a ++ bs).drop 8 = F.encode a ++ bs := rfl
  unfold next
  rw [if_neg (by simp [length_frame]; omega), h4, h0, h8, if_neg (by have := h.length_le; omega),
    if_neg (by simp)]
  simp [h.decode_encode]

/-- A frame cut short stops the reader. -/
theorem next_frame_take {a : α} (h : Fits F a) {t : ℕ} (ht : t < (frame F a).length) :
    next F ((frame F a).take t) = none := by
  unfold next
  by_cases h8 : t < 8
  · rw [if_pos (by simp; omega)]
  · have h4 : ofLe ((((frame F a).take t).drop 4).take 4) = (F.encode a).length := by
      rw [← ofLe_leBytes_of_lt h.length_lt]
      congr 1
      rw [List.drop_take, List.take_take, min_eq_left (by omega)]
      rfl
    rw [length_frame] at ht
    rw [if_neg (by simp [length_frame]; omega), h4]
    split
    · rfl
    · rw [if_pos (by simp [length_frame]; omega)]

theorem read_frames_append {xs : List α} (h : ∀ a ∈ xs, Fits F a) (bs : Bytes) :
    read F (frames F xs ++ bs) = xs ++ read F bs := by
  induction xs with
  | nil => simp
  | cons a xs ih =>
    have ha := next_frame_append (h a (by simp)) (frames F xs ++ bs)
    rw [frames_cons, List.append_assoc, read_of_next ha, ih fun b hb => h b (by simp [hb])]
    rfl

theorem residue_frames_append {xs : List α} (h : ∀ a ∈ xs, Fits F a) (bs : Bytes) :
    residue F (frames F xs ++ bs) = residue F bs := by
  induction xs with
  | nil => simp
  | cons a xs ih =>
    have ha := next_frame_append (h a (by simp)) (frames F xs ++ bs)
    rw [frames_cons, List.append_assoc, residue_of_next ha, ih fun b hb => h b (by simp [hb])]

/-! ### Logs with a known content -/

theorem framed_nil : Framed F [] [] := ⟨by simp, [], rfl, next_nil⟩

theorem Framed.read_eq {bs : Bytes} {xs : List α} (h : Framed F bs xs) : read F bs = xs := by
  obtain ⟨hx, tail, rfl, ht⟩ := h
  rw [read_frames_append hx, read_of_next_none ht, List.append_nil]

theorem Framed.eq_frames {bs : Bytes} {xs : List α} (h : Framed F bs xs)
    (hc : residue F bs = []) : bs = frames F xs := by
  obtain ⟨hx, tail, rfl, ht⟩ := h
  rw [residue_frames_append hx, residue_of_next_none ht] at hc
  rw [hc, List.append_nil]

/-- A reader goes on behind a log without residue. -/
theorem Framed.read_append {bs : Bytes} {xs : List α} (h : Framed F bs xs)
    (hc : residue F bs = []) (x : Bytes) : read F (bs ++ x) = xs ++ read F x := by
  rw [h.eq_frames hc, read_frames_append h.1]

theorem framed_frames {xs : List α} (h : ∀ a ∈ xs, Fits F a) : Framed F (frames F xs) xs :=
  ⟨h, [], by simp, next_nil⟩

theorem residue_frames {xs : List α} (h : ∀ a ∈ xs, Fits F a) : residue F (frames F xs) = [] := by
  have := residue_frames_append h []
  rwa [List.append_nil, residue_of_next_none next_nil] at this

/-- **Appending behind a log without residue** appends the entry. -/
theorem Framed.append {bs : Bytes} {xs : List α} {a : α} (h : Framed F bs xs)
    (hc : residue F bs = []) (ha : Fits F a) : Framed F (bs ++ frame F a) (xs ++ [a]) := by
  have hx : ∀ b ∈ xs ++ [a], Fits F b := by
    intro b hb
    rcases List.mem_append.mp hb with hb | hb
    · exact h.1 b hb
    · exact List.mem_singleton.mp hb ▸ ha
  rw [h.eq_frames hc, ← frames_singleton, ← frames_append]
  exact framed_frames hx

theorem residue_append_frame {bs : Bytes} {xs : List α} {a : α} (h : Framed F bs xs)
    (hc : residue F bs = []) (ha : Fits F a) : residue F (bs ++ frame F a) = [] := by
  have hx := (h.append hc ha).1
  rw [h.eq_frames hc, ← frames_singleton, ← frames_append]
  exact residue_frames hx

/-- A frame cut short behind a log without residue leaves the entries of the log. -/
theorem Framed.append_torn {bs : Bytes} {xs : List α} {a : α} (h : Framed F bs xs)
    (hc : residue F bs = []) (ha : Fits F a) {t : ℕ} (ht : t < (frame F a).length) :
    Framed F (bs ++ (frame F a).take t) xs :=
  ⟨h.1, _, by rw [h.eq_frames hc], next_frame_take ha ht⟩

/-! ### Cutting a log -/

@[simp] theorem complete_nil (t : ℕ) : complete F [] t = [] := rfl

theorem complete_isPrefix (xs : List α) (t : ℕ) : complete F xs t <+: xs := by
  induction xs generalizing t with
  | nil => exact List.prefix_rfl
  | cons a xs ih =>
    rw [complete]
    split
    · exact (List.prefix_cons_inj a).mpr (ih _)
    · exact List.nil_prefix

theorem complete_of_length_le {xs : List α} {t : ℕ} (h : (frames F xs).length ≤ t) :
    complete F xs t = xs := by
  induction xs generalizing t with
  | nil => rfl
  | cons a xs ih =>
    rw [frames_cons, List.length_append] at h
    rw [complete, if_pos (by omega), ih (by omega)]

/-- **A log cut at any byte** is the log of its complete entries. -/
theorem framed_take {xs : List α} (h : ∀ a ∈ xs, Fits F a) (t : ℕ) :
    Framed F ((frames F xs).take t) (complete F xs t) := by
  induction xs generalizing t with
  | nil => simpa using framed_nil
  | cons a xs ih =>
    have hxs : ∀ b ∈ xs, Fits F b := fun b hb => h b (by simp [hb])
    rw [frames_cons, complete]
    split
    case isTrue hle =>
      obtain ⟨hc, tail, heq, htail⟩ := ih hxs (t - (frame F a).length)
      refine ⟨?_, tail, ?_, htail⟩
      · intro b hb
        rcases List.mem_cons.mp hb with rfl | hb
        · exact h b (by simp)
        · exact hc b hb
      · rw [List.take_append, List.take_of_length_le hle, heq, frames_cons, List.append_assoc]
    case isFalse hlt =>
      refine ⟨by simp, (frame F a).take t, ?_, next_frame_take (h a (by simp)) (by omega)⟩
      rw [List.take_append_of_le_length (by omega), frames_nil, List.nil_append]

/-- Where the reader stops it stops when more is cut off. -/
theorem next_take_of_none {bs : Bytes} (h : next F bs = none) (t : ℕ) : next F (bs.take t) = none := by
  by_cases h8 : (bs.take t).length < 8
  · rw [next, if_pos h8]
  · have h4 : ((bs.take t).drop 4).take 4 = (bs.drop 4).take 4 := by
      simp only [List.length_take] at h8
      rw [List.drop_take, List.take_take, min_eq_left (by omega)]
    unfold next at h ⊢
    rw [if_neg h8, h4]
    rw [if_neg (by simp only [List.length_take] at h8; omega)] at h
    split
    · rfl
    case isFalse hmax =>
      rw [if_neg hmax] at h
      split at h
      case isTrue hshort =>
        rw [if_pos]
        simp only [List.length_drop, List.length_take] at hshort ⊢
        omega
      case isFalse => cases h

/-- **A log cut at any byte** holds its complete entries, also if it ends with a torn frame. -/
theorem Framed.take {bs : Bytes} {xs : List α} (h : Framed F bs xs) (t : ℕ) :
    Framed F (bs.take t) (complete F xs t) := by
  obtain ⟨hx, tail, rfl, htail⟩ := h
  by_cases ht : t ≤ (frames F xs).length
  · rw [List.take_append_of_le_length ht]
    exact framed_take hx t
  · rw [complete_of_length_le (by omega), List.take_append, List.take_of_length_le (by omega)]
    exact ⟨hx, _, rfl, next_take_of_none htail _⟩

end FramedLog
