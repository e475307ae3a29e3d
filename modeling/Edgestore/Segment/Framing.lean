import Edgestore.Segment.Format

/-!
# The framing of entries

The entries of a payload stand one behind the other, and the lengths in an entry say where it ends. The decoder
reads at a position of the buffer, which it moves. The position and the lengths are added as 64-bit numbers, so
that a sum might overflow; from a position in the buffer it does not.

## Main definitions

* `BufReader`, `deserializeEntryAt`: reading at a position of a buffer
* `decodeLoop`: the loop over the entries of a buffer
* `Framed`: an entry whose lengths fit 32 bits
* `Follows`: a reader at positions does what a reader of the rest of the buffer does

## Main results

* `follows_deserializeEntry`: the two readers of an entry agree
* `decodeLoop_ends`: the loop ends, with the entries of the payload
* `decodeLoop_serialize`: what was written is read, up to the end of the buffer
* `entries_selfDelimiting`: entries are self-delimiting, and the decoder only moves forward in its buffer
-/

/-- Readers at a position of a buffer. -/
abbrev BufReader := StateT ℕ (Except EdgestoreError)

/-- Take the `n` bytes of a field. -/
def readBytesAt (buf : Bytes) (n : ℕ) (field : String) : BufReader Bytes := fun pos =>
  if 2 ^ 64 ≤ pos + n then .error (.panicked "attempt to add with overflow")
  else if buf.length < pos + n then .error (.segmentCorrupt s!"buffer too short: field {field}")
  else .ok ((buf.drop pos).take n, pos + n)

/-- Read the entry at a position. -/
def deserializeEntryAt (buf : Bytes) : BufReader (Bytes × MemEntry) := do
  let keyLen := ofLe (← readBytesAt buf 4 "key_len")
  let key ← readBytesAt buf keyLen "key"
  let valLen := ofLe (← readBytesAt buf 4 "val_len")
  let valBytes ← readBytesAt buf valLen "val"
  let lsn := ofLe (← readBytesAt buf 8 "lsn")
  let timestamp := asI64 (ofLe (← readBytesAt buf 8 "timestamp"))
  let ttl := ofLe (← readBytesAt buf 4 "ttl")
  let op ← entryOp (← readBytesAt buf 1 "op")
  let value := if op = .delete then none else some valBytes
  return (key, ⟨key, value, op, lsn, timestamp, ttl⟩)

/-- The loop over the entries from a position on, with a bound on the number of its rounds. It stops at the
end of the buffer, or at an entry that does not parse; a panic of the decoder is one of the loop. -/
def decodeLoop (buf : Bytes) : ℕ → ℕ → Option (Except EdgestoreError (List (Bytes × MemEntry) × ℕ))
  | 0, _ => none
  | rounds + 1, pos =>
    if pos < buf.length then
      match deserializeEntryAt buf pos with
      | .ok (p, pos') => (decodeLoop buf rounds pos').map fun r => r.map fun q => (p :: q.1, q.2)
      | .error (.panicked msg) => some (.error (.panicked msg))
      | .error _ => some (.ok ([], pos))
    else some (.ok ([], pos))

/-- An entry whose lengths fit 32 bits, under its own key and with a value exactly if it is a put. The other
fields have the ranges of their types. -/
structure Framed (p : Bytes × MemEntry) : Prop where
  key_eq : p.2.key = p.1
  value_iff : p.2.value.isSome = true ↔ p.2.op = .put
  key_lt : p.1.length < 2 ^ 32
  value_lt : ∀ v ∈ p.2.value, v.length < 2 ^ 32
  lsn_lt : p.2.lsn < 2 ^ 64
  timestamp_ge : -2 ^ 63 ≤ p.2.timestamp
  timestamp_lt : p.2.timestamp < 2 ^ 63
  ttl_lt : p.2.ttl < 2 ^ 32

theorem Framed.inRange {p : Bytes × MemEntry} (h : Framed p) : EntryInRange p := by
  obtain ⟨k, key, value, op, lsn, timestamp, ttl⟩ := p
  obtain ⟨heq, hvalue, hkey, hlen, hlsn, hge, hlt, httl⟩ := h
  obtain rfl : key = k := heq
  refine ⟨?_, by omega, ?_, by omega, ?_, by omega⟩
  · cases value with
    | none =>
      cases op with
      | put => exact absurd (hvalue.mpr rfl) Bool.false_ne_true
      | delete => rfl
    | some v =>
      cases op with
      | put => rfl
      | delete => exact absurd (hvalue.mp rfl) nofun
  · cases value with
    | none => exact Nat.pow_pos (by decide)
    | some v =>
      have hv : v.length < 2 ^ 32 := hlen v rfl
      show v.length < 256 ^ 4
      omega
  · exact Int.bmod_eq_of_le (by omega) (by omega)

/-! ### Two readers -/

section

variable {buf : Bytes} {α β : Type} {P : α → Prop} {Q : β → Prop}

/-- A reader at a position does what a reader of the rest of the buffer does: it fails with the same error,
which is no panic, or returns the same value, which meets `P`, and moves to the position of what is left. -/
def Follows (buf : Bytes) (P : α → Prop) (m : BufReader α) (m' : RecordReader α) : Prop :=
  ∀ pos ≤ buf.length,
    (∃ msg, m pos = .error (.segmentCorrupt msg) ∧ m' (buf.drop pos, pos) = .error (.segmentCorrupt msg)) ∨
      ∃ a pos', m pos = .ok (a, pos') ∧ m' (buf.drop pos, pos) = .ok (a, (buf.drop pos', pos')) ∧ P a ∧
        pos ≤ pos' ∧ pos' ≤ buf.length

theorem Follows.bind {m : BufReader α} {m' : RecordReader α} {f : α → BufReader β} {f' : α → RecordReader β}
    (h : Follows buf P m m') (hf : ∀ a, P a → Follows buf Q (f a) (f' a)) :
    Follows buf Q (m >>= f) (m' >>= f') := by
  intro pos hpos
  have hrun : (m >>= f) pos = (m pos >>= fun r => f r.1 r.2) := rfl
  have hrun' : (m' >>= f') (buf.drop pos, pos) = (m' (buf.drop pos, pos) >>= fun r => f' r.1 r.2) := rfl
  rw [hrun, hrun']
  rcases h pos hpos with ⟨msg, hm, hm'⟩ | ⟨a, pos₁, hm, hm', ha, hle, hlen⟩
  · left
    rw [hm, hm']
    exact ⟨msg, rfl, rfl⟩
  · rw [hm, hm']
    rcases hf a ha pos₁ hlen with ⟨msg, hfa, hfa'⟩ | ⟨b, pos₂, hfa, hfa', hb, hle₂, hlen₂⟩
    · exact .inl ⟨msg, hfa, hfa'⟩
    · exact .inr ⟨b, pos₂, hfa, hfa', hb, hle.trans hle₂, hlen₂⟩

theorem follows_pure {a : α} (ha : P a) : Follows buf P (pure a) (pure a) :=
  fun pos hpos => .inr ⟨a, pos, rfl, rfl, ha, le_rfl, hpos⟩

theorem follows_entryOp (b : Bytes) :
    Follows buf (fun _ => True) (liftM (entryOp b)) (liftM (entryOp b)) := by
  intro pos hpos
  by_cases hput : b = [1]
  · exact .inr ⟨.put, pos, by rw [hput]; rfl, by rw [hput]; rfl, trivial, le_rfl, hpos⟩
  by_cases hdelete : b = [2]
  · exact .inr ⟨.delete, pos, by rw [hdelete]; rfl, by rw [hdelete]; rfl, trivial, le_rfl, hpos⟩
  have hop : entryOp b = .error (.segmentCorrupt s!"unknown op byte: {ofLe b}") := by
    rw [entryOp, if_neg hput, if_neg hdelete]
  exact .inl ⟨_, by rw [hop]; rfl, by rw [hop]; rfl⟩

/-- From a position in the buffer, no sum with a length of 32 bits overflows. -/
theorem follows_readBytes (hbuf : buf.length < 2 ^ 63) {n : ℕ} (hn : n < 256 ^ 4) (field : String) :
    Follows buf (fun bs => bs.length = n) (readBytesAt buf n field) (readBytes n field) := by
  intro pos hpos
  have hno : ¬ 2 ^ 64 ≤ pos + n := by omega
  have hlen : (buf.drop pos).length = buf.length - pos := List.length_drop
  unfold readBytesAt readBytes
  by_cases hshort : buf.length < pos + n
  · rw [if_neg hno, if_pos hshort]
    dsimp only
    rw [if_pos (by omega)]
    exact .inl ⟨_, rfl, rfl⟩
  · rw [if_neg hno, if_neg hshort]
    dsimp only
    rw [if_neg (by omega), List.drop_drop]
    exact .inr ⟨_, _, rfl, rfl, by rw [List.length_take]; omega, by omega, by omega⟩

theorem ofLe_lt_of_length {bs : Bytes} (h : bs.length = 4) : ofLe bs < 256 ^ 4 := h ▸ ofLe_lt bs

/-- **The two readers of an entry agree.** -/
theorem follows_deserializeEntry (hbuf : buf.length < 2 ^ 63) :
    Follows buf (fun _ => True) (deserializeEntryAt buf) deserializeEntry := by
  have hread : ∀ {n : ℕ} (_ : n < 256 ^ 4) (field : String),
      Follows buf (fun bs => bs.length = n) (readBytesAt buf n field) (readBytes n field) :=
    fun hn field => follows_readBytes hbuf hn field
  unfold deserializeEntryAt deserializeEntry
  refine (hread (by decide) _).bind fun keyLen hkeyLen => ?_
  refine (hread (ofLe_lt_of_length hkeyLen) _).bind fun key _ => ?_
  refine (hread (by decide) _).bind fun valLen hvalLen => ?_
  refine (hread (ofLe_lt_of_length hvalLen) _).bind fun valBytes _ => ?_
  refine (hread (by decide) _).bind fun lsn _ => ?_
  refine (hread (by decide) _).bind fun timestamp _ => ?_
  refine (hread (by decide) _).bind fun ttl _ => ?_
  refine (hread (by decide) _).bind fun opByte _ => ?_
  exact (follows_entryOp opByte).bind fun op _ => follows_pure trivial

end

/-! ### The loop -/

variable {buf : Bytes} {pos : ℕ}

/-- **One entry**: an error that is no panic, or an entry, behind which the position is, in the buffer. -/
theorem deserializeEntryAt_cases (hbuf : buf.length < 2 ^ 63) (hpos : pos ≤ buf.length) :
    (∃ msg, deserializeEntryAt buf pos = .error (.segmentCorrupt msg) ∧
        deserializeEntry (buf.drop pos, pos) = .error (.segmentCorrupt msg)) ∨
      ∃ p pos', deserializeEntryAt buf pos = .ok (p, pos') ∧
        deserializeEntry (buf.drop pos, pos) = .ok (p, (buf.drop pos', pos')) ∧
        pos < pos' ∧ pos' ≤ buf.length := by
  rcases follows_deserializeEntry hbuf pos hpos with h | ⟨p, pos', hat, hrest, -, -, hlen⟩
  · exact .inl h
  · refine .inr ⟨p, pos', hat, hrest, ?_, hlen⟩
    -- what is left is shorter
    have hless := deserializeEntry_length hrest
    simp only [List.length_drop] at hless
    omega

/-- **The loop ends**, at a position in the buffer, and with the entries of the payload. -/
theorem decodeLoop_ends (hbuf : buf.length < 2 ^ 63) {rounds : ℕ} (hpos : pos ≤ buf.length)
    (hrounds : buf.length - pos < rounds) :
    ∃ pos', decodeLoop buf rounds pos =
        some (.ok (parseEntriesAux (buf.length - pos) (buf.drop pos, pos), pos')) ∧
      pos ≤ pos' ∧ pos' ≤ buf.length := by
  induction rounds generalizing pos with
  | zero => omega
  | succ rounds ih =>
    have hlen : (buf.drop pos).length = buf.length - pos := List.length_drop
    unfold decodeLoop
    by_cases hlt : pos < buf.length
    · rw [if_pos hlt]
      obtain ⟨n, hn⟩ : ∃ n, buf.length - pos = n + 1 := ⟨buf.length - pos - 1, by omega⟩
      have hne : buf.drop pos ≠ [] := fun h => by
        rw [h, List.length_nil] at hlen
        omega
      rcases deserializeEntryAt_cases hbuf hpos with ⟨msg, hat, hrest⟩ | ⟨p, pos₁, hat, hrest, hmore, hle⟩
      · refine ⟨pos, ?_, le_rfl, hpos⟩
        rw [hat, hn, parseEntriesAux, if_neg hne, hrest]
      · obtain ⟨pos₂, hloop, hge, hle₂⟩ := ih hle (by omega)
        refine ⟨pos₂, ?_, by omega, hle₂⟩
        have hfuel : parseEntriesAux n (buf.drop pos₁, pos₁) =
            parseEntriesAux (buf.length - pos₁) (buf.drop pos₁, pos₁) :=
          parseEntriesAux_eq_of_le (by simp only [List.length_drop]; omega)
            (by simp only [List.length_drop]; omega)
        rw [hat, hn, parseEntriesAux, if_neg hne, hrest]
        dsimp only
        rw [hloop, hfuel]
        rfl
    · rw [if_neg hlt]
      refine ⟨pos, ?_, le_rfl, hpos⟩
      rw [Nat.sub_eq_zero_of_le (by omega), parseEntriesAux]

/-- **What was written is read**, up to the end of the buffer. -/
theorem decodeLoop_serialize (hbuf : buf.length < 2 ^ 63) {es : List (Bytes × MemEntry)}
    (hes : ∀ p ∈ es, EntryInRange p) {rounds : ℕ} (hpos : pos ≤ buf.length)
    (hdrop : buf.drop pos = es.flatMap serializeEntry) (hrounds : buf.length - pos < rounds) :
    decodeLoop buf rounds pos = some (.ok (es, buf.length)) := by
  induction es generalizing pos rounds with
  | nil =>
    have hend : pos = buf.length := by
      have hlen := congrArg List.length hdrop
      rw [List.length_drop, List.flatMap_nil, List.length_nil] at hlen
      omega
    obtain ⟨rounds, rfl⟩ : ∃ n, rounds = n + 1 := ⟨rounds - 1, by omega⟩
    rw [decodeLoop, if_neg (by omega), hend]
  | cons p es ih =>
    rw [List.flatMap_cons] at hdrop
    have hlen := congrArg List.length hdrop
    rw [List.length_drop, List.length_append, length_serializeEntry, serializedLen] at hlen
    obtain ⟨rounds, rfl⟩ : ∃ n, rounds = n + 1 := ⟨rounds - 1, by omega⟩
    obtain ⟨pos', hread⟩ :=
      deserializeEntry_serializeEntry (hes p List.mem_cons_self) (es.flatMap serializeEntry) pos
    rw [decodeLoop, if_pos (by omega)]
    rcases deserializeEntryAt_cases hbuf hpos with ⟨msg, -, hrest⟩ | ⟨q, pos₁, hat, hrest, hmore, hle⟩
    · rw [hdrop, hread] at hrest
      cases hrest
    · rw [hdrop, hread] at hrest
      have hpair := Except.ok.inj hrest
      have hp : p = q := congrArg Prod.fst hpair
      have hleft : es.flatMap serializeEntry = buf.drop pos₁ := congrArg (fun r => r.2.1) hpair
      rw [hat]
      dsimp only
      rw [ih (fun q hq => hes q (List.mem_cons_of_mem _ hq)) hle hleft.symm (by omega), hp]
      rfl

/-- **Entries are self-delimiting.** The entries of a list are read back from their concatenation, up to its end.
From any position that four bytes do not overflow, as every position in a buffer, the decoder returns an error,
or an entry and a position behind that of the entry and in the buffer; so the loop ends. -/
theorem entries_selfDelimiting :
    (∀ es : List (Bytes × MemEntry), (∀ p ∈ es, Framed p) → (es.flatMap serializeEntry).length < 2 ^ 63 →
      decodeLoop (es.flatMap serializeEntry) ((es.flatMap serializeEntry).length + 1) 0 =
        some (.ok (es, (es.flatMap serializeEntry).length))) ∧
    (∀ (buf : Bytes) (pos : ℕ), buf.length < 2 ^ 63 → pos + 4 < 2 ^ 64 →
      (∃ msg, deserializeEntryAt buf pos = .error (.segmentCorrupt msg)) ∨
        ∃ p pos', deserializeEntryAt buf pos = .ok (p, pos') ∧ pos < pos' ∧ pos' ≤ buf.length) ∧
    ∀ buf : Bytes, buf.length < 2 ^ 63 → ∃ pos,
      decodeLoop buf (buf.length + 1) 0 = some (.ok (parseEntries buf, pos)) ∧ pos ≤ buf.length := by
  refine ⟨?_, ?_, ?_⟩
  · exact fun es hes hlen =>
      decodeLoop_serialize hlen (fun p hp => (hes p hp).inRange) (Nat.zero_le _) List.drop_zero
        (Nat.lt_succ_self _)
  · intro buf pos hbuf hover
    by_cases hpos : pos ≤ buf.length
    · rcases deserializeEntryAt_cases hbuf hpos with ⟨msg, hat, -⟩ | ⟨p, pos', hat, -, hmore, hle⟩
      · exact .inl ⟨msg, hat⟩
      · exact .inr ⟨p, pos', hat, hmore, hle⟩
    · -- behind the buffer, not even the length of the key can be read
      have hread : readBytesAt buf 4 "key_len" pos =
          .error (.segmentCorrupt "buffer too short: field key_len") := by
        rw [readBytesAt, if_neg (by omega), if_pos (by omega)]
        rfl
      refine .inl ⟨"buffer too short: field key_len", ?_⟩
      show (readBytesAt buf 4 "key_len" pos >>= _) = _
      rw [hread]
      rfl
  · intro buf hbuf
    obtain ⟨pos, hloop, -, hle⟩ := decodeLoop_ends hbuf (Nat.zero_le _) (Nat.lt_succ_self _)
    exact ⟨pos, hloop, hle⟩

/-- A put with a TTL and a tombstone are framed, and read back from their bytes. -/
theorem entries_selfDelimiting_two :
    let es : List (Bytes × MemEntry) :=
      [([0, 1, 1, 5], ⟨[0, 1, 1, 5], some [7, 8], .put, 1, 5, 60⟩),
        ([0, 1, 2], ⟨[0, 1, 2], none, .delete, 2, -6, 0⟩)]
    (∀ p ∈ es, Framed p) ∧ (es.flatMap serializeEntry).length = 67 ∧
      decodeLoop (es.flatMap serializeEntry) 68 0 = some (.ok (es, 67)) := by
  intro es
  have hes : ∀ p ∈ es, Framed p := by
    refine List.forall_mem_cons.mpr ⟨?_, List.forall_mem_singleton.mpr ?_⟩
    · exact ⟨rfl, by decide, by decide, by decide, by decide, by decide, by decide, by decide⟩
    · exact ⟨rfl, by decide, by decide, by decide, by decide, by decide, by decide, by decide⟩
  have hlen : (es.flatMap serializeEntry).length = 67 := by decide
  refine ⟨hes, hlen, ?_⟩
  have hread := entries_selfDelimiting.1 es hes (by rw [hlen]; decide)
  rwa [hlen] at hread
