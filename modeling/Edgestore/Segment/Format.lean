import Edgestore.Segment.Table
import Edgestore.Wal.Record

/-!
# The bytes of a `.dat` file

A `.dat` file is a header of eight bytes and blocks `[magic][compressed_len][payload]`, padded with
zeros to a multiple of 4096 bytes. A payload is a Zstandard frame of entries written one after the
other. Elsewhere such a file is the list of its blocks; here it is a byte string, and the readers
walk over it by offsets.

## Main definitions

* `Zstd`: the compressor, with its documented behaviour
* `serializeEntry`, `deserializeEntry`, `parseEntries`: entries in a block
* `readBlockAtOffset`: one block, as the readers of a file decode it
* `blocksOf`: the blocks of a byte string

## Main results

* `deserializeEntry_serializeEntry`: an entry in range is read back
* `readBlockAtOffset_eq`: reading at an offset is reading the first block behind it
-/

/-! ### Entries -/

/-- The magic of a file and of a block. -/
def segmentBlockMagic : ℕ := 0x45445347

/-- The length of the file header: the magic, the version and three zeros. -/
def segmentHeaderLen : ℕ := 8

/-- The layout of an entry: `key_len key val_len val lsn timestamp ttl op`, little-endian. -/
def serializeEntry (p : Bytes × MemEntry) : Bytes :=
  leBytes 4 p.1.length ++ (p.1 ++ (leBytes 4 (p.2.value.getD []).length ++
    (p.2.value.getD [] ++ (leBytes 8 p.2.lsn ++ (i64Bytes p.2.timestamp ++ (leBytes 4 p.2.ttl ++
      [p.2.op.toByte]))))))

/-- Take the `n` bytes of a field. -/
def readBytes (n : ℕ) (field : String) : RecordReader Bytes := fun (buf, pos) =>
  if buf.length < n then .error (.segmentCorrupt s!"buffer too short: field {field}")
  else .ok (buf.take n, (buf.drop n, pos + n))

/-- The operation of an entry byte. -/
def entryOp (b : Bytes) : Except EdgestoreError Operation :=
  if b = [1] then .ok .put
  else if b = [2] then .ok .delete
  else .error (.segmentCorrupt s!"unknown op byte: {ofLe b}")

/-- Read one entry. -/
def deserializeEntry : RecordReader (Bytes × MemEntry) := do
  let keyLen := ofLe (← readBytes 4 "key_len")
  let key ← readBytes keyLen "key"
  let valLen := ofLe (← readBytes 4 "val_len")
  let valBytes ← readBytes valLen "val"
  let lsn := ofLe (← readBytes 8 "lsn")
  let timestamp := asI64 (ofLe (← readBytes 8 "timestamp"))
  let ttl := ofLe (← readBytes 4 "ttl")
  let op ← entryOp (← readBytes 1 "op")
  let value := if op = .delete then none else some valBytes
  return (key, ⟨key, value, op, lsn, timestamp, ttl⟩)

/-- The entries of a payload, with a bound on their number. Reading stops at the first entry that
does not parse. -/
def parseEntriesAux : ℕ → Bytes × ℕ → List (Bytes × MemEntry)
  | 0, _ => []
  | n + 1, (buf, pos) =>
    if buf = [] then []
    else
      match deserializeEntry (buf, pos) with
      | .ok (p, rest) => p :: parseEntriesAux n rest
      | .error _ => []

/-- The entries of a payload. Every entry takes at least a byte, so the length bounds their number. -/
def parseEntries (buf : Bytes) : List (Bytes × MemEntry) := parseEntriesAux buf.length (buf, 0)

/-- An entry whose fields hold values of their types, and that is what is read back of it. -/
structure EntryInRange (p : Bytes × MemEntry) : Prop where
  stored : storedEntry p = p
  key : p.1.length < 256 ^ 4
  value : (p.2.value.getD []).length < 256 ^ 4
  lsn : p.2.lsn < 256 ^ 8
  timestamp : asI64 p.2.timestamp = p.2.timestamp
  ttl : p.2.ttl < 256 ^ 4

theorem length_serializeEntry (p : Bytes × MemEntry) :
    (serializeEntry p).length = serializedLen p := by
  simp only [serializeEntry, serializedLen, List.length_append, length_leBytes, length_i64Bytes,
    List.length_singleton]
  omega

theorem readBytes_append {x post : Bytes} {n pos : ℕ} {field : String} (h : x.length = n) :
    readBytes n field (x ++ post, pos) = .ok (x, (post, pos + n)) := by
  subst h
  simp [readBytes]

@[simp] theorem entryOp_toByte (op : Operation) : entryOp [op.toByte] = .ok op := by
  cases op <;> rfl

/-- **An entry in range** is read back, whatever follows it. -/
theorem deserializeEntry_serializeEntry {p : Bytes × MemEntry} (h : EntryInRange p) (post : Bytes)
    (pos : ℕ) : ∃ pos', deserializeEntry (serializeEntry p ++ post, pos) = .ok (p, (post, pos')) := by
  unfold deserializeEntry serializeEntry
  simp only [List.append_assoc]
  rw [bind_eq_of_ok (readBytes_append (by simp)), ofLe_leBytes_of_lt h.key,
    bind_eq_of_ok (readBytes_append rfl), bind_eq_of_ok (readBytes_append (by simp)),
    ofLe_leBytes_of_lt h.value, bind_eq_of_ok (readBytes_append rfl),
    bind_eq_of_ok (readBytes_append (by simp)), bind_eq_of_ok (readBytes_append (by simp)),
    bind_eq_of_ok (readBytes_append (by simp)), bind_eq_of_ok (readBytes_append (by simp)),
    lift_bind_eq_of_ok (entryOp_toByte p.2.op)]
  rw [ofLe_leBytes_of_lt h.lsn, asI64_ofLe_i64Bytes h.timestamp, ofLe_leBytes_of_lt h.ttl]
  refine ⟨pos + 4 + p.1.length + 4 + (p.2.value.getD []).length + 8 + 8 + 4 + 1, ?_⟩
  -- what was assembled is the entry as it is stored
  have hstored : (p.1, (⟨p.1, if p.2.op = .delete then none else some (p.2.value.getD []), p.2.op,
      p.2.lsn, p.2.timestamp, p.2.ttl⟩ : MemEntry)) = storedEntry p := by
    cases hop : p.2.op <;> simp [storedEntry, hop]
  rw [hstored, h.stored]
  rfl

/-- What follows a field is what the field leaves. -/
theorem readBytes_eq_ok {n : ℕ} {field : String} {c c' : Bytes × ℕ} {x : Bytes}
    (h : readBytes n field c = .ok (x, c')) : c.1.length = n + c'.1.length := by
  obtain ⟨buf, pos⟩ := c
  by_cases hlen : buf.length < n
  · rw [readBytes, if_pos hlen] at h
    cases h
  · rw [readBytes, if_neg hlen] at h
    cases h
    show buf.length = n + (buf.drop n).length
    rw [List.length_drop]
    omega

/-- Reading an entry takes at least a byte. -/
theorem deserializeEntry_length {c c' : Bytes × ℕ} {p : Bytes × MemEntry}
    (h : deserializeEntry c = .ok (p, c')) : c'.1.length < c.1.length := by
  unfold deserializeEntry at h
  obtain ⟨keyLen, _, h₁, h⟩ := of_bind_eq_ok h
  obtain ⟨key, _, h₂, h⟩ := of_bind_eq_ok h
  obtain ⟨valLen, _, h₃, h⟩ := of_bind_eq_ok h
  obtain ⟨val, _, h₄, h⟩ := of_bind_eq_ok h
  obtain ⟨lsn, _, h₅, h⟩ := of_bind_eq_ok h
  obtain ⟨timestamp, _, h₆, h⟩ := of_bind_eq_ok h
  obtain ⟨ttl, _, h₇, h⟩ := of_bind_eq_ok h
  obtain ⟨opByte, c₈, h₈, h⟩ := of_bind_eq_ok h
  obtain ⟨op, c₉, h₉, h⟩ := of_bind_eq_ok h
  have hc : c₉ = c₈ := by
    cases hop : entryOp opByte with
    | error err =>
      rw [hop] at h₉
      cases h₉
    | ok op' =>
      rw [hop] at h₉
      cases h₉
      rfl
  cases h
  subst hc
  have := readBytes_eq_ok h₁
  have := readBytes_eq_ok h₂
  have := readBytes_eq_ok h₃
  have := readBytes_eq_ok h₄
  have := readBytes_eq_ok h₅
  have := readBytes_eq_ok h₆
  have := readBytes_eq_ok h₇
  have := readBytes_eq_ok h₈
  omega

/-- Any bound from the length on gives the entries. -/
theorem parseEntriesAux_eq_of_le {n m : ℕ} {c : Bytes × ℕ} (hn : c.1.length ≤ n)
    (hm : c.1.length ≤ m) : parseEntriesAux n c = parseEntriesAux m c := by
  induction n generalizing m c with
  | zero =>
    obtain ⟨buf, pos⟩ := c
    obtain rfl : buf = [] := List.length_eq_zero_iff.mp (Nat.le_zero.mp hn)
    cases m <;> simp [parseEntriesAux]
  | succ n ih =>
    obtain ⟨buf, pos⟩ := c
    cases m with
    | zero =>
      obtain rfl : buf = [] := List.length_eq_zero_iff.mp (Nat.le_zero.mp hm)
      simp [parseEntriesAux]
    | succ m =>
      simp only [parseEntriesAux]
      cases hread : deserializeEntry (buf, pos) with
      | error err => rfl
      | ok r =>
        have hlt := deserializeEntry_length hread
        simp only
        rw [ih (m := m) (by omega) (by omega)]

/-- **The entries of a block** are read back. -/
theorem parseEntries_serialize {es : List (Bytes × MemEntry)} (h : ∀ p ∈ es, EntryInRange p) :
    parseEntries (es.flatMap serializeEntry) = es := by
  have haux : ∀ (es : List (Bytes × MemEntry)) (n pos : ℕ), (∀ p ∈ es, EntryInRange p) →
      (es.flatMap serializeEntry).length ≤ n →
      parseEntriesAux n (es.flatMap serializeEntry, pos) = es := by
    intro es
    induction es with
    | nil => intro n pos _ _; cases n <;> simp [parseEntriesAux]
    | cons p es ih =>
      intro n pos hes hn
      rw [List.flatMap_cons] at hn ⊢
      have hlen := length_serializeEntry p
      rw [List.length_append, hlen, serializedLen] at hn
      obtain ⟨n, rfl⟩ : ∃ m, n = m + 1 := ⟨n - 1, by omega⟩
      have hne : serializeEntry p ++ es.flatMap serializeEntry ≠ [] := by
        intro hnil
        have := congrArg List.length hnil
        rw [List.length_append, hlen, serializedLen, List.length_nil] at this
        omega
      obtain ⟨pos', hread⟩ :=
        deserializeEntry_serializeEntry (hes p (by simp)) (es.flatMap serializeEntry) pos
      rw [parseEntriesAux, if_neg hne, hread]
      simp only
      rw [ih n pos' (fun q hq => hes q (by simp [hq])) (by omega)]
  exact haux es _ 0 h le_rfl

/-! ### Blocks -/

/-- Zstandard at level 1. Decoding inverts encoding, and the encoding of a block that a reader accepts
has a length of 32 bits. -/
structure Zstd where
  /-- The compressor `zstd::encode_all`. -/
  encode : Bytes → Bytes
  /-- The decompressor `zstd::decode_all`. -/
  decode : Bytes → Option Bytes
  decode_encode : ∀ bs, decode (encode bs) = some bs
  length_encode_lt : ∀ bs, bs.length ≤ maxBlockDecompressed → (encode bs).length < 256 ^ 4

/-- The bytes of a block: its magic, the length of its payload, the payload, and zeros up to the
alignment. -/
def flushBlockToFile (Z : Zstd) (block : Bytes) : Bytes :=
  let compressed := Z.encode block
  let payloadSize := 8 + compressed.length
  leBytes 4 segmentBlockMagic ++ (leBytes 4 compressed.length ++ (compressed ++
    List.replicate (alignedSize payloadSize - payloadSize) 0))

/-- Decode the block at an offset: its entries and its aligned size. Where no magic is there are no
entries, and the size is zero. -/
def readBlockAtOffset (Z : Zstd) (dat : Bytes) (offset : ℕ) :
    Except EdgestoreError (List (Bytes × MemEntry) × ℕ) :=
  let buf := dat.drop offset
  if buf.length < 4 then .ok ([], 0)
  else if ofLe (buf.take 4) ≠ segmentBlockMagic then .ok ([], 0)
  else if buf.length < 8 then .error (.io .unexpectedEof)
  else
    let compressedLen := ofLe ((buf.drop 4).take 4)
    if (buf.drop 8).length < compressedLen then .error (.io .unexpectedEof)
    else
      match Z.decode ((buf.drop 8).take compressedLen) with
      | none => .error (.segmentCorrupt "zstd decode")
      | some decompressed =>
        if decompressed.length > maxBlockDecompressed then
          .error (.segmentCorrupt "decompressed block too large")
        else .ok (parseEntries decompressed, alignedSize (8 + compressedLen))

/-- What begins a byte string: nothing that is a block, or a block and its aligned size. A block that
is cut short has no size. -/
inductive Framing
  | none
  | short
  | whole (b : Block) (size : ℕ)
  deriving DecidableEq, Repr

/-- The block a payload decodes to. -/
def decodeBlock (Z : Zstd) (payload : Bytes) : Block :=
  match Z.decode payload with
  | none => .undecodable
  | some bs => .decoded bs.length (parseEntries bs)

/-- Look at the front of a byte string. -/
def framing (Z : Zstd) (buf : Bytes) : Framing :=
  if buf.length < 4 ∨ ofLe (buf.take 4) ≠ segmentBlockMagic then .none
  else if buf.length < 8 ∨ (buf.drop 8).length < ofLe ((buf.drop 4).take 4) then .short
  else
    let compressedLen := ofLe ((buf.drop 4).take 4)
    .whole (decodeBlock Z ((buf.drop 8).take compressedLen)) (alignedSize (8 + compressedLen))

/-- The blocks of a byte string, with a bound on their number. -/
def blocksOfAux (Z : Zstd) : ℕ → Bytes → Dat
  | 0, _ => []
  | n + 1, buf =>
    match framing Z buf with
    | .none => []
    | .short => [.truncated]
    | .whole b size => b :: blocksOfAux Z n (buf.drop size)

/-- The blocks of a byte string. Every block takes at least a byte, so the length bounds their
number. -/
def blocksOf (Z : Zstd) (buf : Bytes) : Dat := blocksOfAux Z buf.length buf

variable {Z : Zstd}

theorem alignedSize_ge (n : ℕ) : n ≤ alignedSize n := by
  rw [alignedSize]
  split
  · exact le_rfl
  · have := Nat.div_add_mod n segmentBlockSize
    have hlt : n % segmentBlockSize < segmentBlockSize := Nat.mod_lt _ (by decide)
    rw [Nat.add_mul, Nat.one_mul, Nat.mul_comm]
    omega

theorem alignedSize_le (n : ℕ) : alignedSize n ≤ n + segmentBlockSize := by
  rw [alignedSize]
  split
  · exact Nat.le_add_right _ _
  · have := Nat.div_add_mod n segmentBlockSize
    rw [Nat.add_mul, Nat.one_mul, Nat.mul_comm]
    omega

theorem framing_nil : framing Z [] = .none := by simp [framing]

/-- A block takes at least eight bytes. -/
theorem framing_whole {buf : Bytes} {b : Block} {size : ℕ} (h : framing Z buf = .whole b size) :
    8 ≤ size ∧ 8 ≤ buf.length := by
  unfold framing at h
  split at h
  · cases h
  · split at h
    · cases h
    case isFalse hlen =>
      simp only [Framing.whole.injEq] at h
      have := alignedSize_ge (8 + ofLe ((buf.drop 4).take 4))
      rw [not_or] at hlen
      omega

theorem framing_whole_length {buf : Bytes} {b : Block} {size : ℕ}
    (h : framing Z buf = .whole b size) : (buf.drop size).length < buf.length := by
  obtain ⟨hsize, hlen⟩ := framing_whole h
  rw [List.length_drop]
  omega

/-- Any bound from the length on gives the blocks. -/
theorem blocksOfAux_eq_of_le {n m : ℕ} {buf : Bytes} (hn : buf.length ≤ n) (hm : buf.length ≤ m) :
    blocksOfAux Z n buf = blocksOfAux Z m buf := by
  induction n generalizing m buf with
  | zero =>
    obtain rfl : buf = [] := List.length_eq_zero_iff.mp (Nat.le_zero.mp hn)
    cases m <;> simp [blocksOfAux, framing_nil]
  | succ n ih =>
    cases m with
    | zero =>
      obtain rfl : buf = [] := List.length_eq_zero_iff.mp (Nat.le_zero.mp hm)
      simp [blocksOfAux, framing_nil]
    | succ m =>
      simp only [blocksOfAux]
      cases hf : framing Z buf with
      | none => rfl
      | short => rfl
      | whole b size =>
        have hlt := framing_whole_length hf
        simp only
        rw [ih (m := m) (by omega) (by omega)]

/-- The blocks of a byte string, from its front. -/
theorem blocksOf_eq (buf : Bytes) :
    blocksOf Z buf =
      match framing Z buf with
      | .none => []
      | .short => [.truncated]
      | .whole b size => b :: blocksOf Z (buf.drop size) := by
  rw [blocksOf]
  cases hn : buf.length with
  | zero =>
    obtain rfl : buf = [] := List.length_eq_zero_iff.mp hn
    rw [framing_nil, blocksOfAux]
  | succ n =>
    rw [blocksOfAux]
    cases hf : framing Z buf with
    | none => rfl
    | short => rfl
    | whole b size =>
      have hlt := framing_whole_length hf
      simp only
      rw [blocksOf, blocksOfAux_eq_of_le (by omega) le_rfl]

/-- **Reading at an offset** is reading the first block behind it. -/
theorem readBlockAtOffset_eq (dat : Bytes) (offset : ℕ) :
    readBlockAtOffset Z dat offset =
      match framing Z (dat.drop offset) with
      | .none => .ok ([], 0)
      | .short => .error (.io .unexpectedEof)
      | .whole b size => (readBlock b).map fun es => (es, size) := by
  simp only [readBlockAtOffset, framing]
  generalize dat.drop offset = buf
  by_cases hlen : buf.length < 4
  · simp [hlen]
  by_cases hmagic : ofLe (buf.take 4) ≠ segmentBlockMagic
  · simp [hlen, hmagic]
  rw [if_neg hlen, if_neg hmagic, if_neg (not_or.mpr ⟨hlen, hmagic⟩)]
  by_cases hhead : buf.length < 8
  · simp [hhead]
  by_cases hshort : (buf.drop 8).length < ofLe ((buf.drop 4).take 4)
  · rw [if_neg hhead, if_pos hshort, if_pos (.inr hshort)]
  rw [if_neg hhead, if_neg hshort, if_neg (not_or.mpr ⟨hhead, hshort⟩)]
  simp only [decodeBlock]
  cases hdec : Z.decode ((buf.drop 8).take (ofLe ((buf.drop 4).take 4))) with
  | none => rfl
  | some bs =>
    simp only [readBlock]
    split <;> rfl

/-! ### Blocks that were written -/

/-- A block that a writer of entries in range makes, within the limit of the readers. -/
def Block.Written (b : Block) : Prop :=
  ∃ es, b = .decoded (es.flatMap serializeEntry).length es ∧
    (es.flatMap serializeEntry).length ≤ maxBlockDecompressed ∧ ∀ p ∈ es, EntryInRange p

/-- The bytes of blocks. -/
def encodeBlocks (Z : Zstd) (dat : Dat) : Bytes :=
  dat.flatMap fun b => flushBlockToFile Z (b.entries.flatMap serializeEntry)

@[simp] theorem encodeBlocks_nil : encodeBlocks Z [] = [] := rfl

@[simp] theorem encodeBlocks_cons (b : Block) (dat : Dat) :
    encodeBlocks Z (b :: dat) =
      flushBlockToFile Z (b.entries.flatMap serializeEntry) ++ encodeBlocks Z dat := by
  simp [encodeBlocks]

@[simp] theorem encodeBlocks_append (dat dat' : Dat) :
    encodeBlocks Z (dat ++ dat') = encodeBlocks Z dat ++ encodeBlocks Z dat' := by
  simp [encodeBlocks]

theorem length_flushBlockToFile (block : Bytes) :
    (flushBlockToFile Z block).length = alignedSize (8 + (Z.encode block).length) := by
  have := alignedSize_ge (8 + (Z.encode block).length)
  simp only [flushBlockToFile, List.length_append, length_leBytes, List.length_replicate]
  omega

/-- A block that was written is found in front of anything. -/
theorem framing_flushBlockToFile {block : Bytes} (h : block.length ≤ maxBlockDecompressed)
    (post : Bytes) :
    framing Z (flushBlockToFile Z block ++ post) =
      .whole (.decoded block.length (parseEntries block)) (flushBlockToFile Z block).length := by
  have hlt := Z.length_encode_lt block h
  rw [length_flushBlockToFile]
  set pad := List.replicate (alignedSize (8 + (Z.encode block).length) -
    (8 + (Z.encode block).length)) (0 : Byte) with hpad
  have hbuf : flushBlockToFile Z block ++ post = leBytes 4 segmentBlockMagic ++
      (leBytes 4 (Z.encode block).length ++ (Z.encode block ++ (pad ++ post))) := by
    simp only [flushBlockToFile, List.append_assoc, hpad]
  have hmagic : ofLe (leBytes 4 segmentBlockMagic) = segmentBlockMagic :=
    ofLe_leBytes_of_lt (by decide)
  rw [hbuf]
  have hdrop4 : (leBytes 4 segmentBlockMagic ++ (leBytes 4 (Z.encode block).length ++
      (Z.encode block ++ (pad ++ post)))).drop 4 =
        leBytes 4 (Z.encode block).length ++ (Z.encode block ++ (pad ++ post)) :=
    List.drop_left' (length_leBytes ..)
  have hdrop8 : (leBytes 4 segmentBlockMagic ++ (leBytes 4 (Z.encode block).length ++
      (Z.encode block ++ (pad ++ post)))).drop 8 = Z.encode block ++ (pad ++ post) := by
    rw [show (8 : ℕ) = 4 + 4 from rfl, ← List.drop_drop, hdrop4, List.drop_left' (length_leBytes ..)]
  have hlen : ofLe ((leBytes 4 (Z.encode block).length ++
      (Z.encode block ++ (pad ++ post))).take 4) = (Z.encode block).length := by
    rw [List.take_left' (length_leBytes ..), ofLe_leBytes_of_lt hlt]
  unfold framing
  rw [hdrop4, hdrop8, hlen, List.take_left' (length_leBytes ..), hmagic,
    if_neg (by simp only [List.length_append, length_leBytes]; omega),
    if_neg (by simp only [List.length_append, length_leBytes]; omega)]
  simp only [List.take_left, decodeBlock, Z.decode_encode]

/-- **Blocks that were written** are the blocks read back. -/
theorem blocksOf_encodeBlocks {dat : Dat} (h : ∀ b ∈ dat, b.Written) :
    blocksOf Z (encodeBlocks Z dat) = dat := by
  induction dat with
  | nil => rw [encodeBlocks_nil, blocksOf_eq, framing_nil]
  | cons b dat ih =>
    obtain ⟨es, rfl, hsize, hes⟩ := h b (by simp)
    rw [encodeBlocks_cons, blocksOf_eq, Block.entries, framing_flushBlockToFile hsize]
    simp only [List.drop_left, parseEntries_serialize hes]
    rw [ih fun b hb => h b (by simp [hb])]
