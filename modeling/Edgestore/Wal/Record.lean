import Edgestore.Externals

/-!
# WAL records on disk

The byte format of WAL records, the frames around them, and the header of a WAL file.

## Main definitions

* `serializeRecord`, `deserializeRecord`: the payload of a frame before compression
* `walFormat`: the framed log of a WAL file behind its header
* `WalRecord.InRange`: the values of the fields a record type admits

## Main results

* `deserializeRecord_serializeRecord`: a record in range is read back
* `fits_walFormat`: a record in range whose frame is below the reader's limit survives the log
-/

/-- The bytes still to be read, and the offset reached, which errors report. -/
abbrev RecordReader := StateT (Bytes × ℕ) (Except EdgestoreError)

/-- Take `n` bytes, or fail with the field that is cut short. -/
def need (n : ℕ) (label : String) : RecordReader Bytes := fun (buf, pos) =>
  if buf.length < n then
    .error (.corruptRecord
      s!"buffer too short: {label} (need {n} more at offset {pos})")
  else .ok (buf.take n, (buf.drop n, pos + n))

/-- The bytes `to_le_bytes` makes of an `i64`. -/
def i64Bytes (t : ℤ) : Bytes := leBytes 8 (t % 2 ^ 64).toNat

/-- The cast `op as u8`. -/
def Operation.toByte : Operation → Byte
  | .put => 1
  | .delete => 2

/-- The payload of a record: `txid lsn timestamp ttl op ns_len ns key_len key value_hash val_len
val`, little-endian but for `ns_len`. -/
def serializeRecord (rec : WalRecord) : Bytes :=
  leBytes 8 rec.txid ++ (leBytes 8 rec.lsn ++ (i64Bytes rec.timestamp ++ (leBytes 4 rec.ttl ++
    ([rec.op.toByte] ++ (beBytes 2 rec.nsLen ++ (rec.nsBytes ++ (leBytes 4 rec.keyBytes.length ++
      (rec.keyBytes ++ (rec.valueHash ++ (leBytes 4 rec.valueBytes.length ++
        rec.valueBytes))))))))))

/-- The operation of a record byte. -/
def readOp (b : Bytes) : Except EdgestoreError Operation :=
  if b = [1] then .ok .put
  else if b = [2] then .ok .delete
  else .error (.corruptRecord s!"unknown operation byte: {ofLe b}")

/-- The reader of one record. -/
def readRecord : RecordReader WalRecord := do
  let txid := ofLe (← need 8 "txid")
  let lsn := ofLe (← need 8 "lsn")
  let timestamp := asI64 (ofLe (← need 8 "timestamp"))
  let ttl := ofLe (← need 4 "ttl")
  let op ← readOp (← need 1 "op")
  let nsLen := ofBe (← need 2 "ns_len")
  let nsBytes ← need nsLen "ns_bytes"
  let keyLen := ofLe (← need 4 "key_len")
  let keyBytes ← need keyLen "key_bytes"
  let valueHash ← need 32 "value_hash"
  let valLen := ofLe (← need 4 "val_len")
  let valueBytes ← need valLen "val_bytes"
  return { txid, lsn, timestamp, ttl, nsLen, nsBytes, keyBytes, op, valueHash, valueBytes }

/-- Read a record from the front of a buffer. Bytes behind it are ignored. -/
def deserializeRecord (buf : Bytes) : Except EdgestoreError WalRecord :=
  readRecord.run' (buf, 0)

/-- The fields hold values of their types, and the lengths written are the lengths there are. -/
structure WalRecord.InRange (r : WalRecord) : Prop where
  txid : r.txid < 256 ^ 8
  lsn : r.lsn < 256 ^ 8
  timestamp : asI64 r.timestamp = r.timestamp
  ttl : r.ttl < 256 ^ 4
  nsLen : r.nsLen = r.nsBytes.length
  nsBytes : r.nsBytes.length < 256 ^ 2
  keyBytes : r.keyBytes.length < 256 ^ 4
  valueHash : r.valueHash.length = 32
  valueBytes : r.valueBytes.length < 256 ^ 4

/-! ### Round trip -/

theorem need_append {x post : Bytes} {n pos : ℕ} {label : String} (h : x.length = n) :
    need n label (x ++ post, pos) = .ok (x, (post, pos + n)) := by
  subst h
  simp [need]

theorem need_self {x : Bytes} {n pos : ℕ} {label : String} (h : x.length = n) :
    need n label (x, pos) = .ok (x, ([], pos + n)) := by
  subst h
  simp [need]

@[simp] theorem length_i64Bytes (t : ℤ) : (i64Bytes t).length = 8 := by simp [i64Bytes]

theorem asI64_ofLe_i64Bytes {t : ℤ} (h : asI64 t = t) : asI64 (ofLe (i64Bytes t)) = t := by
  have hnat : ((t % 2 ^ 64).toNat : ℤ) = t % 2 ^ 64 := by omega
  have hlt : (t % 2 ^ 64).toNat < 256 ^ 8 := by omega
  have hmod : (t % (2 ^ 64 : ℕ)).bmod (2 ^ 64) = t.bmod (2 ^ 64) := Int.emod_bmod t _
  rw [i64Bytes, ofLe_leBytes_of_lt hlt, hnat, asI64]
  exact hmod.trans h

@[simp] theorem readOp_toByte (op : Operation) : readOp [op.toByte] = .ok op := by
  cases op <;> rfl

theorem bind_eq_of_ok {α β : Type} {m : RecordReader α} {f : α → RecordReader β}
    {c c' : Bytes × ℕ} {a : α} (h : m c = .ok (a, c')) : (m >>= f) c = f a c' := by
  change (m c >>= fun p => f p.1 p.2) = _
  rw [h]
  rfl

theorem lift_bind_eq_of_ok {α β : Type} {x : Except EdgestoreError α} {f : α → RecordReader β}
    {c : Bytes × ℕ} {a : α} (h : x = .ok a) :
    ((liftM x : RecordReader α) >>= f) c = f a c := bind_eq_of_ok (by rw [h]; rfl)

/-- A record in range is read back. -/
theorem deserializeRecord_serializeRecord {r : WalRecord} (h : r.InRange) :
    deserializeRecord (serializeRecord r) = .ok r := by
  have hns : ofBe (beBytes 2 r.nsLen) = r.nsBytes.length := by
    rw [h.nsLen, ofBe_beBytes_of_lt h.nsBytes]
  have hrun : ∃ c, readRecord (serializeRecord r, 0) = .ok (r, c) := by
    unfold readRecord serializeRecord
    rw [bind_eq_of_ok (need_append (by simp)), bind_eq_of_ok (need_append (by simp)),
      bind_eq_of_ok (need_append (by simp)), bind_eq_of_ok (need_append (by simp)),
      bind_eq_of_ok (need_append (by simp)), lift_bind_eq_of_ok (readOp_toByte r.op),
      bind_eq_of_ok (need_append (by simp)), hns, bind_eq_of_ok (need_append rfl),
      bind_eq_of_ok (need_append (by simp)), ofLe_leBytes_of_lt h.keyBytes,
      bind_eq_of_ok (need_append rfl), bind_eq_of_ok (need_append h.valueHash),
      bind_eq_of_ok (need_append (by simp)), ofLe_leBytes_of_lt h.valueBytes,
      bind_eq_of_ok (need_self rfl)]
    rw [ofLe_leBytes_of_lt h.txid, ofLe_leBytes_of_lt h.lsn, ofLe_leBytes_of_lt h.ttl,
      asI64_ofLe_i64Bytes h.timestamp, ← h.nsLen]
    exact ⟨_, rfl⟩
  obtain ⟨c, hc⟩ := hrun
  change Prod.fst <$> readRecord (serializeRecord r, 0) = .ok r
  rw [hc]
  rfl

theorem length_of_need {n : ℕ} {label : String} {c c' : Bytes × ℕ} {x : Bytes}
    (h : need n label c = .ok (x, c')) : x.length = n := by
  obtain ⟨buf, pos⟩ := c
  by_cases hlen : buf.length < n
  · rw [need, if_pos hlen] at h
    cases h
  · rw [need, if_neg hlen] at h
    cases h
    rw [List.length_take]
    omega

theorem of_bind_eq_ok {α β : Type} {m : RecordReader α} {f : α → RecordReader β}
    {c c' : Bytes × ℕ} {b : β} (h : (m >>= f) c = .ok (b, c')) :
    ∃ a c₁, m c = .ok (a, c₁) ∧ f a c₁ = .ok (b, c') := by
  change (m c >>= fun p => f p.1 p.2) = _ at h
  cases hm : m c with
  | error err =>
    rw [hm] at h
    cases h
  | ok p =>
    rw [hm] at h
    exact ⟨p.1, p.2, rfl, h⟩

theorem asI64_asI64 (n : ℤ) : asI64 (asI64 n) = asI64 n := Int.bmod_bmod

/-- **A record that is read** is in range. -/
theorem WalRecord.InRange.of_deserializeRecord {bs : Bytes} {r : WalRecord}
    (h : deserializeRecord bs = .ok r) : r.InRange := by
  have hrun : ∃ c, readRecord (bs, 0) = .ok (r, c) := by
    change Prod.fst <$> readRecord (bs, 0) = .ok r at h
    cases hr : readRecord (bs, 0) with
    | error err =>
      rw [hr] at h
      cases h
    | ok p =>
      rw [hr] at h
      cases h
      exact ⟨p.2, rfl⟩
  obtain ⟨c, hc⟩ := hrun
  unfold readRecord at hc
  obtain ⟨txid, _, htxid, hc⟩ := of_bind_eq_ok hc
  obtain ⟨lsn, _, hlsn, hc⟩ := of_bind_eq_ok hc
  obtain ⟨timestamp, _, -, hc⟩ := of_bind_eq_ok hc
  obtain ⟨ttl, _, httl, hc⟩ := of_bind_eq_ok hc
  obtain ⟨opByte, _, -, hc⟩ := of_bind_eq_ok hc
  obtain ⟨op, _, -, hc⟩ := of_bind_eq_ok hc
  obtain ⟨nsLen, _, hnsLen, hc⟩ := of_bind_eq_ok hc
  obtain ⟨ns, _, hns, hc⟩ := of_bind_eq_ok hc
  obtain ⟨keyLen, _, hkeyLen, hc⟩ := of_bind_eq_ok hc
  obtain ⟨key, _, hkey, hc⟩ := of_bind_eq_ok hc
  obtain ⟨hash, _, hhash, hc⟩ := of_bind_eq_ok hc
  obtain ⟨valLen, _, hvalLen, hc⟩ := of_bind_eq_ok hc
  obtain ⟨val, _, hval, hc⟩ := of_bind_eq_ok hc
  cases hc
  have hlt₈ : ∀ x : Bytes, x.length = 8 → ofLe x < 256 ^ 8 := fun x hx => hx ▸ ofLe_lt x
  have hlt₄ : ∀ x : Bytes, x.length = 4 → ofLe x < 256 ^ 4 := fun x hx => hx ▸ ofLe_lt x
  have hlt₂ : ∀ x : Bytes, x.length = 2 → ofBe x < 256 ^ 2 := fun x hx => by
    rw [ofBe, ← hx, ← List.length_reverse]
    exact ofLe_lt x.reverse
  constructor
  case txid => exact hlt₈ _ (length_of_need htxid)
  case lsn => exact hlt₈ _ (length_of_need hlsn)
  case timestamp => simp only [asI64_asI64]
  case ttl => exact hlt₄ _ (length_of_need httl)
  case nsLen => exact (length_of_need hns).symm
  case nsBytes =>
    show ns.length < 256 ^ 2
    rw [length_of_need hns]
    exact hlt₂ _ (length_of_need hnsLen)
  case keyBytes =>
    show key.length < 256 ^ 4
    rw [length_of_need hkey]
    exact hlt₄ _ (length_of_need hkeyLen)
  case valueHash => exact length_of_need hhash
  case valueBytes =>
    show val.length < 256 ^ 4
    rw [length_of_need hval]
    exact hlt₄ _ (length_of_need hvalLen)

/-! ### The framed logs of the store -/

open FramedLog

variable (X : Externals)

/-- The largest compressed payload a reader accepts, 64 MiB. -/
def maxCompressedLen : ℕ := 64 * 1024 * 1024

/-- The frames of a WAL file: `[crc32c][compressed_len][lz4 payload]`. -/
def walFormat : Format WalRecord where
  maxLen := maxCompressedLen
  checksum := X.crc32c
  encode r := X.compress (serializeRecord r)
  decode bs := (X.decompress bs).bind fun raw => (deserializeRecord raw).toOption

/-- A record within the limits of the format: its fields are in range, and its compressed payload
is one the reader accepts. -/
structure WalRecord.Fits (r : WalRecord) : Prop where
  inRange : r.InRange
  length_le : (X.compress (serializeRecord r)).length ≤ maxCompressedLen

/-- The largest JSON of a manifest frame. -/
def maxEntryLen : ℕ := 1000000

/-- The frames of the manifest: `[crc32c][len][json]`. -/
def manifestFormat : Format ManifestEntry where
  maxLen := maxEntryLen
  checksum := X.crc32c
  encode := X.manifestJson
  decode := X.parseManifestJson

variable {X}

theorem fits_walFormat {r : WalRecord} (h : r.Fits X) : FramedLog.Fits (walFormat X) r where
  length_le := h.length_le
  length_lt := lt_of_le_of_lt h.length_le (by decide)
  checksum_lt := X.crc32c_lt _
  decode_encode := by
    change (X.decompress (X.compress (serializeRecord r))).bind _ = some r
    rw [X.decompress_compress, Option.bind_some, deserializeRecord_serializeRecord h.inRange]
    rfl

theorem fits_manifestFormat {e : ManifestEntry} (h : (X.manifestJson e).length ≤ maxEntryLen) :
    FramedLog.Fits (manifestFormat X) e where
  length_le := h
  length_lt := lt_of_le_of_lt h (by decide)
  checksum_lt := X.crc32c_lt _
  decode_encode := X.parse_manifestJson e
