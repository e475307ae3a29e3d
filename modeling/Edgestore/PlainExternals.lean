import Edgestore.Externals
import Edgestore.Lib.Codec

/-!
# A concrete choice of the third-party functions

CRC-32C is computed bit by bit. Compression is the identity, manifest frames are written field by
field, a filter admits every key, and hashes mix the length with a checksum. This choice shows that
the laws of `Externals` are consistent, and lets runs of the store be evaluated.

## Main definitions

* `crc32c`: the reflected CRC with polynomial `0x82F63B78`
* `plainExternals`: the third-party functions
-/

/-- Shift one bit out of a CRC register. -/
def crcBit (c : ℕ) : ℕ := if c % 2 = 1 then (c / 2) ^^^ 0x82F63B78 else c / 2

/-- Feed one byte into a CRC register. -/
def crcByte (c : ℕ) (b : Byte) : ℕ :=
  crcBit (crcBit (crcBit (crcBit (crcBit (crcBit (crcBit (crcBit (c ^^^ b.val))))))))

/-- The CRC-32C checksum. -/
def crc32c (bs : Bytes) : ℕ := (bs.foldl crcByte 0xFFFFFFFF ^^^ 0xFFFFFFFF) % 256 ^ 4

/-- Segment metadata, field by field. -/
def segmentMetaCodec : Codec SegmentMeta :=
  let n := Codec.nat
  let b := Codec.bytes
  let i := Codec.int
  (n.pair (b.pair (b.pair (b.pair (n.pair (n.pair (n.pair (n.pair (n.pair (Codec.string.pair
    (i.pair (i.pair (b.pair (i.pair (Codec.bool.pair Codec.bool))))))))))))))).iso
    (fun m => (m.segmentId, m.segmentHash, m.minKey, m.maxKey, m.minLsn, m.maxLsn, m.recordCount,
      m.compressedBytes, m.uncompressedBytes, m.compression, m.cohortBucket, m.deathTime,
      m.merkleRoot, m.createdAt, m.textIndexStripped, m.vectorIndexStripped))
    (fun (a1, a2, a3, a4, a5, a6, a7, a8, a9, a10, a11, a12, a13, a14, a15, a16) =>
      ⟨a1, a2, a3, a4, a5, a6, a7, a8, a9, a10, a11, a12, a13, a14, a15, a16⟩)
    (fun _ => rfl)

/-- Manifest frames, field by field. -/
def manifestEntryCodec : Codec ManifestEntry :=
  (Codec.bool.pair (Codec.nat.pair segmentMetaCodec.option)).iso
    (fun e => (decide (e.entryType = .add), e.segmentId, e.segMeta))
    (fun p => ⟨if p.1 then .add else .remove, p.2.1, p.2.2⟩)
    (fun e => by rcases e with ⟨_ | _, _, _⟩ <;> rfl)

/-- Thirty-two bytes that depend on the length and the checksum of a byte string. -/
def plainHash (bs : Bytes) : Bytes := leBytes 8 bs.length ++ leBytes 24 (crc32c bs)

/-- The keys, values and LSNs of a block, as bytes. -/
def blockBytes : Block → Bytes
  | .decoded _ es => es.flatMap fun p => p.1 ++ p.2.value.getD [] ++ leBytes 8 p.2.lsn
  | .undecodable => [1]
  | .truncated => [2]

theorem length_manifestEntryCodec_remove {id : ℕ} (h : id < 2 ^ 64) :
    (manifestEntryCodec.enc ⟨.remove, id, none⟩).length ≤ 1000000 := by
  have hid : (Codec.nat.enc id).length ≤ 10 := Codec.length_nat_le (by omega)
  change ((Codec.bool.enc false) ++ (Codec.nat.enc id ++ [Fin.ofNat 256 0])).length ≤ 1000000
  have hb : (Codec.bool.enc false).length = 1 := rfl
  simp only [List.length_append, hb, List.length_singleton]
  omega

/-- The third-party functions in their plainest form. -/
def plainExternals : Externals where
  crc32c := crc32c
  crc32c_lt _ := Nat.mod_lt _ (by decide)
  compress bs := bs
  decompress bs := some bs
  decompress_compress _ := rfl
  manifestJson := manifestEntryCodec.enc
  parseManifestJson bs := (manifestEntryCodec.dec bs).map Prod.fst
  parse_manifestJson e := by
    have h := manifestEntryCodec.dec_enc e []
    rw [List.append_nil] at h
    rw [h]
    rfl
  length_removeJson _ h := length_manifestEntryCodec_remove h
  blake3 := plainHash
  length_blake3 _ := by simp [plainHash]
  datHash dat := plainHash (dat.flatMap blockBytes)
  zstdLen es := es.length
  buildFilter _ := ⟨0, 0, []⟩
  filterContains _ _ := true
  filterContains_build _ _ _ := rfl
