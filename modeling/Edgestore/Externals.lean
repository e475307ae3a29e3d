import Edgestore.Types
import Edgestore.Lib.FramedLog

/-!
# Third-party code

The store calls LZ4, Zstandard, BLAKE3, CRC-32C, an xor filter and a JSON serializer that are not
part of the repository. They are the fields of one structure, together with the documented
behaviour the code relies on: the codecs are lossless, a filter never denies a key it was built
from, and a checksum is a 32-bit number.

## Main definitions

* `ManifestEntry`, `XorFilter`, `Block`: the data these functions write and read
* `Externals`: the third-party functions and their laws
* `Externals.walFormat`, `Externals.manifestFormat`: the two framed logs of the store
-/

/-- The kinds of manifest frame. -/
inductive ManifestEntryType
  | add
  | remove
  deriving DecidableEq, Repr

/-- A frame of the manifest. -/
structure ManifestEntry where
  entryType : ManifestEntryType
  segmentId : SegmentId
  segMeta : Option SegmentMeta
  deriving DecidableEq, Repr

/-- An xor filter, as its `.xf` file holds it. -/
structure XorFilter where
  seed : ℕ
  blockLength : ℕ
  fingerprints : Bytes
  deriving DecidableEq, Repr

/-- A block of a `.dat` file: the size it decompresses to and the entries in it, a block that does
not decompress, or a block whose declared length runs past the end of the file. -/
inductive Block
  | decoded (size : ℕ) (entries : List (Bytes × MemEntry))
  | undecodable
  | truncated
  deriving DecidableEq, Repr

/-- The blocks of a `.dat` file behind its header. -/
abbrev Dat := List Block

/-- The third-party functions the store calls, and what it relies on. -/
structure Externals where
  /-- The checksum `crc32c::crc32c`. -/
  crc32c : Bytes → ℕ
  crc32c_lt : ∀ bs, crc32c bs < 256 ^ 4
  /-- The compressor `lz4_flex::compress_prepend_size`. -/
  compress : Bytes → Bytes
  /-- The decompressor `lz4_flex::decompress_size_prepended`. -/
  decompress : Bytes → Option Bytes
  decompress_compress : ∀ bs, decompress (compress bs) = some bs
  /-- The serializer `serde_json::to_vec` on manifest frames. -/
  manifestJson : ManifestEntry → Bytes
  /-- The parser `serde_json::from_slice` on manifest frames. -/
  parseManifestJson : Bytes → Option ManifestEntry
  parse_manifestJson : ∀ e, parseManifestJson (manifestJson e) = some e
  /-- A removal frame holds an id of 64 bits and two short words. -/
  length_removeJson : ∀ id < 2 ^ 64, (manifestJson ⟨.remove, id, none⟩).length ≤ 1000000
  /-- The hash `blake3::hash`. -/
  blake3 : Bytes → Bytes
  length_blake3 : ∀ bs, (blake3 bs).length = 32
  /-- The hash `blake3::hash` of the bytes of a `.dat` file. -/
  datHash : Dat → Bytes
  /-- The number of bytes `zstd::encode_all` makes of a block of entries. -/
  zstdLen : List (Bytes × MemEntry) → ℕ
  /-- The filter `xorf::Xor8::from` makes of the distinct hashes of the keys. -/
  buildFilter : List Bytes → XorFilter
  /-- The test `xorf::Xor8::contains` on the hash of a key. -/
  filterContains : XorFilter → Bytes → Bool
  filterContains_build : ∀ keys, ∀ k ∈ keys, filterContains (buildFilter keys) k = true
