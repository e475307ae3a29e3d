import Edgestore.ContentHashes
import Edgestore.Lib.Hex
import Edgestore.Replication.Rejection
import Edgestore.Watermark

/-!
# Replication over HTTP

A node serves its root, its manifest, its segments and its watermark over HTTP, and a client asks for them. The server
takes the engine for as long as it looks up what is asked for; a segment is read from its file behind that.

URLs are lists of characters. What the HTTP library and the serializers do is taken as they document it: a status from
400 on is an error of the call, and what is serialized is read back.

## Main definitions

* `Http.parseUrl`, `Http.handleRequest`: the server
* `HttpReplicationClient`: the client
* `HttpReplicationClient.Serves`: the network takes the requests of a client to a server

## Main results

* `World.client_answers`: the client answers for the engine that is served
-/

/-- Response of `GET /merkle`. -/
structure MerkleResponse where
  root : Bytes
  deriving DecidableEq, Repr

/-- One entry of the response of `GET /segments`. -/
structure SegmentEntry where
  segmentId : SegmentId
  segmentHash : Bytes
  deriving DecidableEq, Repr

/-- Commit watermark and write token, the response of `GET /watermark`. -/
structure WatermarkResponse where
  confirmedLsn : Lsn
  wtoken : ℕ
  deriving DecidableEq, Repr

/-- The serializers of a wire struct: `rmp_serde::to_vec_named`, `rmp_serde::from_read` and `serde_json::to_vec`. -/
structure Wire (α : Type) where
  toVecNamed : α → Except String Bytes
  fromRead : Bytes → Except String α
  jsonToVec : α → Except String Bytes
  fromRead_toVecNamed : ∀ a, ∃ bs, toVecNamed a = .ok bs ∧ fromRead bs = .ok a

/-- The serializers of the wire structs, and the bytes of `.dat` files: those of a whole one, from which its blocks can
be read, and those of a torn one. -/
structure Wires where
  merkle : Wire MerkleResponse
  segments : Wire (List SegmentEntry)
  watermark : Wire WatermarkResponse
  datBytes : Dat → Bytes
  datOf : Bytes → Dat
  datOf_datBytes : ∀ dat, datOf (datBytes dat) = dat
  tornBytes : Bytes

/-- What `std::fs::read` returns. -/
def Wires.read (C : Wires) : File Dat → Option Bytes
  | .absent => none
  | .torn => some C.tornBytes
  | .whole dat => some (C.datBytes dat)

namespace Http

/-- Methods of requests. -/
inductive Method
  | get
  | other
  deriving DecidableEq, Repr

structure Request where
  method : Method
  url : List Char
  deriving DecidableEq, Repr

structure Response where
  status : ℕ
  contentType : String
  body : Bytes
  deriving DecidableEq, Repr

/-! ### The server -/

/-- The components of the path that are not empty, and whether the query has `debug=json`. -/
def parseUrl (url : List Char) : List (List Char) × Bool :=
  let path := url.takeWhile (· ≠ '?')
  let query := (url.dropWhile (· ≠ '?')).drop 1
  ((path.splitOn '/').filter (· ≠ []), (query.splitOn '&').any (· = "debug=json".toList))

/-- Respond with an error status and a plain text. -/
def respondError (status : ℕ) (msg : String) : Response :=
  ⟨status, "text/plain; charset=UTF-8", msg.toList.map fun c => Fin.ofNat 256 c.toNat⟩

/-- Respond with a serialized value, or with JSON. -/
def respondMsgpack {α : Type} (W : Wire α) (value : α) (debugJson : Bool) : Response :=
  if debugJson then
    match W.jsonToVec value with
    | .ok bs => ⟨200, "application/json", bs⟩
    | .error e => respondError 500 s!"json serialization error: {e}"
  else
    match W.toVecNamed value with
    | .ok bs => ⟨200, "application/msgpack", bs⟩
    | .error e => respondError 500 s!"msgpack serialization error: {e}"

/-- Respond with raw bytes. -/
def respondRaw (data : Bytes) : Response := ⟨200, "application/octet-stream", data⟩

variable (X : Externals) (C : Wires)

/-- The bytes of a segment: from its `.dat` file, or else from the file that an import has staged under the hash. That
file is named in lower case. -/
def segmentBytes (e : Engine) (fs : Fs) (hashHex : List Char) (hash : Bytes) : Option Bytes :=
  let staged := if hashHex = Hex.encode hash then C.read (fs.staged hash).dat else none
  match (e.exportManifest.find? fun s => s.segmentHash = hash).map SegmentRef.segmentId with
  | some id => (C.read (fs.segs id).dat).or staged
  | none => staged

/-- `GET /segments/{hash_hex}`. -/
def getSegment (engine : Option Engine) (fs : Fs) (hashHex : List Char) : Response :=
  if hashHex.length ≠ 64 then respondError 400 "hash_hex must be 64 hex characters"
  else
    match Hex.decode 32 hashHex with
    | none => respondError 400 "invalid hex encoding in hash"
    | some hash =>
      match engine with
      | none => respondError 500 "engine lock poisoned"
      | some e =>
        match segmentBytes C e fs hashHex hash with
        | some bs => respondRaw bs
        | none => respondError 404 "segment not found"

/-- Dispatch a request. There is no engine where its lock is poisoned; `fs` is the directory when a segment is read. -/
def handleRequest (engine : Option Engine) (wtoken : ℕ) (fs : Fs) (request : Request) : Response :=
  let (parts, debugJson) := parseUrl request.url
  match request.method, parts with
  | .get, [endpoint] =>
    if endpoint = "merkle".toList then
      match engine with
      | some e => respondMsgpack C.merkle ⟨e.rangeMerkleRoot X⟩ debugJson
      | none => respondError 500 "engine lock poisoned"
    else if endpoint = "segments".toList then
      match engine with
      | some e => respondMsgpack C.segments (e.exportManifest.map fun s => ⟨s.segmentId, s.segmentHash⟩) debugJson
      | none => respondError 500 "engine lock poisoned"
    else if endpoint = "watermark".toList then
      match engine with
      | some e => respondMsgpack C.watermark ⟨e.confirmedLsn, wtoken⟩ debugJson
      | none => respondError 500 "engine lock poisoned"
    else respondError 404 "not found"
  | .get, [endpoint, hashHex] =>
    if endpoint = "segments".toList then getSegment C engine fs hashHex else respondError 404 "not found"
  | _, _ => respondError 404 "not found"

/-! ### The client -/

/-- Why a call fails: the transport does, or the status is an error. -/
inductive CallError
  | transport (msg : String)
  | status (code : ℕ)
  deriving DecidableEq, Repr

/-- Why the client fails. -/
inductive ClientError
  | get (path : List Char) (e : CallError)
  | decode (path : List Char) (msg : String)
  | rootLength (n : ℕ)
  deriving DecidableEq, Repr

/-- The text of an error, where `describe` is that of the HTTP library. -/
def ClientError.text (describe : CallError → String) : ClientError → String
  | .get path e => s!"GET {String.ofList path}: {describe e}"
  | .decode path msg => s!"GET {String.ofList path} decode: {msg}"
  | .rootLength n => s!"GET /merkle: expected 32-byte root, got {n} bytes"

end Http

open Http

/-- A client with the URL of a server. `net` takes a `GET` of a URL to its response, or fails. -/
structure HttpReplicationClient where
  baseUrl : List Char
  net : List Char → Except String Response

namespace HttpReplicationClient

variable (client : HttpReplicationClient) (C : Wires)

/-- `ureq::get(url).call()`: a status from 400 on is an error. -/
def call (path : List Char) : Except ClientError Response :=
  match client.net (client.baseUrl ++ path) with
  | .error msg => .error (.get path (.transport msg))
  | .ok response => if response.status ≥ 400 then .error (.get path (.status response.status)) else .ok response

/-- Call, and read the body. -/
def callFor {α : Type} (W : Wire α) (path : List Char) : Except ClientError α := do
  let response ← client.call path
  match W.fromRead response.body with
  | .ok a => return a
  | .error msg => .error (.decode path msg)

/-- Fetch the root of the peer. -/
def merkleRoot : Except ClientError Bytes := do
  let response ← client.callFor C.merkle "/merkle".toList
  if response.root.length ≠ 32 then .error (.rootLength response.root.length) else return response.root

/-- Fetch the manifest of the peer. Each hash is copied into an array. -/
def listSegments : Except ClientError (List SegmentRef) := do
  let entries ← client.callFor C.segments "/segments".toList
  return entries.map fun entry => ⟨toHash32 entry.segmentHash, entry.segmentId⟩

/-- Fetch the watermark of the peer. -/
def watermark : Except ClientError WatermarkResponse := client.callFor C.watermark "/watermark".toList

/-- Fetch the bytes of a segment. -/
def fetchSegment (hash : Bytes) : Except ClientError Bytes := do
  let response ← client.call ("/segments/".toList ++ Hex.encode hash)
  return response.body

end HttpReplicationClient

/-! ### Paths -/

namespace Http

/-- The components of a path. -/
theorem parseUrl_fst (url : List Char) :
    (parseUrl url).1 = ((url.takeWhile (· ≠ '?')).splitOn '/').filter (· ≠ []) := rfl

/-- Components that are not empty, each behind a slash. -/
def pathOf (ps : List (List Char)) : List Char := ps.flatMap fun p => '/' :: p

/-- A component of a path that is taken as it is. -/
def Plain (p : List Char) : Prop := p ≠ [] ∧ '/' ∉ p ∧ '?' ∉ p

instance (p : List Char) : Decidable (Plain p) := inferInstanceAs (Decidable (_ ∧ _))

theorem components_pathOf {ps : List (List Char)} (h : ∀ p ∈ ps, Plain p) :
    ((pathOf ps).splitOn '/').filter (· ≠ []) = ps := by
  induction ps with
  | nil => rfl
  | cons p ps ih =>
    have hp := h p List.mem_cons_self
    have hps := ih fun q hq => h q (List.mem_cons_of_mem _ hq)
    have hhead : (p.splitOn '/').filter (· ≠ []) = [p] := by
      rw [List.splitOn_eq_singleton hp.2.1]
      exact List.filter_cons_of_pos (by simpa using hp.1)
    -- the slash in front makes an empty component, which is dropped
    have hslash : ∀ l : List Char, (('/' :: l).splitOn '/').filter (· ≠ []) = (l.splitOn '/').filter (· ≠ []) := by
      intro l
      rw [← List.nil_append ('/' :: l), List.splitOn_append_cons_self, List.filter_append, List.splitOn_nil]
      rfl
    have hcons : pathOf (p :: ps) = '/' :: (p ++ pathOf ps) := rfl
    rw [hcons, hslash]
    cases ps with
    | nil =>
      have hnil : p ++ pathOf [] = p := List.append_nil p
      rw [hnil, hhead]
    | cons q qs =>
      have hrest : pathOf (q :: qs) = '/' :: (q ++ pathOf qs) := rfl
      rw [hrest, hslash] at hps
      rw [hrest, List.splitOn_append_cons_self, List.filter_append, hhead, hps]
      rfl

theorem components_slashes (n : ℕ) (l : List Char) :
    ((List.replicate n '/' ++ l).splitOn '/').filter (· ≠ []) = (l.splitOn '/').filter (· ≠ []) := by
  induction n with
  | zero => rfl
  | succ n ih =>
    rw [List.replicate_succ, List.cons_append, ← List.nil_append ('/' :: _), List.splitOn_append_cons_self,
      List.filter_append, ih, List.splitOn_nil]
    rfl

/-- **A path is read as its components**, whatever slashes are in front of it. -/
theorem parseUrl_pathOf {ps : List (List Char)} (h : ∀ p ∈ ps, Plain p) (n : ℕ) :
    parseUrl (List.replicate n '/' ++ pathOf ps) = (ps, false) := by
  have hquery : ∀ c ∈ List.replicate n '/' ++ pathOf ps, c ≠ '?' := by
    rintro c hc rfl
    rcases List.mem_append.mp hc with hc | hc
    · exact absurd (List.eq_of_mem_replicate hc) (by decide)
    · obtain ⟨p, hp, hc⟩ := List.mem_flatMap.mp hc
      exact (h p hp).2.2 ((List.mem_cons.mp hc).resolve_left (by decide))
  have hall : ∀ c ∈ List.replicate n '/' ++ pathOf ps, (decide (c ≠ '?')) = true := fun c hc =>
    decide_eq_true (hquery c hc)
  have hpath : (List.replicate n '/' ++ pathOf ps).takeWhile (· ≠ '?') = List.replicate n '/' ++ pathOf ps :=
    List.takeWhile_eq_self_iff.mpr hall
  have hnone : (List.replicate n '/' ++ pathOf ps).dropWhile (· ≠ '?') = [] := List.dropWhile_eq_nil_iff.mpr hall
  have hparts : (parseUrl (List.replicate n '/' ++ pathOf ps)).1 = ps := by
    rw [parseUrl_fst, hpath, components_slashes, components_pathOf h]
  have hdebug : (parseUrl (List.replicate n '/' ++ pathOf ps)).2 = false := by
    have hempty : ((List.drop 1 ([] : List Char)).splitOn '&').any (· = "debug=json".toList) = false := by decide
    rw [parseUrl, hnone]
    exact hempty
  exact Prod.ext hparts hdebug

end Http

/-! ### The client on the server -/

theorem Engine.length_rangeMerkleRoot (X : Externals) (e : Engine) : (e.rangeMerkleRoot X).length = 32 := by
  rw [rangeMerkleRoot]
  split
  · exact List.length_replicate
  · exact X.length_blake3 _

namespace HttpReplicationClient

variable {client : HttpReplicationClient} {C : Wires} {X : Externals} {e : Engine} {wtoken : ℕ} {fs : Fs}
  {handler : Request → Response}

/-- The network takes a `GET` to a server. The URL of the server may end with slashes. -/
def Serves (client : HttpReplicationClient) (handler : Request → Response) : Prop :=
  ∃ n, ∀ path, client.net (client.baseUrl ++ path) = .ok (handler ⟨.get, List.replicate n '/' ++ path⟩)

/-- What a call returns for components of a path. -/
theorem Serves.call_eq (h : client.Serves handler) (ps : List (List Char)) (hps : ∀ p ∈ ps, Plain p) :
    ∃ url, parseUrl url = (ps, false) ∧ client.call (pathOf ps) =
      if (handler ⟨.get, url⟩).status ≥ 400 then .error (.get (pathOf ps) (.status (handler ⟨.get, url⟩).status))
      else .ok (handler ⟨.get, url⟩) := by
  obtain ⟨n, hnet⟩ := h
  refine ⟨_, parseUrl_pathOf hps n, ?_⟩
  rw [call, hnet]

/-- A value that is served is received. -/
theorem callFor_eq {α : Type} {W : Wire α} {a : α} {path : List Char} {response : Response}
    (hcall : client.call path =
      if response.status ≥ 400 then .error (.get path (.status response.status)) else .ok response)
    (hresponse : response = respondMsgpack W a false) : client.callFor W path = .ok a := by
  obtain ⟨bs, hto, hfrom⟩ := W.fromRead_toVecNamed a
  have hserved : respondMsgpack W a false = ⟨200, "application/msgpack", bs⟩ := by
    rw [respondMsgpack, if_neg Bool.false_ne_true, hto]
  rw [hresponse, hserved, if_neg (show ¬ 200 ≥ 400 by decide)] at hcall
  rw [callFor, hcall]
  simp only [bind, Except.bind, hfrom, pure, Except.pure]

section

variable (h : client.Serves (handleRequest X C (some e) wtoken fs))
include h

/-- **The root** of the client is that of the engine. -/
theorem Serves.merkleRoot_eq : client.merkleRoot C = .ok (e.rangeMerkleRoot X) := by
  obtain ⟨url, hurl, hcall⟩ := h.call_eq ["merkle".toList] (by decide)
  have hreceived : client.callFor C.merkle "/merkle".toList = .ok ⟨e.rangeMerkleRoot X⟩ := by
    apply callFor_eq hcall
    simp only [handleRequest, hurl]
    rfl
  rw [merkleRoot, hreceived]
  simp only [bind, Except.bind, e.length_rangeMerkleRoot X, ne_eq, not_true, if_false, pure, Except.pure]

/-- **The manifest** of the client is that of the engine, as all hashes have 32 bytes. -/
theorem Serves.listSegments_eq (hlen : ∀ hash ∈ e.segmentHashes, hash.length = 32) :
    client.listSegments C = .ok e.exportManifest := by
  obtain ⟨url, hurl, hcall⟩ := h.call_eq ["segments".toList] (by decide)
  have hreceived : client.callFor C.segments "/segments".toList =
      .ok (e.exportManifest.map fun s => ⟨s.segmentId, s.segmentHash⟩) := by
    apply callFor_eq hcall
    simp only [handleRequest, hurl]
    rfl
  have hcopied : ∀ s ∈ e.exportManifest, (⟨toHash32 s.segmentHash, s.segmentId⟩ : SegmentRef) = s := by
    intro s hs
    obtain ⟨m, hm, rfl⟩ := List.mem_map.mp hs
    have hhash : m.segmentHash.length = 32 := hlen _ (List.mem_map_of_mem hm)
    simp only [toHash32_of_length hhash]
  rw [listSegments, hreceived]
  simp only [bind, Except.bind, pure, Except.pure, List.map_map]
  exact congrArg Except.ok ((List.map_congr_left hcopied).trans (List.map_id _))

/-- **The watermark** of the client is that of the engine. -/
theorem Serves.watermark_eq : client.watermark C = .ok ⟨e.confirmedLsn, wtoken⟩ := by
  obtain ⟨url, hurl, hcall⟩ := h.call_eq ["watermark".toList] (by decide)
  apply callFor_eq hcall
  simp only [handleRequest, hurl]
  rfl

/-- **A segment** that is fetched: the server reads the hash that the client writes. -/
theorem Serves.fetchSegment_eq {hash : Bytes} (hhash : hash.length = 32) :
    client.fetchSegment hash =
      match segmentBytes C e fs (Hex.encode hash) hash with
      | some bs => .ok bs
      | none => .error (.get ("/segments/".toList ++ Hex.encode hash) (.status 404)) := by
  have hplain : ∀ p ∈ ["segments".toList, Hex.encode hash], Plain p := by
    intro p hp
    rcases List.mem_pair.mp hp with rfl | rfl
    · decide
    · have hdigit : ∀ c, (Hex.digitValue c).isSome = false → c ∉ Hex.encode hash := fun c hc hmem => by
        rw [Hex.digit_of_mem_encode hmem] at hc
        cases hc
      refine ⟨fun hnil => ?_, hdigit '/' (by decide), hdigit '?' (by decide)⟩
      have hlength := Hex.length_encode hash
      rw [hnil, hhash] at hlength
      cases hlength
  obtain ⟨url, hurl, hcall⟩ := h.call_eq _ hplain
  have hpath : pathOf ["segments".toList, Hex.encode hash] = "/segments/".toList ++ Hex.encode hash := by
    simp [pathOf]
  have hresponse : handleRequest X C (some e) wtoken fs ⟨.get, url⟩ = getSegment C (some e) fs (Hex.encode hash) := by
    simp only [handleRequest, hurl]
    rfl
  have hlength : (Hex.encode hash).length = 64 := by rw [Hex.length_encode, hhash]
  have hdecode : Hex.decode 32 (Hex.encode hash) = some hash := hhash ▸ Hex.decode_encode hash
  have hserved : getSegment C (some e) fs (Hex.encode hash) =
      match segmentBytes C e fs (Hex.encode hash) hash with
      | some bs => respondRaw bs
      | none => respondError 404 "segment not found" := by
    rw [getSegment, if_neg (not_not.mpr hlength), hdecode]
  rw [hresponse, hpath, hserved] at hcall
  cases hbytes : segmentBytes C e fs (Hex.encode hash) hash with
  | some bs =>
    rw [hbytes] at hcall
    rw [fetchSegment, hcall.trans (if_neg (show ¬ 200 ≥ 400 by decide))]
    rfl
  | none =>
    rw [hbytes] at hcall
    rw [fetchSegment, hcall.trans (if_pos (show 404 ≥ 400 by decide))]
    rfl

end

end HttpReplicationClient

/-! ### Segments that are served -/

namespace World

variable {X : Externals} {C : Wires} {w : World} {e : Engine} {client : HttpReplicationClient} {wtoken : ℕ}
  {hash : Bytes}

/-- The hashes of an open engine are those of its files. -/
theorem Hashed.dat_of_mem (h : w.Hashed X) (he : w.engine = some e) {m : SegmentMeta}
    (hm : m ∈ e.segmentStore.manifest.segments) :
    ∃ dat, (w.fs.segs m.segmentId).dat = .whole dat ∧ X.datHash dat = m.segmentHash := by
  have hregistered : m ∈ registered X w.fs := by
    rw [← (h.inv.engine e he).store.synced.segments]
    exact hm
  exact (h.segments m hregistered).exists_dat

theorem Hashed.length_of_mem (h : w.Hashed X) (he : w.engine = some e) (hlen : ∀ dat, (X.datHash dat).length = 32)
    (hhash : hash ∈ e.segmentHashes) : hash.length = 32 := by
  obtain ⟨m, hm, rfl⟩ := List.mem_map.mp hhash
  obtain ⟨dat, -, hdat⟩ := h.dat_of_mem he hm
  rw [← hdat]
  exact hlen dat

/-- **A segment that is listed** is served from its file. -/
theorem Hashed.segmentBytes_eq (h : w.Hashed X) (he : w.engine = some e) (hlen : ∀ dat, (X.datHash dat).length = 32)
    (hhash : hash ∈ e.segmentHashes) (hashHex : List Char) :
    ∃ dat, segmentBytes C e w.fs hashHex hash = some (C.datBytes dat) ∧ X.datHash dat = hash := by
  obtain ⟨m₀, hm₀, rfl⟩ := List.mem_map.mp hhash
  have hcopied : ∀ m ∈ e.segmentStore.manifest.segments, toHash32 m.segmentHash = m.segmentHash := fun m hm =>
    toHash32_of_length (h.length_of_mem he hlen (List.mem_map_of_mem hm))
  -- the lookup finds a segment with the hash, if not the one that is meant
  cases hfind : e.exportManifest.find? fun s => s.segmentHash = m₀.segmentHash with
  | none =>
    have hnone := List.find?_eq_none.mp hfind ⟨toHash32 m₀.segmentHash, m₀.segmentId⟩ (List.mem_map_of_mem hm₀)
    exact absurd (decide_eq_true (hcopied m₀ hm₀)) hnone
  | some s =>
    obtain ⟨m, hm, rfl⟩ := List.mem_map.mp (List.mem_of_find?_eq_some hfind)
    have hfound := List.find?_some hfind
    have hsame : toHash32 m.segmentHash = m₀.segmentHash := of_decide_eq_true hfound
    rw [hcopied m hm] at hsame
    -- whichever it is, its file has the hash
    obtain ⟨dat, hfile, hdat⟩ := h.dat_of_mem he hm
    refine ⟨dat, ?_, hdat.trans hsame⟩
    simp only [segmentBytes, hfind, Option.map_some, hfile, Wires.read, Option.some_or]

/-- A hash that is not listed is looked up among the staged files. -/
theorem segmentBytes_of_not_mem
    (hcopied : ∀ m ∈ e.segmentStore.manifest.segments, toHash32 m.segmentHash = m.segmentHash)
    (hhash : hash ∉ e.segmentHashes) :
    segmentBytes C e w.fs (Hex.encode hash) hash = C.read (w.fs.staged hash).dat := by
  have hnone : e.exportManifest.find? (fun s => s.segmentHash = hash) = none := by
    refine List.find?_eq_none.mpr fun s hs heq => hhash ?_
    obtain ⟨m, hm, rfl⟩ := List.mem_map.mp hs
    rw [← of_decide_eq_true heq, hcopied m hm]
    exact List.mem_map_of_mem hm
  simp only [segmentBytes, hnone, Option.map_none, if_true]

end World

/-! ### A plain network -/

/-- The serializers of a codec. -/
def wireOf {α : Type} (codec : Codec α) : Wire α where
  toVecNamed a := .ok (codec.enc a)
  fromRead bs := match codec.dec bs with
    | some p => .ok p.1
    | none => .error "malformed"
  jsonToVec a := .ok (codec.enc a)
  fromRead_toVecNamed a := by
    have h := codec.dec_enc a []
    rw [List.append_nil] at h
    exact ⟨_, rfl, by rw [h]⟩

/-- Records of a block, field by field. -/
def recordCodec : Codec (Bytes × MemEntry) :=
  Codec.bytes.pair ((Codec.bytes.pair (Codec.bytes.option.pair (Codec.bool.pair (Codec.nat.pair
    (Codec.int.pair Codec.nat))))).iso
    (fun e => (e.key, e.value, decide (e.op = .put), e.lsn, e.timestamp, e.ttl))
    (fun p => ⟨p.1, p.2.1, if p.2.2.1 then .put else .delete, p.2.2.2.1, p.2.2.2.2.1, p.2.2.2.2.2⟩)
    (fun e => by rcases e with ⟨_, _, _ | _, _, _, _⟩ <;> rfl))

/-- Blocks, by their kind and their records. -/
def blockCodec : Codec Block :=
  (Codec.nat.pair (Codec.nat.pair (Codec.list recordCodec))).iso
    (fun b => match b with
      | .decoded size entries => (0, size, entries)
      | .undecodable => (1, 0, [])
      | .truncated => (2, 0, []))
    (fun p => if p.1 = 0 then .decoded p.2.1 p.2.2 else if p.1 = 1 then .undecodable else .truncated)
    (fun b => by cases b <;> rfl)

/-- Wire formats, field by field. -/
def plainWires : Wires where
  merkle := wireOf (Codec.bytes.iso MerkleResponse.root (fun root => ⟨root⟩) fun _ => rfl)
  segments := wireOf (Codec.list ((Codec.nat.pair Codec.bytes).iso (fun s => (s.segmentId, s.segmentHash))
    (fun p => ⟨p.1, p.2⟩) fun _ => rfl))
  watermark := wireOf ((Codec.nat.pair Codec.nat).iso (fun r => (r.confirmedLsn, r.wtoken)) (fun p => ⟨p.1, p.2⟩)
    fun _ => rfl)
  datBytes := (Codec.list blockCodec).enc
  datOf bs := ((Codec.list blockCodec).dec bs).elim [] Prod.fst
  datOf_datBytes dat := by
    have h := (Codec.list blockCodec).dec_enc dat []
    rw [List.append_nil] at h
    rw [h]
    rfl
  tornBytes := []

/-- A client whose URL ends with a slash, on a network with one server. -/
def plainClient (handler : Request → Response) : HttpReplicationClient where
  baseUrl := ['h', ':', '8', '/']
  net url := if url.take 3 = ['h', ':', '8'] then .ok (handler ⟨.get, url.drop 3⟩) else .error "no route"

theorem HttpReplicationClient.serves_plainClient (handler : Request → Response) :
    (plainClient handler).Serves handler := ⟨1, fun _ => rfl⟩

namespace World

/-- A flush, and an import that stops when the file is staged. -/
def stagedRun : List Call :=
  [{ op := .open {} }, { op := .put [1] [7] [10] }, { op := .flushToSegments },
    { op := .importSegment sentDat 10 (plainExternals.datHash sentDat), stop := some (3, 0) }, { op := .open {} }]

end World
