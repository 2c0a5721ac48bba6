import Ribs.Carlog.Format
import Ribs.Bsst.Encoding
/-!
# Carlog — the encodings, to be evaluated

What the package takes from outside, as it is on well-formed inputs, on
top of what the `bsst` package takes: CIDs, and the CBOR of link lists
and of CAR headers. The decoders are strict; they read what the encoders
write. The instance is scoped.
-/

namespace Ribs

open Common
open scoped Bsst.Encoding

namespace Carlog

namespace Encoding

/-! ## CIDs -/

/-- A multihash, and what follows it. -/
def readMultihash (bs : Bytes) : Option (Multihash × Bytes) :=
  match readUvarint bs with
  | .error _ => none
  | .ok (_, afterCode) =>
    match readUvarint afterCode with
    | .error _ => none
    | .ok (n, rest) =>
      if rest.length < n then none
      else some (bs.take (bs.length - (rest.length - n)), rest.drop n)

/-- `CidFromBytes`, of version 1. -/
def cidFromBytes (bs : Bytes) : Option (ℕ × Cid) :=
  match readUvarint bs with
  | .ok (1, afterVersion) =>
    match readUvarint afterVersion with
    | .ok (codec, afterCodec) =>
      (readMultihash afterCodec).map fun r => (bs.length - r.2.length, ⟨codec, r.1⟩)
    | .error _ => none
  | _ => none

/-- **A multihash is read back**, whatever follows it. -/
theorem readMultihash_append {m : Multihash} (h : ValidMultihash m) (rest : Bytes) :
    readMultihash (m ++ rest) = some (m, rest) := by
  obtain ⟨code, digest, hcode, hlen, rfl⟩ := h
  have hparse : readUvarint (putUvarint code ++ putUvarint digest.length ++ digest ++ rest) =
      .ok (code, putUvarint digest.length ++ (digest ++ rest)) := by
    rw [List.append_assoc, List.append_assoc]
    exact readUvarint_putUvarint (by omega) _
  have hparse' : readUvarint (putUvarint digest.length ++ (digest ++ rest)) =
      .ok (digest.length, digest ++ rest) := readUvarint_putUvarint (by omega) _
  have hkept : (putUvarint code ++ putUvarint digest.length ++ digest ++ rest).length -
      ((digest ++ rest).length - digest.length) =
      (putUvarint code ++ putUvarint digest.length ++ digest).length := by
    simp only [List.length_append]
    omega
  simp only [readMultihash, hparse, hparse', hkept, List.take_left, List.drop_left]
  rw [if_neg (by simp)]

theorem cidFromBytes_append {codec : ℕ} {m : Multihash} (data : Bytes) (hcodec : codec < 2 ^ 64)
    (hm : ValidMultihash m) :
    cidFromBytes ((Cid.mk codec m).bytes ++ data) =
      some ((Cid.mk codec m).bytes.length, ⟨codec, m⟩) := by
  have hparse : readUvarint ((Cid.mk codec m).bytes ++ data) =
      .ok (1, putUvarint codec ++ (m ++ data)) := by
    rw [Cid.bytes, List.append_assoc, List.append_assoc]
    exact readUvarint_putUvarint (by norm_num) _
  have hparse' : readUvarint (putUvarint codec ++ (m ++ data)) = .ok (codec, m ++ data) :=
    readUvarint_putUvarint hcodec _
  rw [cidFromBytes, hparse]
  simp only [hparse', readMultihash_append hm, Option.map_some, List.length_append,
    Nat.add_sub_cancel]

theorem lt_of_codec {codec : ℕ} (h : codec = raw ∨ codec = dagCBOR) : codec < 2 ^ 64 := by
  rcases h with rfl | rfl <;> decide

theorem readMultihash_lt {bs rest : Bytes} {m : Multihash}
    (h : readMultihash bs = some (m, rest)) : rest.length < bs.length := by
  rw [readMultihash] at h
  rcases hcode : readUvarint bs with _ | ⟨code, afterCode⟩ <;> simp only [hcode] at h
  · cases h
  rcases hlen : readUvarint afterCode with _ | ⟨n, digest⟩ <;> simp only [hlen] at h
  · cases h
  split at h
  · cases h
  · have h1 := length_lt_of_readUvarint hcode
    have h2 := length_lt_of_readUvarint hlen
    obtain ⟨-, rfl⟩ := Prod.mk.inj (Option.some.inj h)
    rw [List.length_drop]
    omega

/-! ## Links -/

/-- A CID, as the tag 42 of a byte string behind a zero byte. -/
def encodeLink (c : Cid) : Bytes :=
  cborHead 6 42 ++ cborHead 2 (c.bytes.length + 1) ++ ([0] ++ c.bytes)

def decodeLink (bs : Bytes) : Option (Cid × Bytes) := do
  let (tag, bs) ← readCborHead 6 bs
  if tag ≠ 42 then none
  else do
    let (n, bs) ← readCborHead 2 bs
    let (link, rest) ← takeBytes n bs
    let bytes ← expect [0] link
    let (len, c) ← cidFromBytes bytes
    if len = bytes.length then some (c, rest) else none

/-- `n` links, and what follows them. -/
def decodeLinkList : ℕ → Bytes → Option (List Cid × Bytes)
  | 0, bs => some ([], bs)
  | n + 1, bs => do
    let (c, bs) ← decodeLink bs
    let (links, bs) ← decodeLinkList n bs
    some (c :: links, bs)

def encodeLinks (links : List Cid) : Bytes := cborHead 4 links.length ++ links.flatMap encodeLink

/-- A list of links, and what follows it. -/
def readLinks (bs : Bytes) : Option (List Cid × Bytes) := do
  let (n, bs) ← readCborHead 4 bs
  decodeLinkList n bs

def decodeLinks (bs : Bytes) : Option (List Cid) := do
  let (links, rest) ← readLinks bs
  if rest = [] then some links else none

/-- A CID that is written and read back. -/
def Proper (c : Cid) : Prop := (c.codec = raw ∨ c.codec = dagCBOR) ∧ ValidMultihash c.hash

theorem length_bytes_lt {c : Cid} (h : Proper c) : c.bytes.length + 1 < 2 ^ 64 := by
  obtain ⟨hcodec, code, digest, hcode, hlen, hm⟩ := h
  have h1 := length_putUvarint_le 1
  have h2 := length_putUvarint_le c.codec
  have h3 := length_putUvarint_le code
  have h4 := length_putUvarint_le digest.length
  simp only [Cid.bytes, hm, List.length_append, maxVarintLen64] at *
  omega

theorem decodeLink_append {c : Cid} (h : Proper c) (rest : Bytes) :
    decodeLink (encodeLink c ++ rest) = some (c, rest) := by
  have hcid : cidFromBytes c.bytes = some (c.bytes.length, c) := by
    simpa using cidFromBytes_append [] (lt_of_codec h.1) h.2
  have hexpect : expect [0] ([0] ++ c.bytes) = some c.bytes := expect_append [0] c.bytes
  have htake : takeBytes (c.bytes.length + 1) (([0] ++ c.bytes) ++ rest) =
      some ([0] ++ c.bytes, rest) := takeBytes_append (by simp) rest
  have hhead : readCborHead 2 (cborHead 2 (c.bytes.length + 1) ++ (([0] ++ c.bytes) ++ rest)) =
      some (c.bytes.length + 1, ([0] ++ c.bytes) ++ rest) :=
    readCborHead_cborHead (by norm_num) (length_bytes_lt h) _
  rw [decodeLink, encodeLink, List.append_assoc, List.append_assoc,
    readCborHead_cborHead (by norm_num) (by norm_num)]
  simp only [Option.bind_eq_bind, Option.bind_some, ne_eq, not_true_eq_false, if_false, hhead,
    htake, hexpect, hcid, if_true]

theorem decodeLinkList_append (links : List Cid) (h : ∀ c ∈ links, Proper c) (rest : Bytes) :
    decodeLinkList links.length (links.flatMap encodeLink ++ rest) = some (links, rest) := by
  induction links with
  | nil => rfl
  | cons c links ih =>
    obtain ⟨hc, hlinks⟩ := List.forall_mem_cons.mp h
    rw [List.flatMap_cons, List.append_assoc, List.length_cons, decodeLinkList,
      decodeLink_append hc]
    simp [ih hlinks]

theorem readLinks_append {links : List Cid} (h : ∀ c ∈ links, Proper c)
    (hlen : links.length < 2 ^ 64) (rest : Bytes) :
    readLinks (encodeLinks links ++ rest) = some (links, rest) := by
  rw [readLinks, encodeLinks, List.append_assoc, readCborHead_cborHead (by norm_num) hlen]
  simpa using decodeLinkList_append links h rest

theorem decodeLinks_encodeLinks {links : List Cid} (h : ∀ c ∈ links, Proper c)
    (hlen : links.length < 2 ^ 64) : decodeLinks (encodeLinks links) = some links := by
  have := readLinks_append h hlen []
  rw [List.append_nil] at this
  simp [decodeLinks, this]

/-- A SHA-256 multihash is one. -/
theorem validMultihash_of_isSha256 {m : Multihash} (h : IsSha256 m) : ValidMultihash m := by
  obtain ⟨d, rfl⟩ := h
  refine ⟨0x12, d.1, by norm_num, by rw [d.2]; norm_num, ?_⟩
  rw [d.2]
  rfl

theorem length_encodeLink {c : Cid} (hcodec : c.codec = raw ∨ c.codec = dagCBOR)
    (hm : IsSha256 c.hash) : (encodeLink c).length = 41 := by
  obtain ⟨d, hd⟩ := hm
  obtain ⟨codec, m⟩ := c
  simp only at hd hcodec
  subst hd
  have hbytes : (Cid.mk codec (sha256Multihash d)).bytes.length = 36 := by
    rcases hcodec with rfl | rfl <;>
      simp [Cid.bytes, sha256Multihash, raw, dagCBOR, putUvarint, putUvarintAux, maxVarintLen64, d.2]
  simp [encodeLink, hbytes, cborHead]

theorem length_flatMap_encodeLink {links : List Cid}
    (h : ∀ c ∈ links, (c.codec = raw ∨ c.codec = dagCBOR) ∧ IsSha256 c.hash) :
    (links.flatMap encodeLink).length = 41 * links.length := by
  induction links with
  | nil => rfl
  | cons c links ih =>
    obtain ⟨hc, hlinks⟩ := List.forall_mem_cons.mp h
    rw [List.flatMap_cons, List.length_append, length_encodeLink hc.1 hc.2, ih hlinks,
      List.length_cons]
    ring

/-! ## The CAR header -/

/-- `"roots"`. -/
def rootsKey : Bytes := cborHead 5 2 ++ cborText [0x72, 0x6f, 0x6f, 0x74, 0x73]

/-- `"version"`. -/
def versionKey : Bytes := cborText [0x76, 0x65, 0x72, 0x73, 0x69, 0x6f, 0x6e]

def encodeHeader (roots : List Cid) : Bytes :=
  rootsKey ++ encodeLinks roots ++ versionKey ++ cborHead 0 1

def decodeHeader (bs : Bytes) : Option (ℕ × List Cid) := do
  let bs ← expect rootsKey bs
  let (roots, bs) ← readLinks bs
  let bs ← expect versionKey bs
  let (version, rest) ← readCborHead 0 bs
  if rest = [] then some (version, roots) else none

theorem decodeHeader_encodeHeader {c : Cid} (h : Proper c) :
    decodeHeader (encodeHeader [c]) = some (1, [c]) := by
  have hlinks := readLinks_append (show ∀ c' ∈ [c], Proper c' by simpa using h) (by norm_num)
    (versionKey ++ cborHead 0 1)
  have hversion : readCborHead 0 (cborHead 0 1) = some (1, []) := by
    simpa using readCborHead_cborHead (show 0 < 8 by norm_num) (show 1 < 2 ^ 64 by norm_num) []
  rw [decodeHeader, encodeHeader, List.append_assoc, List.append_assoc]
  simp [hlinks, hversion]

theorem length_encodeHeader {c : Cid} (h : c.bytes.length = 36) :
    (encodeHeader [c]).length = 58 := by
  simp [encodeHeader, rootsKey, versionKey, cborText, encodeLinks, encodeLink, cborHead, h]

/-! ## The instance -/

scoped instance : External where
  cidFromBytes := cidFromBytes
  cidFromBytes_nil := rfl
  cidFromBytes_bytes _ _ data hcodec hm := cidFromBytes_append data (lt_of_codec hcodec) hm
  encodeLinks := encodeLinks
  decodeLinks := decodeLinks
  decodeLinks_encodeLinks links hlen h := decodeLinks_encodeLinks
    (fun c hc => ⟨(h c hc).1, validMultihash_of_isSha256 (h c hc).2⟩)
    (hlen.trans_lt (by norm_num [arity]))
  length_encodeLinks links _ h := by
    have h1 := length_cborHead_pos 4 links.length
    have h2 := length_cborHead_le 4 links.length
    rw [encodeLinks, List.length_append, length_flatMap_encodeLink h]
    omega
  encodeHeader := encodeHeader
  decodeHeader := decodeHeader
  decodeHeader_encodeHeader _ hcodec hm _ := decodeHeader_encodeHeader ⟨hcodec, hm⟩
  length_encodeHeader _ h := length_encodeHeader h
  readMultihash bs := if bs = [] then .ok none else
    match readMultihash bs with
    | none => .error ()
    | some r => .ok (some r)
  readMultihash_lt bs m rest h := by
    split_ifs at h
    · cases h
    · rcases hread : readMultihash bs with _ | ⟨m', rest'⟩ <;> simp only [hread] at h
      · cases h
      · cases h
        exact readMultihash_lt hread

end Encoding

end Carlog

end Ribs
