import Ribs.Common.Endian
/-!
# SHA-256

The hash function of FIPS 180-4 on bytes, with the 32-bit words as
natural numbers. It is here to be evaluated: what is proved of a hash
takes the function as a parameter, and an instance at given bytes needs
one that computes what the real one does.
-/

namespace Common

namespace Sha256

/-- The working variables of the compression function. -/
structure Vars where
  a : ℕ
  b : ℕ
  c : ℕ
  d : ℕ
  e : ℕ
  f : ℕ
  g : ℕ
  h : ℕ
deriving DecidableEq

def rotr (n x : ℕ) : ℕ := x >>> n ||| (x <<< (32 - n)) % 2 ^ 32

def ch (x y z : ℕ) : ℕ := x &&& y ^^^ (2 ^ 32 - 1 - x) &&& z

def maj (x y z : ℕ) : ℕ := x &&& y ^^^ x &&& z ^^^ y &&& z

def bigSigma0 (x : ℕ) : ℕ := rotr 2 x ^^^ rotr 13 x ^^^ rotr 22 x

def bigSigma1 (x : ℕ) : ℕ := rotr 6 x ^^^ rotr 11 x ^^^ rotr 25 x

def smallSigma0 (x : ℕ) : ℕ := rotr 7 x ^^^ rotr 18 x ^^^ x >>> 3

def smallSigma1 (x : ℕ) : ℕ := rotr 17 x ^^^ rotr 19 x ^^^ x >>> 10

/-- The round constants. -/
def roundConstants : List ℕ :=
  [0x428a2f98, 0x71374491, 0xb5c0fbcf, 0xe9b5dba5, 0x3956c25b, 0x59f111f1, 0x923f82a4, 0xab1c5ed5,
   0xd807aa98, 0x12835b01, 0x243185be, 0x550c7dc3, 0x72be5d74, 0x80deb1fe, 0x9bdc06a7, 0xc19bf174,
   0xe49b69c1, 0xefbe4786, 0x0fc19dc6, 0x240ca1cc, 0x2de92c6f, 0x4a7484aa, 0x5cb0a9dc, 0x76f988da,
   0x983e5152, 0xa831c66d, 0xb00327c8, 0xbf597fc7, 0xc6e00bf3, 0xd5a79147, 0x06ca6351, 0x14292967,
   0x27b70a85, 0x2e1b2138, 0x4d2c6dfc, 0x53380d13, 0x650a7354, 0x766a0abb, 0x81c2c92e, 0x92722c85,
   0xa2bfe8a1, 0xa81a664b, 0xc24b8b70, 0xc76c51a3, 0xd192e819, 0xd6990624, 0xf40e3585, 0x106aa070,
   0x19a4c116, 0x1e376c08, 0x2748774c, 0x34b0bcb5, 0x391c0cb3, 0x4ed8aa4a, 0x5b9cca4f, 0x682e6ff3,
   0x748f82ee, 0x78a5636f, 0x84c87814, 0x8cc70208, 0x90befffa, 0xa4506ceb, 0xbef9a3f7, 0xc67178f2]

def initialVars : Vars :=
  ⟨0x6a09e667, 0xbb67ae85, 0x3c6ef372, 0xa54ff53a, 0x510e527f, 0x9b05688c, 0x1f83d9ab, 0x5be0cd19⟩

/-- `n` more words of the message schedule; the words so far, the last first. -/
def schedule : ℕ → List ℕ → List ℕ
  | 0, ws => ws
  | n + 1, ws =>
    let w := (smallSigma1 (ws.getD 1 0) + ws.getD 6 0 + smallSigma0 (ws.getD 14 0) +
      ws.getD 15 0) % 2 ^ 32
    schedule n (w :: ws)

/-- One round, with the round constant and the schedule's word. -/
def round (v : Vars) (kw : ℕ × ℕ) : Vars :=
  let t1 := v.h + bigSigma1 v.e + ch v.e v.f v.g + kw.1 + kw.2
  let t2 := bigSigma0 v.a + maj v.a v.b v.c
  ⟨(t1 + t2) % 2 ^ 32, v.a, v.b, v.c, (v.d + t1) % 2 ^ 32, v.e, v.f, v.g⟩

/-- The words of a block, the last first. -/
def blockWords (block : Bytes) : List ℕ :=
  ((List.range 16).map fun i => beNat ((block.drop (4 * i)).take 4)).reverse

def compress (v : Vars) (block : Bytes) : Vars :=
  let u := (roundConstants.zip (schedule 48 (blockWords block)).reverse).foldl round v
  ⟨(v.a + u.a) % 2 ^ 32, (v.b + u.b) % 2 ^ 32, (v.c + u.c) % 2 ^ 32, (v.d + u.d) % 2 ^ 32,
   (v.e + u.e) % 2 ^ 32, (v.f + u.f) % 2 ^ 32, (v.g + u.g) % 2 ^ 32, (v.h + u.h) % 2 ^ 32⟩

/-- The message with its padding: a bit, zeros, and its length in bits. -/
def padding (msg : Bytes) : Bytes :=
  msg ++ 0x80 :: List.replicate ((119 - msg.length % 64) % 64) 0 ++
    (leBytes 8 (8 * msg.length)).reverse

/-- The blocks, `n` of them. -/
def blocks : ℕ → Vars → Bytes → Vars
  | 0, v, _ => v
  | n + 1, v, bs => blocks n (compress v (bs.take 64)) (bs.drop 64)

def word (x : ℕ) : Bytes := (leBytes 4 x).reverse

def output (v : Vars) : Bytes :=
  word v.a ++ word v.b ++ word v.c ++ word v.d ++ word v.e ++ word v.f ++ word v.g ++ word v.h

end Sha256

open Sha256 in
/-- **The SHA-256 sum of a message.** -/
def sha256 (msg : Bytes) : Bytes :=
  output (blocks ((padding msg).length / 64) initialVars (padding msg))

@[simp] theorem length_sha256 (msg : Bytes) : (sha256 msg).length = 32 := by
  simp [sha256, Sha256.output, Sha256.word]

example : sha256 [0x61, 0x62, 0x63] =
    [0xba, 0x78, 0x16, 0xbf, 0x8f, 0x01, 0xcf, 0xea, 0x41, 0x41, 0x40, 0xde, 0x5d, 0xae, 0x22, 0x23,
     0xb0, 0x03, 0x61, 0xa3, 0x96, 0x17, 0x7a, 0x9c, 0xb4, 0x10, 0xff, 0x61, 0xf2, 0x00, 0x15, 0xad] := by
  decide +kernel

end Common
