/-!
# The XXH64 digest of a byte string

The input is read in stripes of 32 bytes, each feeding four independent lanes; the lanes
are merged, and what is left over (whole words, then a half word, then single bytes) is
mixed into the result one after the other. All arithmetic wraps at 64 bits, and words are
little endian.
-/

namespace ClassLang.Xxh64

def prime1 : UInt64 := 0x9E3779B185EBCA87
def prime2 : UInt64 := 0xC2B2AE3D27D4EB4F
def prime3 : UInt64 := 0x165667B19E3779F9
def prime4 : UInt64 := 0x85EBCA77C2B2AE63
def prime5 : UInt64 := 0x27D4EB2F165667C5

/-- Rotate left by `r` bits, `0 < r < 64`. -/
def rotate (x r : UInt64) : UInt64 := (x <<< r) ||| (x >>> (64 - r))

/-- Mix one word into a lane. -/
def round (lane word : UInt64) : UInt64 := rotate (lane + word * prime2) 31 * prime1

/-- Fold a finished lane into the digest. -/
def merge (digest lane : UInt64) : UInt64 := (digest ^^^ round 0 lane) * prime1 + prime4

/-- The little-endian number that `bytes` spell. -/
def word : List UInt8 → UInt64
  | [] => 0
  | b :: rest => b.toUInt64 + (word rest <<< 8)

/-- The four accumulators of the stripe phase. -/
structure Lanes where
  a : UInt64
  b : UInt64
  c : UInt64
  d : UInt64

/-- Mix one 32-byte stripe into the lanes. -/
def Lanes.stripe (l : Lanes) (bytes : List UInt8) : Lanes where
  a := round l.a (word (bytes.take 8))
  b := round l.b (word ((bytes.drop 8).take 8))
  c := round l.c (word ((bytes.drop 16).take 8))
  d := round l.d (word ((bytes.drop 24).take 8))

/-- Mix the first `n` stripes of `bytes` into the lanes. -/
def Lanes.stripes (l : Lanes) : Nat → List UInt8 → Lanes
  | 0, _ => l
  | n + 1, bytes => (l.stripe bytes).stripes n (bytes.drop 32)

/-- The digest of the four lanes. -/
def Lanes.digest (l : Lanes) : UInt64 :=
  let joined := rotate l.a 1 + rotate l.b 7 + rotate l.c 12 + rotate l.d 18
  merge (merge (merge (merge joined l.a) l.b) l.c) l.d

/-- Mix the first `n` eight-byte words of `bytes` into the digest. -/
def mixWords (h : UInt64) : Nat → List UInt8 → UInt64
  | 0, _ => h
  | n + 1, bytes =>
    let mixed := rotate (h ^^^ round 0 (word (bytes.take 8))) 27 * prime1 + prime4
    mixWords mixed n (bytes.drop 8)

/-- Mix a four-byte word into the digest. -/
def mixHalf (h : UInt64) (bytes : List UInt8) : UInt64 :=
  rotate (h ^^^ (word (bytes.take 4) * prime1)) 23 * prime2 + prime3

/-- Mix one byte into the digest. -/
def mixByte (h : UInt64) (byte : UInt8) : UInt64 :=
  rotate (h ^^^ (byte.toUInt64 * prime5)) 11 * prime1

/-- Spread every input bit over the whole digest. -/
def avalanche (h : UInt64) : UInt64 :=
  let h := (h ^^^ (h >>> 33)) * prime2
  let h := (h ^^^ (h >>> 29)) * prime3
  h ^^^ (h >>> 32)

/-- Mix the last, incomplete stripe into the digest. -/
def mixRest (h : UInt64) (rest : List UInt8) : UInt64 :=
  let words := rest.length / 8
  let h := mixWords h words rest
  let rest := rest.drop (8 * words)
  if 4 ≤ rest.length then (rest.drop 4).foldl mixByte (mixHalf h rest)
  else rest.foldl mixByte h

/-- The digest of `bytes` under `seed`. -/
def digest (seed : UInt64) (bytes : List UInt8) : UInt64 :=
  let stripes := bytes.length / 32
  let start :=
    if stripes = 0 then seed + prime5
    else
      let lanes : Lanes := ⟨seed + prime1 + prime2, seed + prime2, seed, seed - prime1⟩
      (lanes.stripes stripes bytes).digest
  avalanche (mixRest (start + bytes.length.toUInt64) (bytes.drop (32 * stripes)))

end ClassLang.Xxh64
