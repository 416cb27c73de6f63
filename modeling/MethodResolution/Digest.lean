/-
  Method resolution — the 64-bit digest of a byte string.

  Names and signatures are identified by the 64-bit xxHash of their bytes with
  seed zero (`xxh64`).  The input is read as little-endian words of eight
  bytes.  Four words at a time go through four independent lanes; what is left
  — fewer than four words, then fewer than eight bytes — is absorbed one piece
  after the other, and a last step spreads every input bit over the result.

  All arithmetic is modulo 2^64.
-/

namespace MethodResolution

/-- A digest turns a byte string into 64 bits. -/
abbrev Digest := List UInt8 → UInt64

namespace Digest

/-! ## Multipliers and mixing steps -/

def prime1 : UInt64 := 0x9E3779B185EBCA87
def prime2 : UInt64 := 0xC2B2AE3D27D4EB4F
def prime3 : UInt64 := 0x165667B19E3779F9
def prime4 : UInt64 := 0x85EBCA77C2B2AE63
def prime5 : UInt64 := 0x27D4EB2F165667C5

/-- Rotate `x` left by `n` bits, for `0 < n < 64`. -/
def rotate (x n : UInt64) : UInt64 := x <<< n ||| x >>> (64 - n)

/-- One step of a lane: absorb the word `w`. -/
def round (lane w : UInt64) : UInt64 := rotate (lane + w * prime2) 31 * prime1

/-! ## Words -/

/-- The number whose bytes, least significant first, are `bytes`. -/
def littleEndian (bytes : List UInt8) : UInt64 :=
  bytes.foldr (fun b rest => rest <<< 8 ||| b.toUInt64) 0

/-- The eight bytes of `x`, least significant first. -/
def toBytes (x : UInt64) : List UInt8 :=
  [x.toUInt8, (x >>> 8).toUInt8, (x >>> 16).toUInt8, (x >>> 24).toUInt8,
    (x >>> 32).toUInt8, (x >>> 40).toUInt8, (x >>> 48).toUInt8, (x >>> 56).toUInt8]

/-- The full words of a byte string and the fewer than eight bytes after them. -/
def words : List UInt8 → List UInt64 × List UInt8
  | a :: b :: c :: d :: e :: f :: g :: h :: rest =>
    let (ws, tail) := words rest
    (littleEndian [a, b, c, d, e, f, g, h] :: ws, tail)
  | tail => ([], tail)

/-! ## Lanes -/

structure Lanes where
  a : UInt64
  b : UInt64
  c : UInt64
  d : UInt64

namespace Lanes

def initial : Lanes := ⟨prime1 + prime2, prime2, 0, 0 - prime1⟩

/-- The lanes after as many groups of four words as there are, and the words
    left over. -/
def absorb (l : Lanes) : List UInt64 → Lanes × List UInt64
  | w :: x :: y :: z :: rest =>
    absorb ⟨round l.a w, round l.b x, round l.c y, round l.d z⟩ rest
  | rest => (l, rest)

def fold (acc lane : UInt64) : UInt64 := (acc ^^^ round 0 lane) * prime1 + prime4

def merge (l : Lanes) : UInt64 :=
  let sum := rotate l.a 1 + rotate l.b 7 + rotate l.c 12 + rotate l.d 18
  [l.a, l.b, l.c, l.d].foldl fold sum

end Lanes

/-! ## The rest of the input -/

/-- Absorb one word that no lane has seen. -/
def absorbWord (acc w : UInt64) : UInt64 :=
  rotate (acc ^^^ round 0 w) 27 * prime1 + prime4

def absorbByte (acc : UInt64) (b : UInt8) : UInt64 :=
  rotate (acc ^^^ b.toUInt64 * prime5) 11 * prime1

/-- Absorb the last, fewer than eight bytes: four of them together if there
    are as many, the others singly. -/
def absorbTail (acc : UInt64) : List UInt8 → UInt64
  | a :: b :: c :: d :: rest =>
    let acc := rotate (acc ^^^ littleEndian [a, b, c, d] * prime1) 23 * prime2 + prime3
    rest.foldl absorbByte acc
  | rest => rest.foldl absorbByte acc

/-- Let every bit of the accumulator influence every bit of the result. -/
def avalanche (acc : UInt64) : UInt64 :=
  let acc := (acc ^^^ acc >>> 33) * prime2
  let acc := (acc ^^^ acc >>> 29) * prime3
  acc ^^^ acc >>> 32

/-- The 64-bit xxHash with seed zero. -/
def xxh64 : Digest := fun bytes =>
  let (ws, tail) := words bytes
  let (start, ws) :=
    if 4 ≤ ws.length then
      let (lanes, rest) := Lanes.initial.absorb ws
      (lanes.merge, rest)
    else (prime5, ws)
  avalanche (absorbTail (ws.foldl absorbWord (start + bytes.length.toUInt64)) tail)

end Digest

end MethodResolution
