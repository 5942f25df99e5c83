/-! `xxh64` is the XXH64 digest. Whole words are absorbed first, four at a time as long as four remain, then one
half word and the last bytes, and a final mixing step spreads every bit. -/
namespace Inheritance.Digest

abbrev prime1 : UInt64 := 0x9e3779b185ebca87
abbrev prime2 : UInt64 := 0xc2b2ae3d27d4eb4f
abbrev prime3 : UInt64 := 0x165667b19e3779f9
abbrev prime4 : UInt64 := 0x85ebca77c2b2ae63
abbrev prime5 : UInt64 := 0x27d4eb2f165667c5

def rotateLeft (word amount : UInt64) : UInt64 :=
  word <<< amount ||| word >>> (64 - amount)

/-- The number whose base 256 digits are the bytes, least significant first. -/
def littleEndian (bytes : List UInt8) : UInt64 :=
  bytes.foldr (fun byte rest => rest <<< 8 ||| byte.toUInt64) 0

/-- The words at the front of a byte string, and the fewer than eight bytes behind them. -/
def words : List UInt8 → List UInt64 × List UInt8
  | a :: b :: c :: d :: e :: f :: g :: h :: rest =>
    let (front, tail) := words rest
    (littleEndian [a, b, c, d, e, f, g, h] :: front, tail)
  | tail => ([], tail)

def round (lane word : UInt64) : UInt64 :=
  rotateLeft (lane + word * prime2) 31 * prime1

/-- Four lanes run side by side over stripes of four words. -/
structure Lanes where
  a : UInt64
  b : UInt64
  c : UInt64
  d : UInt64
  deriving DecidableEq, Repr

def Lanes.start (seed : UInt64) : Lanes :=
  ⟨seed + prime1 + prime2, seed + prime2, seed, seed - prime1⟩

/-- Runs the lanes over all whole stripes and returns the words that are left. -/
def Lanes.absorb (lanes : Lanes) : List UInt64 → Lanes × List UInt64
  | a :: b :: c :: d :: rest =>
    Lanes.absorb ⟨round lanes.a a, round lanes.b b, round lanes.c c, round lanes.d d⟩ rest
  | rest => (lanes, rest)

def Lanes.merge (lanes : Lanes) : UInt64 :=
  [lanes.a, lanes.b, lanes.c, lanes.d].foldl
    (fun acc lane => (acc ^^^ round 0 lane) * prime1 + prime4)
    (rotateLeft lanes.a 1 + rotateLeft lanes.b 7 + rotateLeft lanes.c 12 + rotateLeft lanes.d 18)

def absorbWord (acc word : UInt64) : UInt64 :=
  rotateLeft (acc ^^^ round 0 word) 27 * prime1 + prime4

def absorbHalfWord (acc word : UInt64) : UInt64 :=
  rotateLeft (acc ^^^ word * prime1) 23 * prime2 + prime3

def absorbByte (acc : UInt64) (byte : UInt8) : UInt64 :=
  rotateLeft (acc ^^^ byte.toUInt64 * prime5) 11 * prime1

/-- Absorbs fewer than eight bytes: a half word if there is one, then byte by byte. -/
def absorbTail (acc : UInt64) : List UInt8 → UInt64
  | a :: b :: c :: d :: rest =>
    rest.foldl absorbByte (absorbHalfWord acc (littleEndian [a, b, c, d]))
  | rest => rest.foldl absorbByte acc

def avalanche (acc : UInt64) : UInt64 :=
  let acc := (acc ^^^ acc >>> 33) * prime2
  let acc := (acc ^^^ acc >>> 29) * prime3
  acc ^^^ acc >>> 32

/-- The XXH64 digest of a byte string. Inputs shorter than one stripe never start the lanes. -/
def xxh64 (seed : UInt64) (bytes : List UInt8) : UInt64 :=
  let (all, tail) := words bytes
  let (lanes, left) := (Lanes.start seed).absorb all
  let acc := if bytes.length < 32 then seed + prime5 else lanes.merge
  let acc := left.foldl absorbWord (acc + bytes.length.toUInt64)
  avalanche (absorbTail acc tail)

def ofText (text : String) : UInt64 :=
  xxh64 0 text.toUTF8.data.toList

end Inheritance.Digest
