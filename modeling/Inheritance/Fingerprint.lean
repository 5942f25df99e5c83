import Inheritance.Digest

/-! A fingerprint is one 64-bit word, computed from names and parameter types alone, so an identity is known
before the thing it names has been declared. Each family of identities starts from a mark of its own, and
parameters are mixed in by position. -/
namespace Inheritance

structure Fingerprint where
  bits : UInt64
  deriving DecidableEq, Repr

namespace Fingerprint

def empty : Fingerprint := ⟨0⟩

def isEmpty (f : Fingerprint) : Bool := f.bits == 0

instance : LE Fingerprint := ⟨fun a b => a.bits ≤ b.bits⟩

instance (a b : Fingerprint) : Decidable (a ≤ b) := inferInstanceAs (Decidable (a.bits ≤ b.bits))

/-- Sixteen lower case hexadecimal digits, most significant first, behind `0x`. -/
instance : ToString Fingerprint where
  toString f := "0x" ++ String.ofList
    ((List.range 16).reverse.map fun place => Nat.digitChar (f.bits.toNat >>> (4 * place) % 16))

def debugText (f : Fingerprint) : String := "TypeHash(" ++ toString f ++ ")"

abbrev typeMark : UInt64 := 0x2fac10b63a6cc57c

/-- The mark of member identities, which include the owner. -/
abbrev memberMark : UInt64 := 0x7d3c8b4a92e15f6d

abbrev signatureMark : UInt64 := 0x5ea77ffbcdf5f302

/-- The odd factor between two parameters. -/
abbrev step : UInt64 := 0x4bc94d6bd06053ad

abbrev firstMarker : UInt64 := 0x9e3779b97f4a7c15

def markers : List UInt64 :=
  [firstMarker, 0xbf58476d1ce4e5b9, 0x94d049bb133111eb, 0xd6e8feb86659fd93,
    0xe7037ed1a0b428db, 0xc6a4a7935bd1e995, 0x8648dbbc94d49b8d, 0xa2b48b2c69e0d657,
    0x7c3e9f2a5b8d1403, 0x5d8c7b4a3e9f2106, 0x3f1e9d8c7b5a4203, 0x1a2b3c4d5e6f7089,
    0x9f8e7d6c5b4a3210, 0x2468ace013579bdf, 0xfdb97531eca86420, 0x0f1e2d3c4b5a6978]

/-- The mark of a parameter position. Past the table it is the first mark moved by the position. -/
def marker (position : Nat) : UInt64 :=
  markers[position]?.getD (firstMarker + position.toUInt64)

/-- Mixes parameters into a code, the first of them at `position`. -/
def mixFrom (position : Nat) (code : UInt64) : List Fingerprint → UInt64
  | [] => code
  | p :: rest => mixFrom (position + 1) (code * step + (marker position ^^^ p.bits)) rest

def memberCode (owner : Fingerprint) (tag : UInt8) (name : UInt64) (params : List Fingerprint) :
    Fingerprint :=
  ⟨mixFrom 0 (memberMark ^^^ owner.bits ^^^ name ^^^ tag.toUInt64 <<< 56) params⟩

def signatureCode (tag : UInt8) (name : UInt64) (params : List Fingerprint) : Fingerprint :=
  ⟨mixFrom 0 (signatureMark ^^^ name ^^^ tag.toUInt64 <<< 56) params⟩

def ofName (name : String) : Fingerprint := ⟨typeMark ^^^ Digest.ofText name⟩

def ofMember (owner : Fingerprint) (tag : UInt8) (name : String) (params : List Fingerprint) :
    Fingerprint :=
  memberCode owner tag (Digest.ofText name) params

/-- The identity that a member shares with the members it overrides. -/
def ofSignature (tag : UInt8) (name : String) (params : List Fingerprint) : Fingerprint :=
  signatureCode tag (Digest.ofText name) params

end Fingerprint

end Inheritance
