import Inheritance.Fingerprint

/-! A signature lists parameter types and a result type. Types are compared by name and fingerprint, while the
identity of a member reads the fingerprints only. -/
namespace Inheritance

structure TypeRef where
  name : String
  fingerprint : Fingerprint
  deriving DecidableEq, Repr

namespace TypeRef

def named (name : String) : TypeRef := ⟨name, .ofName name⟩

/-- The result type of a member without a meaningful result. -/
def unit : TypeRef := named "Unit"

instance : ToString TypeRef := ⟨TypeRef.name⟩

end TypeRef

structure Signature where
  params : List TypeRef
  result : TypeRef
  deriving DecidableEq, Repr

namespace Signature

def paramFingerprints (s : Signature) : List Fingerprint := s.params.map (·.fingerprint)

instance : ToString Signature where
  toString s := "(" ++ ", ".intercalate (s.params.map toString) ++ "): " ++ toString s.result

end Signature

end Inheritance
