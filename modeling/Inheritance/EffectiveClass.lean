import Inheritance.Scope

/-! A class becomes effective once its fake overrides are known. Subclasses inherit all that is in its scope,
whether declared or inherited. -/
namespace Inheritance

/-- A class whose effective members are known. -/
structure EffectiveClass where
  name : String
  fingerprint : Fingerprint
  kind : ClassKind
  supertypes : List Fingerprint
  scope : Scope
  deriving DecidableEq

namespace EffectiveClass

def ofDeclaration (d : Declaration) (fakes : List Member) : EffectiveClass :=
  ⟨d.name, d.fingerprint, d.kind, d.supertypeFingerprints, .build d.name d.members fakes⟩

def members (c : EffectiveClass) : List Member := c.scope.members

theorem mem_members_of_fake {c : EffectiveClass} {m : Member} (fake : m ∈ c.scope.fakes) : m ∈ c.members :=
  Scope.mem_members.mpr (.inr fake)

@[simp] theorem members_ofDeclaration (d : Declaration) (fakes : List Member) :
    (ofDeclaration d fakes).members = d.members ++ fakes := rfl

@[simp] theorem declared_ofDeclaration (d : Declaration) (fakes : List Member) :
    (ofDeclaration d fakes).scope.declared = d.members := Scope.declared_build

@[simp] theorem fakes_ofDeclaration (d : Declaration) (fakes : List Member) :
    (ofDeclaration d fakes).scope.fakes = fakes := Scope.fakes_build

end EffectiveClass

end Inheritance
