import Inheritance.Member

/-! Which member overrides which is left to the caller. Two further relations have defaults: members clash when
they compete for one slot, and clashing members may share a fake override when they stand for a common
declaration or one of them overrides the other. -/
namespace Inheritance

structure OverrideRules where
  /-- The first member overrides the second. -/
  overrides : Member → Member → Bool
  /-- Members that do not override each other cannot both be inherited. -/
  clashes : Member → Member → Bool := fun a b => a.slotFingerprint = b.slotFingerprint
  /-- Clashing members may share one fake override. -/
  compatible : Member → Member → Bool := fun a b =>
    a.sharesRoot b || overrides a b || overrides b a

namespace OverrideRules

/-- Overriding takes the same slot and the same result type. -/
def bySignature : OverrideRules where
  overrides a b := a.slotFingerprint = b.slotFingerprint ∧ a.signature.result = b.signature.result

variable (rules : OverrideRules)

/-- The first member can stand for the second in a fake override. -/
def dominates (a b : Member) : Bool := a.sharesRoot b || rules.overrides a b

def linked (a b : Member) : Bool := rules.clashes a b && rules.compatible a b

end OverrideRules

end Inheritance
