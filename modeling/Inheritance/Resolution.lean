import Inheritance.Component
import Inheritance.EffectiveClass
import Inheritance.NameGroup
import Inheritance.OverrideRules

/-! A class needs a member for every inherited member that none of its own overrides. Those that clash and may
share a fake override form a slot, and the member of a slot that can stand for all the others gives the fake
override its signature. Members that cannot coexist are a conflict. -/
namespace Inheritance

/-- Two members that cannot both reach a class. The first of them is inherited. -/
structure Conflict where
  first : Member
  second : Member
  deriving DecidableEq

/-- What becomes of the inherited members of one name. -/
inductive Outcome where
  | matched
  | synthesized (fakes : List Member)
  | conflict (conflict : Conflict)
  deriving DecidableEq

namespace Outcome

def toExcept : Outcome → Except Conflict (List Member)
  | matched => .ok []
  | synthesized fakes => .ok fakes
  | conflict c => .error c

end Outcome

namespace OverrideRules

variable (rules : OverrideRules)

def unmatched (group : NameGroup) : List Member :=
  group.inherited.filter fun base => !group.declared.any (rules.overrides · base)

def declaredClash? (declared inherited : List Member) : Option Conflict :=
  inherited.findSome? fun base =>
    (declared.find? (rules.clashes · base)).map (⟨base, ·⟩)

/-- The first pair of members that clash and cannot share a fake override. -/
def incompatible? : List Member → Option Conflict
  | [] => none
  | a :: rest =>
    ((rest.find? fun b => rules.clashes a b && !rules.compatible a b).map (⟨a, ·⟩)).or
      (incompatible? rest)

section

variable {n : Nat} (members : Vector Member n)

/-- The slots of numbered members: the components of those that clash and are compatible. -/
def slots : List (Component n) :=
  Component.ofLinks fun i j => rules.linked members[i] members[j]

/-- The first position of a slot whose member can stand for those at all other positions. -/
def representative? (slot : Component n) : Option (Fin n) :=
  slot.positions.find? fun i =>
    slot.positions.all fun j => i = j || rules.dominates members[i] members[j]

def undominated (slot : Component n) : Conflict where
  first := members[slot.least]
  second :=
    members[(slot.others.find? fun j =>
      !rules.dominates members[slot.least] members[j]).getD slot.least]

def fill (d : Declaration) (slot : Component n) : Except Conflict Member :=
  match rules.representative? members slot with
  | some i =>
    .ok (.synthesize d.fingerprint d.name members[i] (slot.positions.map (members[·])))
  | none => .error (rules.undominated members slot)

end

/-- One fake override for each slot, unless some members cannot coexist with each other or with the
declared ones. -/
def synthesize (d : Declaration) (declared members : List Member) :
    Except Conflict (List Member) :=
  match (rules.declaredClash? declared members).or (rules.incompatible? members) with
  | some c => .error c
  | none =>
    let numbered : Vector Member members.length := ⟨members.toArray, rfl⟩
    (rules.slots numbered).mapM (rules.fill numbered d)

/-- Resolves the inherited members of one name against the declared ones. -/
def resolveGroup (d : Declaration) (group : NameGroup) : Outcome :=
  match rules.unmatched group with
  | [] => .matched
  | members =>
    match rules.synthesize d group.declared members with
    | .ok fakes => .synthesized fakes
    | .error c => .conflict c

/-- The fake overrides of a class, by name in the order of aggregation. The first conflict fails the
whole class. -/
def fakesFrom (d : Declaration) (inherited : List Member) : Except ResolutionError (List Member) := do
  let fakes ← (NameGroup.partition inherited d.members).mapM fun group =>
    (rules.resolveGroup d group).toExcept.mapError fun c =>
      .conflict d.name group.name c.first c.second
  return fakes.flatten

end OverrideRules

/-- All that a class inherits, supertype by supertype. A member that arrives along two paths is
listed twice. -/
def aggregate (supertypes : List EffectiveClass) : List Member :=
  supertypes.flatMap EffectiveClass.members

def OverrideRules.fakeOverrides (rules : OverrideRules) (d : Declaration)
    (supertypes : List EffectiveClass) : Except ResolutionError (List Member) :=
  rules.fakesFrom d (aggregate supertypes)

end Inheritance
