import Inheritance.Member

/-! Inherited members are grouped by name, in the order in which the names are first seen, and the declared
members of a class join the groups of their names. A declared name that nothing inherited bears forms no group.
-/
namespace Inheritance

structure NameGroup where
  name : String
  inherited : List Member
  declared : List Member
  deriving DecidableEq

namespace NameGroup

/-- Adds an inherited member to the group of its name, which is a new last group if there is none. -/
def insert (m : Member) : List NameGroup → List NameGroup
  | [] => [⟨m.name, [m], []⟩]
  | g :: rest =>
    if g.name = m.name then { g with inherited := g.inherited ++ [m] } :: rest
    else g :: insert m rest

def attach (m : Member) (groups : List NameGroup) : List NameGroup :=
  groups.map fun g => if g.name = m.name then { g with declared := g.declared ++ [m] } else g

def partition (inherited declared : List Member) : List NameGroup :=
  declared.foldl (fun groups m => attach m groups)
    (inherited.foldl (fun groups m => insert m groups) [])

end NameGroup

end Inheritance
