/-! Positions `0` to `n - 1` are linked by a relation that is read on pairs of an earlier and a later position
only. A component holds the positions that chains of links join, in ascending order, and the components are
listed by their least positions. -/
namespace Inheritance

/-- A set of positions, ascending, with its least position apart. -/
structure Component (n : Nat) where
  least : Fin n
  others : List (Fin n)
  deriving DecidableEq, Repr

namespace Component

variable {n : Nat}

def positions (c : Component n) : List (Fin n) := c.least :: c.others

/-- A link holds both ways, whichever of the two positions is the earlier one. -/
def adjacent (linked : Fin n → Fin n → Bool) (i j : Fin n) : Bool :=
  (i < j && linked i j) || (j < i && linked j i)

/-- Whether a position of the component is linked to a later one. -/
def attached (linked : Fin n → Fin n → Bool) (i : Fin n) (c : Component n) : Bool :=
  c.positions.any (linked · i)

/-- The component with one position more and with all positions of further components. -/
def join (c : Component n) (i : Fin n) (merged : List (Component n)) : Component n :=
  ⟨c.least, c.others ++ i :: merged.flatMap positions⟩

/-- Takes in a position that is later than all others. It joins the first component that is attached
to it, and whatever else is attached is merged into that one. Otherwise it is a component of its own. -/
def add (linked : Fin n → Fin n → Bool) : List (Component n) → Fin n → List (Component n)
  | [], i => [⟨i, []⟩]
  | c :: rest, i =>
    if c.attached linked i then
      c.join i (rest.filter (·.attached linked i)) :: rest.filter (!·.attached linked i)
    else c :: add linked rest i

/-- Puts a position in its place among ascending ones. -/
def place (i : Fin n) : List (Fin n) → List (Fin n)
  | [] => [i]
  | j :: rest => if i ≤ j then i :: j :: rest else j :: place i rest

def sort (c : Component n) : Component n :=
  match c.positions.foldr place [] with
  | [] => c
  | i :: rest => ⟨i, rest⟩

/-- The components of all positions, which are taken in one by one. -/
def ofLinks (linked : Fin n → Fin n → Bool) : List (Component n) :=
  ((List.finRange n).foldl (add linked) []).map sort

end Component

end Inheritance
