import Inheritance.WhiteSpace

/-! A format is chosen by name, whatever the case of its letters and the blanks around it. Every name but that
of the JSON format chooses flat text. -/
namespace Inheritance

inductive LogFormat where
  | text
  | json
  deriving DecidableEq, Repr

namespace LogFormat

/-- Lowering ASCII letters is enough, as no other character has one of the four letters as its lower
case. -/
def ofName (name : String) : LogFormat :=
  if (WhiteSpace.trim name).map Char.toLower = "json" then json else text

instance : ToString LogFormat where
  toString
    | text => "text"
    | json => "json"

end LogFormat

end Inheritance
