import Inheritance.Failure

/-! A declaration names its direct supertypes and holds the members of its body, both in order. It is valid when
every member is declared in the class itself, no two members compete for one slot and no supertype is listed
twice or is the class itself. -/
namespace Inheritance

inductive ClassKind where
  | ordinary
  | interface
  deriving DecidableEq, Repr

instance : ToString ClassKind where
  toString
    | .ordinary => "class"
    | .interface => "interface"

structure Declaration where
  name : String
  fingerprint : Fingerprint
  kind : ClassKind
  supertypes : List String
  members : List Member
  deriving DecidableEq

namespace Declaration

def named (kind : ClassKind) (name : String) (supertypes : List String) (members : List Member) :
    Declaration :=
  ⟨name, .ofName name, kind, supertypes, members⟩

def supertypeFingerprints (d : Declaration) : List Fingerprint := d.supertypes.map .ofName

def membersNamed (d : Declaration) (name : String) : List Member :=
  d.members.filter (·.name = name)

/-- What is wrong with a member that comes after members with the given slots. -/
def memberDefect? (d : Declaration) (slots : List Fingerprint) (m : Member) :
    Option RegistrationError :=
  if m.isFake then some (.invalid (.synthetic d.name (toString m)))
  else if m.owner ≠ d.fingerprint then some (.foreignMember d.name (toString m))
  else if m.slotFingerprint ∈ slots then some (.duplicateMember d.name (toString m))
  else none

def firstMemberDefect? (d : Declaration) (slots : List Fingerprint) :
    List Member → Option RegistrationError
  | [] => none
  | m :: rest =>
    (d.memberDefect? slots m).or (d.firstMemberDefect? (m.slotFingerprint :: slots) rest)

/-- The first supertype that repeats an earlier one. -/
def firstRepeated? (seen : List String) : List String → Option String
  | [] => none
  | s :: rest => if s ∈ seen then some s else firstRepeated? (s :: seen) rest

def supertypeDefect? (d : Declaration) : Option RegistrationError :=
  if d.name ∈ d.supertypes then some (.invalid (.selfSupertype d.name))
  else (firstRepeated? [] d.supertypes).map fun s => .invalid (.repeatedSupertype d.name s)

/-- The first defect, or none: members are looked at in order, and supertypes after them. -/
def defect? (d : Declaration) : Option RegistrationError :=
  (d.firstMemberDefect? [] d.members).or d.supertypeDefect?

def validate (d : Declaration) : Except RegistrationError Unit :=
  match d.defect? with
  | some e => .error e
  | none => .ok ()

theorem validate_eq_ok_iff {d : Declaration} : d.validate = .ok () ↔ d.defect? = none := by
  unfold validate
  split <;> simp_all

end Declaration

end Inheritance
