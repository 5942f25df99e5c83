import Inheritance.Declaration

/-! Declared members come first, then the fake overrides. A scope answers queries by name and kind over that
list. It holds no classifiers, so a query for nothing else is refused, and so are the eager queries of a symbol
table. -/
namespace Inheritance

structure Scope where
  className : String
  members : List Member
  declaredCount : Nat
  inside : declaredCount ≤ members.length
  deriving DecidableEq

namespace Scope

def build (className : String) (declared fakes : List Member) : Scope :=
  ⟨className, declared ++ fakes, declared.length, by simp⟩

def declared (s : Scope) : List Member := s.members.take s.declaredCount

def fakes (s : Scope) : List Member := s.members.drop s.declaredCount

@[simp] theorem declared_append_fakes (s : Scope) : s.declared ++ s.fakes = s.members :=
  List.take_append_drop ..

theorem mem_members {s : Scope} {m : Member} : m ∈ s.members ↔ m ∈ s.declared ∨ m ∈ s.fakes := by
  rw [← declared_append_fakes, List.mem_append]

section

variable {className : String} {declared fakes : List Member}

@[simp] theorem declared_build : (build className declared fakes).declared = declared :=
  List.take_left' rfl

@[simp] theorem fakes_build : (build className declared fakes).fakes = fakes := List.drop_left' rfl

end

def size (s : Scope) : Nat := s.members.length

def isEmpty (s : Scope) : Bool := s.members.isEmpty

/-- The member with the given identity, wherever it comes from, is in scope. -/
def contains (s : Scope) (member : Fingerprint) : Bool :=
  s.members.any (·.fingerprint = member)

def refuse {α : Type} (s : Scope) (query : Query) : Except ResolutionError α :=
  .error (.unsupported query s.className)

/-- The members that pass a test, for sets of kinds that a scope can hold some of. A set with other
kinds beside classifiers is served without them. -/
def select (s : Scope) (kinds : KindSet) (test : Member → Bool) :
    Except ResolutionError (List Member) :=
  if kinds = .onlyClassifiers then s.refuse .classifiers
  else .ok (s.members.filter fun m => kinds.accepts m.kind && test m)

def lookup (s : Scope) (name : String) (kinds : KindSet) (test : Member → Bool) :
    Except ResolutionError (List Member) :=
  s.select kinds fun m => m.name = name && test m

def contributed (s : Scope) (kinds : KindSet) (test : String → Bool) :
    Except ResolutionError (List Member) :=
  s.select kinds fun m => test m.name

/-- No scope knows nested classifiers. -/
def classifier (s : Scope) (_name : String) : Except ResolutionError Fingerprint :=
  s.refuse .classifiers

/-- Functions are found by `lookup` only. -/
def functions (s : Scope) (_name : String) : Except ResolutionError (List Member) :=
  s.refuse .functions

/-- Properties are found by `lookup` only. -/
def properties (s : Scope) (_name : String) : Except ResolutionError (List Member) :=
  s.refuse .properties

/-- A fake override is listed with the owners of the members it stands for. -/
def memberLine (m : Member) : String :=
  "    " ++ m.summary ++
    match m with
    | .declared _ => ""
    | .fake _ [] _ => " <fake override of>"
    | .fake _ overridden _ =>
      " <fake override of " ++ ", ".intercalate (overridden.map (·.ownerName)) ++ ">"

/-- One line for each member, between braces. -/
instance : ToString Scope where
  toString s :=
    "scope " ++ s.className ++ " \x7b\n" ++
      String.join (s.members.map fun m => memberLine m ++ "\n") ++ "\x7d"

end Scope

end Inheritance
