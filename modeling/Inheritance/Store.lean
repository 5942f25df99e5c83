import Inheritance.Completion
import Inheritance.Table

/-! The store is the registry as it is kept: a table of declarations, the order in which they came in, and a
table of effective classes. An operation answers with the store that it leaves behind, also where it fails. -/
namespace Inheritance

structure Store where
  declarations : Table Declaration
  order : List Fingerprint
  resolved : Table EffectiveClass
  deriving DecidableEq

namespace Store

instance : EmptyCollection Store := ⟨⟨∅, [], ∅⟩⟩

def register (s : Store) (d : Declaration) : Except RegistrationError Unit × Store :=
  match d.validate with
  | .error e => (.error e, s)
  | .ok () =>
    if s.declarations.contains d.fingerprint then (.error (.duplicateType d.name), s)
    else
      let s := { s with order := s.order ++ [d.fingerprint] }
      (.ok (), { s with declarations := s.declarations.insert d.fingerprint d })

/-- Registers declarations up to the first that is refused. -/
def registerAll (s : Store) : List Declaration → Except RegistrationError Unit × Store
  | [] => (.ok (), s)
  | d :: rest =>
    match s.register d with
    | (.ok (), s) => s.registerAll rest
    | (.error e, s) => (.error e, s)

def insert (s : Store) (c : EffectiveClass) : Except RegistrationError EffectiveClass × Store :=
  if !s.declarations.contains c.fingerprint then (.error (.typeNotFound c.name), s)
  else if s.resolved.contains c.fingerprint then (.error (.duplicateType c.name), s)
  else (.ok c, { s with resolved := s.resolved.insert c.fingerprint c })

def completeClass (s : Store) (rules : OverrideRules) (h : Fingerprint) : Except CompletionError Nat × Store :=
  match s.declarations.find? h with
  | none => (.error (.unknownType (toString h)), s)
  | some d =>
    match Completion.resolve s.resolved.find? rules d with
    | .error e => (.error (.resolution e), s)
    | .ok c =>
      match s.insert c with
      | (.error e, s) => (.error (.registration e), s)
      | (.ok c, s) => (.ok c.scope.fakes.length, s)

def completeAll (rules : OverrideRules) (failFast : Bool) (s : Store) : List Fingerprint → Report × Store
  | [] => (.empty, s)
  | h :: rest =>
    match s.completeClass rules h with
    | (.ok fakes, s) => (completeAll rules failFast s rest).map (.consClass fakes) id
    | (.error e, s) =>
      if failFast then (Report.empty.consError e, s)
      else (completeAll rules failFast s rest).map (.consError e) id

def pending (s : Store) : List Fingerprint := s.order.filter fun h => !s.resolved.contains h

def complete (s : Store) (rules : OverrideRules) (failFast : Bool) : Report × Store :=
  match Completion.order s.declarations.find? s.pending with
  | .ok order => completeAll rules failFast s order
  | .error e => (Report.empty.consError e, s)

def classCount (s : Store) : Nat := s.order.length

def resolvedCount (s : Store) : Nat := s.resolved.entries.length

def getByName? (s : Store) (name : String) : Option Declaration := s.declarations.find? (.ofName name)

def resolvedByName? (s : Store) (name : String) : Option EffectiveClass := s.resolved.find? (.ofName name)

def classes (s : Store) : List Declaration := s.order.filterMap s.declarations.find?

/-- The registry that a store holds. -/
def view (s : Store) : Registry := ⟨s.classes, s.resolved.values⟩

/-- Registers declarations and completes them. The first failure of either phase is returned. -/
def resolveAll (rules : OverrideRules) (declarations : List Declaration) : Except Failure Store :=
  match (∅ : Store).registerAll declarations with
  | (.error e, _) => .error (.registration e)
  | (.ok (), s) =>
    match s.complete rules true with
    | (⟨_, _, e :: _⟩, _) => .error (.completion e)
    | (⟨_, _, []⟩, s) => .ok s

end Store

end Inheritance
