import Inheritance.Registry
import Inheritance.Resolution

/-! Completion makes registered classes effective. A run takes the classes that are not effective yet,
supertypes before subtypes, and stores what each of them resolves to. A class that fails is left out and its
subtypes fail after it. A cycle of supertypes stops the run before anything is stored. -/

namespace Inheritance

structure Report where
  completed : Nat
  synthesized : Nat
  errors : List CompletionError
  deriving DecidableEq

namespace Report

def empty : Report := ⟨0, 0, []⟩

def succeeded (r : Report) : Bool := r.errors.isEmpty

/-- The report of a run that completes a class with so many fake overrides before all else. -/
def consClass (fakes : Nat) (r : Report) : Report :=
  { r with completed := r.completed + 1, synthesized := r.synthesized + fakes }

def consError (e : CompletionError) (r : Report) : Report := { r with errors := e :: r.errors }

end Report

namespace Completion

/-! What a run reads, it looks up by fingerprint. -/

variable (get? : Fingerprint → Option Declaration) (resolved? : Fingerprint → Option EffectiveClass)

/-- The effective classes of the supertypes that a declaration lists. The first that is missing fails
the class. -/
def supertypes (d : Declaration) : Except ResolutionError (List EffectiveClass) :=
  d.supertypes.mapM fun name =>
    match resolved? (.ofName name) with
    | some c => .ok c
    | none => .error (.unresolvedSupertype d.name name)

/-- The effective class of a declaration whose supertypes are effective. -/
def resolve (rules : OverrideRules) (d : Declaration) : Except ResolutionError EffectiveClass := do
  let supertypes ← supertypes resolved? d
  let fakes ← rules.fakeOverrides d supertypes
  return .ofDeclaration d fakes

def awaited (pending : List Fingerprint) (h : Fingerprint) : Except CompletionError (List Fingerprint) :=
  match get? h with
  | some d => .ok (d.supertypeFingerprints.filter (· ∈ pending))
  | none => .error (.unknownType (toString h))

def circular (h : Fingerprint) : CompletionError :=
  .circularInheritance (((get? h).map (·.name)).getD (toString h))

/-- The pending classes, each behind its pending supertypes. -/
def order (pending : List Fingerprint) : Except CompletionError (List Fingerprint) :=
  Traversal.order (awaited get? pending) (circular get?) pending

end Completion

namespace Registry

def supertypesOf (r : Registry) (d : Declaration) : Except ResolutionError (List EffectiveClass) :=
  Completion.supertypes r.resolved? d

def resolve (r : Registry) (rules : OverrideRules) (d : Declaration) : Except ResolutionError EffectiveClass :=
  Completion.resolve r.resolved? rules d

def completeClass (r : Registry) (rules : OverrideRules) (h : Fingerprint) :
    Except CompletionError (EffectiveClass × Registry) := do
  let some d := r.get? h | throw (.unknownType (toString h))
  let c ← (r.resolve rules d).mapError .resolution
  let r ← (r.insert c).mapError .registration
  return (c, r)

def completeAll (rules : OverrideRules) (failFast : Bool) (r : Registry) :
    List Fingerprint → Report × Registry
  | [] => (.empty, r)
  | h :: rest =>
    match r.completeClass rules h with
    | .ok (c, r) => (completeAll rules failFast r rest).map (.consClass c.scope.fakes.length) id
    | .error e =>
      if failFast then (Report.empty.consError e, r)
      else (completeAll rules failFast r rest).map (.consError e) id

def completionOrder (r : Registry) : Except CompletionError (List Fingerprint) :=
  Completion.order r.get? r.pending

/-- Completes all pending classes. A run that fails fast ends with its first error. -/
def complete (r : Registry) (rules : OverrideRules) (failFast : Bool) : Report × Registry :=
  match r.completionOrder with
  | .ok order => completeAll rules failFast r order
  | .error e => (Report.empty.consError e, r)

end Registry

/-- Registers declarations and completes them. The first failure of either phase is returned. -/
def resolveAll (rules : OverrideRules) (declarations : List Declaration) :
    Except Failure Registry :=
  match (∅ : Registry).registerAll declarations with
  | (_, some e) => .error (.registration e)
  | (r, none) =>
    match r.complete rules true with
    | (⟨_, _, e :: _⟩, _) => .error (.completion e)
    | (⟨_, _, []⟩, r) => .ok r

end Inheritance
