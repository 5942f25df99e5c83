import Inheritance.EffectiveClass
import Inheritance.Traversal

/-! A registry holds the declarations and the effective classes of a store as two lists. Declarations stand in
the order of their registration. A class is stored under its fingerprint, once and for good, and only registered
classes may become effective. -/
namespace Inheritance

structure Registry where
  declarations : List Declaration
  effective : List EffectiveClass
  deriving DecidableEq

namespace Registry

instance : EmptyCollection Registry := ⟨⟨[], []⟩⟩

def get? (r : Registry) (h : Fingerprint) : Option Declaration :=
  r.declarations.find? (·.fingerprint = h)

def contains (r : Registry) (h : Fingerprint) : Bool := (r.get? h).isSome

theorem fingerprint_of_get? {r : Registry} {h : Fingerprint} {d : Declaration}
    (found : r.get? h = some d) : d.fingerprint = h := by
  simpa using List.find?_some found

def resolved? (r : Registry) (h : Fingerprint) : Option EffectiveClass :=
  r.effective.find? (·.fingerprint = h)

def resolvedByName? (r : Registry) (name : String) : Option EffectiveClass :=
  r.resolved? (.ofName name)

def isResolved (r : Registry) (h : Fingerprint) : Bool := (r.resolved? h).isSome

/-- The registered identities in registration order. -/
def fingerprints (r : Registry) : List Fingerprint := r.declarations.map (·.fingerprint)

theorem contains_iff {r : Registry} {h : Fingerprint} : r.contains h = true ↔ h ∈ r.fingerprints := by
  simp [contains, get?, fingerprints]

def classCount (r : Registry) : Nat := r.declarations.length

def resolvedCount (r : Registry) : Nat := r.effective.length

/-- Adds a valid declaration of a new class. -/
def register (r : Registry) (d : Declaration) : Except RegistrationError Registry :=
  match d.defect? with
  | some e => .error e
  | none =>
    if r.contains d.fingerprint then .error (.duplicateType d.name)
    else .ok { r with declarations := r.declarations ++ [d] }

theorem register_eq_ok_iff {r r' : Registry} {d : Declaration} :
    r.register d = .ok r' ↔
      d.defect? = none ∧ d.fingerprint ∉ r.fingerprints ∧
        r' = { r with declarations := r.declarations ++ [d] } := by
  rw [← contains_iff]
  unfold register
  split
  · simp_all
  · split
    · simp_all
    · simp_all only [Bool.not_eq_true, Except.ok.injEq, true_and]
      exact eq_comm

/-- Registers declarations up to the first that is refused. The registry that is returned holds the
declarations before it. -/
def registerAll (r : Registry) : List Declaration → Registry × Option RegistrationError
  | [] => (r, none)
  | d :: rest =>
    match r.register d with
    | .ok r => r.registerAll rest
    | .error e => (r, some e)

/-- Stores the effective class of a registered declaration. -/
def insert (r : Registry) (c : EffectiveClass) : Except RegistrationError Registry :=
  if !r.contains c.fingerprint then .error (.typeNotFound c.name)
  else if r.isResolved c.fingerprint then .error (.duplicateType c.name)
  else .ok { r with effective := r.effective ++ [c] }

theorem insert_eq_ok_iff {r r' : Registry} {c : EffectiveClass} :
    r.insert c = .ok r' ↔
      c.fingerprint ∈ r.fingerprints ∧ r.isResolved c.fingerprint = false ∧
        r' = { r with effective := r.effective ++ [c] } := by
  rw [← contains_iff]
  unfold insert
  split
  · simp_all
  · split
    · simp_all
    · simp_all only [Bool.not_eq_true', Bool.not_eq_false, Bool.not_eq_true, Except.ok.injEq, true_and]
      exact eq_comm

def parents (r : Registry) (h : Fingerprint) : List Fingerprint :=
  ((r.get? h).map (·.supertypeFingerprints)).getD []

/-- All registered supertypes of a class, nearest first. A class is its own supertype only if it lies
on a cycle. -/
def ancestors (r : Registry) (h : Fingerprint) : List Fingerprint :=
  Traversal.reach r.parents r.fingerprints [h]

/-- The registered classes that are not effective yet, in registration order. -/
def pending (r : Registry) : List Fingerprint :=
  r.fingerprints.filter fun h => !r.isResolved h

end Registry

end Inheritance
