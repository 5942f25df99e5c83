import Inheritance.Proofs.Dispatch

/-! An effective class stays what its declaration resolves to. It was resolved against an earlier
registry, but all that it read there, the effective classes of its supertypes, was final by then. -/
namespace Inheritance.Registry

open List (Forall₂)
open Relation (TransGen ReflTransGen)

variable {rules : OverrideRules} {kind : OverrideRules → Prop} {r r' : Registry} {h k : Fingerprint}
  {d : Declaration} {c : EffectiveClass}

/-- A registered class lists the other as a direct supertype. -/
def Extends (r : Registry) (h k : Fingerprint) : Prop := k ∈ r.parents h

/-- The stored class is what its declaration resolves to in this registry. -/
structure Current (rules : OverrideRules) (r : Registry) (h : Fingerprint) (c : EffectiveClass) : Prop where
  stored : r.resolved? h = some c
  resolves : ∃ d, r.get? h = some d ∧ r.resolve rules d = .ok c
  supertypes : ∀ k, r.Extends h k → r.contains k = true ∧ r.isResolved k = true
  acyclic : ¬ TransGen r.Extends h h

theorem parents_of_get? (found : r.get? h = some d) : r.parents h = d.supertypeFingerprints := by
  simp [parents, found]

theorem extends_iff : r.Extends h k ↔ ∃ d, r.get? h = some d ∧ k ∈ d.supertypeFingerprints := by
  cases found : r.get? h with
  | none => simp [Extends, parents, found]
  | some d => simp [Extends, parents, found]

theorem registered_of_extends (listed : r.Extends h k) : h ∈ r.fingerprints := by
  obtain ⟨d, found, -⟩ := extends_iff.mp listed
  exact contains_iff.mp (Option.isSome_of_eq_some found)

/-- Only the last class of a path may be unregistered. -/
theorem registered_of_path (path : TransGen r.Extends h k) (last : k ∈ r.fingerprints) :
    TransGen (fun h k => h ∈ r.fingerprints ∧ k ∈ r.fingerprints ∧ r.Extends h k) h k := by
  induction path with
  | single listed => exact .single ⟨registered_of_extends listed, last, listed⟩
  | tail _ listed ih =>
    have between := registered_of_extends listed
    exact (ih between).tail ⟨between, last, listed⟩

theorem registered_of_cycle (cycle : TransGen r.Extends h h) : h ∈ r.fingerprints := by
  obtain ⟨_, listed, -⟩ := TransGen.head'_iff.mp cycle
  exact registered_of_extends listed

theorem contains_of_declarations (same : r'.declarations = r.declarations) : r'.contains h = r.contains h := by
  rw [contains, contains, get?, get?, same]

theorem extends_of_declarations (same : r'.declarations = r.declarations) : r'.Extends = r.Extends := by
  funext h k
  rw [Extends, Extends, parents, parents, get?, get?, same]

theorem exists_of_extends {supertypes : List EffectiveClass} (registered : r.get? h = some d)
    (all : Forall₂ (fun name c => r.resolvedByName? name = some c) d.supertypes supertypes)
    (listed : r.Extends h k) : ∃ b ∈ supertypes, r.resolved? k = some b := by
  have listed : k ∈ r.parents h := listed
  rw [parents_of_get? registered] at listed
  obtain ⟨name, member, rfl⟩ := List.mem_map.mp listed
  exact exists_right all member

theorem Descends.contains (descends : r.Descends kind c) : r.contains c.fingerprint = true := by
  cases descends with
  | @made _ d _ _ _ registered =>
    change (r.get? d.fingerprint).isSome = true
    rw [registered]
    rfl

theorem Descends.resolves (descends : r.Descends (· = rules) c) :
    ∃ d, r.get? c.fingerprint = some d ∧ r.resolve rules d = .ok c := by
  cases descends with
  | made allowed registered _ listed computed =>
    subst allowed
    exact ⟨_, registered, resolve_eq_ok_iff.mpr ⟨_, _, listed, computed, rfl⟩⟩

theorem Descends.exists_of_extends (descends : r.Descends kind c) (listed : r.Extends c.fingerprint k) :
    ∃ b, r.resolved? k = some b ∧ r.Descends kind b := by
  cases descends with
  | made _ registered _ all _ below =>
    obtain ⟨b, there, found⟩ := Registry.exists_of_extends registered all listed
    exact ⟨b, found, below b there⟩

theorem Descends.exists_of_path (descends : r.Descends kind c) (stored : r.resolved? h = some c)
    (path : ReflTransGen r.Extends h k) : ∃ b, r.resolved? k = some b ∧ r.Descends kind b := by
  induction path with
  | refl => exact ⟨c, stored, descends⟩
  | tail _ listed ih =>
    obtain ⟨b, found, below⟩ := ih
    rw [← fingerprint_of_resolved? found] at listed
    exact below.exists_of_extends listed

theorem Descends.acyclic (descends : r.Descends kind c) :
    ¬ TransGen r.Extends c.fingerprint c.fingerprint := by
  induction descends with
  | made _ registered _ all _ _ ih =>
    intro cycle
    obtain ⟨k, first, path⟩ := TransGen.head'_iff.mp cycle
    obtain ⟨b, there, found⟩ := Registry.exists_of_extends registered all first
    have same : b.fingerprint = k := fingerprint_of_resolved? found
    apply ih b there
    rw [same]
    exact TransGen.tail'_iff.mpr ⟨_, path, first⟩

theorem current_of_reached (reached : Reached (·.Completes (· = rules)) r)
    (stored : r.resolved? h = some c) : r.Current rules h c := by
  have descends := (sound_of_reached reached).descends c (mem_of_resolved? stored)
  have same : c.fingerprint = h := fingerprint_of_resolved? stored
  subst same
  refine ⟨stored, descends.resolves, fun k listed => ?_, descends.acyclic⟩
  obtain ⟨b, found, below⟩ := descends.exists_of_extends listed
  have same : b.fingerprint = k := fingerprint_of_resolved? found
  constructor
  · exact same ▸ below.contains
  · simp [isResolved, found]

/-- What is stored is what resolving finds, now and after whatever comes later. -/
theorem current_performAll (reached : Reached (·.Completes (· = rules)) r)
    (stored : r.resolved? h = some c) {later : List Operation}
    (allowed : ∀ op ∈ later, op.Completes (· = rules)) : (r.performAll later).Current rules h c := by
  have grows : Grows r (r.performAll later) := .of_changes (changes_performAll allowed)
  exact current_of_reached (reached.performAll allowed) (grows.resolved? stored)

/-- A subclass that comes later, declarations that are refused, and a run. -/
def extension : List Operation :=
  [.register (.named .ordinary "Last" ["Both"] []), .registerAll diamond, .complete .bySignature true]

theorem current_performAll_diamond : (completedDiamond.performAll extension).effective.length = 5 ∧
    ∃ c, completedDiamond.resolvedByName? "Both" = some c ∧
      (completedDiamond.performAll extension).Current .bySignature (.ofName "Both") c := by
  have both : (completedDiamond.resolvedByName? "Both").isSome = true := by decide +kernel
  obtain ⟨c, stored⟩ := Option.isSome_iff_exists.mp both
  refine ⟨by decide +kernel, c, stored, current_performAll (reached_diamond rfl) stored ?_⟩
  simp [extension, Operation.Completes]

end Inheritance.Registry
