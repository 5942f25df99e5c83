import Inheritance.Proofs.Settlement
import Inheritance.Proofs.Dispatch
import Mathlib.Data.List.Nodup

/-! Registration and completion are confluent. Whatever the order in which declarations are registered,
and however many runs come in between, the last run ends with the same effective classes and reports the
same errors. -/
namespace Inheritance

open Relation (TransGen)

/-- The declarations that an operation is to register. -/
def Operation.declarations : Operation → List Declaration
  | register d => [d]
  | registerAll declarations => declarations
  | insert _ => []
  | complete _ _ => []

/-- Nothing keeps these declarations out of one registry. -/
structure Registrable (declarations : List Declaration) : Prop where
  valid : ∀ d ∈ declarations, d.defect? = none
  distinct : (declarations.map (·.fingerprint)).Nodup

/-- One of the declarations lists the class as a supertype. The class itself need not be declared. -/
def Lists (declarations : List Declaration) (h k : Fingerprint) : Prop :=
  ∃ d ∈ declarations, d.fingerprint = h ∧ k ∈ d.supertypeFingerprints

/-- The history registers each declaration once, in whatever order, and completes with the rules only. -/
structure Schedules (rules : OverrideRules) (declarations : List Declaration) (history : List Operation) :
    Prop where
  completes : ∀ op ∈ history, op.Completes (· = rules)
  once : (history.flatMap Operation.declarations).Perm declarations

section

variable {declarations rest : List Declaration} {d : Declaration}

theorem Registrable.of_perm (registrable : Registrable declarations) (perm : rest.Perm declarations) :
    Registrable rest where
  valid d member := registrable.valid d (perm.subset member)
  distinct := (perm.map _).nodup_iff.mpr registrable.distinct

theorem Registrable.of_append (registrable : Registrable (declarations ++ rest)) : Registrable declarations where
  valid d member := registrable.valid d (List.mem_append_left _ member)
  distinct := registrable.distinct.sublist ((List.sublist_append_left ..).map _)

end

theorem find?_key_eq_some_iff {α κ : Type} [DecidableEq κ] {key : α → κ} {l : List α} {k : κ} {a : α}
    (distinct : (l.map key).Nodup) : l.find? (fun a => decide (key a = k)) = some a ↔ a ∈ l ∧ key a = k := by
  constructor
  · exact fun found => ⟨List.mem_of_find?_eq_some found, by simpa using List.find?_some found⟩
  · rintro ⟨member, rfl⟩
    cases found : l.find? fun b => decide (key b = key a) with
    | none => simpa using List.find?_eq_none.mp found a member
    | some b =>
      have same : key b = key a := by simpa using List.find?_some found
      rw [List.inj_on_of_nodup_map distinct (List.mem_of_find?_eq_some found) member same]

namespace Registry

variable {rules : OverrideRules} {declarations : List Declaration} {history : List Operation}
  {r r' : Registry} {h k : Fingerprint} {d : Declaration}

/-- The declarations that are registered before one is refused. -/
def accepted (r : Registry) : List Declaration → List Declaration
  | [] => []
  | d :: rest =>
    match r.register d with
    | .ok r' => d :: r'.accepted rest
    | .error _ => []

theorem registerAll_eq (r : Registry) (declarations : List Declaration) :
    (r.registerAll declarations).1 =
      { r with declarations := r.declarations ++ r.accepted declarations } := by
  induction declarations generalizing r with
  | nil => simp [registerAll, accepted]
  | cons d rest ih =>
    cases step : r.register d with
    | error e => simp [registerAll, accepted, step]
    | ok r' =>
      obtain ⟨-, -, grown⟩ := register_eq_ok_iff.mp step
      have later := ih r'
      rw [grown] at later
      simpa [registerAll, accepted, step, grown] using later

theorem register_of_registrable (registrable : Registrable (r.declarations ++ [d])) :
    r.register d = .ok { r with declarations := r.declarations ++ [d] } := by
  refine register_eq_ok_iff.mpr ⟨registrable.valid d (by simp), fun old => ?_, rfl⟩
  have distinct := registrable.distinct
  rw [List.map_append] at distinct
  exact (List.nodup_append.mp distinct).2.2 _ old _ List.mem_cons_self rfl

theorem registerAll_append (registrable : Registrable (r.declarations ++ declarations))
    (rest : List Declaration) : r.registerAll (declarations ++ rest) =
      registerAll { r with declarations := r.declarations ++ declarations } rest := by
  induction declarations generalizing r with
  | nil => simp
  | cons d later ih =>
    rw [List.append_cons] at registrable ⊢
    rw [List.cons_append, registerAll, register_of_registrable registrable.of_append]
    exact ih registrable

theorem registerAll_of_registrable (registrable : Registrable (r.declarations ++ declarations)) :
    r.registerAll declarations = ({ r with declarations := r.declarations ++ declarations }, none) := by
  simpa [registerAll] using registerAll_append registrable []

theorem registerAll_empty (registrable : Registrable declarations) :
    (∅ : Registry).registerAll declarations = (⟨declarations, []⟩, none) :=
  registerAll_of_registrable registrable

theorem declarations_complete (failFast : Bool) :
    (r.complete rules failFast).2.declarations = r.declarations := by
  rw [complete]
  split
  · exact declarations_completeAll
  · rfl

theorem declarations_perform_eq (r : Registry) (op : Operation) :
    (r.perform op).declarations = r.declarations ++ r.accepted op.declarations := by
  cases op with
  | register d =>
    cases step : r.register d with
    | error e => simp [perform, Operation.declarations, accepted, step, Except.toOption]
    | ok r' =>
      obtain ⟨-, -, rfl⟩ := register_eq_ok_iff.mp step
      simp [perform, Operation.declarations, accepted, step, Except.toOption]
  | registerAll declarations => simp [perform, Operation.declarations, registerAll_eq]
  | insert c =>
    cases step : r.insert c with
    | error e => simp [perform, Operation.declarations, accepted, step, Except.toOption]
    | ok r' =>
      obtain ⟨-, -, rfl⟩ := insert_eq_ok_iff.mp step
      simp [perform, Operation.declarations, accepted, step, Except.toOption]
  | complete rules failFast =>
    simp [perform, Operation.declarations, accepted, declarations_complete]

theorem accepted_of_registrable (registrable : Registrable (r.declarations ++ declarations)) :
    r.accepted declarations = declarations := by
  have all := registerAll_eq r declarations
  rw [registerAll_of_registrable registrable] at all
  exact (List.append_cancel_left (congrArg Registry.declarations all)).symm

theorem declarations_perform {op : Operation} (registrable : Registrable (r.declarations ++ op.declarations)) :
    (r.perform op).declarations = r.declarations ++ op.declarations := by
  rw [declarations_perform_eq, accepted_of_registrable registrable]

theorem declarations_performAll
    (registrable : Registrable (r.declarations ++ history.flatMap Operation.declarations)) :
    (r.performAll history).declarations = r.declarations ++ history.flatMap Operation.declarations := by
  induction history generalizing r with
  | nil => simp [performAll]
  | cons op rest ih =>
    rw [List.flatMap_cons, ← List.append_assoc] at registrable ⊢
    have first := declarations_perform registrable.of_append
    rw [← first] at registrable ⊢
    exact ih registrable

theorem get?_eq_some_iff (distinct : r.fingerprints.Nodup) :
    r.get? h = some d ↔ d ∈ r.declarations ∧ d.fingerprint = h := find?_key_eq_some_iff distinct

theorem get?_of_perm (distinct : r.fingerprints.Nodup) (perm : r.declarations.Perm r'.declarations)
    (h : Fingerprint) : r.get? h = r'.get? h := by
  have distinct' : r'.fingerprints.Nodup := (perm.map _).nodup_iff.mp distinct
  refine Option.ext fun d => ?_
  rw [get?_eq_some_iff distinct, get?_eq_some_iff distinct', perm.mem_iff]

theorem lists_of_extends (listed : r.Extends h k) : Lists r.declarations h k := by
  obtain ⟨d, found, listed⟩ := extends_iff.mp listed
  exact ⟨d, mem_of_get? found, fingerprint_of_get? found, listed⟩

theorem extends_of_lists (distinct : r.fingerprints.Nodup) (listed : Lists r.declarations h k) :
    r.Extends h k := by
  obtain ⟨d, member, same, listed⟩ := listed
  exact extends_iff.mpr ⟨d, (get?_eq_some_iff distinct).mpr ⟨member, same⟩, listed⟩

/-- An order for declarations that have just been registered rules out cycles among them. -/
theorem acyclic_of_registrable {order : List Fingerprint} (registrable : Registrable declarations)
    (ok : completionOrder ⟨declarations, []⟩ = .ok order) : ¬ TransGen (Lists declarations) h h := by
  have distinct : (⟨declarations, []⟩ : Registry).fingerprints.Nodup := registrable.distinct
  have listed (h k : Fingerprint) : Lists declarations h k → Extends ⟨declarations, []⟩ h k :=
    extends_of_lists distinct
  intro cycle
  exact acyclic_of_completionOrder distinct rfl ok (TransGen.mono listed _ _ cycle)

theorem failures_of_perm (perm : r.declarations.Perm r'.declarations) (found : ∀ h, r.get? h = r'.get? h)
    (stored : ∀ h, r.resolved? h = r'.resolved? h) : (r.failures rules).Perm (r'.failures rules) := by
  have same : r.failure? rules = r'.failure? rules := by
    funext h
    rw [failure?, failure?, found]
    refine Option.bind_congr fun d _ => ?_
    rw [resolve_congr fun k _ => stored k]
  rw [failures, failures, same]
  exact (perm.map _).filterMap _

/-- What any schedule of the declarations comes to. -/
structure Ends (rules : OverrideRules) (declarations : List Declaration) (r : Registry)
    (errors : List CompletionError) : Prop where
  reached : Reached (·.Completes (· = rules)) r
  registered : r.declarations.Perm declarations
  settled : Settled rules r
  reported : errors.Perm (r.failures rules)

theorem ends_of_schedules (registrable : Registrable declarations)
    (acyclic : ∀ h, ¬ TransGen (Lists declarations) h h) (schedules : Schedules rules declarations history) :
    Ends rules declarations ((performAll ∅ history).complete rules false).2
      ((performAll ∅ history).complete rules false).1.errors := by
  have all : (performAll ∅ history).declarations = history.flatMap Operation.declarations :=
    declarations_performAll (registrable.of_perm schedules.once)
  have registered : (performAll ∅ history).declarations.Perm declarations := all ▸ schedules.once
  have reached : Reached (·.Completes (· = rules)) (performAll ∅ history) :=
    ⟨history, schedules.completes, rfl⟩
  have noCycle (h : Fingerprint) : ¬ TransGen (performAll ∅ history).Extends h h := by
    intro cycle
    refine acyclic h (TransGen.mono (fun h k listed => ?_) _ _ cycle)
    obtain ⟨d, member, this⟩ := lists_of_extends listed
    exact ⟨d, registered.subset member, this⟩
  obtain ⟨order, found⟩ := exists_completionOrder noCycle
  obtain ⟨settled, reported⟩ := settled_of_complete reached found
  have later : Reached (·.Completes (· = rules)) ((performAll ∅ history).performAll [.complete rules false]) :=
    reached.performAll (by simp [Operation.Completes])
  refine ⟨later, ?_, settled, reported⟩
  rwa [declarations_complete]

theorem schedules_registerAll : Schedules rules declarations [.registerAll declarations] where
  completes := by simp [Operation.Completes]
  once := by simp [Operation.declarations]

theorem ends_of_registerAll (registrable : Registrable declarations)
    (acyclic : ∀ h, ¬ TransGen (Lists declarations) h h) :
    Ends rules declarations (((∅ : Registry).registerAll declarations).1.complete rules false).2
      (((∅ : Registry).registerAll declarations).1.complete rules false).1.errors := by
  have schedules : Schedules rules declarations [.registerAll declarations] := schedules_registerAll
  have ends := ends_of_schedules registrable acyclic schedules
  exact ends

theorem Ends.resolved?_of_some {errors errors' : List CompletionError} {c : EffectiveClass}
    (ends : Ends rules declarations r errors) (other : Ends rules declarations r' errors')
    (found : ∀ h, r.get? h = r'.get? h) (stored : r.resolved? h = some c) : r'.resolved? h = some c := by
  have descends := (sound_of_reached ends.reached).descends c (mem_of_resolved? stored)
  have same : c.fingerprint = h := fingerprint_of_resolved? stored
  rw [← same]
  exact other.settled.resolved?_of_descends (fun h d => (found h).symm.trans) descends

/-- Two schedules of one set of declarations end alike. -/
theorem complete_confluent {history' : List Operation} (registrable : Registrable declarations)
    (acyclic : ∀ h, ¬ TransGen (Lists declarations) h h) (one : Schedules rules declarations history)
    (other : Schedules rules declarations history') :
    let run := (performAll ∅ history).complete rules false
    let run' := (performAll ∅ history').complete rules false
    (∀ h, run.2.resolved? h = run'.2.resolved? h) ∧ run.1.errors.Perm run'.1.errors := by
  intro run run'
  have ends : Ends rules declarations run.2 run.1.errors := ends_of_schedules registrable acyclic one
  have ends' : Ends rules declarations run'.2 run'.1.errors := ends_of_schedules registrable acyclic other
  have perm : run.2.declarations.Perm run'.2.declarations := ends.registered.trans ends'.registered.symm
  have distinct : run.2.fingerprints.Nodup := (registrable.of_perm ends.registered).distinct
  have found := get?_of_perm distinct perm
  have stored (h : Fingerprint) : run.2.resolved? h = run'.2.resolved? h := by
    refine Option.ext fun c => ⟨?_, ?_⟩
    · exact ends.resolved?_of_some ends' found
    · exact ends'.resolved?_of_some ends fun h => (found h).symm
  refine ⟨stored, ?_⟩
  have failures : (run.2.failures rules).Perm (run'.2.failures rules) := failures_of_perm perm found stored
  exact ends.reported.trans (failures.trans ends'.reported.symm)

/-- The first of these classes cannot become effective. -/
def scattered : List Declaration := .named .ordinary "Orphan" ["Nowhere"] [] :: diamond

/-- The last class comes first, and a run that fails fast follows each registration. -/
def oneByOne : List Operation := scattered.reverse.flatMap fun d => [.register d, .complete .bySignature true]

theorem complete_confluent_scattered :
    let run := (performAll ∅ [.registerAll scattered]).complete .bySignature false
    let run' := (performAll ∅ oneByOne).complete .bySignature false
    run.2.effective.length = 4 ∧ run.1.errors.length = 1 ∧ run'.1.completed = 0 ∧
      (∀ h, run.2.resolved? h = run'.2.resolved? h) ∧ run.1.errors.Perm run'.1.errors := by
  have registrable : Registrable scattered := ⟨by decide +kernel, by decide +kernel⟩
  have order : completionOrder ⟨scattered, []⟩ = .ok (scattered.map (·.fingerprint)) := by decide +kernel
  have acyclic (h : Fingerprint) : ¬ TransGen (Lists scattered) h h := acyclic_of_registrable registrable order
  have steps : Schedules .bySignature scattered oneByOne := by
    refine ⟨fun op member => ?_, ?_⟩
    · obtain ⟨d, -, rfl | rfl⟩ := by simpa [oneByOne] using member
      · trivial
      · rfl
    have once : oneByOne.flatMap Operation.declarations = scattered.reverse := by
      simp [oneByOne, List.flatMap_assoc, Operation.declarations]
    rw [once]
    exact List.reverse_perm _
  refine ⟨by decide +kernel, by decide +kernel, by decide +kernel, ?_⟩
  exact complete_confluent registrable acyclic schedules_registerAll steps

end Registry

end Inheritance
