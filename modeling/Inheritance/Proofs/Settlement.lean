import Inheritance.Proofs.Turns

/-! What a run that does not fail fast leaves behind. Each registered class is effective just if it
resolves against the final registry, and what the run reports for the others is how they fail there. So
the order in which the run took the classes cannot be told from its results. -/
namespace Inheritance.Registry

open List (Forall₂)
open Relation (TransGen)

variable {rules : OverrideRules} {r r' : Registry} {h k : Fingerprint} {d : Declaration}
  {c : EffectiveClass} {order : List Fingerprint}

/-- What a run reports for a class that comes to this when it is resolved. -/
def report? : Except ResolutionError EffectiveClass → Option CompletionError
  | .ok _ => none
  | .error e => some (.resolution e)

/-- What a run would report for a registered class. -/
def failure? (r : Registry) (rules : OverrideRules) (h : Fingerprint) : Option CompletionError :=
  (r.get? h).bind fun d => report? (r.resolve rules d)

theorem exists_resolution_of_failure? {e : CompletionError} (failed : r.failure? rules h = some e) :
    ∃ error, e = .resolution error := by
  obtain ⟨d, -, this⟩ := Option.bind_eq_some_iff.mp failed
  cases resolved : r.resolve rules d with
  | ok c => simp [resolved, report?] at this
  | error error =>
    rw [resolved] at this
    exact ⟨error, (Option.some.inj this).symm⟩

/-- The registered class is effective just if it resolves. -/
def SettledAt (rules : OverrideRules) (r : Registry) (h : Fingerprint) : Prop :=
  ∀ d, r.get? h = some d → r.resolved? h = (r.resolve rules d).toOption

def Settled (rules : OverrideRules) (r : Registry) : Prop := ∀ h, SettledAt rules r h

/-- A collecting run over these classes leads from the one registry to the other. -/
structure Completes (rules : OverrideRules) (order : List Fingerprint) (r r' : Registry)
    (errors : List CompletionError) : Prop where
  declarations : r'.declarations = r.declarations
  untouched : ∀ h, h ∉ order → r'.resolved? h = r.resolved? h
  settled : ∀ h ∈ order, SettledAt rules r' h
  errors : errors = order.filterMap (r'.failure? rules)

theorem settledAt_of_lasts {t : Turn} (lasts : Lasts rules r t) : SettledAt rules r t.fingerprint := by
  obtain ⟨e, there, stands, outcome⟩ := lasts
  intro d found
  obtain rfl : e = d := Option.some.inj (there.symm.trans found)
  rw [stands, Turn.stored?, ← outcome]
  cases r.resolve rules e <;> rfl

theorem failure?_of_lasts {t : Turn} (lasts : Lasts rules r t) :
    r.failure? rules t.fingerprint = t.error? := by
  obtain ⟨d, found, -, outcome⟩ := lasts
  rw [failure?, found, Option.bind_some, Turn.error?, ← outcome]
  cases r.resolve rules d <;> rfl

theorem completes_of_completionOrder (distinct : r.fingerprints.Nodup) (ok : r.completionOrder = .ok order) :
    Completes rules order r (r.complete rules false).2 (r.complete rules false).1.errors := by
  have lasts : ∀ t ∈ turns rules false r order, Lasts rules (r.after (turns rules false r order)) t :=
    lasts_of_completionOrder distinct ok
  have untouched (h : Fingerprint) (outside : h ∉ order) :
      (completeAll rules false r order).2.resolved? h = r.resolved? h :=
    resolved?_completeAll_of_notMem outside
  rw [completeAll_eq] at untouched
  rw [complete_eq_turns ok]
  refine ⟨rfl, untouched, fun h here => ?_, ?_⟩
  · obtain ⟨t, taken, rfl⟩ := exists_turn here
    exact settledAt_of_lasts (lasts t taken)
  · let final := r.after (turns rules false r order)
    calc (Report.ofTurns (turns rules false r order)).errors
      _ = (turns rules false r order).filterMap Turn.error? := rfl
      _ = (turns rules false r order).filterMap (fun t => final.failure? rules t.fingerprint) :=
        List.filterMap_congr fun t taken => (failure?_of_lasts (lasts t taken)).symm
      _ = ((turns rules false r order).map Turn.fingerprint).filterMap (final.failure? rules) := by
        rw [List.filterMap_map]
        rfl
      _ = order.filterMap (final.failure? rules) := by rw [map_fingerprint_turns]

/-- How the registered classes fail that do not resolve, in registration order. -/
def failures (r : Registry) (rules : OverrideRules) : List CompletionError :=
  r.fingerprints.filterMap (r.failure? rules)

theorem failure?_of_resolved? (settled : Settled rules r) (stored : r.resolved? h = some c) :
    r.failure? rules h = none := by
  cases found : r.get? h with
  | none => simp [failure?, found]
  | some d =>
    have resolves := settled h d found
    rw [stored] at resolves
    cases resolved : r.resolve rules d with
    | ok b => simp [failure?, found, resolved, report?]
    | error e => simp [resolved, Except.toOption] at resolves

theorem Completes.resolved?_of_notMem {errors : List CompletionError} (ran : Completes rules order r r' errors)
    (perm : order.Perm r.pending) (registered : r.contains h = true) (outside : h ∉ order) :
    ∃ c, r'.resolved? h = some c := by
  rw [ran.untouched h outside]
  refine Option.ne_none_iff_exists'.mp fun unresolved => outside ?_
  exact perm.mem_iff.mpr (mem_pending.mpr ⟨registered, unresolved⟩)

theorem Completes.settles {errors : List CompletionError} (ran : Completes rules order r r' errors)
    (perm : order.Perm r.pending) (reached : Reached (·.Completes (· = rules)) r') : Settled rules r' := by
  intro h d found
  by_cases here : h ∈ order
  · exact ran.settled h here d found
  have registered : r.contains h = true := by
    rw [get?, ran.declarations] at found
    rw [contains, get?, found]
    rfl
  obtain ⟨c, stored⟩ := ran.resolved?_of_notMem perm registered here
  obtain ⟨e, there, resolves⟩ := (current_of_reached reached stored).resolves
  obtain rfl : e = d := Option.some.inj (there.symm.trans found)
  rw [stored, resolves]
  rfl

theorem Completes.reports {errors : List CompletionError} (ran : Completes rules order r r' errors)
    (perm : order.Perm r.pending) (settled : Settled rules r') : errors.Perm (r'.failures rules) := by
  have same : r'.fingerprints = r.fingerprints := congrArg (List.map _) ran.declarations
  have pending : r.pending.filterMap (r'.failure? rules) = r'.failures rules := by
    rw [failures, same, Registry.pending, List.filterMap_filter]
    refine List.filterMap_congr fun h member => ?_
    split
    · rfl
    · rename_i effective
      have outside : h ∉ order := fun here => effective (List.mem_filter.mp (perm.subset here)).2
      obtain ⟨c, stored⟩ := ran.resolved?_of_notMem perm (contains_iff.mpr member) outside
      exact (failure?_of_resolved? settled stored).symm
  rw [ran.errors, ← pending]
  exact perm.filterMap _

/-- A collecting run that meets no cycle settles the registry and reports the failures that are left. -/
theorem settled_of_complete (reached : Reached (·.Completes (· = rules)) r)
    (ok : r.completionOrder = .ok order) : Settled rules (r.complete rules false).2 ∧
      (r.complete rules false).1.errors.Perm ((r.complete rules false).2.failures rules) := by
  have perm := (topological_of_completionOrder reached.nodup ok).2
  have later : Reached (·.Completes (· = rules)) (r.performAll [.complete rules false]) :=
    reached.performAll (by simp [Operation.Completes])
  have ran : Completes rules order r (r.complete rules false).2 (r.complete rules false).1.errors :=
    completes_of_completionOrder reached.nodup ok
  have settled := ran.settles perm later
  exact ⟨settled, ran.reports perm settled⟩

/-- Without a cycle of supertypes a run has an order to go by. -/
theorem exists_completionOrder (acyclic : ∀ h, ¬ TransGen r.Extends h h) :
    ∃ order, r.completionOrder = .ok order := by
  cases found : r.completionOrder with
  | ok order => exact ⟨order, rfl⟩
  | error e =>
    obtain ⟨h, -, cycle, -⟩ := cycle_of_completionOrder found
    exact absurd (TransGen.mono (fun _ _ awaits => awaits.2.2) _ _ cycle) (acyclic h)

theorem acyclic_of_completionOrder (distinct : r.fingerprints.Nodup) (fresh : r.effective = [])
    (ok : r.completionOrder = .ok order) : ¬ TransGen r.Extends h h := by
  have all : r.pending = r.fingerprints := by
    simp [pending, isResolved, resolved?, fresh]
  intro cycle
  have awaits : TransGen r.Awaits h h := by
    unfold Awaits
    rw [all]
    exact registered_of_path cycle (registered_of_cycle cycle)
  exact not_cycle_of_completionOrder distinct ok awaits

theorem Settled.resolved?_of_descends (settled : Settled rules r')
    (kept : ∀ h d, r.get? h = some d → r'.get? h = some d) (descends : r.Descends (· = rules) c) :
    r'.resolved? c.fingerprint = some c := by
  induction descends with
  | @made _ d supertypes fakes allowed registered _ listed computed below ih =>
    subst allowed
    have all : Forall₂ (fun name c => r'.resolvedByName? name = some c) d.supertypes supertypes := by
      refine imp_of_mem listed fun {name c} _ there found => ?_
      have same : c.fingerprint = .ofName name := fingerprint_of_resolved? found
      rw [resolvedByName?, ← same]
      exact ih c there
    have resolves := resolve_eq_ok_iff.mpr ⟨supertypes, fakes, all, computed, rfl⟩
    have stored := settled d.fingerprint d (kept _ d registered)
    rwa [resolves] at stored

end Inheritance.Registry
