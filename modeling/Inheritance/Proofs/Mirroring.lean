import Inheritance.Proofs.WriteOnce
import Mathlib.Data.List.Find

/-! A registry mirrors a store: it lists the declarations in the order of the store, and the effective classes.
Whatever is done, the two answer alike and stay mirror images, so that what holds of every registry that operations
lead to holds of stores too. -/
namespace Inheritance.Store

variable {s : Store} {h : Fingerprint} {d : Declaration} {c : EffectiveClass}

/-- The answer of an operation, and where it is no failure, the registry that the store behind it holds. -/
def seen {ε α : Type} (outcome : Except ε α × Store) : Except ε Registry := outcome.1.map fun _ => outcome.2.view

def refusal? : Except RegistrationError Unit → Option RegistrationError
  | .ok () => none
  | .error e => some e

/-- A store and a registry read alike and answer alike. -/
structure Mirrors (s : Store) (r : Registry) : Prop where
  order : r.fingerprints = s.order
  classes : r.declarations = s.classes
  declared : ∀ h, r.get? h = s.declarations.find? h
  resolved : ∀ h, r.resolved? h = s.resolved.find? h
  counts : r.classCount = s.classCount ∧ r.resolvedCount = s.resolvedCount
  register : ∀ d, r.register d = seen (s.register d)
  registerAll : ∀ declarations, r.registerAll declarations =
    ((s.registerAll declarations).2.view, refusal? (s.registerAll declarations).1)
  insert : ∀ c, r.insert c = seen (s.insert c)
  complete : ∀ rules failFast, r.complete rules failFast = (s.complete rules failFast).map id view

theorem fingerprints_view (inStep : s.InStep) : s.view.fingerprints = s.order := by
  have named : ∀ h ∈ s.order, (s.declarations.find? h).map (·.fingerprint) = some h := by
    intro h listed
    obtain ⟨d, found⟩ := Option.isSome_iff_exists.mp ((inStep.listed h).mp listed)
    simp [found, (inStep.declared h d found).1]
  rw [Registry.fingerprints, view, classes, List.map_filterMap, List.filterMap_congr named, List.filterMap_some]

theorem get?_view (inStep : s.InStep) : s.view.get? h = s.declarations.find? h := by
  have distinct : s.view.fingerprints.Nodup := by simpa [fingerprints_view inStep] using inStep.distinct
  refine Option.ext fun d => ?_
  rw [Registry.get?_eq_some_iff distinct, view, classes, List.mem_filterMap]
  constructor
  · rintro ⟨⟨k, -, found⟩, rfl⟩
    rwa [(inStep.declared k d found).1]
  · intro found
    have listed := (inStep.listed h).mpr (Table.contains_of_find? found)
    exact ⟨⟨h, listed, found⟩, (inStep.declared h d found).1⟩

theorem resolved?_view (inStep : s.InStep) : s.view.resolved? h = s.resolved.find? h := by
  rw [Registry.resolved?, view, Table.values, List.find?_map, Table.find?]
  refine congrArg _ (List.find?_congr fun entry member => ?_)
  have found := Table.find?_eq_some_iff.mpr member
  simp [(inStep.resolved entry.1 entry.2 found).2]

theorem contains_view (inStep : s.InStep) : s.view.contains h = s.declarations.contains h := by
  rw [Registry.contains, get?_view inStep, Table.contains]

theorem isResolved_view (inStep : s.InStep) : s.view.isResolved h = s.resolved.contains h := by
  rw [Registry.isResolved, resolved?_view inStep, Table.contains]

theorem pending_view (inStep : s.InStep) : s.view.pending = s.pending := by
  simp [Registry.pending, pending, fingerprints_view inStep, isResolved_view inStep]

theorem classCount_view (inStep : s.InStep) : s.view.classCount = s.classCount := by
  rw [classCount, ← fingerprints_view inStep, Registry.fingerprints, List.length_map, Registry.classCount]

theorem resolvedCount_view : s.view.resolvedCount = s.resolvedCount := List.length_map _

theorem view_declare (inStep : s.InStep) (new : s.declarations.contains d.fingerprint = false) :
    (s.declare d).view = { s.view with declarations := s.view.declarations ++ [d] } := by
  have others : ∀ h ∈ s.order, (s.declare d).declarations.find? h = s.declarations.find? h := by
    intro h listed
    obtain ⟨e, found⟩ := Option.isSome_iff_exists.mp ((inStep.listed h).mp listed)
    rw [found]
    exact Table.find?_insert_of_new new found
  have last : (s.declare d).declarations.find? d.fingerprint = some d := by simp [declare, Table.find?_insert]
  have classes : (s.declare d).classes = s.classes ++ [d] := calc
    _ = (s.order ++ [d.fingerprint]).filterMap (s.declare d).declarations.find? := rfl
    _ = s.order.filterMap (s.declare d).declarations.find? ++ [d] := by
      rw [List.filterMap_append, List.filterMap_cons_some last, List.filterMap_nil]
    _ = s.classes ++ [d] := by rw [List.filterMap_congr others, Store.classes]
  rw [view, classes]
  rfl

theorem view_settle (new : s.resolved.contains c.fingerprint = false) :
    (s.settle c).view = { s.view with effective := s.view.effective ++ [c] } := by
  have values : (s.settle c).resolved.values = s.resolved.values ++ [c] := by
    rw [Table.values, settle, Table.entries_insert_of_new new, List.map_append]
    rfl
  rw [view, values]
  rfl

theorem register_view (inStep : s.InStep) (d : Declaration) : s.view.register d = seen (s.register d) := by
  unfold Registry.register register seen
  rw [Declaration.validate, contains_view inStep]
  cases d.defect? with
  | some e => rfl
  | none =>
    cases new : s.declarations.contains d.fingerprint with
    | true => rfl
    | false => exact congrArg Except.ok (view_declare inStep new).symm

theorem insert_view (inStep : s.InStep) (c : EffectiveClass) : s.view.insert c = seen (s.insert c) := by
  unfold Registry.insert insert seen
  rw [contains_view inStep, isResolved_view inStep]
  cases s.declarations.contains c.fingerprint with
  | false => rfl
  | true =>
    cases new : s.resolved.contains c.fingerprint with
    | true => rfl
    | false => exact congrArg Except.ok (view_settle new).symm

theorem registerAll_view (inStep : s.InStep) (declarations : List Declaration) :
    s.view.registerAll declarations =
      ((s.registerAll declarations).2.view, refusal? (s.registerAll declarations).1) := by
  induction declarations generalizing s with
  | nil => rfl
  | cons d rest ih =>
    have first := register_view inStep d
    have after := inStep.of_steps (steps_register s d)
    rw [Registry.registerAll, registerAll, first]
    rcases register_cases s d with ⟨e, refused⟩ | ⟨-, -, stored⟩
    · rw [refused]
      rfl
    · rw [stored] at after ⊢
      exact ih after

theorem completeClass_view (inStep : s.InStep) (rules : OverrideRules) (h : Fingerprint) :
    (s.view.completeClass rules h).map (fun (c, r) => (c.scope.fakes.length, r)) =
      (s.completeClass rules h).1.map fun fakes => (fakes, (s.completeClass rules h).2.view) := by
  have lookup : s.view.resolved? = s.resolved.find? := funext fun _ => resolved?_view inStep
  unfold Registry.completeClass completeClass
  rw [get?_view inStep]
  cases s.declarations.find? h with
  | none => rfl
  | some d =>
    simp only [Registry.resolve, lookup]
    cases Completion.resolve s.resolved.find? rules d with
    | error e => rfl
    | ok c =>
      have stored := insert_view inStep c
      rcases insert_cases s c with ⟨e, refused⟩ | ⟨-, -, added⟩
      · rw [refused] at stored
        simp [refused, stored, seen, Except.map, Except.mapError, bind, Except.bind]
      · rw [added] at stored
        simp [added, stored, seen, Except.map, Except.mapError, bind, Except.bind, pure, Except.pure]

theorem completeAll_view (inStep : s.InStep) (rules : OverrideRules) (failFast : Bool) (order : List Fingerprint) :
    Registry.completeAll rules failFast s.view order = (completeAll rules failFast s order).map id view := by
  induction order generalizing s with
  | nil => rfl
  | cons h rest ih =>
    have first := completeClass_view inStep rules h
    rw [Registry.completeAll, completeAll]
    rcases completeClass_cases s rules h with ⟨e, failed⟩ | ⟨c, registered, new, stored⟩
    · have failed' : s.view.completeClass rules h = .error e := by
        rw [failed] at first
        cases same : s.view.completeClass rules h <;> simp_all [Except.map]
      rw [failed, failed']
      cases failFast with
      | true => rfl
      | false =>
        simp only [ih inStep]
        rfl
    · have after := inStep.step (.settle registered new)
      rw [stored] at first
      obtain ⟨⟨c', r⟩, done, same⟩ := map_eq_ok_iff.mp first
      obtain ⟨fakes, rfl⟩ := Prod.mk.inj same
      rw [stored, done]
      simp only [ih after, fakes]
      rfl

theorem complete_view (inStep : s.InStep) (rules : OverrideRules) (failFast : Bool) :
    s.view.complete rules failFast = (s.complete rules failFast).map id view := by
  have lookup : s.view.get? = s.declarations.find? := funext fun _ => get?_view inStep
  rw [Registry.complete, complete, Registry.completionOrder, lookup, pending_view inStep]
  cases Completion.order s.declarations.find? s.pending with
  | error e => rfl
  | ok order => exact completeAll_view inStep rules failFast order

theorem view_perform (inStep : s.InStep) (op : Operation) : (s.perform op).view = s.view.perform op := by
  cases op with
  | register d =>
    rw [perform, Registry.perform, register_view inStep]
    rcases register_cases s d with ⟨e, refused⟩ | ⟨-, -, stored⟩
    · rw [refused]
      rfl
    · rw [stored]
      rfl
  | registerAll declarations => rw [perform, Registry.perform, registerAll_view inStep]
  | insert c =>
    rw [perform, Registry.perform, insert_view inStep]
    rcases insert_cases s c with ⟨e, refused⟩ | ⟨-, -, stored⟩
    · rw [refused]
      rfl
    · rw [stored]
      rfl
  | complete rules failFast =>
    rw [perform, Registry.perform, complete_view inStep]
    rfl

theorem view_performAll (inStep : s.InStep) (history : List Operation) :
    (s.performAll history).view = s.view.performAll history := by
  induction history generalizing s with
  | nil => rfl
  | cons op rest ih =>
    rw [performAll, Registry.performAll, ← view_perform inStep]
    exact ih (inStep.of_steps (steps_perform s op))

/-- The facade comes to the same on a registry as on a store. -/
theorem map_view_resolveAll (rules : OverrideRules) (declarations : List Declaration) :
    (resolveAll rules declarations).map view = Inheritance.resolveAll rules declarations := by
  have registered := registerAll_view inStep_empty declarations
  have inStep := inStep_empty.of_steps (steps_registerAll ∅ declarations)
  rw [resolveAll, Inheritance.resolveAll, show (∅ : Registry) = (∅ : Store).view from rfl, registered]
  cases outcome : (∅ : Store).registerAll declarations with
  | mk answer s =>
    rw [outcome] at inStep
    cases answer with
    | error e => rfl
    | ok =>
      have completed := complete_view inStep rules true
      simp only [refusal?, completed]
      rcases s.complete rules true with ⟨⟨fakes, classes, _ | ⟨e, later⟩⟩, s'⟩ <;> rfl

theorem InStep.mirrors (inStep : s.InStep) : s.Mirrors s.view where
  order := fingerprints_view inStep
  classes := rfl
  declared _ := get?_view inStep
  resolved _ := resolved?_view inStep
  counts := ⟨classCount_view inStep, resolvedCount_view⟩
  register := register_view inStep
  registerAll := registerAll_view inStep
  insert := insert_view inStep
  complete := complete_view inStep

/-- Whatever the history, the tables and the order stay in step, what they hold is there for good, and a registry
with the same history is their mirror image. -/
theorem kept_performAll (history : List Operation) : Kept history (performAll ∅ history) ∧
    (performAll ∅ history).WritesOnce ∧ (performAll ∅ history).Mirrors (Registry.performAll ∅ history) := by
  have inStep := inStep_empty.of_steps (steps_performAll ∅ history)
  have same : (performAll ∅ history).view = Registry.performAll ∅ history := view_performAll inStep_empty history
  exact ⟨kept history, writesOnce _, same ▸ inStep.mirrors⟩

/-- The second `Shape` is refused, and `Square` is not looked at any more. -/
theorem kept_performAll_refused :
    let shape : Declaration := .named .interface "Shape" [] []
    let circle : Declaration := .named .ordinary "Circle" ["Shape"] []
    let square : Declaration := .named .ordinary "Square" ["Shape"] []
    let history : List Operation := [.registerAll [circle, shape, shape, square], .complete .bySignature true]
    let s := performAll ∅ history
    s.order = [circle.fingerprint, shape.fingerprint] ∧ s.resolvedCount = 2 ∧ Kept history s := by
  intro shape circle square history s
  exact ⟨by decide +kernel, by decide +kernel, (kept_performAll history).1⟩

end Inheritance.Store
