import Inheritance.Store
import Inheritance.Proofs.Confluence

/-! A store is written once. An operation comes down to steps, each of which adds a valid declaration or the
effective class of a registered one, under a fingerprint that is still free. So the two tables and the order stay in
step, nothing that is stored is changed by what comes later, and what fails leaves no trace. -/
namespace Inheritance

theorem Table.find?_eq_some_iff {α : Type} {t : Table α} {h : Fingerprint} {a : α} :
    t.find? h = some a ↔ (h, a) ∈ t.entries := by
  simp only [find?, Option.map_eq_some_iff, find?_key_eq_some_iff t.distinct]
  constructor
  · rintro ⟨entry, ⟨member, rfl⟩, rfl⟩
    exact member
  · exact fun member => ⟨(h, a), ⟨member, rfl⟩, rfl⟩

namespace Store

open Relation (ReflTransGen)

variable {s s' : Store} {rules : OverrideRules} {failFast : Bool} {h : Fingerprint} {d : Declaration}
  {c : EffectiveClass} {declarations : List Declaration} {order : List Fingerprint} {e : RegistrationError}

def declare (s : Store) (d : Declaration) : Store where
  declarations := s.declarations.insert d.fingerprint d
  order := s.order ++ [d.fingerprint]
  resolved := s.resolved

def settle (s : Store) (c : EffectiveClass) : Store :=
  { s with resolved := s.resolved.insert c.fingerprint c }

/-- One declaration more or one effective class more. -/
inductive Step (s : Store) : Store → Prop where
  | declare {d : Declaration} (valid : d.validate = .ok ())
      (new : s.declarations.contains d.fingerprint = false) : Step s (s.declare d)
  | settle {c : EffectiveClass} (registered : s.declarations.contains c.fingerprint = true)
      (new : s.resolved.contains c.fingerprint = false) : Step s (s.settle c)

def perform (s : Store) : Operation → Store
  | .register d => (s.register d).2
  | .registerAll declarations => (s.registerAll declarations).2
  | .insert c => (s.insert c).2
  | .complete rules failFast => (s.complete rules failFast).2

def performAll (s : Store) : List Operation → Store
  | [] => s
  | op :: rest => (s.perform op).performAll rest

/-- The declarations that are registered before one is refused. -/
def accepted (s : Store) : List Declaration → List Declaration
  | [] => []
  | d :: rest =>
    match s.register d with
    | (.ok (), s) => d :: s.accepted rest
    | (.error _, _) => []

/-- All declarations that a history registers, in the order of their registration. -/
def enrolled (s : Store) : List Operation → List Declaration
  | [] => []
  | op :: rest => s.accepted op.declarations ++ (s.perform op).enrolled rest

/-- The order lists the declarations that the first table holds, each under its fingerprint, and the second table
holds classes of no others. -/
structure InStep (s : Store) : Prop where
  distinct : s.order.Nodup
  listed : ∀ h, h ∈ s.order ↔ s.declarations.contains h = true
  declared : ∀ h d, s.declarations.find? h = some d → d.fingerprint = h ∧ d.validate = .ok ()
  resolved : ∀ h c, s.resolved.find? h = some c → s.declarations.contains h = true ∧ c.fingerprint = h

/-- Nothing is lost or replaced on the way to a later store. -/
structure Keeps (s s' : Store) : Prop where
  order : s.order <+: s'.order
  declarations : ∀ h d, s.declarations.find? h = some d → s'.declarations.find? h = some d
  resolved : ∀ h c, s.resolved.find? h = some c → s'.resolved.find? h = some c

/-- These declarations are added, and no others. -/
structure Adds (s : Store) (declarations : List Declaration) (s' : Store) : Prop where
  order : s'.order = s.order ++ declarations.map (·.fingerprint)
  entries : s'.declarations.entries = s.declarations.entries ++ declarations.map fun d => (d.fingerprint, d)

/-- The two tables and the order hold what the history has registered and completed. -/
structure Kept (history : List Operation) (s : Store) : Prop where
  order : s.order = ((∅ : Store).enrolled history).map (·.fingerprint)
  distinct : s.order.Nodup
  listed : ∀ h, h ∈ s.order ↔ s.declarations.contains h = true
  found : ∀ h d, s.declarations.find? h = some d ↔ d ∈ (∅ : Store).enrolled history ∧ d.fingerprint = h
  valid : ∀ h d, s.declarations.find? h = some d → d.validate = .ok ()
  resolved : ∀ h c, s.resolved.find? h = some c → s.declarations.contains h = true ∧ c.fingerprint = h

/-- Nothing that is stored is changed, and what fails leaves no trace. -/
structure WritesOnce (s : Store) : Prop where
  keeps : ∀ op, s.Keeps (s.perform op)
  register : ∀ d e s', s.register d = (.error e, s') → s' = s
  insert : ∀ c e s', s.insert c = (.error e, s') → s' = s
  registerAll : ∀ declarations e s', s.registerAll declarations = (.error e, s') → ∃ before d after,
    declarations = before ++ d :: after ∧ s.registerAll before = (.ok (), s') ∧ s'.register d = (.error e, s') ∧
      s.Adds before s' ∧ s'.resolved = s.resolved

theorem register_cases (s : Store) (d : Declaration) : (∃ e, s.register d = (.error e, s)) ∨
    d.validate = .ok () ∧ s.declarations.contains d.fingerprint = false ∧ s.register d = (.ok (), s.declare d) := by
  unfold register
  cases valid : d.validate with
  | error e => exact .inl ⟨e, rfl⟩
  | ok =>
    cases new : s.declarations.contains d.fingerprint with
    | true => exact .inl ⟨_, rfl⟩
    | false => exact .inr ⟨rfl, rfl, rfl⟩

theorem insert_cases (s : Store) (c : EffectiveClass) : (∃ e, s.insert c = (.error e, s)) ∨
    s.declarations.contains c.fingerprint = true ∧ s.resolved.contains c.fingerprint = false ∧
      s.insert c = (.ok c, s.settle c) := by
  unfold insert
  cases registered : s.declarations.contains c.fingerprint with
  | false => exact .inl ⟨_, rfl⟩
  | true =>
    cases new : s.resolved.contains c.fingerprint with
    | true => exact .inl ⟨_, rfl⟩
    | false => exact .inr ⟨rfl, rfl, rfl⟩

theorem completeClass_cases (s : Store) (rules : OverrideRules) (h : Fingerprint) :
    (∃ e, s.completeClass rules h = (.error e, s)) ∨
      ∃ c, s.declarations.contains c.fingerprint = true ∧ s.resolved.contains c.fingerprint = false ∧
        s.completeClass rules h = (.ok c.scope.fakes.length, s.settle c) := by
  cases found : s.declarations.find? h with
  | none => exact .inl ⟨.unknownType (toString h), by simp only [completeClass, found]⟩
  | some d =>
    cases resolved : Completion.resolve s.resolved.find? rules d with
    | error e => exact .inl ⟨.resolution e, by simp only [completeClass, found, resolved]⟩
    | ok c =>
      rcases insert_cases s c with ⟨e, refused⟩ | ⟨registered, new, stored⟩
      · exact .inl ⟨.registration e, by simp only [completeClass, found, resolved, refused]⟩
      · exact .inr ⟨c, registered, new, by simp only [completeClass, found, resolved, stored]⟩

theorem eq_of_register_error (refused : s.register d = (.error e, s')) : s' = s := by
  rcases register_cases s d with ⟨e', same⟩ | ⟨-, -, stored⟩
  · exact congrArg Prod.snd (refused.symm.trans same)
  · simp [stored] at refused

theorem eq_of_insert_error (refused : s.insert c = (.error e, s')) : s' = s := by
  rcases insert_cases s c with ⟨e', same⟩ | ⟨-, -, stored⟩
  · exact congrArg Prod.snd (refused.symm.trans same)
  · simp [stored] at refused

theorem steps_register (s : Store) (d : Declaration) : ReflTransGen Step s (s.register d).2 := by
  rcases register_cases s d with ⟨e, refused⟩ | ⟨valid, new, stored⟩
  · rw [refused]
  · rw [stored]
    exact .single (.declare valid new)

theorem steps_registerAll (s : Store) (declarations : List Declaration) :
    ReflTransGen Step s (s.registerAll declarations).2 := by
  induction declarations generalizing s with
  | nil => exact .refl
  | cons d rest ih =>
    have first := steps_register s d
    rw [registerAll]
    cases step : s.register d with
    | mk answer s' =>
      rw [step] at first
      cases answer with
      | error e => exact first
      | ok => exact first.trans (ih s')

theorem steps_completeAll (rules : OverrideRules) (failFast : Bool) (s : Store) (order : List Fingerprint) :
    ReflTransGen Step s (completeAll rules failFast s order).2 := by
  induction order generalizing s with
  | nil => exact .refl
  | cons h rest ih =>
    rw [completeAll]
    rcases completeClass_cases s rules h with ⟨e, failed⟩ | ⟨c, registered, new, stored⟩
    · simp only [failed]
      cases failFast with
      | true => exact .refl
      | false => exact ih s
    · simp only [stored]
      exact (ih _).head (.settle registered new)

theorem steps_perform (s : Store) (op : Operation) : ReflTransGen Step s (s.perform op) := by
  cases op with
  | register d => exact steps_register s d
  | registerAll declarations => exact steps_registerAll s declarations
  | insert c =>
    rw [perform]
    rcases insert_cases s c with ⟨e, refused⟩ | ⟨registered, new, stored⟩
    · rw [refused]
    · rw [stored]
      exact .single (.settle registered new)
  | complete rules failFast =>
    rw [perform, complete]
    split
    · exact steps_completeAll rules failFast s _
    · exact .refl

theorem steps_performAll (s : Store) (history : List Operation) : ReflTransGen Step s (s.performAll history) := by
  induction history generalizing s with
  | nil => exact .refl
  | cons op rest ih => exact (steps_perform s op).trans (ih _)

theorem inStep_empty : InStep ∅ :=
  ⟨.nil, fun _ => iff_of_false List.not_mem_nil Bool.false_ne_true, nofun, nofun⟩

theorem InStep.step (inStep : s.InStep) (step : Step s s') : s'.InStep := by
  cases step with
  | @declare d valid new =>
    have absent : d.fingerprint ∉ s.order := by simp [inStep.listed, new]
    constructor
    case distinct =>
      refine List.nodup_append.mpr ⟨inStep.distinct, List.nodup_singleton _, fun h old k last => ?_⟩
      obtain rfl := List.mem_singleton.mp last
      exact fun same => absent (same ▸ old)
    case listed =>
      intro h
      simp [declare, Table.contains_insert, inStep.listed, or_comm]
    case declared =>
      intro h other found
      rcases Table.find?_insert_eq_some found with ⟨rfl, rfl⟩ | old
      · exact ⟨rfl, valid⟩
      · exact inStep.declared h other old
    case resolved =>
      intro h c found
      obtain ⟨registered, same⟩ := inStep.resolved h c found
      exact ⟨by simp [declare, Table.contains_insert, registered], same⟩
  | @settle c registered new =>
    refine ⟨inStep.distinct, inStep.listed, inStep.declared, fun h other found => ?_⟩
    rcases Table.find?_insert_eq_some found with ⟨rfl, rfl⟩ | old
    · exact ⟨registered, rfl⟩
    · exact inStep.resolved h other old

theorem InStep.of_steps (inStep : s.InStep) (steps : ReflTransGen Step s s') : s'.InStep := by
  induction steps with
  | refl => exact inStep
  | tail _ step ih => exact ih.step step

theorem Step.keeps (step : Step s s') : s.Keeps s' := by
  cases step with
  | declare _ new =>
    exact ⟨List.prefix_append _ _, fun _ _ => Table.find?_insert_of_new new, fun _ _ found => found⟩
  | settle _ new =>
    exact ⟨List.prefix_rfl, fun _ _ found => found, fun _ _ => Table.find?_insert_of_new new⟩

theorem Keeps.of_steps (steps : ReflTransGen Step s s') : s.Keeps s' := by
  induction steps with
  | refl => exact ⟨List.prefix_rfl, fun _ _ found => found, fun _ _ found => found⟩
  | tail _ step ih =>
    have last := step.keeps
    exact ⟨ih.order.trans last.order, fun h d found => last.declarations h d (ih.declarations h d found),
      fun h c found => last.resolved h c (ih.resolved h c found)⟩

theorem adds_nil : s.Adds [] s := ⟨by simp, by simp⟩

theorem Adds.trans {first second : List Declaration} {t : Store} (adds : s.Adds first s') (more : s'.Adds second t) :
    s.Adds (first ++ second) t := by
  constructor
  · rw [more.order, adds.order, List.map_append, List.append_assoc]
  · rw [more.entries, adds.entries, List.map_append, List.append_assoc]

theorem adds_declare (new : s.declarations.contains d.fingerprint = false) : s.Adds [d] (s.declare d) :=
  ⟨rfl, Table.entries_insert_of_new new⟩

theorem adds_registerAll (s : Store) (declarations : List Declaration) :
    s.Adds (s.accepted declarations) (s.registerAll declarations).2 := by
  induction declarations generalizing s with
  | nil => exact adds_nil
  | cons d rest ih =>
    rw [accepted, registerAll]
    rcases register_cases s d with ⟨e, refused⟩ | ⟨-, new, stored⟩
    · simp only [refused]
      exact adds_nil
    · simp only [stored]
      exact (adds_declare new).trans (ih _)

theorem adds_completeAll (rules : OverrideRules) (failFast : Bool) (s : Store) (order : List Fingerprint) :
    s.Adds [] (completeAll rules failFast s order).2 := by
  induction order generalizing s with
  | nil => exact adds_nil
  | cons h rest ih =>
    rw [completeAll]
    rcases completeClass_cases s rules h with ⟨e, failed⟩ | ⟨c, -, -, stored⟩
    · simp only [failed]
      cases failFast with
      | true => exact adds_nil
      | false => exact ih s
    · simp only [stored]
      exact ⟨(ih (s.settle c)).order, (ih (s.settle c)).entries⟩

theorem adds_perform (s : Store) (op : Operation) : s.Adds (s.accepted op.declarations) (s.perform op) := by
  cases op with
  | register d =>
    rw [perform, Operation.declarations, accepted]
    rcases register_cases s d with ⟨e, refused⟩ | ⟨-, new, stored⟩
    · simp only [refused]
      exact adds_nil
    · simp only [stored]
      exact adds_declare new
  | registerAll declarations => exact adds_registerAll s declarations
  | insert c =>
    rw [perform]
    rcases insert_cases s c with ⟨e, refused⟩ | ⟨-, -, stored⟩
    · rw [refused]
      exact adds_nil
    · rw [stored]
      exact ⟨adds_nil.order, adds_nil.entries⟩
  | complete rules failFast =>
    rw [perform, complete]
    split
    · exact adds_completeAll rules failFast s _
    · exact adds_nil

theorem adds_performAll (s : Store) (history : List Operation) : s.Adds (s.enrolled history) (s.performAll history) := by
  induction history generalizing s with
  | nil => exact adds_nil
  | cons op rest ih => exact (adds_perform s op).trans (ih _)

/-- Registration stops at the first declaration that is refused, and the accepted ones are those before. -/
theorem exists_refused (refused : s.registerAll declarations = (.error e, s')) :
    ∃ d after, declarations = s.accepted declarations ++ d :: after ∧
      s.registerAll (s.accepted declarations) = (.ok (), s') ∧ s'.register d = (.error e, s') := by
  induction declarations generalizing s with
  | nil => simp [registerAll] at refused
  | cons d rest ih =>
    rw [registerAll] at refused
    rcases register_cases s d with ⟨first, failed⟩ | ⟨-, -, stored⟩
    · simp only [failed, Prod.mk.injEq, Except.error.injEq] at refused
      obtain ⟨rfl, rfl⟩ := refused
      exact ⟨d, rest, by simp [accepted, failed], by simp [accepted, failed, registerAll], failed⟩
    · simp only [stored] at refused
      obtain ⟨last, after, split, before, final⟩ := ih refused
      refine ⟨last, after, ?_, ?_, final⟩
      · rw [accepted]
        simp only [stored]
        exact congrArg (d :: ·) split
      · rw [accepted]
        simp only [stored, registerAll, before]

theorem resolved_registerAll (s : Store) (declarations : List Declaration) :
    (s.registerAll declarations).2.resolved = s.resolved := by
  induction declarations generalizing s with
  | nil => rfl
  | cons d rest ih =>
    rw [registerAll]
    rcases register_cases s d with ⟨e, refused⟩ | ⟨-, -, stored⟩
    · rw [refused]
    · rw [stored]
      exact ih _

theorem kept (history : List Operation) : Kept history (performAll ∅ history) := by
  have inStep := inStep_empty.of_steps (steps_performAll ∅ history)
  have added := adds_performAll ∅ history
  have entries : (performAll ∅ history).declarations.entries =
      ((∅ : Store).enrolled history).map fun d => (d.fingerprint, d) := added.entries
  refine ⟨added.order, inStep.distinct, inStep.listed, fun h d => ?_, fun h d found => (inStep.declared h d found).2,
    inStep.resolved⟩
  rw [Table.find?_eq_some_iff, entries, List.mem_map]
  constructor
  · rintro ⟨e, member, same⟩
    obtain ⟨rfl, rfl⟩ := Prod.mk.inj same
    exact ⟨member, rfl⟩
  · rintro ⟨member, rfl⟩
    exact ⟨d, member, rfl⟩

theorem writesOnce (s : Store) : s.WritesOnce where
  keeps op := .of_steps (steps_perform s op)
  register _ _ _ := eq_of_register_error
  insert _ _ _ := eq_of_insert_error
  registerAll declarations e s' refused := by
    obtain ⟨d, after, split, before, last⟩ := exists_refused refused
    have added := adds_registerAll s declarations
    have same := resolved_registerAll s declarations
    rw [refused] at added same
    exact ⟨_, d, after, split, before, last, added, same⟩

end Store

end Inheritance
