import Inheritance.Completion
import Inheritance.Proofs.Sequencing
import Mathlib.Logic.Relation

/-! Registries come about by operations, and an operation by changes of two sorts: a declaration is
added, or an effective class is stored. Nothing stored is ever replaced. So every effective class goes
back to its declaration and to effective classes that are still there. -/
namespace Inheritance

open List (Forall₂)
open Relation (ReflTransGen)

/-- What can be done with a registry. -/
inductive Operation where
  | register (d : Declaration)
  | registerAll (declarations : List Declaration)
  | insert (c : EffectiveClass)
  | complete (rules : OverrideRules) (failFast : Bool)

/-- Classes become effective by completion only, with rules of a kind. -/
def Operation.Completes (kind : OverrideRules → Prop) : Operation → Prop
  | register _ => True
  | registerAll _ => True
  | insert _ => False
  | complete rules _ => kind rules

theorem Operation.Completes.any {kind : OverrideRules → Prop} {op : Operation} (allowed : op.Completes kind) :
    op.Completes fun _ => True := by
  cases op with
  | insert => exact allowed.elim
  | _ => trivial

namespace Registry

/-- A refused declaration or class leaves the registry as it was. -/
def perform (r : Registry) : Operation → Registry
  | .register d => (r.register d).toOption.getD r
  | .registerAll declarations => (r.registerAll declarations).1
  | .insert c => (r.insert c).toOption.getD r
  | .complete rules failFast => (r.complete rules failFast).2

def performAll (r : Registry) : List Operation → Registry
  | [] => r
  | op :: rest => (r.perform op).performAll rest

/-- Operations of a kind lead from the empty registry to this one. -/
def Reached (kind : Operation → Prop) (r : Registry) : Prop :=
  ∃ history, (∀ op ∈ history, kind op) ∧ performAll ∅ history = r

/-- One declaration more or one effective class more. -/
inductive Change (storable : Registry → EffectiveClass → Prop) (r : Registry) : Registry → Prop where
  | declare {d : Declaration} (valid : d.defect? = none) (new : d.fingerprint ∉ r.fingerprints) :
      Change storable r { r with declarations := r.declarations ++ [d] }
  | store {c : EffectiveClass} (registered : c.fingerprint ∈ r.fingerprints)
      (new : r.isResolved c.fingerprint = false) (ok : storable r c) :
      Change storable r { r with effective := r.effective ++ [c] }

section

variable {storable storable' : Registry → EffectiveClass → Prop} {r r' : Registry} {d : Declaration}
  {c : EffectiveClass}

theorem Change.imp (imp : ∀ r c, storable r c → storable' r c) (change : Change storable r r') :
    Change storable' r r' := by
  cases change with
  | declare valid new => exact .declare valid new
  | store registered new ok => exact .store registered new (imp _ _ ok)

theorem change_of_register (ok : r.register d = .ok r') : Change storable r r' := by
  obtain ⟨valid, new, rfl⟩ := register_eq_ok_iff.mp ok
  exact .declare valid new

theorem change_of_insert (ok : r.insert c = .ok r') (may : storable r c) : Change storable r r' := by
  obtain ⟨registered, new, rfl⟩ := insert_eq_ok_iff.mp ok
  exact .store registered new may

theorem changes_registerAll (r : Registry) (declarations : List Declaration) :
    ReflTransGen (Change storable) r (r.registerAll declarations).1 := by
  induction declarations generalizing r with
  | nil => exact .refl
  | cons d rest ih =>
    cases step : r.register d with
    | error e => simp [registerAll, step, ReflTransGen.refl]
    | ok r' => simpa [registerAll, step] using (ih r').head (change_of_register step)

end

section

variable {r r' : Registry} {rules : OverrideRules} {d : Declaration} {c : EffectiveClass}
  {h : Fingerprint}

theorem supertypesOf_eq_ok_iff {supertypes : List EffectiveClass} :
    r.supertypesOf d = .ok supertypes ↔
      Forall₂ (fun name c => r.resolvedByName? name = some c) d.supertypes supertypes := by
  rw [supertypesOf, Completion.supertypes, mapM_eq_ok_iff]
  refine iff_of_eq (congrArg (Forall₂ · _ _) ?_)
  funext name c
  rw [resolvedByName?]
  cases r.resolved? (.ofName name) <;> simp

theorem resolve_eq : r.resolve rules d = do
    let supertypes ← r.supertypesOf d
    let fakes ← rules.fakeOverrides d supertypes
    return .ofDeclaration d fakes := rfl

theorem resolve_of_listed {supertypes : List EffectiveClass}
    (listed : Forall₂ (fun name c => r.resolvedByName? name = some c) d.supertypes supertypes) :
    r.resolve rules d = rules.fakeOverrides d supertypes >>= fun fakes => .ok (.ofDeclaration d fakes) := by
  rw [resolve_eq, supertypesOf_eq_ok_iff.mpr listed]
  rfl

theorem resolve_eq_ok_iff : r.resolve rules d = .ok c ↔ ∃ supertypes fakes,
    Forall₂ (fun name c => r.resolvedByName? name = some c) d.supertypes supertypes ∧
      rules.fakeOverrides d supertypes = .ok fakes ∧ c = .ofDeclaration d fakes := by
  simp only [resolve_eq, bind_eq_ok_iff, supertypesOf_eq_ok_iff, pure, Except.pure, Except.ok.injEq]
  constructor
  · rintro ⟨supertypes, listed, fakes, made, rfl⟩
    exact ⟨supertypes, fakes, listed, made, rfl⟩
  · rintro ⟨supertypes, fakes, listed, made, rfl⟩
    exact ⟨supertypes, listed, fakes, made, rfl⟩

theorem completeClass_eq_ok_iff : r.completeClass rules h = .ok (c, r') ↔
    ∃ d, r.get? h = some d ∧ r.resolve rules d = .ok c ∧ r.insert c = .ok r' := by
  unfold completeClass
  cases r.get? h with
  | none => simp [throw, throwThe, MonadExceptOf.throw]
  | some d =>
    simp only [bind_eq_ok_iff, mapError_eq_ok_iff, pure, Except.pure, Except.ok.injEq, Prod.mk.injEq,
      Option.some.injEq, exists_eq_left']
    constructor
    · rintro ⟨_, resolved, _, stored, rfl, rfl⟩
      exact ⟨resolved, stored⟩
    · rintro ⟨resolved, stored⟩
      exact ⟨_, resolved, _, stored, rfl, rfl⟩

/-- Rules of a kind resolve the class from its declaration. -/
def Resolvable (kind : OverrideRules → Prop) (r : Registry) (c : EffectiveClass) : Prop :=
  ∃ rules d, kind rules ∧ r.get? c.fingerprint = some d ∧ r.resolve rules d = .ok c

theorem fingerprint_of_resolve (ok : r.resolve rules d = .ok c) : c.fingerprint = d.fingerprint := by
  obtain ⟨_, _, _, _, rfl⟩ := resolve_eq_ok_iff.mp ok
  rfl

theorem change_of_completeClass {kind : OverrideRules → Prop} (allowed : kind rules)
    (ok : r.completeClass rules h = .ok (c, r')) : Change (Resolvable kind) r r' := by
  obtain ⟨d, found, resolved, stored⟩ := completeClass_eq_ok_iff.mp ok
  refine change_of_insert stored ⟨rules, d, allowed, ?_, resolved⟩
  rwa [fingerprint_of_resolve resolved, fingerprint_of_get? found]

theorem changes_completeAll {kind : OverrideRules → Prop} (allowed : kind rules) (failFast : Bool)
    (r : Registry) (order : List Fingerprint) :
    ReflTransGen (Change (Resolvable kind)) r (completeAll rules failFast r order).2 := by
  induction order generalizing r with
  | nil => exact .refl
  | cons h rest ih =>
    rw [completeAll]
    split
    · rename_i c r' step
      exact (ih r').head (change_of_completeClass allowed step)
    · split
      · exact .refl
      · exact ih r

theorem changes_perform {kind : OverrideRules → Prop} {op : Operation} (allowed : op.Completes kind) :
    ReflTransGen (Change (Resolvable kind)) r (r.perform op) := by
  cases op with
  | register d =>
    rw [perform]
    cases step : r.register d with
    | error e => exact .refl
    | ok r' => exact .single (change_of_register step)
  | registerAll declarations => exact changes_registerAll r declarations
  | insert c => exact allowed.elim
  | complete rules failFast =>
    rw [perform, complete]
    split
    · exact changes_completeAll allowed failFast r _
    · exact .refl

/-- Whatever the operation, it comes down to changes. A class that is inserted may be any. -/
theorem changes_of_perform (op : Operation) : ReflTransGen (Change fun _ _ => True) r (r.perform op) := by
  have completes (allowed : op.Completes fun _ => True) :
      ReflTransGen (Change fun _ _ => True) r (r.perform op) :=
    ReflTransGen.mono (fun _ _ => Change.imp fun _ _ _ => trivial) _ _ (changes_perform allowed)
  cases op with
  | insert c =>
    rw [perform]
    cases step : r.insert c with
    | error e => exact .refl
    | ok r' => exact .single (change_of_insert step trivial)
  | register d => exact completes trivial
  | registerAll declarations => exact completes trivial
  | complete rules failFast => exact completes trivial

theorem changes_of_performAll (history : List Operation) :
    ReflTransGen (Change fun _ _ => True) r (r.performAll history) := by
  induction history generalizing r with
  | nil => exact .refl
  | cons op rest ih => exact (changes_of_perform op).trans ih

theorem changes_performAll {kind : OverrideRules → Prop} {history : List Operation}
    (allowed : ∀ op ∈ history, op.Completes kind) :
    ReflTransGen (Change (Resolvable kind)) r (r.performAll history) := by
  induction history generalizing r with
  | nil => exact .refl
  | cons op rest ih =>
    exact (changes_perform (allowed op List.mem_cons_self)).trans
      (ih fun op member => allowed op (List.mem_cons_of_mem _ member))

theorem changes_of_reached {kind : OverrideRules → Prop} (reached : Reached (·.Completes kind) r) :
    ReflTransGen (Change (Resolvable kind)) ∅ r := by
  obtain ⟨history, allowed, rfl⟩ := reached
  exact changes_performAll allowed

theorem performAll_append (first second : List Operation) :
    r.performAll (first ++ second) = (r.performAll first).performAll second := by
  induction first generalizing r with
  | nil => rfl
  | cons op rest ih => exact ih

theorem Reached.performAll {kind : Operation → Prop} (reached : Reached kind r)
    {later : List Operation} (allowed : ∀ op ∈ later, kind op) :
    Reached kind (r.performAll later) := by
  obtain ⟨history, before, rfl⟩ := reached
  refine ⟨history ++ later, fun op member => ?_, performAll_append ..⟩
  exact (List.mem_append.mp member).elim (before op) (allowed op)

theorem Reached.any {kind : OverrideRules → Prop} (reached : Reached (·.Completes kind) r) :
    Reached (·.Completes fun _ => True) r := by
  obtain ⟨history, allowed, rfl⟩ := reached
  exact ⟨history, fun op member => (allowed op member).any, rfl⟩

end

end Registry

end Inheritance
