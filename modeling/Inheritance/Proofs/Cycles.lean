import Inheritance.Proofs.Currency
import Inheritance.Proofs.Ordering

/-! Cycles among the classes that are not effective yet. A run stops at one before anything is stored,
and without one it has an order to go by. This holds whatever was stored before, also by direct
insertion. -/
namespace Inheritance

open Relation (TransGen ReflTransGen)

/-- The run met a cycle of supertypes. -/
def Report.Circular (report : Report) : Prop := ∃ name, .circularInheritance name ∈ report.errors

namespace Registry

variable {kind : Operation → Prop} {rules : OverrideRules} {failFast : Bool} {r r' : Registry}
  {h k : Fingerprint} {d : Declaration} {e : CompletionError} {order : List Fingerprint}

theorem mem_pending : h ∈ r.pending ↔ r.contains h = true ∧ r.resolved? h = none := by
  rw [pending, List.mem_filter, contains_iff, isResolved]
  simp

theorem Grows.pending_eq (grows : Grows r r') (same : r'.declarations = r.declarations) :
    r'.pending = r.pending.filter fun h => !r'.isResolved h := by
  rw [pending, pending, List.filter_filter, fingerprints, same, ← fingerprints]
  refine List.filter_congr fun h _ => ?_
  cases resolved : r.isResolved h with
  | false => simp
  | true => simp [grows.isResolved resolved]

/-- A class that is not effective yet lists another such class. -/
def Awaits (r : Registry) (h k : Fingerprint) : Prop := h ∈ r.pending ∧ k ∈ r.pending ∧ r.Extends h k

/-- The supertypes that a class awaits if it is not effective yet. -/
def awaited (r : Registry) (h : Fingerprint) : Except CompletionError (List Fingerprint) :=
  Completion.awaited r.get? r.pending h

theorem completionOrder_eq :
    r.completionOrder = Traversal.order r.awaited (Completion.circular r.get?) r.pending := rfl

theorem awaited_of_get? (found : r.get? h = some d) :
    r.awaited h = .ok (d.supertypeFingerprints.filter (· ∈ r.pending)) := by
  simp [awaited, Completion.awaited, found]

theorem exists_get?_of_pending (pending : h ∈ r.pending) : ∃ d, r.get? h = some d :=
  Option.isSome_iff_exists.mp (mem_pending.mp pending).1

theorem needs_awaited_iff (pending : h ∈ r.pending) : Traversal.Needs r.awaited h k ↔ r.Awaits h k := by
  obtain ⟨d, found⟩ := exists_get?_of_pending pending
  rw [Traversal.needs_iff (awaited_of_get? found)]
  simp [Awaits, Extends, parents_of_get? found, pending, and_comm]

theorem path_awaited_iff (pending : h ∈ r.pending) :
    TransGen (Traversal.Needs r.awaited) h k ↔ TransGen r.Awaits h k := by
  constructor
  · intro path
    induction path with
    | single edge => exact .single ((needs_awaited_iff pending).mp edge)
    | tail _ edge ih =>
      -- The path so far ends in a pending class, so the next edge starts from one.
      obtain ⟨_, _, last⟩ := TransGen.tail'_iff.mp ih
      exact ih.tail ((needs_awaited_iff last.2.1).mp edge)
  · exact TransGen.mono (fun _ _ awaits => (needs_awaited_iff awaits.1).mpr awaits) _ _

theorem pending_of_cycle (cycle : TransGen r.Awaits h h) : h ∈ r.pending := by
  obtain ⟨_, first, -⟩ := TransGen.head'_iff.mp cycle
  exact first.1

/-- All pending classes are registered, so nothing but a cycle can stop the walk. -/
theorem cycle_of_completionOrder (failed : r.completionOrder = .error e) :
    ∃ h d, TransGen r.Awaits h h ∧ r.get? h = some d ∧ e = .circularInheritance d.name := by
  have inside : ∀ h ∈ r.pending, ∃ near, r.awaited h = .ok near ∧ near ⊆ r.pending := by
    intro h pending
    obtain ⟨d, found⟩ := exists_get?_of_pending pending
    refine ⟨_, awaited_of_get? found, fun k listed => ?_⟩
    exact of_decide_eq_true (List.mem_filter.mp listed).2
  obtain ⟨h, pending, met, cycle⟩ := Traversal.cycle_of_order inside failed
  obtain ⟨d, found⟩ := exists_get?_of_pending pending
  refine ⟨h, d, (path_awaited_iff pending).mp cycle, found, ?_⟩
  rw [met, Completion.circular, found]
  rfl

theorem completionOrder_ne_unknown {name : String} : r.completionOrder ≠ .error (.unknownType name) := by
  intro failed
  obtain ⟨_, _, -, -, circular⟩ := cycle_of_completionOrder failed
  cases circular

theorem topological_of_completionOrder (distinct : r.fingerprints.Nodup)
    (ok : r.completionOrder = .ok order) :
    Traversal.Topological r.awaited order ∧ order.Perm r.pending :=
  Traversal.topological_of_order (distinct.sublist List.filter_sublist) ok

theorem not_cycle_of_completionOrder (distinct : r.fingerprints.Nodup)
    (ok : r.completionOrder = .ok order) : ¬ TransGen r.Awaits h h := by
  obtain ⟨sorted, perm⟩ := topological_of_completionOrder distinct ok
  intro cycle
  have pending := pending_of_cycle cycle
  exact sorted.acyclic (perm.mem_iff.mpr pending) ((path_awaited_iff pending).mpr cycle)

/-- Each class that is not effective yet stands in the order once, behind the classes that it awaits. -/
structure Sorts (r : Registry) (order : List Fingerprint) : Prop where
  distinct : order.Nodup
  mem_iff : ∀ h, h ∈ order ↔ r.contains h = true ∧ r.isResolved h = false
  behind : ∀ before h after, order = before ++ h :: after → ∀ k, r.Awaits h k → k ∈ before

theorem sorts_of_completionOrder (distinct : r.fingerprints.Nodup) (ok : r.completionOrder = .ok order) :
    r.Sorts order := by
  obtain ⟨sorted, perm⟩ := topological_of_completionOrder distinct ok
  refine ⟨sorted.nodup, fun h => ?_, fun before h after split k awaits => ?_⟩
  · rw [perm.mem_iff, mem_pending, isResolved]
    simp
  · exact sorted.mem_before split ((needs_awaited_iff awaits.1).mpr awaits)

theorem sorted_of_completionOrder (distinct : r.fingerprints.Nodup) (ok : r.completionOrder = .ok order) :
    order.Perm r.pending ∧ order.Pairwise (fun h k => h ≠ k ∧ ¬ r.Extends h k) ∧
      ∀ h ∈ order, ¬ r.Extends h h := by
  obtain ⟨sorted, perm⟩ := topological_of_completionOrder distinct ok
  have edge {h k : Fingerprint} (listed : r.Extends h k) (member : k ∈ order) :
      Traversal.Needs r.awaited h k := by
    obtain ⟨d, found, within⟩ := extends_iff.mp listed
    rw [Traversal.needs_iff (awaited_of_get? found)]
    exact List.mem_filter.mpr ⟨within, decide_eq_true (perm.subset member)⟩
  refine ⟨perm, sorted.pairwise.imp_of_mem fun _ there apart => ?_, fun h here listed => ?_⟩
  · exact ⟨apart.1, fun listed => apart.2 (edge listed there)⟩
  · exact sorted.acyclic here (.single (edge listed here))

/-- A class may fail in other ways when its turn comes, but a cycle is none of them. -/
theorem completeClass_ne_circular {name : String} :
    r.completeClass rules h ≠ .error (.circularInheritance name) := by
  unfold completeClass
  cases r.get? h with
  | none => simp [throw, throwThe, MonadExceptOf.throw]
  | some d => simp [bind_eq_error_iff, mapError_eq_error_iff, pure, Except.pure]

theorem not_circular_completeAll : ¬ (completeAll rules failFast r order).1.Circular := by
  induction order generalizing r with
  | nil => simp [Report.Circular, completeAll, Report.empty]
  | cons h rest ih =>
    rintro ⟨name, reported⟩
    cases step : r.completeClass rules h with
    | ok done =>
      rw [completeAll, step] at reported
      exact ih ⟨name, reported⟩
    | error e =>
      have other : .circularInheritance name ≠ e := fun same => completeClass_ne_circular (same ▸ step)
      cases failFast with
      | true => simp [completeAll, step, Report.consError, Report.empty, other] at reported
      | false =>
        rw [completeAll, step] at reported
        exact ih ⟨name, (List.mem_cons.mp reported).resolve_left other⟩

theorem complete_of_order (ok : r.completionOrder = .ok order) :
    r.complete rules failFast = completeAll rules failFast r order := by
  rw [complete, ok]

theorem complete_of_cycle (rules : OverrideRules) (failFast : Bool) (failed : r.completionOrder = .error e) :
    ∃ h d, TransGen r.Awaits h h ∧ r.get? h = some d ∧
      r.complete rules failFast = (⟨0, 0, [.circularInheritance d.name]⟩, r) := by
  obtain ⟨h, d, cycle, found, rfl⟩ := cycle_of_completionOrder failed
  refine ⟨h, d, cycle, found, ?_⟩
  rw [complete, failed]
  rfl

/-- A run ends with a class on a cycle, and with nothing else, just if there is a cycle. Otherwise it
takes the classes in a proper order. -/
theorem circular_iff_cycle (rules : OverrideRules) (failFast : Bool) (reached : Reached kind r) :
    let run := r.complete rules failFast
    (run.1.Circular ↔ ∃ h, TransGen r.Awaits h h) ∧
      (run.1.Circular → ∃ h d, TransGen r.Awaits h h ∧ r.get? h = some d ∧
        run = (⟨0, 0, [.circularInheritance d.name]⟩, r)) ∧
          ((∀ h, ¬ TransGen r.Awaits h h) → ∃ order, r.completionOrder = .ok order ∧ r.Sorts order) := by
  intro run
  cases found : r.completionOrder with
  | ok order =>
    have acyclic (h : Fingerprint) : ¬ TransGen r.Awaits h h :=
      not_cycle_of_completionOrder reached.nodup found
    have fine : ¬ run.1.Circular := by
      rw [show run = _ from complete_of_order found]
      exact not_circular_completeAll
    refine ⟨iff_of_false fine ?_, fun circular => absurd circular fine, fun _ => ?_⟩
    · rintro ⟨h, cycle⟩
      exact acyclic h cycle
    · exact ⟨order, rfl, sorts_of_completionOrder reached.nodup found⟩
  | error e =>
    obtain ⟨h, d, cycle, registered, stopped⟩ := complete_of_cycle rules failFast found
    have circular : run.1.Circular := by
      rw [show run = _ from stopped]
      exact ⟨d.name, List.mem_singleton_self _⟩
    refine ⟨iff_of_true circular ⟨h, cycle⟩, fun _ => ?_, fun acyclic => absurd cycle (acyclic h)⟩
    exact ⟨h, d, cycle, registered, stopped⟩

/-- Two classes list each other, until the second is inserted. A third one goes by the identity that it
lists. -/
def tangle : List Operation :=
  [.registerAll [.named .ordinary "Cat" ["Dog"] [], .named .ordinary "Dog" ["Cat"] []],
    .complete .bySignature true,
    .insert (.ofDeclaration (.named .ordinary "Dog" ["Cat"] []) []),
    .register ⟨"Mirror", .ofName "Image", .ordinary, ["Image"], []⟩]

theorem circular_iff_cycle_tangle :
    let r := performAll ∅ tangle
    let run := r.complete .bySignature false
    r.pending = [.ofName "Cat", .ofName "Image"] ∧ run.1.errors = [.circularInheritance "Mirror"] ∧
      (∃ h, TransGen r.Awaits h h) ∧ run.2 = r := by
  intro r run
  have reached : Reached (fun _ => True) r := ⟨tangle, fun _ _ => trivial, rfl⟩
  have errors : run.1.errors = [.circularInheritance "Mirror"] := by decide +kernel
  have circular : run.1.Circular := ⟨"Mirror", by simp [errors]⟩
  obtain ⟨iff_cycle, stopped, -⟩ := circular_iff_cycle .bySignature false reached
  obtain ⟨h, d, cycle, -, stops⟩ := stopped circular
  exact ⟨by decide +kernel, errors, ⟨h, cycle⟩, congrArg Prod.snd stops⟩

end Registry

end Inheritance
