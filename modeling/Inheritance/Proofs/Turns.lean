import Inheritance.Proofs.Cycles
import Mathlib.Algebra.GroupWithZero.Nat

/-! A run class by class. Each class has its turn, and what comes of it then is what comes of it at the
end of the run too: no class that it inherits from is stored after it. The report of the run and the
registry that it leaves can be read off the turns. -/
namespace Inheritance

/-- What came of a class when a run took it. -/
structure Turn where
  fingerprint : Fingerprint
  outcome : Except CompletionError EffectiveClass

namespace Turn

def stored? (t : Turn) : Option EffectiveClass := t.outcome.toOption

def error? (t : Turn) : Option CompletionError :=
  match t.outcome with
  | .ok _ => none
  | .error e => some e

def failed (t : Turn) : Bool := t.error?.isSome

variable {h : Fingerprint} {c : EffectiveClass} {e : CompletionError} {t : Turn}

@[simp] theorem failed_ok : failed ⟨h, .ok c⟩ = false := rfl

@[simp] theorem failed_error : failed ⟨h, .error e⟩ = true := rfl

theorem error?_of_fine (fine : t.failed = false) : t.error? = none := by simpa [failed] using fine

theorem exists_error?_of_failed (failed : t.failed = true) : ∃ e, t.error? = some e :=
  Option.isSome_iff_exists.mp failed

end Turn

/-- The report of a run that came to these turns. -/
def Report.ofTurns (turns : List Turn) : Report where
  completed := (turns.filterMap Turn.stored?).length
  synthesized := ((turns.filterMap Turn.stored?).map (·.scope.fakes.length)).sum
  errors := turns.filterMap Turn.error?

variable {rules : OverrideRules} {failFast : Bool} {r r' : Registry} {h k : Fingerprint}
  {d : Declaration} {c : EffectiveClass} {e : CompletionError} {order : List Fingerprint} {t : Turn}
  {rest : List Turn}

@[simp] theorem Report.ofTurns_nil : ofTurns [] = .empty := rfl

@[simp] theorem Report.ofTurns_ok :
    ofTurns (⟨h, .ok c⟩ :: rest) = (ofTurns rest).consClass c.scope.fakes.length := by
  simp [ofTurns, consClass, List.filterMap_cons, Turn.stored?, Turn.error?, Except.toOption, Nat.add_comm]

@[simp] theorem Report.ofTurns_error : ofTurns (⟨h, .error e⟩ :: rest) = (ofTurns rest).consError e := by
  simp [ofTurns, consError, List.filterMap_cons, Turn.stored?, Turn.error?, Except.toOption]

namespace Registry

/-- The registry with one effective class more. -/
def store (r : Registry) (c : EffectiveClass) : Registry := { r with effective := r.effective ++ [c] }

theorem resolved?_store_self (pending : r.resolved? c.fingerprint = none) :
    (r.store c).resolved? c.fingerprint = some c := by
  have absent : r.effective.find? (fun b => decide (b.fingerprint = c.fingerprint)) = none := pending
  simp [resolved?, store, List.find?_append, absent]

theorem resolved?_store_of_ne (other : k ≠ c.fingerprint) : (r.store c).resolved? k = r.resolved? k := by
  simp [resolved?, store, List.find?_append, other.symm]

theorem resolve_congr (same : ∀ k ∈ d.supertypeFingerprints, r.resolved? k = r'.resolved? k) :
    r.resolve rules d = r'.resolve rules d := by
  have supertypes : r.supertypesOf d = r'.supertypesOf d := by
    unfold supertypesOf Completion.supertypes
    refine mapM_congr fun name listed => ?_
    rw [same _ (List.mem_map_of_mem listed)]
  rw [resolve_eq, supertypes, resolve_eq]

/-- A registered class that is not effective yet is stored if it resolves. No other error can occur. -/
theorem completeClass_eq (found : r.get? h = some d) (pending : r.resolved? h = none) :
    r.completeClass rules h =
      match r.resolve rules d with
      | .ok c => .ok (c, r.store c)
      | .error e => .error (.resolution e) := by
  unfold completeClass
  simp only [found]
  cases resolved : r.resolve rules d with
  | error e => rfl
  | ok c =>
    have same : c.fingerprint = h := (fingerprint_of_resolve resolved).trans (fingerprint_of_get? found)
    have stored : r.insert c = .ok (r.store c) := by
      refine insert_eq_ok_iff.mpr ⟨?_, ?_, rfl⟩
      · rw [same, ← contains_iff, contains, found]
        rfl
      · simp [same, isResolved, pending]
    simp [stored, bind, Except.bind, pure, Except.pure, Except.mapError]

theorem store_of_completeClass (ok : r.completeClass rules h = .ok (c, r')) :
    c.fingerprint = h ∧ r' = r.store c := by
  obtain ⟨d, found, resolved, stored⟩ := completeClass_eq_ok_iff.mp ok
  obtain ⟨-, -, rfl⟩ := insert_eq_ok_iff.mp stored
  exact ⟨(fingerprint_of_resolve resolved).trans (fingerprint_of_get? found), rfl⟩

/-- The turns of a run over these classes. One that fails fast has no turn after its first error. -/
def turns (rules : OverrideRules) (failFast : Bool) (r : Registry) : List Fingerprint → List Turn
  | [] => []
  | h :: rest =>
    match r.completeClass rules h with
    | .ok (c, r) => ⟨h, .ok c⟩ :: turns rules failFast r rest
    | .error e => ⟨h, .error e⟩ :: if failFast then [] else turns rules failFast r rest

/-- The registry with the classes that were stored at these turns. -/
def after (r : Registry) (turns : List Turn) : Registry :=
  { r with effective := r.effective ++ turns.filterMap Turn.stored? }

@[simp] theorem after_nil : r.after [] = r := by simp [after]

@[simp] theorem after_ok : r.after (⟨h, .ok c⟩ :: rest) = (r.store c).after rest := by
  simp [after, store, Turn.stored?, Except.toOption]

@[simp] theorem after_error : r.after (⟨h, .error e⟩ :: rest) = r.after rest := by
  simp [after, List.filterMap_cons, Turn.stored?, Except.toOption]

theorem grows_after (turns : List Turn) : Grows r (r.after turns) :=
  ⟨List.prefix_rfl, List.prefix_append _ _⟩

theorem completeAll_eq : completeAll rules failFast r order =
    (.ofTurns (turns rules failFast r order), r.after (turns rules failFast r order)) := by
  induction order generalizing r with
  | nil => simp [completeAll, turns]
  | cons h rest ih =>
    rw [completeAll, turns]
    cases step : r.completeClass rules h with
    | ok done =>
      obtain ⟨-, stored⟩ := store_of_completeClass step
      simp [ih, stored]
    | error e => cases failFast <;> simp [ih]

theorem complete_eq_turns (ok : r.completionOrder = .ok order) : r.complete rules failFast =
    (.ofTurns (turns rules failFast r order), r.after (turns rules failFast r order)) := by
  rw [complete_of_order ok, completeAll_eq]

theorem declarations_completeAll : (completeAll rules failFast r order).2.declarations = r.declarations := by
  rw [completeAll_eq]
  rfl

theorem map_fingerprint_turns : (turns rules false r order).map Turn.fingerprint = order := by
  induction order generalizing r with
  | nil => rfl
  | cons h rest ih =>
    rw [turns]
    split <;> simp [ih]

theorem exists_turn (here : h ∈ order) : ∃ t ∈ turns rules false r order, t.fingerprint = h := by
  have all : (turns rules false r order).map Turn.fingerprint = order := map_fingerprint_turns
  exact List.mem_map.mp (all.symm ▸ here)

theorem resolved?_completeAll_of_notMem (outside : k ∉ order) :
    (completeAll rules failFast r order).2.resolved? k = r.resolved? k := by
  induction order generalizing r with
  | nil => rfl
  | cons h rest ih =>
    obtain ⟨other, outside⟩ := not_or.mp (mt List.mem_cons.mpr outside)
    rw [completeAll]
    cases step : r.completeClass rules h with
    | ok done =>
      obtain ⟨same, stored⟩ := store_of_completeClass step
      have frame : (r.store done.1).resolved? k = r.resolved? k := resolved?_store_of_ne (same ▸ other)
      simp only [Prod.map_snd, id, stored, ih outside, frame]
    | error e =>
      cases failFast with
      | true => rfl
      | false => exact ih outside

/-- The class is as the turn left it, and it would come to the same again. -/
def Lasts (rules : OverrideRules) (r : Registry) (t : Turn) : Prop :=
  ∃ d, r.get? t.fingerprint = some d ∧ r.resolved? t.fingerprint = t.stored? ∧
    (r.resolve rules d).mapError .resolution = t.outcome

theorem Lasts.failed_eq (lasts : Lasts rules r t) : t.failed = !r.isResolved t.fingerprint := by
  obtain ⟨_, _, stands, _⟩ := lasts
  rw [isResolved, stands, Turn.failed, Turn.error?, Turn.stored?]
  cases t.outcome <;> rfl

theorem lasts_of_frame (found : r.get? h = some d) (declarations : r'.declarations = r.declarations)
    (frame : ∀ k ∈ d.supertypeFingerprints, r'.resolved? k = r.resolved? k)
    (stands : r'.resolved? h = (r.resolve rules d).toOption) :
    Lasts rules r' ⟨h, (r.resolve rules d).mapError .resolution⟩ := by
  refine ⟨d, ?_, ?_, ?_⟩
  · rwa [get?, declarations]
  · rw [stands, Turn.stored?]
    cases r.resolve rules d <;> rfl
  · rw [resolve_congr frame]

/-- What came of a class lasts through the turns after it: they store neither the class nor any of its
supertypes. -/
theorem lasts_of_first (found : r.get? h = some d) (new : h ∉ order)
    (above : ∀ k ∈ d.supertypeFingerprints, k ≠ h ∧ k ∉ order) (declarations : r'.declarations = r.declarations)
    (frame : ∀ k, k ≠ h → r'.resolved? k = r.resolved? k)
    (stands : r'.resolved? h = (r.resolve rules d).toOption) :
    Lasts rules (completeAll rules failFast r' order).2 ⟨h, (r.resolve rules d).mapError .resolution⟩ := by
  refine lasts_of_frame found ?_ (fun k listed => ?_) ?_
  · rw [declarations_completeAll, declarations]
  · rw [resolved?_completeAll_of_notMem (above k listed).2, frame k (above k listed).1]
  · rw [resolved?_completeAll_of_notMem new, stands]

theorem lasts_of_completeAll
    (pending : ∀ h ∈ order, r.contains h = true ∧ r.resolved? h = none ∧ ¬ r.Extends h h)
    (sorted : order.Pairwise fun h k => h ≠ k ∧ ¬ r.Extends h k) :
    ∀ t ∈ turns rules failFast r order, Lasts rules (completeAll rules failFast r order).2 t := by
  induction order generalizing r with
  | nil => simp [turns]
  | cons h rest ih =>
    obtain ⟨⟨registered, unresolved, irreflexive⟩, others⟩ := List.forall_mem_cons.mp pending
    obtain ⟨first, apart⟩ := List.pairwise_cons.mp sorted
    obtain ⟨d, found⟩ := Option.isSome_iff_exists.mp registered
    have new : h ∉ rest := fun again => (first h again).1 rfl
    have above (k : Fingerprint) (listed : k ∈ d.supertypeFingerprints) : k ≠ h ∧ k ∉ rest := by
      have listed : r.Extends h k := extends_iff.mpr ⟨d, found, listed⟩
      refine ⟨?_, fun later => (first k later).2 listed⟩
      rintro rfl
      exact irreflexive listed
    rw [completeAll, turns, completeClass_eq found unresolved]
    cases resolved : r.resolve rules d with
    | ok c =>
      have same : c.fingerprint = h := (fingerprint_of_resolve resolved).trans (fingerprint_of_get? found)
      subst same
      have still : ∀ k ∈ rest, (r.store c).contains k = true ∧ (r.store c).resolved? k = none ∧
          ¬ (r.store c).Extends k k := by
        intro k later
        rw [resolved?_store_of_ne (first k later).1.symm]
        exact others k later
      have stands : (r.store c).resolved? c.fingerprint = (r.resolve rules d).toOption := by
        rw [resolved?_store_self unresolved, resolved]
        rfl
      have first : Lasts rules (completeAll rules failFast (r.store c) rest).2 _ :=
        lasts_of_first found new above rfl (fun _ => resolved?_store_of_ne) stands
      rw [resolved] at first
      exact List.forall_mem_cons.mpr ⟨first, ih still apart⟩
    | error e =>
      have stands : r.resolved? h = (r.resolve rules d).toOption := by
        rw [unresolved, resolved]
        rfl
      cases failFast with
      | false =>
        have first : Lasts rules (completeAll rules false r rest).2 _ :=
          lasts_of_first found new above rfl (fun _ _ => rfl) stands
        rw [resolved] at first
        exact List.forall_mem_cons.mpr ⟨first, ih others apart⟩
      | true =>
        have last : Lasts rules r _ := lasts_of_frame found rfl (fun _ _ => rfl) stands
        rw [resolved] at last
        exact List.forall_mem_singleton.mpr last

theorem lasts_of_completionOrder (distinct : r.fingerprints.Nodup) (ok : r.completionOrder = .ok order) :
    ∀ t ∈ turns rules failFast r order, Lasts rules (r.after (turns rules failFast r order)) t := by
  obtain ⟨perm, sorted, irreflexive⟩ := sorted_of_completionOrder distinct ok
  have pending : ∀ h ∈ order, r.contains h = true ∧ r.resolved? h = none ∧ ¬ r.Extends h h := by
    intro h here
    obtain ⟨registered, unresolved⟩ := mem_pending.mp (perm.subset here)
    exact ⟨registered, unresolved, irreflexive h here⟩
  simpa only [completeAll_eq] using lasts_of_completeAll pending sorted

end Registry

end Inheritance
