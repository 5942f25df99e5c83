import Inheritance.Proofs.Propagation
import Inheritance.Proofs.Restriction

/-! A run right after another one with the same rules. The classes that are left take their turns in the
order in which they took them before and fail in the same way, so nothing more is stored. -/
namespace Inheritance

variable {kind : OverrideRules → Prop} {rules : OverrideRules} {failFast : Bool} {r r' : Registry}
  {h k : Fingerprint} {order : List Fingerprint} {e : CompletionError}

section

variable {taken : List Turn}

theorem stored_failed : (taken.filter Turn.failed).filterMap Turn.stored? = [] := by
  rw [List.filterMap_eq_nil_iff]
  rintro ⟨h, outcome⟩ member
  have failed := (List.mem_filter.mp member).2
  cases outcome with
  | ok c => cases failed
  | error e => rfl

theorem errors_failed : (taken.filter Turn.failed).filterMap Turn.error? = taken.filterMap Turn.error? := by
  rw [List.filterMap_filter]
  refine List.filterMap_congr fun t _ => ?_
  cases found : t.error? <;> simp [Turn.failed, found]

theorem Report.ofTurns_failed :
    ofTurns (taken.filter Turn.failed) = ⟨0, 0, (ofTurns taken).errors⟩ := by
  rw [ofTurns, stored_failed, errors_failed]
  rfl

theorem Registry.after_failed : r.after (taken.filter Turn.failed) = r := by
  simp [after, stored_failed]

end

namespace Registry

theorem Sound.isResolved_of_extends (sound : Sound kind r) (resolved : r.isResolved h = true)
    (listed : r.Extends h k) : r.isResolved k = true := by
  obtain ⟨c, stored⟩ := Option.isSome_iff_exists.mp resolved
  obtain ⟨b, found, -⟩ :=
    (sound.descends c (mem_of_resolved? stored)).exists_of_path stored (.single listed)
  exact Option.isSome_of_eq_some found

theorem completionOrder_of_grows (sound : Sound kind r') (grows : Grows r r')
    (same : r'.declarations = r.declarations) (ok : r.completionOrder = .ok order) :
    r'.completionOrder = .ok (order.filter fun h => !r'.isResolved h) := by
  have pending := grows.pending_eq same
  have found (h : Fingerprint) : r'.get? h = r.get? h := by rw [get?, get?, same]
  have awaited : r'.awaited = fun h => (r.awaited h).map (List.filter fun k => !r'.isResolved k) := by
    funext h
    rw [Registry.awaited, Registry.awaited, Completion.awaited, Completion.awaited, found]
    cases r.get? h with
    | none => rfl
    | some d =>
      simp only [Except.map, List.filter_filter, pending]
      refine congrArg _ (List.filter_congr fun k _ => ?_)
      simp [Bool.and_comm]
  rw [completionOrder_eq, awaited, pending]
  refine Traversal.order_filter (fun h near effective known k member => ?_) ok
  have listed : r'.Extends h k := by
    obtain ⟨d, registered⟩ : ∃ d, r.get? h = some d := by
      cases registered : r.get? h with
      | none => simp [Registry.awaited, Completion.awaited, registered] at known
      | some d => exact ⟨d, rfl⟩
    obtain rfl := Except.ok.inj ((awaited_of_get? registered).symm.trans known)
    exact extends_iff.mpr ⟨d, (found h).trans registered, (List.mem_filter.mp member).1⟩
  simpa using sound.isResolved_of_extends (by simpa using effective) listed

theorem Lasts.completeClass_eq (lasts : Lasts rules r ⟨h, .error e⟩) : r.completeClass rules h = .error e := by
  obtain ⟨d, found, unresolved, outcome⟩ := lasts
  rw [Registry.completeClass_eq found unresolved]
  cases resolved : r.resolve rules d with
  | ok c => simp [resolved, Except.mapError] at outcome
  | error error => simpa [resolved, Except.mapError] using outcome

/-- Turns that last are taken again where they failed, and only there. -/
theorem turns_again (lasts : ∀ t ∈ turns rules failFast r order, Lasts rules r' t) :
    turns rules failFast r' (order.filter fun h => !r'.isResolved h) =
      (turns rules failFast r order).filter Turn.failed := by
  induction order generalizing r with
  | nil => rfl
  | cons h rest ih =>
    rw [turns] at lasts ⊢
    cases step : r.completeClass rules h with
    | ok done =>
      obtain ⟨c, r''⟩ := done
      simp only [step] at lasts ⊢
      obtain ⟨first, later⟩ := List.forall_mem_cons.mp lasts
      have effective : r'.isResolved h = true := by simpa using first.failed_eq
      rw [List.filter_cons_of_neg (by simp [effective]), List.filter_cons_of_neg (by simp)]
      exact ih later
    | error e =>
      simp only [step] at lasts ⊢
      obtain ⟨first, later⟩ := List.forall_mem_cons.mp lasts
      have unresolved : r'.isResolved h = false := by simpa using first.failed_eq
      rw [List.filter_cons_of_pos (by simp [unresolved]), List.filter_cons_of_pos (by simp), turns,
        first.completeClass_eq]
      cases failFast with
      | true => rfl
      | false => exact congrArg _ (ih later)

/-- The second of two runs changes nothing and reports the same errors in the same order. -/
theorem complete_again (rules : OverrideRules) (failFast : Bool) (reached : Reached (·.Completes kind) r) :
    let run := r.complete rules failFast
    run.2.complete rules failFast = (⟨0, 0, run.1.errors⟩, run.2) := by
  cases found : r.completionOrder with
  | error e =>
    obtain ⟨_, d, -, -, stopped⟩ := complete_of_cycle rules failFast found
    simp only [stopped]
  | ok order =>
    have sound : Sound (fun _ => True) (r.complete rules failFast).2 := sound_complete reached rules failFast
    have lasts : ∀ t ∈ turns rules failFast r order, Lasts rules (r.after (turns rules failFast r order)) t :=
      lasts_of_completionOrder reached.nodup found
    simp only [complete_eq_turns found] at sound ⊢
    have left := completionOrder_of_grows sound (grows_after _) rfl found
    rw [complete_eq_turns left, turns_again lasts, Report.ofTurns_failed, after_failed]

theorem complete_again_feuding :
    let run := feuding.complete .bySignature false
    run.1.completed = 1 ∧ run.1.errors.length = 3 ∧ run.2 ≠ feuding ∧
      run.2.complete .bySignature false = (⟨0, 0, run.1.errors⟩, run.2) := by
  have reached : Reached (·.Completes (· = .bySignature)) feuding :=
    ⟨_, by simp [Operation.Completes], rfl⟩
  exact ⟨by decide +kernel, by decide +kernel, by decide +kernel, complete_again .bySignature false reached⟩

end Registry

end Inheritance
