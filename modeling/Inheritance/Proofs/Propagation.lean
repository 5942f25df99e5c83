import Inheritance.Proofs.Settlement

/-! How failure spreads in a run that does not fail fast. A class stays behind just if something above it
is missing or in conflict, it is reported once, and the counts of the run add up. -/
namespace Inheritance

open Relation (TransGen ReflTransGen)

variable {kind : OverrideRules → Prop} {rules : OverrideRules} {failFast : Bool} {r r' : Registry}
  {d : Declaration} {c : EffectiveClass} {h k : Fingerprint} {order : List Fingerprint}
  {inherited : List Member} {e : ResolutionError}

theorem OverrideRules.conflict_of_fakesFrom (failed : rules.fakesFrom d inherited = .error e) :
    ∃ name a b, e = .conflict d.name name a b := by
  rcases bind_eq_error_iff.mp failed with stopped | ⟨_, -, impossible⟩
  · obtain ⟨_, group, _, -, -, clash⟩ := exists_of_mapM_eq_error stopped
    obtain ⟨c, -, rfl⟩ := mapError_eq_error_iff.mp clash
    exact ⟨group.name, c.first, c.second, rfl⟩
  · simp [pure, Except.pure] at impossible

/-- The class that was taken is in conflict. -/
def Turn.Conflicts (t : Turn) : Prop := ∃ e, t.error? = some (.resolution e) ∧ e.isConflict = true

theorem Report.length_ofTurns (turns : List Turn) :
    (ofTurns turns).completed + (ofTurns turns).errors.length = turns.length := by
  induction turns with
  | nil => rfl
  | cons t rest ih =>
    obtain ⟨h, outcome⟩ := t
    cases outcome <;> simp [consClass, consError] <;> omega

namespace Registry

/-- Why a class with this declaration is not effective. Of the supertypes that are not effective, the
first that is listed is to blame. -/
inductive Explains (r : Registry) (d : Declaration) : CompletionError → Prop where
  | conflict {name : String} {a b : Member} (inherits : ∀ s ∈ d.supertypes, r.isResolved (.ofName s) = true) :
      Explains r d (.resolution (.conflict d.name name a b))
  | unresolved {before after : List String} {s : String} (listed : d.supertypes = before ++ s :: after)
      (earlier : ∀ s ∈ before, r.isResolved (.ofName s) = true) (missing : r.isResolved (.ofName s) = false) :
      Explains r d (.resolution (.unresolvedSupertype d.name s))

theorem isResolved_of_resolvedByName? {name : String} (found : r.resolvedByName? name = some c) :
    r.isResolved (.ofName name) = true :=
  Option.isSome_of_eq_some found

theorem explains_of_supertypesOf (failed : r.supertypesOf d = .error e) : r.Explains d (.resolution e) := by
  obtain ⟨before, s, after, listed, earlier, last⟩ := exists_of_mapM_eq_error failed
  rw [← resolvedByName?] at last
  cases found : r.resolvedByName? s with
  | some c => simp [found] at last
  | none =>
    obtain rfl : .unresolvedSupertype d.name s = e := by simpa [found] using last
    have missing : r.isResolved (.ofName s) = false := by
      rw [isResolved, ← resolvedByName?, found]
      rfl
    refine .unresolved listed (fun s member => ?_) missing
    obtain ⟨c, fine⟩ := earlier s member
    rw [← resolvedByName?] at fine
    cases there : r.resolvedByName? s with
    | some c => exact isResolved_of_resolvedByName? there
    | none => simp [there] at fine

theorem explains_of_resolve (failed : r.resolve rules d = .error e) : r.Explains d (.resolution e) := by
  rcases bind_eq_error_iff.mp failed with missing | ⟨supertypes, found, failed⟩
  · exact explains_of_supertypesOf missing
  · rcases bind_eq_error_iff.mp failed with clash | ⟨_, -, impossible⟩
    · obtain ⟨name, a, b, rfl⟩ := OverrideRules.conflict_of_fakesFrom clash
      refine .conflict fun s listed => ?_
      obtain ⟨c, -, there⟩ := exists_right (supertypesOf_eq_ok_iff.mp found) listed
      exact isResolved_of_resolvedByName? there
    · simp [pure, Except.pure] at impossible

theorem Lasts.exists_explains {t : Turn} {e : CompletionError} (lasts : Lasts rules r t)
    (failed : t.error? = some e) : ∃ d, r.get? t.fingerprint = some d ∧ r.Explains d e := by
  obtain ⟨d, found, -, outcome⟩ := lasts
  rw [Turn.error?, ← outcome] at failed
  cases resolved : r.resolve rules d with
  | ok c => simp [resolved, Except.mapError] at failed
  | error error =>
    obtain rfl : .resolution error = e := by simpa [resolved, Except.mapError] using failed
    exact ⟨d, found, explains_of_resolve resolved⟩

/-- The class is missing or in conflict, so nothing below it can become effective. -/
def Obstructs (r : Registry) (turns : List Turn) (k : Fingerprint) : Prop :=
  r.contains k = false ∨ ∃ t ∈ turns, t.fingerprint = k ∧ t.Conflicts

/-- What a collecting run makes of the classes that are not effective yet. -/
structure Propagates (r : Registry) (turns : List Turn) (run : Report × Registry) : Prop where
  resolved : ∀ h ∈ r.pending,
    run.2.isResolved h = true ↔ ∀ k, ReflTransGen r.Extends h k → ¬ r.Obstructs turns k
  errors : run.1.errors = turns.filterMap Turn.error?
  once : ((turns.filter Turn.failed).map Turn.fingerprint).Perm run.2.pending
  explained : ∀ t ∈ turns, ∀ e, t.error? = some e → ∃ d, r.get? t.fingerprint = some d ∧ run.2.Explains d e
  only : ∀ e ∈ run.1.errors, ∃ error, e = .resolution error
  pending : run.1.completed + run.1.errors.length = r.pending.length
  counted : run.2.resolvedCount = r.resolvedCount + run.1.completed
  synthesized : ∃ stored, run.2.effective = r.effective ++ stored ∧
    run.1.synthesized = (stored.map (·.scope.fakes.length)).sum

/-- A class that was left behind has something above it that obstructs it. -/
theorem exists_obstructs (distinct : r.fingerprints.Nodup) (ok : r.completionOrder = .ok order) :
    ∀ h ∈ order, (r.after (turns rules false r order)).isResolved h = false →
      ∃ k, ReflTransGen r.Extends h k ∧ r.Obstructs (turns rules false r order) k := by
  obtain ⟨sorted, perm⟩ := topological_of_completionOrder distinct ok
  refine sorted.forall_mem fun h here above unresolved => ?_
  obtain ⟨t, taken, rfl⟩ : ∃ t ∈ turns rules false r order, t.fingerprint = h := exists_turn here
  have lasts := lasts_of_completionOrder distinct ok t taken
  have failed : t.failed = true := by simp [lasts.failed_eq, unresolved]
  obtain ⟨e, failed⟩ := Turn.exists_error?_of_failed failed
  obtain ⟨d, found, explains⟩ := lasts.exists_explains failed
  cases explains with
  | conflict => exact ⟨_, .refl, .inr ⟨t, taken, rfl, _, failed, rfl⟩⟩
  | @unresolved before after s listed _ missing =>
    have found : r.get? t.fingerprint = some d := found
    have edge : r.Extends t.fingerprint (.ofName s) :=
      extends_iff.mpr ⟨d, found, List.mem_map_of_mem (by simp [listed])⟩
    cases registered : r.contains (.ofName s) with
    | false => exact ⟨_, .single edge, .inl registered⟩
    | true =>
      have pending : .ofName s ∈ r.pending := by
        refine List.mem_filter.mpr ⟨contains_iff.mp registered, ?_⟩
        cases before : r.isResolved (.ofName s) with
        | false => rfl
        | true => simp [(grows_after _).isResolved before] at missing
      have awaits : r.Awaits t.fingerprint (.ofName s) := ⟨perm.subset here, pending, edge⟩
      obtain ⟨k, path, obstructs⟩ := above _ ((needs_awaited_iff (perm.subset here)).mpr awaits) missing
      exact ⟨k, .head edge path, obstructs⟩

theorem not_obstructs (sound : Sound kind r') (declarations : r'.declarations = r.declarations)
    {turns : List Turn} (lasts : ∀ t ∈ turns, Lasts rules r' t) (resolved : r'.isResolved h = true)
    (path : ReflTransGen r.Extends h k) : ¬ r.Obstructs turns k := by
  obtain ⟨c, stored⟩ := Option.isSome_iff_exists.mp resolved
  rw [← extends_of_declarations declarations] at path
  have descends := sound.descends c (mem_of_resolved? stored)
  obtain ⟨b, found, below⟩ := descends.exists_of_path stored path
  rintro (missing | ⟨t, taken, rfl, e, failed, -⟩)
  · have registered := below.contains
    rw [fingerprint_of_resolved? found, contains_of_declarations declarations, missing] at registered
    cases registered
  · have unresolved := (lasts t taken).failed_eq
    simp [Turn.failed, failed, isResolved, found] at unresolved

theorem perm_failed (distinct : r.fingerprints.Nodup) (ok : r.completionOrder = .ok order) :
    (((turns rules false r order).filter Turn.failed).map Turn.fingerprint).Perm
      (r.after (turns rules false r order)).pending := by
  let final := r.after (turns rules false r order)
  have lasts : ∀ t ∈ turns rules false r order, Lasts rules final t := lasts_of_completionOrder distinct ok
  have kept : (turns rules false r order).filter Turn.failed =
      (turns rules false r order).filter ((fun h => !final.isResolved h) ∘ Turn.fingerprint) :=
    List.filter_congr fun t taken => (lasts t taken).failed_eq
  rw [kept, ← List.filter_map, map_fingerprint_turns, (grows_after _).pending_eq rfl]
  exact (topological_of_completionOrder distinct ok).2.filter _

/-- A collecting run that meets no cycle completes the classes that nothing obstructs, and reports each
of the others once, for its own reason. -/
theorem propagates (rules : OverrideRules) (reached : Reached (·.Completes kind) r)
    (acyclic : ∀ h, ¬ TransGen r.Awaits h h) : ∃ order, r.completionOrder = .ok order ∧
      r.Propagates (turns rules false r order) (r.complete rules false) := by
  cases found : r.completionOrder with
  | error e =>
    obtain ⟨h, -, cycle, -⟩ := cycle_of_completionOrder found
    exact absurd cycle (acyclic h)
  | ok order =>
    have distinct := reached.nodup
    have lasts : ∀ t ∈ turns rules false r order, Lasts rules (r.after (turns rules false r order)) t :=
      lasts_of_completionOrder distinct found
    have perm := (topological_of_completionOrder distinct found).2
    have sound : Sound (fun _ => True) (r.complete rules false).2 := sound_complete reached rules false
    rw [complete_eq_turns found] at sound ⊢
    refine ⟨order, rfl, ?_⟩
    constructor
    case resolved =>
      intro h pending
      constructor
      · intro resolved k path
        exact not_obstructs sound rfl lasts resolved path
      · intro free
        by_contra unresolved
        have here : h ∈ order := perm.mem_iff.mpr pending
        have missing := Bool.eq_false_iff.mpr unresolved
        obtain ⟨k, path, obstructs⟩ := exists_obstructs distinct found h here missing
        exact free k path obstructs
    case errors => rfl
    case once => exact perm_failed distinct found
    case explained =>
      intro t taken e failed
      exact (lasts t taken).exists_explains failed
    case only =>
      intro e reported
      obtain ⟨t, taken, failed⟩ := List.mem_filterMap.mp reported
      obtain ⟨d, -, explains⟩ := (lasts t taken).exists_explains failed
      cases explains <;> exact ⟨_, rfl⟩
    case pending =>
      calc (Report.ofTurns (turns rules false r order)).completed + _
        _ = (turns rules false r order).length := Report.length_ofTurns _
        _ = order.length := by rw [← List.length_map Turn.fingerprint, map_fingerprint_turns]
        _ = r.pending.length := perm.length_eq
    case counted => simp [resolvedCount, after, Report.ofTurns]
    case synthesized => exact ⟨_, rfl, rfl⟩

/-- The third class inherits members that cannot coexist, the fourth inherits from it, and the fifth
lists a class that does not exist before that one. -/
def feud : List Declaration :=
  let text (owner result : String) := Member.declare owner .function "text" ⟨[], .named result⟩ .abstract
  [.named .interface "Digital" [] [text "Digital" "Int"],
    .named .interface "Written" [] [text "Written" "String"],
    .named .ordinary "Both" ["Digital", "Written"] [],
    .named .ordinary "Heir" ["Both"] [],
    .named .ordinary "Orphan" ["Digital", "Nowhere", "Heir"] [],
    .named .ordinary "Reader" ["Written"] []]

def feuding : Registry :=
  performAll ∅ [.registerAll (feud.take 2), .complete .bySignature false, .registerAll (feud.drop 2)]

theorem propagates_feuding :
    let run := feuding.complete .bySignature false
    run.1.completed = 1 ∧ run.1.errors.length = 3 ∧ run.2.resolvedCount = 3 ∧
      ∃ order, feuding.completionOrder = .ok order ∧
        feuding.Propagates (turns .bySignature false feuding order) run := by
  have reached : Reached (·.Completes (· = .bySignature)) feuding :=
    ⟨_, by simp [Operation.Completes], rfl⟩
  have order : feuding.completionOrder = .ok ((feud.drop 2).map (·.fingerprint)) := by decide +kernel
  have acyclic (h : Fingerprint) : ¬ TransGen feuding.Awaits h h :=
    not_cycle_of_completionOrder reached.nodup order
  exact ⟨by decide +kernel, by decide +kernel, by decide +kernel, propagates .bySignature reached acyclic⟩

end Registry

end Inheritance
