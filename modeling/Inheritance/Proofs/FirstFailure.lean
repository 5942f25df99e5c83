import Inheritance.Proofs.Confluence
import Inheritance.Proofs.Propagation
import Mathlib.Data.List.TakeWhile

/-! Failing fast against collecting. Up to its first error a collecting run does what one that fails fast
does, so the failure that is returned for a list of declarations is the first of all that there are. -/
namespace Inheritance

variable {rules : OverrideRules} {registered declarations : List Declaration} {r r' : Registry}
  {h : Fingerprint} {d : Declaration} {order : List Fingerprint} {e : RegistrationError}

/-- Registration in list order gets as far as a declaration that it refuses. -/
inductive Refuses : List Declaration → RegistrationError → Prop where
  | here {before after : List Declaration} {d : Declaration} {e : RegistrationError}
      (fine : Registrable before) (refused : Registry.register ⟨before, []⟩ d = .error e) :
      Refuses (before ++ d :: after) e

namespace Registry

theorem registrable_of_register (fine : Registrable r.declarations) (ok : r.register d = .ok r') :
    Registrable (r.declarations ++ [d]) := by
  obtain ⟨valid, new, -⟩ := register_eq_ok_iff.mp ok
  constructor
  · intro other member
    rcases List.mem_append.mp member with old | last
    · exact fine.valid other old
    · rwa [List.mem_singleton.mp last]
  · rw [List.map_append]
    refine List.nodup_append.mpr ⟨fine.distinct, by simp, fun h old k last => ?_⟩
    obtain rfl := List.mem_singleton.mp last
    rintro rfl
    exact new old

theorem registrable_or_refuses (declarations : List Declaration) (fine : Registrable registered) :
    Registrable (registered ++ declarations) ∨ ∃ e, Refuses (registered ++ declarations) e := by
  induction declarations generalizing registered with
  | nil => simpa using .inl fine
  | cons d rest ih =>
    cases step : register ⟨registered, []⟩ d with
    | error e => exact .inr ⟨e, .here fine step⟩
    | ok r =>
      rw [List.append_cons]
      apply ih
      exact registrable_of_register fine step

theorem registrable_iff : Registrable declarations ↔ ¬ ∃ e, Refuses declarations e := by
  constructor
  · rintro registrable ⟨e, @⟨before, after, d, _, -, refused⟩⟩
    rw [List.append_cons] at registrable
    have ok : register ⟨before, []⟩ d = .ok _ := register_of_registrable registrable.of_append
    rw [refused] at ok
    cases ok
  · have none : Registrable [] := ⟨by simp, List.nodup_nil⟩
    exact (registrable_or_refuses declarations none).resolve_right

theorem registerAll_of_refuses (refuses : Refuses declarations e) :
    ((∅ : Registry).registerAll declarations).2 = some e := by
  cases refuses with
  | @here before after d _ fine refused =>
    have start : Registrable ((∅ : Registry).declarations ++ before) := fine
    have reached : (∅ : Registry).registerAll (before ++ d :: after) = registerAll ⟨before, []⟩ (d :: after) :=
      registerAll_append start _
    rw [reached, registerAll, refused]

/-- The turns of a run that fails fast are those of a collecting run up to the first that failed. -/
theorem turns_split (rules : OverrideRules) (r : Registry) (order : List Fingerprint) :
    ∃ fine rest, turns rules false r order = fine ++ rest ∧
      turns rules true r order = fine ++ rest.take 1 ∧
        (∀ t ∈ fine, t.failed = false) ∧ ∀ t ∈ rest.head?, t.failed = true := by
  induction order generalizing r with
  | nil => exact ⟨[], [], rfl, rfl, nofun, nofun⟩
  | cons h later ih =>
    rw [turns, turns]
    cases step : r.completeClass rules h with
    | ok done =>
      obtain ⟨fine, rest, all, first, ok, failed⟩ := ih done.2
      refine ⟨⟨h, .ok done.1⟩ :: fine, rest, ?_, ?_, List.forall_mem_cons.mpr ⟨rfl, ok⟩, failed⟩
      · simp [all]
      · simp [first]
    | error e =>
      refine ⟨[], ⟨h, .error e⟩ :: turns rules false r later, rfl, rfl, nofun, ?_⟩
      simp

section

variable {taken fine rest : List Turn}

theorem errors_of_fine (ok : ∀ t ∈ taken, t.failed = false) : taken.filterMap Turn.error? = [] := by
  rw [List.filterMap_eq_nil_iff]
  exact fun t member => Turn.error?_of_fine (ok t member)

theorem errors_take (ok : ∀ t ∈ fine, t.failed = false) (failed : ∀ t ∈ rest.head?, t.failed = true) :
    (fine ++ rest.take 1).filterMap Turn.error? = ((fine ++ rest).filterMap Turn.error?).take 1 := by
  rw [List.filterMap_append, List.filterMap_append, errors_of_fine ok, List.nil_append, List.nil_append]
  cases rest with
  | nil => rfl
  | cons t rest =>
    obtain ⟨e, this⟩ := Turn.exists_error?_of_failed (failed t rfl)
    simp [this]

theorem stored_take (failed : ∀ t ∈ rest.head?, t.failed = true) :
    (fine ++ rest.take 1).filterMap Turn.stored? = fine.filterMap Turn.stored? := by
  cases rest with
  | nil => simp
  | cons t rest =>
    obtain ⟨h, outcome⟩ := t
    cases outcome with
    | ok c => simp at failed
    | error e => simp [Turn.stored?, Except.toOption]

theorem map_fingerprint_stored (lasts : ∀ t ∈ taken, Lasts rules r t) :
    (taken.filterMap Turn.stored?).map (·.fingerprint) = (taken.map Turn.fingerprint).filter r.isResolved := by
  induction taken with
  | nil => rfl
  | cons t rest ih =>
    obtain ⟨first, others⟩ := List.forall_mem_cons.mp lasts
    obtain ⟨d, -, stands, -⟩ := first
    rw [List.map_cons]
    cases stored : t.stored? with
    | none =>
      rw [stored] at stands
      rw [List.filterMap_cons_none stored, List.filter_cons_of_neg (by simp [isResolved, stands]), ih others]
    | some c =>
      rw [stored] at stands
      rw [List.filterMap_cons_some stored, List.filter_cons_of_pos (by simp [isResolved, stands]),
        List.map_cons, ih others, fingerprint_of_resolved? stands]

/-- Up to the first turn that failed all classes are effective in the end, and the next one is not. -/
theorem takeWhile_isResolved (ok : ∀ t ∈ fine, t.failed = false)
    (failed : ∀ t ∈ rest.head?, t.failed = true) (lasts : ∀ t ∈ fine ++ rest, Lasts rules r t) :
    ((fine ++ rest).map Turn.fingerprint).takeWhile r.isResolved = fine.map Turn.fingerprint := by
  have effective : ∀ h ∈ fine.map Turn.fingerprint, r.isResolved h = true := by
    intro h member
    obtain ⟨t, here, rfl⟩ := List.mem_map.mp member
    simpa [ok t here] using (lasts t (List.mem_append_left _ here)).failed_eq
  rw [List.map_append, List.takeWhile_append_of_pos effective]
  cases rest with
  | nil => simp
  | cons t rest =>
    have missing : r.isResolved t.fingerprint = false := by
      simpa [failed t rfl] using (lasts t (by simp)).failed_eq
    simp [missing]

end

/-- The first of two runs ended where the second failed for the first time. -/
structure CutsShort (r : Registry) (first all : Report × Registry) : Prop where
  errors : first.1.errors = all.1.errors.take 1
  kept : first.2.effective <+: all.2.effective
  circular : ∀ e, r.completionOrder = .error e → first = all
  completed : ∀ order, r.completionOrder = .ok order → all.2.effective.map (·.fingerprint) =
    r.effective.map (·.fingerprint) ++ order.filter all.2.isResolved
  before : ∀ order, r.completionOrder = .ok order → first.2.effective.map (·.fingerprint) =
    r.effective.map (·.fingerprint) ++ order.takeWhile all.2.isResolved
  alike : all.1.errors = [] → first = all

theorem cutsShort_of_cycle {e : CompletionError} (failed : r.completionOrder = .error e) :
    r.CutsShort (r.complete rules true) (r.complete rules false) := by
  have same : r.complete rules true = r.complete rules false := by rw [complete, complete, failed]
  obtain ⟨_, d, -, -, stopped⟩ := complete_of_cycle rules false failed
  rw [same, stopped]
  constructor <;> simp [failed]

theorem cutsShort_of_order (distinct : r.fingerprints.Nodup) (ok : r.completionOrder = .ok order) :
    r.CutsShort (r.complete rules true) (r.complete rules false) := by
  obtain ⟨fine, rest, all, first, succeeded, failed⟩ := turns_split rules r order
  have lasts : ∀ t ∈ turns rules false r order, Lasts rules (r.after (turns rules false r order)) t :=
    lasts_of_completionOrder distinct ok
  have taken : (fine ++ rest).map Turn.fingerprint = order := by rw [← all, map_fingerprint_turns]
  rw [complete_eq_turns ok, complete_eq_turns ok, first]
  rw [all] at lasts ⊢
  have before := takeWhile_isResolved succeeded failed lasts
  rw [taken] at before
  constructor
  case errors => exact errors_take succeeded failed
  case kept =>
    simp only [after, stored_take failed, List.filterMap_append, ← List.append_assoc]
    exact List.prefix_append _ _
  case circular => simp [ok]
  case completed =>
    intro other same
    obtain rfl : order = other := Except.ok.inj (ok.symm.trans same)
    simp only [after, List.map_append]
    rw [map_fingerprint_stored lasts, taken]
    rfl
  case before =>
    intro other same
    obtain rfl : order = other := Except.ok.inj (ok.symm.trans same)
    have stored := map_fingerprint_stored fun t here => lasts t (List.mem_append_left rest here)
    simp only [after, stored_take failed, List.map_append]
    rw [stored, ← before, List.filter_eq_self.mpr fun h => List.mem_takeWhile_imp]
    rfl
  case alike =>
    intro nothing
    cases rest with
    | nil => rfl
    | cons t rest =>
      obtain ⟨e, this⟩ := Turn.exists_error?_of_failed (failed t rfl)
      have none : t.error? = none := List.filterMap_eq_nil_iff.mp nothing t (by simp)
      simp [this] at none

theorem cutsShort_complete (rules : OverrideRules) (distinct : r.fingerprints.Nodup) :
    r.CutsShort (r.complete rules true) (r.complete rules false) := by
  cases found : r.completionOrder with
  | error e => exact cutsShort_of_cycle found
  | ok order => exact cutsShort_of_order distinct found

theorem isResolved_of_errors_eq_nil (distinct : r.fingerprints.Nodup)
    (fine : (r.complete rules false).1.errors = []) (registered : r.contains h = true) :
    (r.complete rules false).2.isResolved h = true := by
  cases found : r.completionOrder with
  | error e =>
    obtain ⟨_, d, -, -, stopped⟩ := complete_of_cycle rules false found
    simp [stopped] at fine
  | ok order =>
    rw [complete_eq_turns found] at fine ⊢
    have nothing : (turns rules false r order).filter Turn.failed = [] := by
      rw [List.filter_eq_nil_iff]
      intro t member
      simpa [Turn.failed] using List.filterMap_eq_nil_iff.mp fine t member
    have left : List.Perm _ (r.after (turns rules false r order)).pending := perm_failed distinct found
    rw [nothing, List.map_nil, List.nil_perm] at left
    by_contra unresolved
    have pending : h ∈ (r.after (turns rules false r order)).pending := by
      refine mem_pending.mpr ⟨registered, ?_⟩
      simpa [isResolved] using unresolved
    rw [left] at pending
    cases pending

end Registry

/-- What a collecting run makes of the declarations decides what is returned for them. -/
structure Agrees (declarations : List Declaration) (outcome : Except Failure Registry)
    (all : Report × Registry) : Prop where
  ok_iff : (∃ r, outcome = .ok r) ↔ all.1.errors = []
  resolved : ∀ r, outcome = .ok r → r.declarations = declarations ∧
    (∀ h, r.contains h = true → r.isResolved h = true) ∧ ∀ h, r.resolved? h = all.2.resolved? h
  failed : ∀ e later, all.1.errors = e :: later → outcome = .error (.completion e)

open Registry

theorem resolveAll_of_refuses (refuses : Refuses declarations e) :
    resolveAll rules declarations = .error (.registration e) := by
  have refused := registerAll_of_refuses refuses
  rw [resolveAll]
  cases registered : (∅ : Registry).registerAll declarations with
  | mk r error =>
    obtain rfl : error = some e := by simpa [registered] using refused
    rfl

theorem resolveAll_of_failed {e : CompletionError} {later : List CompletionError}
    (registrable : Registrable declarations)
    (failed : (complete ⟨declarations, []⟩ rules true).1.errors = e :: later) :
    resolveAll rules declarations = .error (.completion e) := by
  rw [resolveAll, registerAll_empty registrable]
  cases run : complete ⟨declarations, []⟩ rules true with
  | mk report r =>
    obtain ⟨completed, synthesized, errors⟩ := report
    obtain rfl : errors = e :: later := by simpa [run] using failed
    simp only [run]

theorem resolveAll_of_fine (registrable : Registrable declarations)
    (fine : (complete ⟨declarations, []⟩ rules true).1.errors = []) :
    resolveAll rules declarations = .ok (complete ⟨declarations, []⟩ rules true).2 := by
  rw [resolveAll, registerAll_empty registrable]
  cases run : complete ⟨declarations, []⟩ rules true with
  | mk report r =>
    obtain ⟨completed, synthesized, errors⟩ := report
    obtain rfl : errors = [] := by simpa [run] using fine
    simp only [run]

theorem agrees_of_registrable (registrable : Registrable declarations) :
    Agrees declarations (resolveAll rules declarations) (complete ⟨declarations, []⟩ rules false) := by
  have distinct : (⟨declarations, []⟩ : Registry).fingerprints.Nodup := registrable.distinct
  have first := cutsShort_complete rules distinct
  cases errors : (complete ⟨declarations, []⟩ rules false).1.errors with
  | nil =>
    have same := first.alike errors
    have fine : (complete ⟨declarations, []⟩ rules true).1.errors = [] := by rw [same, errors]
    have outcome := resolveAll_of_fine registrable fine
    rw [same] at outcome
    refine ⟨by simp [outcome, errors], fun r this => ?_, by simp [errors]⟩
    obtain rfl : (complete ⟨declarations, []⟩ rules false).2 = r := Except.ok.inj (outcome.symm.trans this)
    refine ⟨declarations_complete false, fun h registered => ?_, fun _ => rfl⟩
    apply isResolved_of_errors_eq_nil distinct errors
    rwa [← contains_of_declarations (declarations_complete false)]
  | cons e later =>
    have failed : (complete ⟨declarations, []⟩ rules true).1.errors = [e] := by simp [first.errors, errors]
    have outcome : resolveAll rules declarations = _ := resolveAll_of_failed registrable failed
    refine ⟨by simp [outcome, errors], by simp [outcome], fun other rest this => ?_⟩
    obtain ⟨rfl, -⟩ := List.cons.inj (errors.symm.trans this)
    exact outcome

/-- A declaration that is refused is reported before anything is completed. Otherwise the outcome is that
of a collecting run if there is no error, and its first error if there is one. -/
theorem resolveAll_agrees (rules : OverrideRules) (declarations : List Declaration) :
    (∀ e, Refuses declarations e → resolveAll rules declarations = .error (.registration e)) ∧
      ((¬ ∃ e, Refuses declarations e) →
        let r : Registry := ⟨declarations, []⟩
        Agrees declarations (resolveAll rules declarations) (r.complete rules false) ∧
          r.CutsShort (r.complete rules true) (r.complete rules false)) := by
  constructor
  · intro e refuses
    exact resolveAll_of_refuses refuses
  · intro fine
    have registrable := registrable_iff.mpr fine
    exact ⟨agrees_of_registrable registrable, cutsShort_complete rules registrable.distinct⟩

/-- Once with a declaration that comes twice, once with three classes that fail. -/
theorem resolveAll_agrees_feud :
    resolveAll .bySignature (feud ++ feud) = .error (.registration (.duplicateType "Digital")) ∧
      ∃ e later, (complete ⟨feud, []⟩ .bySignature false).1.errors = e :: later ∧ later.length = 2 ∧
        resolveAll .bySignature feud = .error (.completion e) ∧
          (complete ⟨feud, []⟩ .bySignature true).1.errors = [e] := by
  have registrable : Registrable feud := ⟨by decide +kernel, by decide +kernel⟩
  have refuses : Refuses (feud ++ feud) (.duplicateType "Digital") := .here registrable (by decide +kernel)
  refine ⟨(resolveAll_agrees .bySignature _).1 _ refuses, ?_⟩
  obtain ⟨agrees, first⟩ := (resolveAll_agrees .bySignature feud).2 (registrable_iff.mp registrable)
  have three : (complete ⟨feud, []⟩ .bySignature false).1.errors.length = 3 := by decide +kernel
  cases errors : (complete ⟨feud, []⟩ .bySignature false).1.errors with
  | nil => simp [errors] at three
  | cons e later =>
    rw [errors] at three
    refine ⟨e, later, rfl, Nat.succ.inj three, agrees.failed e later errors, ?_⟩
    rw [first.errors, errors]
    rfl

end Inheritance
