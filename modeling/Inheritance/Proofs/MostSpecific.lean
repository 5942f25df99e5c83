import Inheritance.Proofs.Rivals

/-! The member that gives a fake override its signature. It is the first that can stand for all others,
and a shared declaration is enough for that. So the signature need not narrow the others, even where
overriding is an order and another member does narrow them all. -/
namespace Inheritance

namespace OverrideRules

variable {rules : OverrideRules} {d : Declaration} {declared members fakes : List Member}
  {fake a b : Member}

/-- Overriding is a partial order that reads names, kinds and signatures, and all else is by default. -/
structure Narrows (rules : OverrideRules) : Prop where
  clashes : rules.DefaultClashes
  compatible : ∀ a b, rules.compatible a b =
    (a.sharesRoot b || rules.overrides a b || rules.overrides b a)
  reads : ∀ {a a' b b'}, a.profile = a'.profile → b.profile = b'.profile →
    rules.overrides a b = rules.overrides a' b'
  refl : ∀ a, rules.overrides a a = true
  trans : ∀ {a b c}, rules.overrides a b = true → rules.overrides b c = true → rules.overrides a c = true
  antisymm : ∀ {a b}, rules.overrides a b = true → rules.overrides b a = true →
    a.signature = b.signature

/-- A member may narrow the result `Any`, and no other. -/
def covariant : OverrideRules where
  overrides a b := a.name = b.name ∧ a.kind = b.kind ∧ a.signature.params = b.signature.params ∧
    (a.signature.result = b.signature.result ∨ b.signature.result = .named "Any")

theorem narrows_covariant : covariant.Narrows where
  clashes _ _ := rfl
  compatible _ _ := rfl
  reads same same' := by
    simp only [Member.profile, Prod.mk.injEq] at same same'
    simp only [covariant, same, same']
  refl a := by simp [covariant]
  trans {a b c} ab bc := by
    simp only [covariant, decide_eq_true_eq] at ab bc ⊢
    obtain ⟨name, kind, params, result⟩ := ab
    obtain ⟨name', kind', params', result'⟩ := bc
    refine ⟨name.trans name', kind.trans kind', params.trans params', ?_⟩
    rcases result' with same | any
    · exact same ▸ result
    · exact .inr any
  antisymm {a b} ab ba := by
    simp only [covariant, decide_eq_true_eq] at ab ba
    have params := ab.2.2.1
    have result : a.signature.result = b.signature.result := by
      rcases ab.2.2.2 with same | any
      · exact same
      · rcases ba.2.2.2 with same | any'
        · exact same.symm
        · exact any'.trans any.symm
    rw [Signature.mk.injEq]
    exact ⟨params, result⟩

/-- The first member that can stand for all of them. -/
def mostSpecific? (rules : OverrideRules) (members : List Member) : Option Member :=
  members.find? fun a => members.all fun b => rules.dominates a b

theorem Narrows.plain (narrows : rules.Narrows) : rules.Plain :=
  ⟨narrows.clashes, narrows.compatible, narrows.refl⟩

theorem Narrows.mostSpecific?_of_represents (narrows : rules.Narrows) {slot : Component members.length}
    {i : Fin members.length} (represents : rules.Represents members slot i) :
    rules.mostSpecific? (slot.positions.map members.get) = some (members.get i) := by
  obtain ⟨before, after, split, earlier⟩ := represents.first
  refine List.find?_eq_some_iff_append.mpr
    ⟨?_, before.map members.get, after.map members.get, by simp [split], fun b mapped => ?_⟩
  · simp only [List.all_eq_true, List.forall_mem_map]
    intro j there
    rcases represents.covers j there with rfl | dominates
    · exact narrows.plain.dominates_self _
    · exact dominates
  · obtain ⟨k, here, rfl⟩ := List.mem_map.mp mapped
    obtain ⟨j, there, -, fails⟩ := earlier k here
    simp only [Bool.not_eq_true', List.all_eq_false]
    exact ⟨members.get j, List.mem_map_of_mem there, by simpa using fails⟩

/-- The member is the first that can stand for all that the fake override stands for, and the fake
override is like it. -/
structure ActsFor (rules : OverrideRules) (g fake : Member) : Prop where
  chosen : rules.mostSpecific? fake.overridden = some g
  like : fake.profile = g.profile

theorem Narrows.exists_actsFor (narrows : rules.Narrows)
    (made : rules.synthesize d declared members = .ok fakes) (member : fake ∈ fakes) :
    ∃ g, rules.ActsFor g fake := by
  obtain ⟨-, -, filled⟩ := synthesize_eq_ok_iff.mp made
  obtain ⟨slot, -, this⟩ := exists_left filled member
  obtain ⟨i, represents, rfl⟩ := exists_represents_of_fill this
  exact ⟨_, narrows.mostSpecific?_of_represents represents, rfl⟩

theorem ActsFor.dominates {g : Member} (acts : rules.ActsFor g fake) (there : b ∈ fake.overridden) :
    rules.dominates g b = true := by
  obtain ⟨all, -⟩ := List.find?_eq_some_iff_append.mp acts.chosen
  exact List.all_eq_true.mp all b there

theorem ActsFor.overrides_eq {g : Member} (acts : rules.ActsFor g fake) (narrows : rules.Narrows) :
    rules.overrides fake b = rules.overrides g b :=
  narrows.reads acts.like rfl

/-- A member narrows all of them. Each one before it falls short of another, with which it has no declaration in
common either. -/
def NarrowestLeads (rules : OverrideRules) (members : List Member) : Prop :=
  ∃ before least after, members = before ++ least :: after ∧
    (∀ b ∈ members, rules.overrides least b = true) ∧
      ∀ a ∈ before, ∃ b ∈ members, a.sharesRoot b = false ∧ rules.overrides a b = false

/-- Just then the first member that can stand for all of them narrows them all. -/
theorem narrowestLeads_iff {g : Member} (chosen : rules.mostSpecific? members = some g) :
    rules.NarrowestLeads members ↔ ∀ b ∈ members, rules.overrides g b = true := by
  constructor
  · rintro ⟨before, least, after, split, narrowest, short⟩
    have first : rules.mostSpecific? members = some least := by
      refine List.find?_eq_some_iff_append.mpr ⟨?_, before, after, split, fun a here => ?_⟩
      · exact List.all_eq_true.mpr fun b there => dominates_iff.mpr (.inr (narrowest b there))
      · obtain ⟨b, there, apart, fails⟩ := short a here
        rw [Bool.not_eq_true', List.all_eq_false]
        exact ⟨b, there, by simp [dominates, apart, fails]⟩
    obtain rfl : least = g := Option.some.inj (first.symm.trans chosen)
    exact narrowest
  · intro narrowest
    obtain ⟨-, before, after, split, earlier⟩ := List.find?_eq_some_iff_append.mp chosen
    refine ⟨before, g, after, split, narrowest, fun a here => ?_⟩
    have fails := earlier a here
    rw [Bool.not_eq_true', List.all_eq_false] at fails
    obtain ⟨b, there, fails⟩ := fails
    exact ⟨b, there, by simpa [dominates] using fails⟩

end OverrideRules

namespace Registry

variable {rules : OverrideRules} {r : Registry} {c : EffectiveClass} {fake : Member}

open OverrideRules

/-- The member that acts for a fake override overrides all that it shares no declaration with. The fake override
overrides everything that it stands for just if the narrowest of these members is not preceded by one that is let off
by its declarations. -/
theorem overrides_overridden_iff (narrows : rules.Narrows) (reached : Reached (·.Completes (· = rules)) r)
    (member : c ∈ r.effective) (inside : fake ∈ c.scope.fakes) : ∃ g, rules.ActsFor g fake ∧
      (∀ b ∈ fake.overridden, g.sharesRoot b = true ∨ rules.overrides fake b = true) ∧
      ((∀ b ∈ fake.overridden, rules.overrides fake b = true) ↔ rules.NarrowestLeads fake.overridden) := by
  cases (sound_of_reached reached).descends c member with
  | @made rules _ _ _ allowed _ _ _ made _ =>
    subst allowed
    rw [EffectiveClass.fakes_ofDeclaration] at inside
    obtain ⟨group, this, there⟩ := exists_of_mem_fakesFrom made inside
    obtain ⟨g, acts⟩ := narrows.exists_actsFor this there
    have covers (b) (there : b ∈ fake.overridden) : g.sharesRoot b = true ∨ rules.overrides fake b = true := by
      rw [acts.overrides_eq narrows]
      exact dominates_iff.mp (acts.dominates there)
    refine ⟨g, acts, covers, ?_⟩
    rw [narrowestLeads_iff acts.chosen]
    simp only [acts.overrides_eq narrows]

/-- Each of two interfaces narrows the same member, to results that have nothing in common. -/
def branches : List Declaration :=
  let read (owner result : String) := Member.declare owner .function "read" ⟨[], .named result⟩ .abstract
  [.named .interface "Source" [] [read "Source" "Any"],
    .named .interface "Counter" [] [read "Counter" "Int"],
    .named .interface "Journal" [] [read "Journal" "String"],
    .named .interface "Metered" ["Source", "Counter"] [],
    .named .interface "Logged" ["Source", "Journal"] [],
    .named .ordinary "Device" ["Metered", "Logged"] []]

def completedBranches : Registry := performAll ∅ [.registerAll branches, .complete covariant false]

theorem reached_branches : Reached (·.Completes (· = covariant)) completedBranches :=
  ⟨_, by simp [Operation.Completes], rfl⟩

theorem overrides_overridden_branches : ∃ c ∈ completedBranches.effective, c.name = "Metered" ∧
    ∃ fake ∈ c.scope.fakes, ∃ g, covariant.ActsFor g fake ∧
      (∀ b ∈ fake.overridden, g.sharesRoot b = true ∨ covariant.overrides fake b = true) ∧
      ((∀ b ∈ fake.overridden, covariant.overrides fake b = true) ↔ covariant.NarrowestLeads fake.overridden) := by
  have metered : ∃ c ∈ completedBranches.effective, c.name = "Metered" ∧
      ∃ fake ∈ c.scope.fakes, fake.name = "read" := by
    decide +kernel
  obtain ⟨c, member, name, fake, inside, -⟩ := metered
  exact ⟨c, member, name, fake, inside,
    overrides_overridden_iff narrows_covariant reached_branches member inside⟩

/-- The signature of `Device::read` is the one that `Metered` has, and it does not narrow the other. -/
theorem not_forall_overrides_overridden : ¬ ∀ (rules : OverrideRules) (r : Registry), rules.Narrows →
    Reached (·.Completes (· = rules)) r → ∀ c ∈ r.effective, ∀ fake ∈ c.scope.fakes,
      ∀ b ∈ fake.overridden, rules.overrides fake b = true := by
  intro all
  have fails : ¬ ∀ c ∈ completedBranches.effective, ∀ fake ∈ c.scope.fakes, ∀ b ∈ fake.overridden,
      covariant.overrides fake b = true := by
    decide +kernel
  exact fails (all covariant completedBranches narrows_covariant reached_branches)

end Registry

end Inheritance
