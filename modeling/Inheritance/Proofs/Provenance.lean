import Inheritance.Proofs.Currency
import Inheritance.Proofs.Reach
import Inheritance.Proofs.Rivals

/-! Where the members of an effective class come from. The class owns them all. A fake override stands
for members that its direct supertypes hand down, at most one from each, and what it rests on in the end
is declared further up, in the same slot and among its roots. -/
namespace Inheritance

open List (Forall₂)
open Relation (TransGen)

namespace Member

variable {a b c fake m base : Member}

/-- The first stands for the second, directly or through other fake overrides. -/
def RestsOn : Member → Member → Prop := TransGen fun fake m => m ∈ fake.overridden

theorem isFake_of_overridden (direct : base ∈ m.overridden) : m.isFake = true := by
  cases m with
  | declared => simp [overridden] at direct
  | fake => rfl

theorem roots_of_real (real : m.isFake = false) : m.roots = [m.fingerprint] := by
  cases m with
  | declared => rfl
  | fake => simp [isFake] at real

/-- The first has the name and slot of the second and all of its roots. -/
structure Subsumes (a b : Member) : Prop where
  name : b.name = a.name
  slot : b.slotFingerprint = a.slotFingerprint
  roots : b.roots ⊆ a.roots

theorem Subsumes.trans (first : a.Subsumes b) (second : b.Subsumes c) : a.Subsumes c where
  name := second.name.trans first.name
  slot := second.slot.trans first.slot
  roots := List.Subset.trans second.roots first.roots

end Member

namespace OverrideRules

variable {rules : OverrideRules} {d : Declaration} {inherited fakes : List Member} {fake m : Member}
  {name : String} {slot : Fingerprint} {supertypes : List EffectiveClass}

theorem DefaultClashes.subsumes_of_fakesFrom (defaults : rules.DefaultClashes)
    (made : rules.fakesFrom d inherited = .ok fakes) (here : fake ∈ fakes) (direct : m ∈ fake.overridden) :
    fake.Subsumes m := by
  obtain ⟨free, slot⟩ := (defaults.mem_overridden_iff made here).mp direct
  obtain ⟨g, -, this⟩ := exists_synthesize_of_mem_fakesFrom made here
  refine ⟨(mem_unmatchedNamed.mp free).1.2, slot, fun root member => ?_⟩
  rw [this]
  exact Member.mem_inheritedRoots.mpr ⟨m, direct, member⟩

theorem competing_aggregate : rules.competing d (aggregate supertypes) name slot =
    supertypes.flatMap fun b => rules.competing d b.members name slot := by
  induction supertypes with
  | nil => rfl
  | cons b rest ih =>
    have front : aggregate (b :: rest) = b.members ++ aggregate rest := List.flatMap_cons
    rw [front, competing_append, ih, List.flatMap_cons]

theorem toList_head?_competing
    (apart : inherited.Pairwise fun a b => a.name = b.name → a.slotFingerprint ≠ b.slotFingerprint) :
    (rules.competing d inherited name slot).head?.toList = rules.competing d inherited name slot := by
  cases found : rules.competing d inherited name slot with
  | nil => rfl
  | cons g rest =>
    have here : g ∈ rules.competing d inherited name slot := by simp [found]
    rw [← found, competing_eq_singleton apart here]
    rfl

end OverrideRules

namespace Registry

open OverrideRules

variable {kind : OverrideRules → Prop} {r : Registry} {h k : Fingerprint} {c : EffectiveClass}
  {fake m base : Member}

theorem edge_parents (r : Registry) : Traversal.Edge r.parents = r.Extends := rfl

theorem mem_ancestors_iff :
    k ∈ r.ancestors h ↔ TransGen (Traversal.Enters r.Extends r.fingerprints) h k := by
  simp [ancestors, Traversal.mem_reach, edge_parents]

theorem Descends.mem_fakes_of_overridden (descends : r.Descends kind c) (inside : m ∈ c.members)
    (direct : base ∈ m.overridden) : m ∈ c.scope.fakes := by
  cases descends with
  | made _ _ valid =>
    rw [EffectiveClass.fakes_ofDeclaration]
    refine (List.mem_append.mp inside).resolve_left fun own => ?_
    have real := ((Declaration.defect?_eq_none_iff.mp valid).1 m own).1
    rw [Member.isFake_of_overridden direct] at real
    exact Bool.noConfusion real

theorem Descends.exists_of_overridden (descends : r.Descends kind c) (inside : m ∈ c.members)
    (direct : base ∈ m.overridden) :
    ∃ b, r.Descends kind b ∧ r.Extends c.fingerprint b.fingerprint ∧ base ∈ b.members := by
  have fake := descends.mem_fakes_of_overridden inside direct
  cases descends with
  | @made _ d supertypes _ _ registered _ listed computed below =>
    rw [EffectiveClass.fakes_ofDeclaration] at fake
    have inherited : base ∈ aggregate supertypes := overridden_subset_of_fakesFrom computed fake direct
    obtain ⟨b, above, there⟩ := List.mem_flatMap.mp inherited
    obtain ⟨name, member, found⟩ := exists_left listed above
    refine ⟨b, below b above, ?_, there⟩
    change b.fingerprint ∈ r.parents d.fingerprint
    rw [parents_of_get? registered, fingerprint_of_resolved? found]
    exact List.mem_map_of_mem member

theorem Descends.exists_of_restsOn (descends : r.Descends kind c) (inside : m ∈ c.members)
    (rests : m.RestsOn base) :
    ∃ b, r.Descends kind b ∧ b.fingerprint ∈ r.ancestors c.fingerprint ∧ base ∈ b.members := by
  induction rests with
  | single direct =>
    obtain ⟨b, above, listed, there⟩ := descends.exists_of_overridden inside direct
    exact ⟨b, above, mem_ancestors_iff.mpr (.single ⟨listed, contains_iff.mp above.contains⟩), there⟩
  | tail _ direct ih =>
    obtain ⟨a, between, path, here⟩ := ih
    obtain ⟨b, above, listed, there⟩ := between.exists_of_overridden here direct
    have last : Traversal.Enters r.Extends r.fingerprints a.fingerprint b.fingerprint :=
      ⟨listed, contains_iff.mp above.contains⟩
    exact ⟨b, above, mem_ancestors_iff.mpr ((mem_ancestors_iff.mp path).tail last), there⟩

/-- What relates each fake override to the members that it directly stands for, and is transitive, relates
it to all that it rests on. -/
theorem Descends.of_restsOn {R : Member → Member → Prop} (trans : ∀ {a b c}, R a b → R b c → R a c)
    (direct : ∀ c, r.Descends kind c → ∀ fake ∈ c.scope.fakes, ∀ m ∈ fake.overridden, R fake m)
    (descends : r.Descends kind c) (inside : fake ∈ c.members) (rests : fake.RestsOn m) : R fake m := by
  induction rests with
  | single first => exact direct c descends _ (descends.mem_fakes_of_overridden inside first) _ first
  | tail path last ih =>
    obtain ⟨b, above, -, there⟩ := descends.exists_of_restsOn inside path
    exact trans ih (direct b above _ (above.mem_fakes_of_overridden there last) _ last)

theorem Descends.roots (descends : r.Descends kind c) : ∀ m ∈ c.members, m.roots ≠ [] ∧ m.roots.Nodup := by
  induction descends with
  | @made rules d supertypes fakes _ _ valid _ computed _ ih =>
    intro m inside
    rcases List.mem_append.mp inside with own | fake
    · rw [Member.roots_of_real ((Declaration.defect?_eq_none_iff.mp valid).1 m own).1]
      exact ⟨List.cons_ne_nil _ _, List.nodup_singleton _⟩
    · obtain ⟨g, direct, this⟩ := exists_synthesize_of_mem_fakesFrom computed fake
      obtain ⟨b, above, there⟩ := List.mem_flatMap.mp (overridden_subset_of_fakesFrom computed fake direct)
      obtain ⟨root, member⟩ := List.exists_mem_of_ne_nil _ (ih b above g there).1
      rw [this]
      refine ⟨List.ne_nil_of_mem (a := root) ?_, nodup_eraseDups _⟩
      exact Member.mem_inheritedRoots.mpr ⟨g, direct, member⟩

theorem Descends.subsumes (descends : r.Descends DefaultClashes c) (inside : fake ∈ c.members)
    (rests : fake.RestsOn m) : fake.Subsumes m := by
  refine descends.of_restsOn Member.Subsumes.trans (fun b above fake here m direct => ?_) inside rests
  cases above with
  | made defaults _ _ _ computed =>
    rw [EffectiveClass.fakes_ofDeclaration] at here
    exact defaults.subsumes_of_fakesFrom computed here direct

/-- The direct supertypes of a class hand down what a fake override stands for: each of them one member at
most, in the order in which they are listed. -/
def HandsDown (r : Registry) (h : Fingerprint) (fake : Member) : Prop :=
  ∃ supertypes : List EffectiveClass, Forall₂ (fun k b => r.resolved? k = some b) (r.parents h) supertypes ∧
    ∃ choice : EffectiveClass → Option Member,
      (∀ b m, choice b = some m → m ∈ b.scope.members) ∧ fake.overridden = supertypes.filterMap choice

theorem Descends.handsDown (descends : r.Descends DefaultClashes c) (inside : fake ∈ c.scope.fakes) :
    r.HandsDown c.fingerprint fake := by
  cases descends with
  | @made rules d supertypes _ defaults registered _ listed computed below =>
    rw [EffectiveClass.fakes_ofDeclaration] at inside
    -- A scope has at most one member that competes for the slot, so its first is all of them.
    let taken (b : EffectiveClass) := rules.competing d b.members fake.name fake.slotFingerprint
    refine ⟨supertypes, ?_, fun b => (taken b).head?, fun b m first => ?_, ?_⟩
    · change Forall₂ _ (r.parents d.fingerprint) supertypes
      rw [parents_of_get? registered]
      exact List.forall₂_map_left_iff.mpr listed
    · have competes : m ∈ taken b := List.mem_of_head? first
      exact (mem_unmatchedNamed.mp (mem_competing.mp competes).1).1.1
    · calc fake.overridden
        _ = supertypes.flatMap taken :=
          (defaults.overridden_of_fakesFrom computed inside).trans competing_aggregate
        _ = supertypes.flatMap fun b => (taken b).head?.toList :=
          List.flatMap_congr fun b above => (toList_head?_competing (below b above).pairwise_members).symm
        _ = supertypes.filterMap fun b => (taken b).head? := (List.filterMap_eq_flatMap_toList _ _).symm

/-- An effective class owns its members. It declares what is registered for it and gets everything else from
its supertypes. -/
structure Sourced (r : Registry) (c : EffectiveClass) : Prop where
  owner : ∀ m ∈ c.scope.members, m.owner = c.fingerprint
  declared : ∃ d, r.get? c.fingerprint = some d ∧ c.scope.declared = d.members
  real : ∀ own ∈ c.scope.declared, own.isFake = false
  fakes : ∀ fake ∈ c.scope.fakes, fake.isFake = true
  handed : ∀ fake ∈ c.scope.fakes, r.HandsDown c.fingerprint fake
  roots : ∀ fake ∈ c.scope.fakes, fake.roots ≠ [] ∧ fake.roots.Nodup
  bottom : ∀ fake ∈ c.scope.fakes, ∀ m, fake.RestsOn m → m.isFake = false →
    (∃ k ∈ r.ancestors c.fingerprint, ∃ d, r.get? k = some d ∧ m ∈ d.members) ∧
      m.name = fake.name ∧ m.slotFingerprint = fake.slotFingerprint ∧ m.fingerprint ∈ fake.roots

/-- What a member rests on in the end is declared in a class further up. -/
theorem Descends.exists_declaration (descends : r.Descends kind c) (inside : fake ∈ c.members)
    (rests : fake.RestsOn m) (real : m.isFake = false) :
    ∃ k ∈ r.ancestors c.fingerprint, ∃ d, r.get? k = some d ∧ m ∈ d.members := by
  obtain ⟨b, above, path, there⟩ := descends.exists_of_restsOn inside rests
  cases above with
  | @made _ d _ _ _ registered _ _ computed =>
    refine ⟨d.fingerprint, path, d, registered, (List.mem_append.mp there).resolve_right fun fake => ?_⟩
    rw [(owned_of_fakesFrom computed fake).1] at real
    exact Bool.noConfusion real

/-- Whoever stored them, as long as clashing is left at its default, all effective classes are like this. -/
theorem sourced (reached : Reached (·.Completes DefaultClashes) r) (member : c ∈ r.effective) :
    r.Sourced c := by
  have descends := (sound_of_reached reached).descends c member
  have source := descends
  cases source with
  | @made rules d supertypes fakes defaults registered valid _ computed =>
    have real := (Declaration.defect?_eq_none_iff.mp valid).1
    have inside {fake : Member} (here : fake ∈ fakes) :
        fake ∈ (EffectiveClass.ofDeclaration d fakes).members := List.mem_append_right _ here
    have inherited : (EffectiveClass.ofDeclaration d fakes).scope.fakes = fakes := EffectiveClass.fakes_ofDeclaration ..
    have own : (EffectiveClass.ofDeclaration d fakes).scope.declared = d.members :=
      EffectiveClass.declared_ofDeclaration ..
    constructor
    case owner =>
      intro m here
      rcases List.mem_append.mp here with own | fake
      · exact (real m own).2
      · exact (owned_of_fakesFrom computed fake).2
    case declared => exact ⟨d, registered, own⟩
    case real => exact fun m here => (real m (own ▸ here)).1
    case fakes => exact fun fake here => (owned_of_fakesFrom computed (inherited ▸ here)).1
    case handed => exact fun fake here => descends.handsDown here
    case roots => exact fun fake here => descends.roots fake (inside (inherited ▸ here))
    case bottom =>
      intro fake here m rests real
      rw [inherited] at here
      have subsumes := descends.subsumes (inside here) rests
      refine ⟨descends.exists_declaration (inside here) rests real, subsumes.name, subsumes.slot, ?_⟩
      apply subsumes.roots
      rw [Member.roots_of_real real]
      exact List.mem_singleton_self _

theorem sourced_diamond : ∃ c ∈ completedDiamond.effective, c.name = "Both" ∧
    (∃ fake ∈ c.scope.fakes, fake.overridden.map (·.isFake) = [true, false]) ∧ completedDiamond.Sourced c := by
  have last : ∃ c ∈ completedDiamond.effective, c.name = "Both" ∧
      ∃ fake ∈ c.scope.fakes, fake.overridden.map (·.isFake) = [true, false] := by
    decide +kernel
  obtain ⟨c, member, name, fake⟩ := last
  exact ⟨c, member, name, fake, sourced (reached_diamond fun _ _ => rfl) member⟩

end Registry

end Inheritance
