import Inheritance.Proofs.MostSpecific
import Inheritance.Proofs.Rivals
import Mathlib.Data.List.Perm.Basic

/-! Supertypes listed in another order. Neither success nor the slots of a class depend on the order,
but the signature of a slot does where two of its members can each stand for all of it and differ: the
one whose supertype comes first gives the signature. -/
namespace Inheritance

open List (Forall₂)
open Member (rivals)

namespace OverrideRules

variable {rules : OverrideRules} {d : Declaration} {declared members members' inherited inherited' fakes
  fakes' : List Member} {fake fake' g : Member} {name : String} {slot : Fingerprint}

theorem perm_unmatchedNamed (perm : inherited.Perm inherited') :
    (rules.unmatchedNamed d inherited name).Perm (rules.unmatchedNamed d inherited' name) :=
  (perm.filter _).filter _

theorem perm_competing (perm : inherited.Perm inherited') :
    (rules.competing d inherited name slot).Perm (rules.competing d inherited' name slot) :=
  (perm_unmatchedNamed perm).filter _

theorem Plain.exists_fakesFrom_of_perm (plain : rules.Plain) (perm : inherited.Perm inherited')
    (made : rules.fakesFrom d inherited = .ok fakes) : ∃ fakes', rules.fakesFrom d inherited' = .ok fakes' := by
  have each := exists_fakesFrom_iff.mp ⟨fakes, made⟩
  apply exists_fakesFrom_iff.mpr
  intro name
  exact plain.evenhanded.exists_synthesize_of_perm (perm_unmatchedNamed perm) (.refl _) (each name)

theorem DefaultClashes.exists_counterpart_of_perm (defaults : rules.DefaultClashes)
    (perm : inherited.Perm inherited') (made : rules.fakesFrom d inherited = .ok fakes)
    (made' : rules.fakesFrom d inherited' = .ok fakes') (here : fake ∈ fakes) :
    ∃ fake' ∈ fakes', fake'.name = fake.name ∧ fake'.slotFingerprint = fake.slotFingerprint := by
  refine defaults.exists_counterpart made made' ?_ here
  intro m free
  exact ⟨m, (perm_unmatchedNamed perm).subset free, rfl⟩

/-- Whatever can stand for all that a fake override stands for has its name, kind and signature. -/
def Unambiguous (rules : OverrideRules) (fake : Member) : Prop :=
  ∀ g ∈ fake.overridden, (∀ b ∈ fake.overridden, rules.dominates g b = true) → g.profile = fake.profile

theorem Narrows.profile_of_unambiguous (narrows : rules.Narrows) (perm : inherited.Perm inherited')
    (made : rules.fakesFrom d inherited = .ok fakes) (made' : rules.fakesFrom d inherited' = .ok fakes')
    (here : fake ∈ fakes) (there : fake' ∈ fakes') (named : fake'.name = fake.name)
    (slot : fake'.slotFingerprint = fake.slotFingerprint) (unambiguous : rules.Unambiguous fake) :
    fake'.profile = fake.profile := by
  have same : fake'.overridden.Perm fake.overridden := by
    rw [narrows.clashes.overridden_of_fakesFrom made here,
      narrows.clashes.overridden_of_fakesFrom made' there, named, slot]
    exact (perm_competing perm).symm
  obtain ⟨group, this, member⟩ := exists_of_mem_fakesFrom made' there
  obtain ⟨g, acts⟩ := narrows.exists_actsFor this member
  rw [acts.like]
  apply unambiguous g (same.subset (List.mem_of_find?_eq_some acts.chosen))
  intro b inside
  exact acts.dominates (same.mem_iff.mpr inside)

/-- A member that comes first among those that compete gives the signature if it can stand for them all. -/
theorem Narrows.profile_of_first (narrows : rules.Narrows) (made : rules.fakesFrom d inherited = .ok fakes)
    (here : fake ∈ fakes) {rest : List Member} (first : fake.overridden = g :: rest)
    (covers : ∀ b ∈ fake.overridden, rules.dominates g b = true) : fake.profile = g.profile := by
  obtain ⟨group, this, member⟩ := exists_of_mem_fakesFrom made here
  obtain ⟨other, acts⟩ := narrows.exists_actsFor this member
  have chosen := acts.chosen
  rw [mostSpecific?, first, List.find?_cons_of_pos (first ▸ List.all_eq_true.mpr covers)] at chosen
  rw [acts.like, Option.some.inj chosen]

theorem Narrows.mem_profiles_iff (narrows : rules.Narrows) (perm : inherited.Perm inherited')
    (made : rules.fakesFrom d inherited = .ok fakes) (made' : rules.fakesFrom d inherited' = .ok fakes')
    (unambiguous : ∀ fake ∈ fakes, rules.Unambiguous fake) {profile : String × MemberKind × Signature} :
    profile ∈ fakes'.map Member.profile ↔ profile ∈ fakes.map Member.profile := by
  simp only [List.mem_map]
  constructor
  · rintro ⟨fake', there, rfl⟩
    obtain ⟨fake, here, named, slot⟩ := narrows.clashes.exists_counterpart_of_perm perm.symm made' made there
    refine ⟨fake, here, ?_⟩
    exact (narrows.profile_of_unambiguous perm made made' here there named.symm slot.symm (unambiguous fake here)).symm
  · rintro ⟨fake, here, rfl⟩
    obtain ⟨fake', there, named, slot⟩ := narrows.clashes.exists_counterpart_of_perm perm made made' here
    refine ⟨fake', there, ?_⟩
    exact narrows.profile_of_unambiguous perm made made' here there named slot (unambiguous fake here)

theorem Narrows.profile_of_leading (narrows : rules.Narrows) {scope rest : List Member}
    (apart : scope.Pairwise fun a b => a.name = b.name → a.slotFingerprint ≠ b.slotFingerprint)
    (perm : inherited.Perm (scope ++ rest)) (made : rules.fakesFrom d inherited = .ok fakes)
    (made' : rules.fakesFrom d (scope ++ rest) = .ok fakes') (here : fake ∈ fakes) (there : fake' ∈ fakes')
    (named : fake'.name = fake.name) (slot : fake'.slotFingerprint = fake.slotFingerprint)
    (inside : g ∈ fake.overridden) (leads : g ∈ scope)
    (covers : ∀ b ∈ fake.overridden, rules.dominates g b = true) : fake'.profile = g.profile := by
  have before := narrows.clashes.overridden_of_fakesFrom made here
  have after := narrows.clashes.overridden_of_fakesFrom made' there
  rw [named, slot] at after
  have same : fake.overridden.Perm fake'.overridden := by
    rw [before, after]
    exact perm_competing perm
  have competes : g ∈ rules.competing d scope fake.name fake.slotFingerprint := by
    obtain ⟨free, slot⟩ := (narrows.clashes.mem_overridden_iff made here).mp inside
    obtain ⟨⟨-, named⟩, unmatched⟩ := mem_unmatchedNamed.mp free
    exact mem_competing.mpr ⟨mem_unmatchedNamed.mpr ⟨⟨leads, named⟩, unmatched⟩, slot⟩
  rw [competing_append, competing_eq_singleton apart competes, List.singleton_append] at after
  exact narrows.profile_of_first made' there after fun b member => covers b (same.mem_iff.mpr member)

end OverrideRules

/-- The names, kinds and signatures of the fake overrides. -/
def EffectiveClass.profiles (c : EffectiveClass) : List (String × MemberKind × Signature) :=
  c.scope.fakes.map Member.profile

@[simp] theorem EffectiveClass.profiles_ofDeclaration {d : Declaration} {fakes : List Member} :
    (ofDeclaration d fakes).profiles = fakes.map Member.profile := by
  rw [profiles, fakes_ofDeclaration]

namespace Registry

open OverrideRules

variable {rules : OverrideRules} {r : Registry} {d : Declaration} {c : EffectiveClass} {names : List String}
  {supertypes reordered : List EffectiveClass} {fakes : List Member} {fake : Member}

theorem exists_perm_of_listed (perm : names.Perm d.supertypes)
    (listed : Forall₂ (fun name c => r.resolvedByName? name = some c) d.supertypes supertypes) :
    ∃ reordered, Forall₂ (fun name c => r.resolvedByName? name = some c) names reordered ∧
      (aggregate supertypes).Perm (aggregate reordered) := by
  obtain ⟨reordered, there, same⟩ := List.perm_comp_forall₂ perm listed
  exact ⟨reordered, there, same.symm.flatMap_right _⟩

theorem perm_of_listed (perm : names.Perm d.supertypes)
    (listed : Forall₂ (fun name c => r.resolvedByName? name = some c) d.supertypes supertypes)
    (listed' : Forall₂ (fun name c => r.resolvedByName? name = some c) names reordered) :
    (aggregate supertypes).Perm (aggregate reordered) := by
  have unique : Relator.RightUnique fun name c => r.resolvedByName? name = some c :=
    fun _ _ _ found found' => Option.some.inj (found.symm.trans found')
  exact (List.rel_perm_imp unique listed listed' perm.symm).flatMap_right _

theorem exists_front {b : EffectiveClass} (above : b ∈ supertypes)
    (listed : Forall₂ (fun name c => r.resolvedByName? name = some c) d.supertypes supertypes) :
    ∃ names rest, names.Perm d.supertypes ∧
      Forall₂ (fun name c => r.resolvedByName? name = some c) names (b :: rest) ∧
        (aggregate supertypes).Perm (b.members ++ aggregate rest) := by
  obtain ⟨name, member, found⟩ := exists_left listed above
  have front : (name :: d.supertypes.erase name).Perm d.supertypes := (List.perm_cons_erase member).symm
  obtain ⟨reordered, listed', perm⟩ := exists_perm_of_listed front listed
  obtain ⟨b', rest, found', others, rfl⟩ := List.forall₂_cons_left_iff.mp listed'
  obtain rfl : b' = b := Option.some.inj (found'.symm.trans found)
  exact ⟨_, rest, front, .cons found others, perm⟩

/-- If the order of the supertypes does not change the signatures, whatever can stand for all that a fake
override stands for has its signature. -/
theorem unambiguous_of_profiles (narrows : rules.Narrows) (reached : Reached (·.Completes (· = rules)) r)
    (listed : Forall₂ (fun name c => r.resolvedByName? name = some c) d.supertypes supertypes)
    (made : rules.fakeOverrides d supertypes = .ok fakes)
    (same : ∀ names reordered fakes', names.Perm d.supertypes →
      Forall₂ (fun name c => r.resolvedByName? name = some c) names reordered →
      rules.fakeOverrides d reordered = .ok fakes' → fakes'.map Member.profile ⊆ fakes.map Member.profile)
    (here : fake ∈ fakes) : rules.Unambiguous fake := by
  intro g inside covers
  have inherited : g ∈ aggregate supertypes := by
    obtain ⟨free, -⟩ := (narrows.clashes.mem_overridden_iff made here).mp inside
    exact (mem_unmatchedNamed.mp free).1.1
  obtain ⟨b, above, leads⟩ := List.mem_flatMap.mp inherited
  -- With the supertype of the member in front, the member is the first that competes for the slot.
  obtain ⟨names, rest, front, listed', perm⟩ := exists_front above listed
  obtain ⟨fakes', made'⟩ := narrows.plain.exists_fakesFrom_of_perm perm made
  obtain ⟨fake', there, named, slot⟩ := narrows.clashes.exists_counterpart_of_perm perm made made' here
  have apart : b.members.Pairwise fun a b => a.name = b.name → a.slotFingerprint ≠ b.slotFingerprint := by
    obtain ⟨_, -, found⟩ := exists_left listed above
    have descends := (sound_of_reached reached).descends b (mem_of_resolved? found)
    exact (descends.imp fun _ same => same ▸ narrows.clashes).pairwise_members
  have like : fake'.profile = g.profile :=
    narrows.profile_of_leading apart perm made made' here there named slot inside leads covers
  have kept : fake'.profile ∈ fakes.map Member.profile :=
    same names (b :: rest) fakes' front listed' made' (List.mem_map_of_mem there)
  obtain ⟨other, member, profile⟩ := List.mem_map.mp kept
  have only : other = fake := by
    refine narrows.clashes.eq_of_slot made member here ?_ ?_
    · exact (Member.name_eq_of_profile profile).trans named
    · exact (Member.slotFingerprint_eq_of_profile profile).trans slot
  rw [← like, ← profile, only]

/-- A class that resolves does so with its supertypes in any order. The signatures of its fake overrides
are the same in each order just if none of them has a rival with another signature. -/
theorem profiles_reorder_iff (narrows : rules.Narrows) (reached : Reached (·.Completes (· = rules)) r)
    (resolved : r.resolve rules d = .ok c) :
    (∀ names, names.Perm d.supertypes → ∃ c', r.resolve rules { d with supertypes := names } = .ok c') ∧
      ((∀ names c', names.Perm d.supertypes → r.resolve rules { d with supertypes := names } = .ok c' →
          ∀ profile, profile ∈ c'.profiles ↔ profile ∈ c.profiles) ↔
        ∀ fake ∈ c.scope.fakes, rules.Unambiguous fake) := by
  obtain ⟨supertypes, fakes, listed, made, rfl⟩ := resolve_eq_ok_iff.mp resolved
  rw [EffectiveClass.fakes_ofDeclaration, EffectiveClass.profiles_ofDeclaration]
  refine ⟨?_, ?_, ?_⟩
  · intro names perm
    obtain ⟨reordered, listed', perm'⟩ := exists_perm_of_listed perm listed
    obtain ⟨fakes', made'⟩ := narrows.plain.exists_fakesFrom_of_perm perm' made
    exact ⟨_, resolve_eq_ok_iff.mpr ⟨reordered, fakes', listed', made', rfl⟩⟩
  · intro same fake here
    refine unambiguous_of_profiles narrows reached listed made ?_ here
    intro names reordered fakes' perm listed' made' profile member
    have resolved' : r.resolve rules { d with supertypes := names } =
        .ok (.ofDeclaration { d with supertypes := names } fakes') :=
      resolve_eq_ok_iff.mpr ⟨reordered, fakes', listed', made', rfl⟩
    refine (same names _ perm resolved' profile).mp ?_
    rwa [EffectiveClass.profiles_ofDeclaration]
  · intro unambiguous names c' perm resolved' profile
    obtain ⟨reordered, fakes', listed', made', rfl⟩ := resolve_eq_ok_iff.mp resolved'
    rw [EffectiveClass.profiles_ofDeclaration]
    exact narrows.mem_profiles_iff (perm_of_listed perm listed listed') made made' unambiguous

/-- One of its supertypes narrows what the other declares. -/
def gauge (supertypes : List String) : Declaration := .named .ordinary "Gauge" supertypes []

theorem exists_gauge : (∃ c, completedBranches.resolve covariant (gauge ["Source", "Metered"]) = .ok c ∧
      c.profiles = [("read", .function, ⟨[], .named "Any"⟩)]) ∧
    ∃ c, completedBranches.resolve covariant (gauge ["Metered", "Source"]) = .ok c ∧
      c.profiles = [("read", .function, ⟨[], .named "Int"⟩)] :=
  ⟨map_eq_ok_iff.mp (by decide +kernel), map_eq_ok_iff.mp (by decide +kernel)⟩

theorem profiles_reorder_gauge : ∃ c, completedBranches.resolve covariant (gauge ["Source", "Metered"]) = .ok c ∧
    (∀ names, names.Perm ["Source", "Metered"] →
      ∃ c', completedBranches.resolve covariant (gauge names) = .ok c') ∧
    ((∀ names c', names.Perm ["Source", "Metered"] → completedBranches.resolve covariant (gauge names) = .ok c' →
        ∀ profile, profile ∈ c'.profiles ↔ profile ∈ c.profiles) ↔
      ∀ fake ∈ c.scope.fakes, covariant.Unambiguous fake) := by
  obtain ⟨⟨c, resolved, -⟩, -⟩ := exists_gauge
  exact ⟨c, resolved, profiles_reorder_iff narrows_covariant reached_branches resolved⟩

/-- The signature of `Gauge::read` is the one of the supertype that comes first, though `Metered` narrows
what `Source` declares. -/
theorem not_forall_profiles_reorder : ¬ ∀ (rules : OverrideRules) (r : Registry), rules.Narrows →
    Reached (·.Completes (· = rules)) r → ∀ (d : Declaration) (names : List String) (c c' : EffectiveClass),
      names.Perm d.supertypes → r.resolve rules d = .ok c →
        r.resolve rules { d with supertypes := names } = .ok c' →
          ∀ profile, profile ∈ c'.profiles ↔ profile ∈ c.profiles := by
  intro all
  obtain ⟨⟨c, resolved, any⟩, c', resolved', int⟩ := exists_gauge
  have same := all covariant completedBranches narrows_covariant reached_branches (gauge ["Source", "Metered"])
    ["Metered", "Source"] c c' (.swap ..) resolved resolved' ("read", .function, ⟨[], .named "Int"⟩)
  rw [any, int] at same
  revert same
  decide +kernel

end Registry

end Inheritance
