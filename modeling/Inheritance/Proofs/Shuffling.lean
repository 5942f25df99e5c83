import Inheritance.Proofs.Confluence
import Inheritance.Proofs.Meaning

/-! Supertypes listed in another order all over a hierarchy. Under the default rules the same classes
become effective, and what their members mean is the same, as long as declared members can be told apart. -/
namespace Inheritance

open List (Forall₂)
open Relation (TransGen)
open Member (meanings Distinguished Rooted)

variable {declarations declarations' : List Declaration} {d d' : Declaration} {c c' : EffectiveClass}
  {supertypes supertypes' : List EffectiveClass} {h k : Fingerprint}

namespace Declaration

/-- Only the order of the supertypes may differ. -/
def Shuffles (d d' : Declaration) : Prop :=
  ∃ supertypes, supertypes.Perm d.supertypes ∧ d' = { d with supertypes }

theorem Shuffles.symm (shuffles : d.Shuffles d') : d'.Shuffles d := by
  obtain ⟨supertypes, perm, rfl⟩ := shuffles
  exact ⟨d.supertypes, perm.symm, rfl⟩

theorem Shuffles.fingerprint (shuffles : d.Shuffles d') : d.fingerprint = d'.fingerprint := by
  obtain ⟨_, _, rfl⟩ := shuffles
  rfl

theorem Shuffles.members (shuffles : d.Shuffles d') : d.members = d'.members := by
  obtain ⟨_, _, rfl⟩ := shuffles
  rfl

theorem Shuffles.mem_supertypeFingerprints (shuffles : d.Shuffles d') (listed : h ∈ d.supertypeFingerprints) :
    h ∈ d'.supertypeFingerprints := by
  obtain ⟨supertypes, perm, rfl⟩ := shuffles
  exact (perm.map _).mem_iff.mpr listed

theorem Shuffles.valid (shuffles : d.Shuffles d') (valid : d.defect? = none) : d'.defect? = none := by
  obtain ⟨supertypes, perm, rfl⟩ := shuffles
  obtain ⟨owned, apart, other, distinct⟩ := defect?_eq_none_iff.mp valid
  refine defect?_eq_none_iff.mpr ⟨owned, apart, ?_, perm.nodup_iff.mpr distinct⟩
  exact fun listed => other (perm.subset listed)

end Declaration

section

variable (shuffled : Forall₂ Declaration.Shuffles declarations declarations')

include shuffled

theorem shuffled_symm : Forall₂ Declaration.Shuffles declarations' declarations :=
  shuffled.flip.imp fun _ _ => Declaration.Shuffles.symm

theorem map_fingerprint_of_shuffled :
    declarations.map (·.fingerprint) = declarations'.map (·.fingerprint) := by
  induction shuffled with
  | nil => rfl
  | cons first _ ih => rw [List.map_cons, List.map_cons, first.fingerprint, ih]

theorem declaredMembers_of_shuffled : declaredMembers declarations = declaredMembers declarations' := by
  induction shuffled with
  | nil => rfl
  | cons first _ ih =>
    rw [declaredMembers, declaredMembers, List.flatMap_cons, List.flatMap_cons, first.members]
    exact congrArg _ ih

theorem Registrable.of_shuffled (registrable : Registrable declarations) : Registrable declarations' where
  valid d' member := by
    obtain ⟨d, here, shuffles⟩ := exists_left shuffled member
    exact shuffles.valid (registrable.valid d here)
  distinct := map_fingerprint_of_shuffled shuffled ▸ registrable.distinct

theorem lists_of_shuffled (listed : Lists declarations h k) : Lists declarations' h k := by
  obtain ⟨d, member, rfl, listed⟩ := listed
  obtain ⟨d', there, shuffles⟩ := exists_right shuffled member
  exact ⟨d', there, shuffles.fingerprint.symm, shuffles.mem_supertypeFingerprints listed⟩

theorem lists_iff_of_shuffled : Lists declarations h k ↔ Lists declarations' h k :=
  ⟨lists_of_shuffled shuffled, lists_of_shuffled (shuffled_symm shuffled)⟩

end

/-- The classes declare the same members, and their fake overrides correspond one to one. -/
structure EffectiveClass.Alike (c c' : EffectiveClass) : Prop where
  declared : c.scope.declared = c'.scope.declared
  fakes : (c.scope.fakes.map Member.meaning).Perm (c'.scope.fakes.map Member.meaning)

theorem EffectiveClass.Alike.meanings (alike : c.Alike c') : meanings c.members = meanings c'.members := by
  have fakes : Member.meanings c.scope.fakes = Member.meanings c'.scope.fakes := by
    ext x
    simpa [Member.meanings] using alike.fakes.mem_iff (a := x)
  rw [members, members, ← Scope.declared_append_fakes, ← Scope.declared_append_fakes, Member.meanings_append,
    Member.meanings_append, alike.declared, fakes]

theorem meanings_aggregate_subset
    (each : ∀ c ∈ supertypes, ∃ c' ∈ supertypes', meanings c.members = meanings c'.members) :
    meanings (aggregate supertypes) ⊆ meanings (aggregate supertypes') := by
  rintro x ⟨m, inherited, rfl⟩
  obtain ⟨c, here, inside⟩ := List.mem_flatMap.mp inherited
  obtain ⟨c', there, same⟩ := each c here
  have kept : m.meaning ∈ meanings c'.members := same ▸ Member.mem_meanings inside
  obtain ⟨m', inside', like⟩ := kept
  exact ⟨m', List.mem_flatMap.mpr ⟨c', there, inside'⟩, like⟩

namespace Registry

variable {rules : OverrideRules} {r r' : Registry} {errors errors' : List CompletionError}

/-- If all supertypes have counterparts, these mean the same together, in whatever order they are listed. -/
theorem exists_alike_supertypes {names : List String} (perm : names.Perm d.supertypes)
    (listed : Forall₂ (fun name c => r.resolvedByName? name = some c) d.supertypes supertypes)
    (each : ∀ c ∈ supertypes, ∃ c', r'.resolved? c.fingerprint = some c' ∧ c.Alike c') :
    ∃ supertypes', Forall₂ (fun name c => r'.resolvedByName? name = some c) names supertypes' ∧
      meanings (aggregate supertypes) = meanings (aggregate supertypes') := by
  have counterpart {name : String} (member : name ∈ names) : ∃ c ∈ supertypes, ∃ c',
      r.resolvedByName? name = some c ∧ r'.resolvedByName? name = some c' ∧ c.Alike c' := by
    obtain ⟨c, here, stored⟩ := exists_right listed (perm.subset member)
    obtain ⟨c', stored', alike⟩ := each c here
    rw [fingerprint_of_resolved? stored] at stored'
    exact ⟨c, here, c', stored, stored', alike⟩
  have all : ∀ name ∈ names, ∃ c', r'.resolvedByName? name = some c' := by
    intro name member
    obtain ⟨_, _, c', _, stored', _⟩ := counterpart member
    exact ⟨c', stored'⟩
  obtain ⟨supertypes', listed'⟩ := exists_forall₂_iff.mpr all
  refine ⟨supertypes', listed', ?_⟩
  apply Set.Subset.antisymm
  · apply meanings_aggregate_subset
    intro c here
    obtain ⟨name, member, stored⟩ := exists_left listed here
    obtain ⟨b, _, b', found, found', alike⟩ := counterpart (perm.mem_iff.mpr member)
    obtain rfl : b = c := Option.some.inj (found.symm.trans stored)
    obtain ⟨c', there, stored'⟩ := exists_right listed' (perm.mem_iff.mpr member)
    obtain rfl : b' = c' := Option.some.inj (found'.symm.trans stored')
    exact ⟨b', there, alike.meanings⟩
  · apply meanings_aggregate_subset
    intro c' there
    obtain ⟨name, member, stored'⟩ := exists_left listed' there
    obtain ⟨b, here, b', _, found', alike⟩ := counterpart member
    obtain rfl : b' = c' := Option.some.inj (found'.symm.trans stored')
    exact ⟨b, here, alike.meanings.symm⟩

theorem Settled.exists_alike (settled : Settled .bySignature r')
    (distinguished : Distinguished (declaredMembers r.declarations))
    (kept : ∀ h d, r.get? h = some d → ∃ d', r'.get? h = some d' ∧ d.Shuffles d')
    (descends : r.Descends (· = .bySignature) c) :
    ∃ c', r'.resolved? c.fingerprint = some c' ∧ c.Alike c' := by
  induction descends with
  | @made _ d supertypes fakes allowed registered _ listed computed below ih =>
    subst allowed
    obtain ⟨_, found, names, perm, rfl⟩ := kept _ _ registered
    obtain ⟨supertypes', listed', same⟩ := exists_alike_supertypes perm listed ih
    have rooted : ∀ m ∈ aggregate supertypes, Rooted (declaredMembers r.declarations) m :=
      rooted_aggregate distinguished below
    obtain ⟨fakes', made'⟩ := OverrideRules.exists_fakesFrom_of_meanings distinguished rooted computed same
    have resolves : r'.resolve .bySignature { d with supertypes := names } =
        .ok (.ofDeclaration { d with supertypes := names } fakes') :=
      resolve_eq_ok_iff.mpr ⟨supertypes', fakes', listed', made', rfl⟩
    have stored := settled _ _ found
    rw [resolves] at stored
    refine ⟨_, stored, ?_, ?_⟩
    · rw [EffectiveClass.declared_ofDeclaration, EffectiveClass.declared_ofDeclaration]
    rw [EffectiveClass.fakes_ofDeclaration, EffectiveClass.fakes_ofDeclaration]
    exact OverrideRules.perm_meanings_of_fakesFrom distinguished rooted computed same made'

theorem Ends.exists_alike (shuffled : Forall₂ Declaration.Shuffles declarations declarations')
    (distinguished : Distinguished (declaredMembers declarations))
    (ends : Ends .bySignature declarations r errors) (ends' : Ends .bySignature declarations' r' errors')
    (stored : r.resolved? h = some c) : ∃ c', r'.resolved? h = some c' ∧ c.Alike c' := by
  have members : declaredMembers r.declarations ⊆ declaredMembers declarations :=
    (ends.registered.flatMap_right _).subset
  have kept : ∀ h d, r.get? h = some d → ∃ d', r'.get? h = some d' ∧ d.Shuffles d' := by
    intro h d found
    obtain ⟨d', there, shuffles⟩ := exists_right shuffled (ends.registered.subset (mem_of_get? found))
    refine ⟨d', ?_, shuffles⟩
    refine (get?_eq_some_iff ends'.reached.nodup).mpr ⟨ends'.registered.mem_iff.mpr there, ?_⟩
    exact shuffles.fingerprint.symm.trans (fingerprint_of_get? found)
  have descends := (sound_of_reached ends.reached).descends c (mem_of_resolved? stored)
  rw [← fingerprint_of_resolved? stored]
  refine ends'.settled.exists_alike ?_ kept descends
  exact fun m here n there => distinguished m (members here) n (members there)

theorem exists_complete_of_cycle (registrable : Registrable declarations)
    (cycle : TransGen (Lists declarations) h h) : ∃ name,
      ((∅ : Registry).registerAll declarations).1.complete rules false =
        (Report.empty.consError (.circularInheritance name), ⟨declarations, []⟩) := by
  rw [registerAll_empty registrable]
  cases found : completionOrder ⟨declarations, []⟩ with
  | ok order => exact absurd cycle (acyclic_of_registrable registrable found)
  | error e =>
    obtain ⟨_, d, -, -, stopped⟩ := complete_of_cycle rules false found
    exact ⟨d.name, stopped⟩

theorem circular_iff (registrable : Registrable declarations) :
    (((∅ : Registry).registerAll declarations).1.complete rules false).1.Circular ↔
      ∃ h, TransGen (Lists declarations) h h := by
  constructor
  · rintro ⟨name, reported⟩
    by_contra acyclic
    have none (h : Fingerprint) : ¬ TransGen (Lists declarations) h h := fun cycle => acyclic ⟨h, cycle⟩
    have ends : Ends rules declarations _ _ := ends_of_registerAll registrable none
    obtain ⟨h, -, failed⟩ := List.mem_filterMap.mp (ends.reported.subset reported)
    obtain ⟨error, same⟩ := exists_resolution_of_failure? failed
    cases same
  · rintro ⟨h, cycle⟩
    obtain ⟨name, stopped⟩ := exists_complete_of_cycle registrable cycle
    rw [stopped]
    exact ⟨name, List.mem_cons_self⟩

/-- The order in which the classes of a hierarchy list their supertypes does not change what it means. -/
theorem alike_of_shuffled (registrable : Registrable declarations)
    (distinguished : Distinguished (declaredMembers declarations))
    (shuffled : Forall₂ Declaration.Shuffles declarations declarations') :
    let run := ((∅ : Registry).registerAll declarations).1.complete .bySignature false
    let run' := ((∅ : Registry).registerAll declarations').1.complete .bySignature false
    (run.1.Circular ↔ run'.1.Circular) ∧
      ∀ h, Option.Rel EffectiveClass.Alike (run.2.resolved? h) (run'.2.resolved? h) := by
  intro run run'
  have registrable' := registrable.of_shuffled shuffled
  have lists : Lists declarations = Lists declarations' := by
    funext h k
    exact propext (lists_iff_of_shuffled shuffled)
  refine ⟨?_, fun h => ?_⟩
  · rw [circular_iff registrable, circular_iff registrable', lists]
  by_cases circular : ∃ k, TransGen (Lists declarations) k k
  · obtain ⟨k, cycle⟩ := circular
    have nothing {declarations : List Declaration} (registrable : Registrable declarations)
        (cycle : TransGen (Lists declarations) k k) :
        (((∅ : Registry).registerAll declarations).1.complete .bySignature false).2.resolved? h = none := by
      obtain ⟨_, stopped⟩ := exists_complete_of_cycle registrable cycle
      rw [stopped]
      rfl
    rw [nothing registrable cycle, nothing registrable' (lists ▸ cycle)]
    exact .none
  · have acyclic (k : Fingerprint) : ¬ TransGen (Lists declarations) k k := fun cycle => circular ⟨k, cycle⟩
    have ends : Ends .bySignature declarations run.2 run.1.errors :=
      ends_of_registerAll registrable acyclic
    have ends' : Ends .bySignature declarations' run'.2 run'.1.errors :=
      ends_of_registerAll registrable' (lists ▸ acyclic)
    cases stored : run.2.resolved? h with
    | some c =>
      obtain ⟨c', stored', alike⟩ := ends.exists_alike shuffled distinguished ends' stored
      rw [stored']
      exact .some alike
    | none =>
      cases stored' : run'.2.resolved? h with
      | none => exact .none
      | some c' =>
        rw [declaredMembers_of_shuffled shuffled] at distinguished
        obtain ⟨c, found, -⟩ := ends'.exists_alike (shuffled_symm shuffled) distinguished ends stored'
        rw [stored] at found
        cases found

/-- The diamond with all supertypes in the opposite order. -/
def mirroredDiamond : List Declaration := diamond.map fun d => { d with supertypes := d.supertypes.reverse }

theorem shuffled_mirroredDiamond : Forall₂ Declaration.Shuffles diamond mirroredDiamond := by
  rw [mirroredDiamond, List.forall₂_map_right_iff, List.forall₂_same]
  intro d _
  exact ⟨d.supertypes.reverse, List.reverse_perm _, rfl⟩

theorem alike_of_mirrored :
    let run := ((∅ : Registry).registerAll diamond).1.complete .bySignature false
    let run' := ((∅ : Registry).registerAll mirroredDiamond).1.complete .bySignature false
    let owners (c : EffectiveClass) := c.scope.fakes.map fun fake => fake.overridden.map (·.ownerName)
    (run.2.resolvedByName? "Both").map owners = some [["Left", "Right"]] ∧
      (run'.2.resolvedByName? "Both").map owners = some [["Right", "Left"]] ∧
        (run.1.Circular ↔ run'.1.Circular) ∧
          ∀ h, Option.Rel EffectiveClass.Alike (run.2.resolved? h) (run'.2.resolved? h) :=
  ⟨by decide +kernel, by decide +kernel,
    alike_of_shuffled ⟨by decide +kernel, by decide +kernel⟩ (Member.distinguished_of_nodup (by decide +kernel))
      shuffled_mirroredDiamond⟩

end Registry

end Inheritance
