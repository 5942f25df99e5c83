import Inheritance.Proofs.Rivals
import Mathlib.Data.Finset.Dedup

/-! The members of a group in another arrangement. Whether they match, become fake overrides or conflict does not
depend on the order in which they are inherited or declared, and neither does what the fake overrides stand for.
Nothing is assumed of overriding, which may go in circles. -/
namespace Inheritance

open Member (rivals)

namespace Member

variable {l l' : List Member} {g : Member} {owner : Fingerprint} {ownerName : String}

/-- What a member stands for, in no order: the inherited members, each as often as it is inherited, whether the
member is abstract, and its roots. -/
structure Extent where
  overridden : Multiset Member
  isAbstract : Bool
  roots : Finset Fingerprint

def extent (m : Member) : Extent := ⟨m.overridden, m.isAbstract, m.roots.toFinset⟩

/-- The extent of a fake override for the members. -/
def Extent.ofList (l : List Member) : Extent := ⟨l, l.all (·.isAbstract), (inheritedRoots l).toFinset⟩

theorem extent_synthesize : (synthesize owner ownerName g l).extent = .ofList l := by
  rw [extent, isAbstract_synthesize_eq_all]
  rfl

theorem Extent.ofList_of_perm (perm : l.Perm l') : Extent.ofList l = .ofList l' := by
  have abstract : l.all (·.isAbstract) = l'.all (·.isAbstract) := perm.all_eq
  have roots : (inheritedRoots l).toFinset = (inheritedRoots l').toFinset := by
    ext h
    simp only [List.mem_toFinset, mem_inheritedRoots, perm.mem_iff]
  rw [ofList, ofList, Multiset.coe_eq_coe.mpr perm, abstract, roots]

end Member

/-- Two outcomes of one kind. Their fake overrides have the same extents in some order. -/
inductive Outcome.Rearranges : Outcome → Outcome → Prop where
  | matched : Rearranges .matched .matched
  | synthesized {fakes fakes' : List Member} (extents : (fakes.map Member.extent).Perm (fakes'.map Member.extent)) :
      Rearranges (.synthesized fakes) (.synthesized fakes')
  | conflict {c c' : Conflict} : Rearranges (.conflict c) (.conflict c')

namespace OverrideRules

variable {rules : OverrideRules} {d : Declaration} {group group' : NameGroup}
  {declared declared' members members' fakes fakes' : List Member} {fake : Member}

theorem perm_unmatched (inherited : group.inherited.Perm group'.inherited)
    (declared : group.declared.Perm group'.declared) : (rules.unmatched group).Perm (rules.unmatched group') := by
  have same : (fun base => !group.declared.any (rules.overrides · base)) =
      fun base => !group'.declared.any (rules.overrides · base) := by
    funext base
    rw [declared.any_eq]
  rw [unmatched, unmatched, same]
  exact inherited.filter _

theorem DefaultClashes.extent_of_synthesize (defaults : rules.DefaultClashes)
    (made : rules.synthesize d declared members = .ok fakes) (member : fake ∈ fakes) :
    fake.extent = .ofList (rivals members fake.slotFingerprint) := by
  obtain ⟨g, -, this⟩ := exists_of_mem_synthesize made member
  rw [← defaults.overridden_of_synthesize made member, this, Member.extent_synthesize, Member.overridden_synthesize]

theorem DefaultClashes.mem_slots_iff (defaults : rules.DefaultClashes)
    (made : rules.synthesize d declared members = .ok fakes) {slot : Fingerprint} :
    slot ∈ fakes.map Member.slotFingerprint ↔ slot ∈ members.map Member.slotFingerprint := by
  simp only [List.mem_map]
  constructor
  · rintro ⟨fake, here, rfl⟩
    obtain ⟨m, there, like⟩ := profile_of_synthesize made here
    exact ⟨m, there, (Member.slotFingerprint_eq_of_profile like).symm⟩
  · rintro ⟨m, here, rfl⟩
    exact defaults.exists_of_synthesize made here

theorem DefaultClashes.perm_slots_of_perm (defaults : rules.DefaultClashes) (perm : members.Perm members')
    (made : rules.synthesize d declared members = .ok fakes)
    (made' : rules.synthesize d declared' members' = .ok fakes') :
    (fakes.map Member.slotFingerprint).Perm (fakes'.map Member.slotFingerprint) := by
  have distinct : (fakes.map Member.slotFingerprint).Nodup :=
    List.pairwise_map.mpr (defaults.pairwise_synthesize made)
  have distinct' : (fakes'.map Member.slotFingerprint).Nodup :=
    List.pairwise_map.mpr (defaults.pairwise_synthesize made')
  apply (List.perm_ext_iff_of_nodup distinct distinct').mpr
  intro slot
  rw [defaults.mem_slots_iff made, defaults.mem_slots_iff made']
  exact (perm.map _).mem_iff

/-- A slot has one fake override, and its extent can be told from the members that compete for the slot. -/
theorem DefaultClashes.perm_extents (defaults : rules.DefaultClashes) (perm : members.Perm members')
    (made : rules.synthesize d declared members = .ok fakes)
    (made' : rules.synthesize d declared' members' = .ok fakes') :
    (fakes.map Member.extent).Perm (fakes'.map Member.extent) := by
  have told : fakes.map Member.extent =
      (fakes.map Member.slotFingerprint).map fun slot => .ofList (rivals members slot) := by
    rw [List.map_map]
    exact List.map_congr_left fun fake here => defaults.extent_of_synthesize made here
  have told' : fakes'.map Member.extent =
      (fakes'.map Member.slotFingerprint).map fun slot => .ofList (rivals members slot) := by
    rw [List.map_map]
    apply List.map_congr_left
    intro fake here
    rw [defaults.extent_of_synthesize made' here]
    exact Member.Extent.ofList_of_perm (perm.symm.filter _)
  rw [told, told']
  exact (defaults.perm_slots_of_perm perm made made').map _

/-- Where clashing and compatibility are left at their defaults, the outcome of a group is the same in every
order of its members, whatever overriding is. -/
theorem rearranges_resolveGroup (overrides : Member → Member → Bool) (d : Declaration) {group group' : NameGroup}
    (inherited : group.inherited.Perm group'.inherited) (declared : group.declared.Perm group'.declared) :
    let rules : OverrideRules := { overrides }
    (rules.resolveGroup d group).Rearranges (rules.resolveGroup d group') := by
  intro rules
  have even : rules.Evenhanded := evenhanded_of_defaults (fun _ _ => rfl) (fun _ _ => rfl)
  have perm : (rules.unmatched group).Perm (rules.unmatched group') := perm_unmatched inherited declared
  cases outcome : rules.resolveGroup d group with
  | matched =>
    have none : rules.unmatched group' = [] := by
      rw [resolveGroup_eq_matched_iff.mp outcome] at perm
      exact perm.symm.eq_nil
    rw [resolveGroup_eq_matched_iff.mpr none]
    exact .matched
  | synthesized fakes =>
    obtain ⟨some, made⟩ := resolveGroup_eq_synthesized_iff.mp outcome
    have some' : rules.unmatched group' ≠ [] := fun none => some (none ▸ perm).eq_nil
    obtain ⟨fakes', made'⟩ := even.exists_synthesize_of_perm perm declared ⟨fakes, made⟩
    rw [resolveGroup_eq_synthesized_iff.mpr ⟨some', made'⟩]
    exact .synthesized (even.clashes.perm_extents perm made made')
  | conflict c =>
    have failed := resolveGroup_eq_conflict_iff.mp outcome
    cases made' : rules.synthesize d group'.declared (rules.unmatched group') with
    | ok fakes' =>
      obtain ⟨fakes, made⟩ := even.exists_synthesize_of_perm perm.symm declared.symm ⟨fakes', made'⟩
      rw [made] at failed
      contradiction
    | error c' =>
      rw [resolveGroup_eq_conflict_iff.mpr made']
      exact .conflict

/-- The members of `A` and `B` override each other, so the one that comes first gives the signature. What the fake
overrides stand for is the same in both orders. -/
theorem rearranges_resolveGroup_reversed :
    let read (owner result : String) := Member.declare owner .function "read" ⟨[], .named result⟩ .abstract
    let find := Member.declare "D" .function "read" ⟨[.named "Int"], .unit⟩ .overridable
    let take (owner : String) := Member.declare owner .function "read" ⟨[.named "Text"], .unit⟩ .overridable
    let overrides (a b : Member) : Bool :=
      (a.ownerName, b.ownerName) ∈ [("A", "B"), ("B", "A"), ("A", "C"), ("B", "C"), ("F", "E")]
    let rules : OverrideRules := { overrides }
    let f := Declaration.named .ordinary "F" ["A", "B", "C", "D", "E"] [take "F"]
    let group : NameGroup := ⟨"read", [read "A" "Int", find, read "B" "Any", take "E", read "C" "Any"], [take "F"]⟩
    let group' : NameGroup := ⟨"read", group.inherited.reverse, group.declared.reverse⟩
    rules.resolveGroup f group = .synthesized
        [.synthesize f.fingerprint "F" (read "A" "Int") [read "A" "Int", read "B" "Any", read "C" "Any"],
          .synthesize f.fingerprint "F" find [find]] ∧
      rules.resolveGroup f group' = .synthesized
        [.synthesize f.fingerprint "F" (read "B" "Any") [read "C" "Any", read "B" "Any", read "A" "Int"],
          .synthesize f.fingerprint "F" find [find]] ∧
      group.inherited.Perm group'.inherited ∧ group.declared.Perm group'.declared ∧
        (rules.resolveGroup f group).Rearranges (rules.resolveGroup f group') := by
  intro read find take overrides rules f group group'
  have inherited : group.inherited.Perm group'.inherited := (List.reverse_perm _).symm
  have declared : group.declared.Perm group'.declared := (List.reverse_perm _).symm
  refine ⟨?_, ?_, inherited, declared, rearranges_resolveGroup overrides f inherited declared⟩
  · decide +kernel
  · decide +kernel

end OverrideRules

end Inheritance
