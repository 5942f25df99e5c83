import Inheritance.Proofs.Dispatch

/-! A scope holds what is declared in the class and in all of its supertypes, near or far, and nothing
else. What is held is a name with a slot: which member fills the slot is another question. -/
namespace Inheritance

open Relation (ReflTransGen)

/-- The name and the slot of a member. -/
def Member.entry (m : Member) : String × Fingerprint := (m.name, m.slotFingerprint)

def Member.entries (members : List Member) : List (String × Fingerprint) := members.map entry

@[simp] theorem Member.mem_entries {entry : String × Fingerprint} {members : List Member} :
    entry ∈ entries members ↔ ∃ m ∈ members, m.entry = entry := by
  simp [entries]

namespace OverrideRules

variable {rules : OverrideRules} {d : Declaration} {inherited fakes : List Member}

/-- A member overrides members of its own slot only, and members of one slot clash. -/
structure KeepsSlots (rules : OverrideRules) : Prop where
  clashes : rules.DefaultClashes
  overrides : ∀ {a b}, rules.overrides a b = true → a.slotFingerprint = b.slotFingerprint

theorem keepsSlots_bySignature : bySignature.KeepsSlots where
  clashes _ _ := rfl
  overrides h := (of_decide_eq_true h).1

theorem KeepsSlots.exists_of_mem (keeps : rules.KeepsSlots)
    (made : rules.fakesFrom d inherited = .ok fakes) {m : Member} (here : m ∈ inherited) :
    ∃ own ∈ d.members ++ fakes, own.entry = m.entry := by
  by_cases matched : ∃ own ∈ d.membersNamed m.name, rules.overrides own m = true
  · obtain ⟨own, there, covers⟩ := matched
    obtain ⟨declared, name⟩ := List.mem_filter.mp there
    refine ⟨own, List.mem_append_left _ declared, ?_⟩
    exact Prod.ext (of_decide_eq_true name) (keeps.overrides covers)
  · have free : m ∈ rules.unmatchedNamed d inherited m.name :=
      mem_unmatchedNamed.mpr ⟨⟨here, rfl⟩, by simpa using matched⟩
    obtain ⟨fake, there, name, slot⟩ := keeps.clashes.exists_of_unmatched made free
    exact ⟨fake, List.mem_append_right _ there, Prod.ext name slot⟩

theorem KeepsSlots.mem_entries_iff (keeps : rules.KeepsSlots)
    (made : rules.fakesFrom d inherited = .ok fakes) {entry : String × Fingerprint} :
    entry ∈ Member.entries (d.members ++ fakes) ↔
      entry ∈ Member.entries d.members ∨ entry ∈ Member.entries inherited := by
  simp only [Member.mem_entries]
  constructor
  · rintro ⟨m, member, rfl⟩
    refine (List.mem_append.mp member).imp (fun own => ⟨m, own, rfl⟩) fun fake => ?_
    obtain ⟨group, this, there⟩ := exists_of_mem_fakesFrom made fake
    obtain ⟨base, here, like⟩ := profile_of_synthesize this there
    refine ⟨base, (mem_unmatchedNamed.mp here).1.1, ?_⟩
    exact Prod.ext (Member.name_eq_of_profile like).symm (Member.slotFingerprint_eq_of_profile like).symm
  · rintro (⟨m, own, rfl⟩ | ⟨m, here, rfl⟩)
    · exact ⟨m, List.mem_append_left _ own, rfl⟩
    · exact keeps.exists_of_mem made here

end OverrideRules

namespace Registry

variable {r : Registry} {c : EffectiveClass} {d : Declaration} {supertypes : List EffectiveClass}
  {entry : String × Fingerprint}

/-- A class lies above itself, and so do its listed supertypes and all that lies above them. -/
def Above (r : Registry) : Fingerprint → Fingerprint → Prop := ReflTransGen fun h k => k ∈ r.parents h

/-- A class or one of its supertypes declares a member with the name and slot. -/
def Declares (r : Registry) (h : Fingerprint) (entry : String × Fingerprint) : Prop :=
  ∃ k d, r.Above h k ∧ r.get? k = some d ∧ entry ∈ Member.entries d.members

theorem declares_iff (registered : r.get? d.fingerprint = some d) : r.Declares d.fingerprint entry ↔
    entry ∈ Member.entries d.members ∨ ∃ name ∈ d.supertypes, r.Declares (.ofName name) entry := by
  have parents : r.parents d.fingerprint = d.supertypes.map .ofName := by
    simp [parents, registered, Declaration.supertypeFingerprints]
  constructor
  · rintro ⟨k, e, above, found, declared⟩
    rcases ReflTransGen.cases_head above with rfl | ⟨h, parent, above⟩
    · obtain rfl := Option.some.inj (registered.symm.trans found)
      exact .inl declared
    · rw [parents] at parent
      obtain ⟨name, listed, rfl⟩ := List.mem_map.mp parent
      exact .inr ⟨name, listed, k, e, above, found, declared⟩
  · rintro (declared | ⟨name, listed, k, e, above, found, declared⟩)
    · exact ⟨_, d, .refl, registered, declared⟩
    · refine ⟨k, e, above.head ?_, found, declared⟩
      rw [parents]
      exact List.mem_map_of_mem listed

theorem mem_entries_aggregate : entry ∈ Member.entries (aggregate supertypes) ↔
    ∃ c ∈ supertypes, entry ∈ Member.entries c.scope.members := by
  simp only [aggregate, Member.mem_entries, List.mem_flatMap, EffectiveClass.members]
  grind

/-- A scope is complete: what is declared anywhere above the class is there, and nothing else is. -/
theorem mem_entries_scope_iff (reached : Reached (·.Completes OverrideRules.KeepsSlots) r)
    (member : c ∈ r.effective) :
    entry ∈ Member.entries c.scope.members ↔ r.Declares c.fingerprint entry := by
  have descends := (sound_of_reached reached).descends c member
  clear member
  -- The supertypes come with the descent, so no acyclicity is needed for this induction.
  induction descends with
  | @made rules d supertypes fakes keeps registered _ listed made _ ih =>
    change entry ∈ Member.entries (d.members ++ fakes) ↔ r.Declares d.fingerprint entry
    rw [keeps.mem_entries_iff made, declares_iff registered, mem_entries_aggregate]
    refine or_congr_right ⟨?_, ?_⟩
    · rintro ⟨c, here, there⟩
      obtain ⟨name, inside, found⟩ := exists_left listed here
      have declared := (ih c here).mp there
      rw [fingerprint_of_resolved? found] at declared
      exact ⟨name, inside, declared⟩
    · rintro ⟨name, inside, declared⟩
      obtain ⟨c, here, found⟩ := exists_right listed inside
      rw [← fingerprint_of_resolved? found] at declared
      exact ⟨c, here, (ih c here).mpr declared⟩

theorem mem_entries_scope_diamond : ∃ c ∈ completedDiamond.effective, c.name = "Both" ∧
    ∀ entry, entry ∈ Member.entries c.scope.members ↔ completedDiamond.Declares c.fingerprint entry := by
  have last : ∃ c ∈ completedDiamond.effective, c.name = "Both" := by decide +kernel
  obtain ⟨c, member, name⟩ := last
  refine ⟨c, member, name, fun entry => ?_⟩
  exact mem_entries_scope_iff (reached_diamond OverrideRules.keepsSlots_bySignature) member

end Registry

end Inheritance
