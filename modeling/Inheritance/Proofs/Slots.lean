import Inheritance.Resolution
import Inheritance.Proofs.Grouping
import Inheritance.Proofs.Partition
import Inheritance.Proofs.Sequencing

/-! What it takes for the members of one name to become fake overrides. None of them clashes with a
declared member, any two that clash are compatible, and every slot has a member that can stand for
all of it. These facts hold for rules of any kind. -/
namespace Inheritance

open List (Forall₂)

/-- Members addressed by their positions in a list. -/
def numbered (members : List Member) : Vector Member members.length := ⟨members.toArray, List.size_toArray⟩

@[simp] theorem getElem_numbered {members : List Member} {i : Nat} (bound : i < members.length) :
    (numbered members)[i] = members[i] := rfl

namespace Member

/-- What a fake override takes over from its representative. -/
def profile (m : Member) : String × MemberKind × Signature := (m.name, m.kind, m.signature)

variable {a b : Member}

theorem name_eq_of_profile (same : a.profile = b.profile) : a.name = b.name := congrArg (·.1) same

theorem slotFingerprint_eq_of_profile (same : a.profile = b.profile) :
    a.slotFingerprint = b.slotFingerprint := by
  obtain ⟨name, rest⟩ := Prod.mk.inj same
  obtain ⟨kind, signature⟩ := Prod.mk.inj rest
  rw [slotFingerprint, slotFingerprint, name, kind, signature]

@[simp] theorem profile_synthesize {owner : Fingerprint} {ownerName : String} {l : List Member} :
    (synthesize owner ownerName a l).profile = a.profile := rfl

end Member

namespace OverrideRules

variable {rules : OverrideRules} {d : Declaration} {declared inherited members fakes : List Member}
  {fake : Member} {name : String}

theorem dominates_iff {a b : Member} : rules.dominates a b = true ↔
    a.sharesRoot b = true ∨ rules.overrides a b = true := by
  simp [dominates]

theorem mem_unmatched {group : NameGroup} {m : Member} : m ∈ rules.unmatched group ↔
    m ∈ group.inherited ∧ ∀ own ∈ group.declared, rules.overrides own m = false := by
  simp [unmatched]

/-- The inherited members that no declared member of the group overrides, in order. -/
def remaining (rules : OverrideRules) (group : NameGroup) : List Member :=
  group.inherited.filter fun base => ∀ own ∈ group.declared, rules.overrides own base = false

theorem unmatched_eq_remaining (group : NameGroup) : rules.unmatched group = rules.remaining group := by
  apply List.filter_congr
  intro base _
  rw [Bool.eq_iff_iff]
  simp

theorem declaredClash?_eq_none_iff : rules.declaredClash? declared inherited = none ↔
    ∀ base ∈ inherited, ∀ own ∈ declared, rules.clashes own base = false := by
  simp [declaredClash?]

theorem incompatible?_eq_none_iff : rules.incompatible? members = none ↔
    members.Pairwise fun a b => rules.clashes a b = true → rules.compatible a b = true := by
  induction members with
  | nil => simp [incompatible?]
  | cons a rest ih =>
    simp only [incompatible?, Option.or_eq_none_iff, Option.map_eq_none_iff, List.find?_eq_none,
      List.pairwise_cons, ih]
    simp

theorem joined_of_clash (apart : rules.incompatible? members = none) {i j : Fin members.length}
    (different : i ≠ j) (clash : ∀ a b, rules.clashes a b = true → rules.clashes b a = true)
    (clashes : rules.clashes (members.get i) (members.get j) = true) :
    Component.Joined (fun i j => rules.linked (members.get i) (members.get j)) i j := by
  have together {i j : Fin members.length} (lt : i < j)
      (clashes : rules.clashes (members.get i) (members.get j) = true) :
      Component.Joined (fun i j => rules.linked (members.get i) (members.get j)) i j := by
    have compatible := List.pairwise_iff_getElem.mp (incompatible?_eq_none_iff.mp apart)
      i j i.isLt j.isLt lt clashes
    refine Component.joined_of_lt lt ?_
    simp only [linked, Bool.and_eq_true]
    exact ⟨clashes, compatible⟩
  rcases Fin.lt_or_lt_of_ne different with lt | gt
  · exact together lt clashes
  · exact (together gt (clash _ _ clashes)).symm

theorem clashes_of_joined {i j : Fin members.length}
    (joined : Component.Joined (fun i j => rules.linked (members.get i) (members.get j)) i j) :
    rules.clashes (members.get i) (members.get j) = true ∨ rules.clashes (members.get j) (members.get i) = true := by
  simp only [Component.Joined, Component.adjacent, linked, Bool.or_eq_true, Bool.and_eq_true] at joined
  exact joined.imp (fun h => h.2.1) (fun h => h.2.1)

/-- The position whose member represents a slot: it can stand for the members at all others, and no
earlier position can. -/
structure Represents (rules : OverrideRules) (members : List Member) (slot : Component members.length)
    (i : Fin members.length) : Prop where
  inside : i ∈ slot.positions
  covers : ∀ j ∈ slot.positions, i = j ∨ rules.dominates (members.get i) (members.get j) = true
  first : ∃ before after, slot.positions = before ++ i :: after ∧
    ∀ k ∈ before, ∃ j ∈ slot.positions, k ≠ j ∧ rules.dominates (members.get k) (members.get j) = false

theorem represents_of_eq_some {slot : Component members.length} {i : Fin members.length}
    (found : rules.representative? (numbered members) slot = some i) : rules.Represents members slot i := by
  obtain ⟨covers, before, after, split, earlier⟩ := List.find?_eq_some_iff_append.mp found
  refine ⟨by simp [split], ?_, before, after, split, fun k member => ?_⟩
  · simpa using covers
  · simpa using earlier k member

theorem fill_eq_ok_iff {slot : Component members.length} :
    rules.fill (numbered members) d slot = .ok fake ↔
      ∃ i, rules.representative? (numbered members) slot = some i ∧
        fake = .synthesize d.fingerprint d.name (members.get i) (slot.positions.map members.get) := by
  unfold fill
  cases rules.representative? (numbered members) slot with
  | none => simp
  | some i =>
    simp only [Except.ok.injEq, Option.some.injEq, exists_eq_left']
    exact eq_comm

/-- A slot is filled if one of its positions can stand for all the others. -/
theorem exists_fill_iff_covers {slot : Component members.length} :
    (∃ fake, rules.fill (numbered members) d slot = .ok fake) ↔
      ∃ i ∈ slot.positions, ∀ j ∈ slot.positions,
        i = j ∨ rules.dominates (members.get i) (members.get j) = true := by
  have filled : (∃ fake, rules.fill (numbered members) d slot = .ok fake) ↔
      (rules.representative? (numbered members) slot).isSome = true := by
    rw [Option.isSome_iff_exists]
    constructor
    · rintro ⟨fake, this⟩
      obtain ⟨i, found, -⟩ := fill_eq_ok_iff.mp this
      exact ⟨i, found⟩
    · rintro ⟨i, found⟩
      exact ⟨_, fill_eq_ok_iff.mpr ⟨i, found, rfl⟩⟩
  rw [filled, representative?, List.find?_isSome]
  simp

theorem exists_represents_of_fill {slot : Component members.length}
    (filled : rules.fill (numbered members) d slot = .ok fake) : ∃ i, rules.Represents members slot i ∧
      fake = .synthesize d.fingerprint d.name (members.get i) (slot.positions.map members.get) := by
  obtain ⟨i, found, made⟩ := fill_eq_ok_iff.mp filled
  exact ⟨i, represents_of_eq_some found, made⟩

theorem synthesize_eq_ok_iff : rules.synthesize d declared members = .ok fakes ↔
    rules.declaredClash? declared members = none ∧ rules.incompatible? members = none ∧
      Forall₂ (fun slot fake => rules.fill (numbered members) d slot = .ok fake)
        (rules.slots (numbered members)) fakes := by
  rw [← mapM_eq_ok_iff, ← and_assoc, ← Option.or_eq_none_iff]
  unfold synthesize
  cases (rules.declaredClash? declared members).or (rules.incompatible? members) with
  | none => simp [numbered]
  | some c => simp

theorem profile_of_fill {slot : Component members.length}
    (filled : rules.fill (numbered members) d slot = .ok fake) :
    ∃ i ∈ slot.positions, fake.profile = (members.get i).profile := by
  obtain ⟨i, represents, rfl⟩ := exists_represents_of_fill filled
  exact ⟨i, represents.inside, rfl⟩

theorem profile_of_synthesize (made : rules.synthesize d declared members = .ok fakes)
    (member : fake ∈ fakes) : ∃ m ∈ members, fake.profile = m.profile := by
  obtain ⟨-, -, filled⟩ := synthesize_eq_ok_iff.mp made
  obtain ⟨slot, -, this⟩ := exists_left filled member
  obtain ⟨i, -, like⟩ := profile_of_fill this
  exact ⟨members.get i, List.get_mem _ _, like⟩

theorem exists_of_mem_synthesize (made : rules.synthesize d declared members = .ok fakes)
    (member : fake ∈ fakes) :
    ∃ g ∈ fake.overridden, fake = .synthesize d.fingerprint d.name g fake.overridden := by
  obtain ⟨-, -, filled⟩ := synthesize_eq_ok_iff.mp made
  obtain ⟨slot, -, this⟩ := exists_left filled member
  obtain ⟨i, represents, rfl⟩ := exists_represents_of_fill this
  exact ⟨_, List.mem_map_of_mem represents.inside, rfl⟩

theorem overridden_subset_of_synthesize (made : rules.synthesize d declared members = .ok fakes)
    (member : fake ∈ fakes) : fake.overridden ⊆ members := by
  obtain ⟨-, -, filled⟩ := synthesize_eq_ok_iff.mp made
  obtain ⟨slot, -, this⟩ := exists_left filled member
  obtain ⟨i, -, rfl⟩ := exists_represents_of_fill this
  intro m there
  obtain ⟨j, -, rfl⟩ := List.mem_map.mp there
  exact List.get_mem _ _

theorem synthesize_nil : rules.synthesize d declared [] = .ok [] := by
  have empty : rules.slots (numbered []) = [] := by
    simp [slots, Component.ofLinks]
  refine synthesize_eq_ok_iff.mpr ⟨rfl, rfl, ?_⟩
  rw [empty]
  exact .nil

section

variable {group : NameGroup} {c : Conflict}

/-- A group without unmatched members is no special case. -/
theorem toExcept_resolveGroup (group : NameGroup) : (rules.resolveGroup d group).toExcept =
    rules.synthesize d group.declared (rules.unmatched group) := by
  unfold resolveGroup
  split
  · rename_i none
    rw [none, Outcome.toExcept, synthesize_nil]
  · cases rules.synthesize d group.declared (rules.unmatched group) <;> rfl

theorem resolveGroup_eq_matched_iff : rules.resolveGroup d group = .matched ↔ rules.unmatched group = [] := by
  unfold resolveGroup
  split
  · rename_i none
    simp [none]
  · rename_i some
    have some : rules.unmatched group ≠ [] := some
    cases rules.synthesize d group.declared (rules.unmatched group) <;> simp [some]

theorem resolveGroup_eq_synthesized_iff : rules.resolveGroup d group = .synthesized fakes ↔
    rules.unmatched group ≠ [] ∧ rules.synthesize d group.declared (rules.unmatched group) = .ok fakes := by
  rw [← toExcept_resolveGroup, ne_eq, ← resolveGroup_eq_matched_iff]
  cases rules.resolveGroup d group <;> simp [Outcome.toExcept]

theorem resolveGroup_eq_conflict_iff : rules.resolveGroup d group = .conflict c ↔
    rules.synthesize d group.declared (rules.unmatched group) = .error c := by
  rw [← toExcept_resolveGroup]
  cases rules.resolveGroup d group <;> simp [Outcome.toExcept]

end

/-- The inherited members of a name that no declared member of the name overrides. -/
def unmatchedNamed (rules : OverrideRules) (d : Declaration) (inherited : List Member) (name : String) :
    List Member :=
  rules.unmatched (NameGroup.gather inherited d.members name)

theorem mem_unmatchedNamed {m : Member} : m ∈ rules.unmatchedNamed d inherited name ↔
    (m ∈ inherited ∧ m.name = name) ∧
      ∀ own ∈ d.membersNamed name, rules.overrides own m = false := by
  simp [unmatchedNamed, mem_unmatched, NameGroup.gather, Declaration.membersNamed]

theorem fakesFrom_eq_ok_iff : rules.fakesFrom d inherited = .ok fakes ↔
    ∃ found, Forall₂ (fun name fakes =>
        rules.synthesize d (d.membersNamed name) (rules.unmatchedNamed d inherited name) = .ok fakes)
      (NameGroup.names inherited) found ∧ fakes = found.flatten := by
  simp only [fakesFrom, bind_eq_ok_iff, mapM_eq_ok_iff, NameGroup.partition_eq,
    List.forall₂_map_left_iff, mapError_eq_ok_iff, toExcept_resolveGroup]
  refine exists_congr fun found => and_congr Iff.rfl ?_
  simp [pure, Except.pure, eq_comm]

theorem name_of_group {m : List Member}
    (made : rules.synthesize d declared (rules.unmatchedNamed d inherited name) = .ok m)
    (member : fake ∈ m) : fake.name = name := by
  obtain ⟨base, there, like⟩ := profile_of_synthesize made member
  exact (Member.name_eq_of_profile like).trans (mem_unmatchedNamed.mp there).1.2

theorem exists_of_mem_fakesFrom (made : rules.fakesFrom d inherited = .ok fakes) (member : fake ∈ fakes) :
    ∃ group, rules.synthesize d (d.membersNamed fake.name)
      (rules.unmatchedNamed d inherited fake.name) = .ok group ∧ fake ∈ group := by
  obtain ⟨found, parts, rfl⟩ := fakesFrom_eq_ok_iff.mp made
  obtain ⟨group, inside, there⟩ := List.mem_flatten.mp member
  obtain ⟨name, -, this⟩ := exists_left parts inside
  obtain rfl := name_of_group this there
  exact ⟨group, this, there⟩

theorem exists_synthesize_of_mem_fakesFrom (made : rules.fakesFrom d inherited = .ok fakes)
    (member : fake ∈ fakes) :
    ∃ g ∈ fake.overridden, fake = .synthesize d.fingerprint d.name g fake.overridden := by
  obtain ⟨group, this, there⟩ := exists_of_mem_fakesFrom made member
  exact exists_of_mem_synthesize this there

theorem owned_of_fakesFrom (made : rules.fakesFrom d inherited = .ok fakes) (member : fake ∈ fakes) :
    fake.isFake = true ∧ fake.owner = d.fingerprint := by
  obtain ⟨g, -, this⟩ := exists_synthesize_of_mem_fakesFrom made member
  rw [this]
  exact ⟨rfl, rfl⟩

theorem overridden_subset_of_fakesFrom (made : rules.fakesFrom d inherited = .ok fakes)
    (member : fake ∈ fakes) : fake.overridden ⊆ inherited := by
  obtain ⟨group, this, there⟩ := exists_of_mem_fakesFrom made member
  intro m direct
  exact (mem_unmatchedNamed.mp (overridden_subset_of_synthesize this there direct)).1.1

end OverrideRules

end Inheritance
