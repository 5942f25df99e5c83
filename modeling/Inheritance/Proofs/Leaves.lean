import Inheritance.Proofs.Provenance

/-! The declarations at the bottom of a member. The roots and the modality of a fake override are computed
once, from those of the members it directly stands for. However deep these nest, they are what a walk down
to the declared members finds. -/
namespace Inheritance

open Relation (TransGen)

namespace Member

mutual

/-- The declared members that a member stands for in the end, depth first and from left to right. One that is
reached twice is listed twice. -/
def leaves : Member → List Member
  | .declared header => [.declared header]
  | .fake _ overridden _ => leavesAll overridden

def leavesAll : List Member → List Member
  | [] => []
  | m :: rest => m.leaves ++ leavesAll rest

end

/-- Built by the constructors from declared members and fake overrides, in any nesting. -/
inductive Built : Member → Prop where
  | declared (header : Header) : Built (.declared header)
  | synthesize {owner : Fingerprint} {ownerName : String} {representative : Member} {l : List Member}
      (each : ∀ m ∈ l, Built m) : Built (.synthesize owner ownerName representative l)

variable {m n leaf representative : Member} {l : List Member} {owner : Fingerprint} {ownerName : String}

theorem leavesAll_eq (l : List Member) : leavesAll l = l.flatMap leaves := by
  induction l with
  | nil => rfl
  | cons m rest ih => rw [leavesAll, ih, List.flatMap_cons]

theorem leaves_synthesize : (synthesize owner ownerName representative l).leaves = l.flatMap leaves :=
  leavesAll_eq l

theorem restsOn_iff : m.RestsOn leaf ↔ ∃ n ∈ m.overridden, leaf = n ∨ n.RestsOn leaf := by
  unfold RestsOn
  rw [TransGen.head'_iff]
  simp only [Relation.reflTransGen_iff_eq_or_transGen]

theorem Built.of_real (real : m.isFake = false) : m.Built := by
  cases m with
  | declared header => exact .declared header
  | fake => simp [isFake] at real

theorem Built.mem_leaves_iff (built : m.Built) :
    leaf ∈ m.leaves ↔ leaf.isFake = false ∧ (leaf = m ∨ m.RestsOn leaf) := by
  induction built with
  | declared header =>
    have bottom : ¬ (Member.declared header).RestsOn leaf := by
      rw [restsOn_iff]
      rintro ⟨n, direct, -⟩
      simp [overridden] at direct
    simp only [leaves, List.mem_singleton, bottom, or_false, iff_and_self]
    rintro rfl
    rfl
  | @synthesize owner ownerName representative l _ ih =>
    rw [leaves_synthesize, List.mem_flatMap, restsOn_iff]
    constructor
    · rintro ⟨m, direct, below⟩
      obtain ⟨real, here⟩ := (ih m direct).mp below
      exact ⟨real, .inr ⟨m, direct, here⟩⟩
    · rintro ⟨real, rfl | ⟨m, direct, here⟩⟩
      · simp at real
      · exact ⟨m, direct, (ih m direct).mpr ⟨real, here⟩⟩

/-- Repetitions dropped level by level leave what is left when they are dropped at the end. -/
theorem Built.roots_eq (built : m.Built) : m.roots = (m.leaves.map fingerprint).eraseDups := by
  induction built with
  | declared header => rfl
  | @synthesize owner ownerName representative l _ ih =>
    calc inheritedRoots l
      _ = (l.flatMap fun m => (m.leaves.map fingerprint).eraseDups).eraseDups :=
        congrArg List.eraseDups (List.flatMap_congr ih)
      _ = (l.flatMap fun m => m.leaves.map fingerprint).eraseDups := eraseDups_flatMap ..
      _ = ((l.flatMap leaves).map fingerprint).eraseDups := by rw [List.map_flatMap]
      _ = _ := by rw [leaves_synthesize]

theorem inheritedModality_flatMap {parts : Member → List Member}
    (each : ∀ m ∈ l, m.modality = inheritedModality (parts m)) :
    inheritedModality l = inheritedModality (l.flatMap parts) := by
  induction l with
  | nil => rfl
  | cons m rest ih =>
    obtain ⟨first, each⟩ := List.forall_mem_cons.mp each
    rw [inheritedModality_cons, List.flatMap_cons, inheritedModality_append, first, ih each]

/-- What comes first and is not abstract at each level comes first among the leaves. -/
theorem Built.modality_eq (built : m.Built) : m.modality = inheritedModality m.leaves := by
  induction built with
  | declared header => exact (inheritedModality_singleton _).symm
  | @synthesize owner ownerName representative l _ ih =>
    rw [leaves_synthesize]
    exact inheritedModality_flatMap ih

theorem inheritedModality_of_find? (found : l.find? (!·.isAbstract) = some leaf) :
    inheritedModality l = leaf.modality := by
  have same : (fun other : Modality => decide (other ≠ .abstract)) ∘ modality = fun m => !m.isAbstract := by
    funext m
    exact decide_not ..
  rw [inheritedModality, List.find?_map, same, found]
  rfl

/-- The leaves of a member determine what is kept in it. -/
structure Summarizes (m : Member) : Prop where
  leaves : ∀ leaf, leaf ∈ m.leaves ↔ leaf.isFake = false ∧ (leaf = m ∨ m.RestsOn leaf)
  roots : m.roots = (m.leaves.map fingerprint).eraseDups
  concrete : ∀ leaf, m.leaves.find? (!·.isAbstract) = some leaf → m.modality = leaf.modality
  abstract : (∀ leaf ∈ m.leaves, leaf.isAbstract = true) → m.modality = .abstract
  sharesRoot : ∀ n : Member, n.Built →
    (m.sharesRoot n = true ↔ ∃ a ∈ m.leaves, ∃ b ∈ n.leaves, a.fingerprint = b.fingerprint)

theorem Built.summarizes (built : m.Built) : m.Summarizes where
  leaves := fun _ => built.mem_leaves_iff
  roots := built.roots_eq
  concrete := fun leaf found => built.modality_eq.trans (inheritedModality_of_find? found)
  abstract := by
    intro all
    rw [built.modality_eq, inheritedModality_eq_abstract_iff]
    exact fun leaf below => of_decide_eq_true (all leaf below)
  sharesRoot := by
    intro n other
    rw [sharesRoot_iff, built.roots_eq, other.roots_eq]
    simp only [List.mem_eraseDups, List.mem_map]
    constructor
    · rintro ⟨_, ⟨a, above, rfl⟩, b, below, same⟩
      exact ⟨a, above, b, below, same.symm⟩
    · rintro ⟨a, above, b, below, same⟩
      exact ⟨_, ⟨a, above, rfl⟩, b, below, same.symm⟩

end Member

namespace Registry

open OverrideRules

variable {kind : OverrideRules → Prop} {r : Registry} {c : EffectiveClass} {m : Member}

theorem Descends.built (descends : r.Descends kind c) : ∀ m ∈ c.members, m.Built := by
  induction descends with
  | @made rules d supertypes fakes _ _ valid _ computed _ ih =>
    intro m inside
    rcases List.mem_append.mp inside with own | fake
    · exact .of_real ((Declaration.defect?_eq_none_iff.mp valid).1 m own).1
    · obtain ⟨g, direct, this⟩ := exists_synthesize_of_mem_fakesFrom computed fake
      rw [this]
      refine .synthesize fun m direct => ?_
      obtain ⟨b, above, there⟩ := List.mem_flatMap.mp (overridden_subset_of_fakesFrom computed fake direct)
      exact ih b above m there

theorem summarizes_diamond : ∃ c ∈ completedDiamond.effective, c.name = "Both" ∧
    ∃ fake ∈ c.scope.fakes, fake.leaves.map (·.ownerName) = ["Base", "Right"] ∧ fake.Summarizes := by
  have last : ∃ c ∈ completedDiamond.effective, c.name = "Both" ∧
      ∃ fake ∈ c.scope.fakes, fake.leaves.map (·.ownerName) = ["Base", "Right"] := by
    decide +kernel
  obtain ⟨c, member, name, fake, here, owners⟩ := last
  have sound : Sound DefaultClashes completedDiamond := sound_of_reached (reached_diamond fun _ _ => rfl)
  have built := (sound.descends c member).built fake (EffectiveClass.mem_members_of_fake here)
  exact ⟨c, member, name, fake, here, owners, built.summarizes⟩

end Registry

end Inheritance
