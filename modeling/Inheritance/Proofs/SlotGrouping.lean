import Inheritance.Proofs.Rivals
import Inheritance.Proofs.Verdict

/-! Under the default rules the slots of a group are a plain grouping by slot fingerprint. Overriding goes both ways
there, so a member that is compatible with another can stand for it, and the first member of a slot can stand for
all the others. Conflicts are told from pairs of members alone. -/
namespace Inheritance

open List (Forall₂)
open Member (rivals)

namespace Member

/-- The slots that members take, each where it is first met. -/
def slots (members : List Member) : List Fingerprint := (members.map slotFingerprint).eraseDups

/-- The members take one slot with different results, and no declaration is behind both. -/
def Contradicts (a b : Member) : Prop :=
  a.slotFingerprint = b.slotFingerprint ∧ a.signature.result ≠ b.signature.result ∧ a.sharesRoot b = false

end Member

/-- The inherited members for which no declared member has the same slot and the same result. -/
def NameGroup.unclaimed (group : NameGroup) : List Member :=
  group.inherited.filter fun m => ∀ own ∈ group.declared,
    ¬ (own.slotFingerprint = m.slotFingerprint ∧ own.signature.result = m.signature.result)

theorem Outcome.exists_synthesized_iff {outcome : Outcome} : (∃ fakes, outcome = .synthesized fakes) ↔
    outcome ≠ .matched ∧ ¬ ∃ c, outcome = .conflict c := by
  cases outcome <;> simp

namespace OverrideRules

variable {rules : OverrideRules} {d : Declaration} {group : NameGroup} {declared members fakes : List Member}
  {a b fake : Member}

/-- A component begins at the first of all positions whose members take its slot. -/
theorem DefaultClashes.idxOf_least (defaults : rules.DefaultClashes) (apart : rules.incompatible? members = none)
    {slot : Component members.length} (member : slot ∈ rules.slots (numbered members)) :
    (members.map Member.slotFingerprint).idxOf (members.get slot.least).slotFingerprint = slot.least := by
  have bound : slot.least < (members.map Member.slotFingerprint).length := by simp
  apply (List.findIdx_eq bound).mpr
  constructor
  · simp
  · intro j earlier
    by_contra taken
    let k : Fin members.length := ⟨j, by omega⟩
    have same : (members.get k).slotFingerprint = (members.get slot.least).slotFingerprint := by simpa [k] using taken
    have inside : k ∈ slot.positions := (defaults.mem_positions_iff apart member).mpr same
    have least : slot.least ≤ k := (Component.splits_ofLinks _).least_le slot member k inside
    have : slot.least.val ≤ j := least
    omega

theorem DefaultClashes.map_least (defaults : rules.DefaultClashes) (apart : rules.incompatible? members = none) :
    (rules.slots (numbered members)).map (fun slot => (members.get slot.least).slotFingerprint) =
      Member.slots members := by
  let before (a b : Fingerprint) : Prop :=
    (members.map Member.slotFingerprint).idxOf a < (members.map Member.slotFingerprint).idxOf b
  have : Std.Irrefl before := ⟨fun a => Nat.lt_irrefl _⟩
  have : Std.Antisymm before := ⟨fun a b lt gt => absurd lt (Nat.lt_asymm gt)⟩
  have components : ((rules.slots (numbered members)).map
      fun slot => (members.get slot.least).slotFingerprint).Pairwise before := by
    apply List.pairwise_map.mpr
    have ordered : (rules.slots (numbered members)).Pairwise fun c d => c.least < d.least := Component.ordered
    apply ordered.imp_of_mem
    intro c d here there lt
    simp only [before, defaults.idxOf_least apart here, defaults.idxOf_least apart there]
    exact lt
  apply components.eq_of_mem_iff (eraseDups_ordered _)
  intro slot
  rw [List.mem_eraseDups, List.mem_map, List.mem_map]
  constructor
  · rintro ⟨c, -, rfl⟩
    exact ⟨members.get c.least, List.get_mem _ _, rfl⟩
  · rintro ⟨m, here, rfl⟩
    obtain ⟨i, rfl⟩ := List.mem_iff_get.mp here
    have covered : ∃ c ∈ rules.slots (numbered members), i ∈ c.positions := Component.exists_component i
    obtain ⟨c, member, inside⟩ := covered
    exact ⟨c, member, ((defaults.mem_positions_iff apart member).mp inside).symm⟩

theorem unmatched_bySignature (group : NameGroup) : bySignature.unmatched group = group.unclaimed := by
  unfold unmatched NameGroup.unclaimed
  apply List.filter_congr
  intro m _
  rw [Bool.eq_iff_iff]
  simp [bySignature]

theorem dominates_of_compatible (compatible : bySignature.compatible a b = true) :
    bySignature.dominates a b = true := by
  simp only [bySignature, dominates, Bool.or_eq_true, decide_eq_true_eq] at compatible ⊢
  rcases compatible with (shares | overrides) | ⟨slot, result⟩
  · exact .inl shares
  · exact .inr overrides
  · exact .inr ⟨slot.symm, result.symm⟩

theorem compatible_iff_not_contradicts (same : a.slotFingerprint = b.slotFingerprint) :
    bySignature.compatible a b = true ↔ ¬ a.Contradicts b := by
  simp only [bySignature, Member.Contradicts, same, true_and, Bool.or_eq_true, decide_eq_true_eq, not_and,
    Bool.not_eq_false]
  constructor
  · rintro ((shares | result) | result) different
    · exact shares
    · contradiction
    · exact absurd result.symm different
  · intro shares
    by_cases result : a.signature.result = b.signature.result
    · exact .inl (.inr result)
    · exact .inl (.inl (shares result))

theorem incompatible?_eq_none_iff_not_contradicts : bySignature.incompatible? members = none ↔
    ∀ a ∈ members, ∀ b ∈ members, ¬ a.Contradicts b := by
  rw [plain_bySignature.incompatible?_eq_none_iff]
  apply forall₂_congr
  intro a _
  apply forall₂_congr
  intro b _
  constructor
  · intro compatible contradicts
    exact (compatible_iff_not_contradicts contradicts.1).mp (compatible contradicts.1) contradicts
  · intro consistent same
    exact (compatible_iff_not_contradicts same).mpr consistent

/-- One of the members takes the slot of a declared one, or two of them contradict each other. -/
def Conflicting (declared members : List Member) : Prop :=
  (∃ m ∈ members, ∃ own ∈ declared, own.slotFingerprint = m.slotFingerprint) ∨
    ∃ a ∈ members, ∃ b ∈ members, a.Contradicts b

/-- The pair that is reported before any slot is looked at: a member and the declared one that it clashes with, or
two inherited ones that cannot share a fake override. -/
def conflict? (declared members : List Member) : Option Conflict :=
  (bySignature.declaredClash? declared members).or (bySignature.incompatible? members)

theorem conflict?_eq_none_iff : conflict? declared members = none ↔ ¬ Conflicting declared members := by
  rw [conflict?, Option.or_eq_none_iff, declaredClash?_eq_none_iff, incompatible?_eq_none_iff_not_contradicts]
  simp [Conflicting, bySignature]

theorem representative?_bySignature (apart : bySignature.incompatible? members = none)
    {slot : Component members.length} (member : slot ∈ bySignature.slots (numbered members)) :
    bySignature.representative? (numbered members) slot = some slot.least := by
  have compatible := plain_bySignature.incompatible?_eq_none_iff.mp apart
  apply List.find?_cons_of_pos
  apply List.all_eq_true.mpr
  intro j inside
  have same : (members.get j).slotFingerprint = (members.get slot.least).slotFingerprint :=
    (plain_bySignature.clashes.mem_positions_iff apart member).mp inside
  have dominates : bySignature.dominates (members.get slot.least) (members.get j) = true :=
    dominates_of_compatible (compatible _ (List.get_mem _ _) _ (List.get_mem _ _) same.symm)
  exact Bool.or_eq_true_iff.mpr (.inr dominates)

/-- The fake override of a class for all members that take a slot. It is like the first of them. -/
structure Collects (d : Declaration) (members : List Member) (slot : Fingerprint) (fake : Member) : Prop where
  owner : fake.owner = d.fingerprint ∧ fake.ownerName = d.name
  overridden : fake.overridden = rivals members slot
  like : ∃ first rest, rivals members slot = first :: rest ∧ fake.name = first.name ∧ fake.kind = first.kind ∧
    fake.signature = first.signature

theorem collects_of_synthesize (made : bySignature.synthesize d declared members = .ok fakes) :
    Forall₂ (Collects d members) (Member.slots members) fakes := by
  obtain ⟨-, apart, filled⟩ := synthesize_eq_ok_iff.mp made
  rw [← plain_bySignature.clashes.map_least apart]
  apply List.forall₂_map_left_iff.mpr
  apply imp_of_mem filled
  intro slot fake member _ this
  obtain ⟨i, found, rfl⟩ := fill_eq_ok_iff.mp this
  obtain rfl : slot.least = i := Option.some.inj ((representative?_bySignature apart member).symm.trans found)
  have collected : rivals members (members.get slot.least).slotFingerprint = slot.positions.map members.get :=
    (plain_bySignature.clashes.map_positions apart member).symm
  exact ⟨⟨rfl, rfl⟩, collected.symm, _, _, collected, rfl, rfl, rfl⟩

theorem exists_synthesize_of_conflict?_eq_none (free : conflict? declared members = none) :
    ∃ fakes, bySignature.synthesize d declared members = .ok fakes := by
  obtain ⟨clear, apart⟩ := Option.or_eq_none_iff.mp free
  have filled : ∀ slot ∈ bySignature.slots (numbered members),
      ∃ fake, bySignature.fill (numbered members) d slot = .ok fake := by
    intro slot member
    exact ⟨_, fill_eq_ok_iff.mpr ⟨_, representative?_bySignature apart member, rfl⟩⟩
  obtain ⟨fakes, all⟩ := exists_forall₂_iff.mpr filled
  exact ⟨fakes, synthesize_eq_ok_iff.mpr ⟨clear, apart, all⟩⟩

theorem synthesize_eq_error_iff_conflict? {c : Conflict} :
    bySignature.synthesize d declared members = .error c ↔ conflict? declared members = some c := by
  cases found : conflict? declared members with
  | some first =>
    have failed : bySignature.synthesize d declared members = .error first := by
      unfold conflict? at found
      rw [synthesize, found]
    rw [failed, Except.error.injEq, Option.some.injEq]
  | none =>
    obtain ⟨fakes, made⟩ := exists_synthesize_of_conflict?_eq_none (d := d) found
    simp [made]

/-- A member of the group takes the slot of a declared one, or it contradicts another one. -/
def Disagrees (declared members : List Member) (c : Conflict) : Prop :=
  c.first ∈ members ∧ (c.second ∈ declared ∧ c.second.slotFingerprint = c.first.slotFingerprint ∨
    c.second ∈ members ∧ c.first.Contradicts c.second)

theorem mem_of_declaredClash? {c : Conflict} (found : rules.declaredClash? declared members = some c) :
    c.first ∈ members ∧ c.second ∈ declared ∧ rules.clashes c.second c.first = true := by
  obtain ⟨base, member, here⟩ := List.exists_of_findSome?_eq_some found
  obtain ⟨own, first, rfl⟩ := Option.map_eq_some_iff.mp here
  have clash : rules.clashes own base = true := by simpa using List.find?_some first
  exact ⟨member, List.mem_of_find?_eq_some first, clash⟩

theorem disagrees_of_conflict? {c : Conflict} (found : conflict? declared members = some c) :
    Disagrees declared members c := by
  rcases Option.or_eq_some_iff.mp found with redeclared | ⟨-, pair⟩
  · obtain ⟨base, own, clash⟩ := mem_of_declaredClash? redeclared
    exact ⟨base, .inl ⟨own, plain_bySignature.clashes.clashes_iff.mp clash⟩⟩
  · obtain ⟨i, j, ⟨⟨-, clash, apart⟩, -⟩, rfl⟩ := exists_isLeast_of_incompatible? pair
    have same := plain_bySignature.clashes.clashes_iff.mp clash
    have contradicts : (members.get i).Contradicts (members.get j) := by
      by_contra consistent
      have compatible := (compatible_iff_not_contradicts same).mpr consistent
      exact Bool.false_ne_true (apart.symm.trans compatible)
    exact ⟨List.get_mem _ i, .inr ⟨List.get_mem _ j, contradicts⟩⟩

/-- An outcome that a plain grouping of the members by their slots gives. -/
structure GroupsBySlot (d : Declaration) (declared members : List Member) (outcome : Outcome) : Prop where
  matched : outcome = .matched ↔ members = []
  conflict : (∃ c, outcome = .conflict c) ↔ Conflicting declared members
  synthesized : (∃ fakes, outcome = .synthesized fakes) ↔ members ≠ [] ∧ ¬ Conflicting declared members
  fakes : ∀ fakes, outcome = .synthesized fakes → Forall₂ (Collects d members) (Member.slots members) fakes
  pair : ∀ c, outcome = .conflict c ↔ conflict? declared members = some c
  reason : ∀ c, outcome = .conflict c → Disagrees declared members c
  led : ¬ Conflicting declared members → ∀ slot ∈ bySignature.slots (numbered members),
    bySignature.representative? (numbered members) slot = some slot.least

/-- Under the default rules a group without conflicting members has one fake override for each slot, and a slot never
lacks a member that can stand for the others. -/
theorem groupsBySlot_resolveGroup (d : Declaration) (group : NameGroup) :
    GroupsBySlot d group.declared group.unclaimed (bySignature.resolveGroup d group) := by
  rw [← unmatched_bySignature]
  have matched : bySignature.resolveGroup d group = .matched ↔ bySignature.unmatched group = [] :=
    resolveGroup_eq_matched_iff
  have pair (c : Conflict) : bySignature.resolveGroup d group = .conflict c ↔
      conflict? group.declared (bySignature.unmatched group) = some c :=
    resolveGroup_eq_conflict_iff.trans synthesize_eq_error_iff_conflict?
  have conflict : (∃ c, bySignature.resolveGroup d group = .conflict c) ↔
      Conflicting group.declared (bySignature.unmatched group) := by
    simp only [pair]
    rw [← Option.isSome_iff_exists, ← Option.ne_none_iff_isSome, ne_eq, conflict?_eq_none_iff, not_not]
  refine ⟨matched, conflict, ?_, ?_, pair, fun c failed => disagrees_of_conflict? ((pair c).mp failed), ?_⟩
  · rw [Outcome.exists_synthesized_iff, ne_eq, matched, conflict]
  · intro fakes outcome
    obtain ⟨-, made⟩ := resolveGroup_eq_synthesized_iff.mp outcome
    exact collects_of_synthesize made
  · intro free slot member
    obtain ⟨-, apart⟩ := Option.or_eq_none_iff.mp (conflict?_eq_none_iff.mpr free)
    exact representative?_bySignature apart member

/-- Two slots with a fake override each. The member of `C` is overridden by the declared one, which takes a third
slot. -/
theorem groupsBySlot_resolveGroup_overloaded :
    let read (owner : String) (params : List String) :=
      Member.declare owner .function "read" ⟨params.map .named, .named "Any"⟩ .abstract
    let group : NameGroup :=
      ⟨"read", [read "A" ["Int"], read "C" [], read "A" ["Text"], read "B" ["Int"]], [read "D" []]⟩
    let d := Declaration.named .ordinary "D" ["A", "B", "C"] group.declared
    let fake (params : List String) (overridden : List Member) : Member :=
      .fake ⟨"read", .function, ⟨params.map .named, .named "Any"⟩, .abstract, .ofName "D", "D"⟩ overridden
        (overridden.map (·.fingerprint))
    bySignature.resolveGroup d group = .synthesized
        [fake ["Int"] [read "A" ["Int"], read "B" ["Int"]], fake ["Text"] [read "A" ["Text"]]] ∧
      GroupsBySlot d group.declared [read "A" ["Int"], read "A" ["Text"], read "B" ["Int"]]
        (bySignature.resolveGroup d group) := by
  intro read group d fake
  have unclaimed : group.unclaimed = [read "A" ["Int"], read "A" ["Text"], read "B" ["Int"]] := by decide +kernel
  exact ⟨by decide +kernel, unclaimed ▸ groupsBySlot_resolveGroup d group⟩

end OverrideRules

end Inheritance
