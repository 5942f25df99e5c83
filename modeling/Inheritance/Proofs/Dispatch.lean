import Inheritance.Proofs.Descent
import Inheritance.Proofs.Slots
import Inheritance.Proofs.Validity

/-! A dispatch slot has one member in each scope. Declarations see to it among declared members, the
clash with declared members and the joining of clashing ones see to it among fake overrides. -/
namespace Inheritance

open OverrideRules

/-- No two members of a scope take the same slot, so no query of the scope finds two. -/
structure Scope.Dispatches (s : Scope) : Prop where
  single : s.members.Pairwise fun a b => a.name = b.name → a.slotFingerprint ≠ b.slotFingerprint
  unshadowed : ∀ own ∈ s.declared, ∀ fake ∈ s.fakes, own.name = fake.name →
    own.slotFingerprint ≠ fake.slotFingerprint
  lookup : ∀ {name kinds test found}, s.lookup name kinds test = .ok found →
    (found.map Member.slotFingerprint).Nodup

theorem Scope.dispatches_of_pairwise {s : Scope}
    (single : s.members.Pairwise fun a b => a.name = b.name → a.slotFingerprint ≠ b.slotFingerprint) :
    s.Dispatches := by
  have across := (List.pairwise_append.mp (s.declared_append_fakes.symm ▸ single)).2.2
  refine ⟨single, across, fun {name kinds test found} ok => ?_⟩
  unfold Scope.lookup Scope.select at ok
  split at ok
  · simp [Scope.refuse] at ok
  · obtain rfl := Except.ok.inj ok
    refine List.pairwise_map.mpr ((single.sublist List.filter_sublist).imp_of_mem ?_)
    intro a b here there apart
    have named {m} (member : m ∈ s.members.filter fun m =>
        kinds.accepts m.kind && (m.name = name && test m)) : m.name = name := by
      simp only [List.mem_filter, Bool.and_eq_true, decide_eq_true_eq] at member
      exact member.2.2.1
    exact apart ((named here).trans (named there).symm)

namespace OverrideRules

variable {rules : OverrideRules} {d : Declaration} {declared inherited members fakes : List Member}
  {fake own : Member} {name : String}

/-- Members clash exactly when they take the same slot. -/
def DefaultClashes (rules : OverrideRules) : Prop :=
  ∀ a b, rules.clashes a b = decide (a.slotFingerprint = b.slotFingerprint)

theorem DefaultClashes.clashes_iff (defaults : rules.DefaultClashes) {a b : Member} :
    rules.clashes a b = true ↔ a.slotFingerprint = b.slotFingerprint := by
  simp [defaults a b]

theorem DefaultClashes.slotFingerprint_of_joined (defaults : rules.DefaultClashes)
    {i j : Fin members.length}
    (joined : Component.Joined (fun i j => rules.linked (members.get i) (members.get j)) i j) :
    (members.get i).slotFingerprint = (members.get j).slotFingerprint := by
  rcases clashes_of_joined joined with forth | back
  · exact defaults.clashes_iff.mp forth
  · exact (defaults.clashes_iff.mp back).symm

/-- A fake override takes the slot of all that it stands for. -/
theorem DefaultClashes.slotFingerprint_of_fill (defaults : rules.DefaultClashes)
    {slot : Component members.length} (member : slot ∈ rules.slots (numbered members))
    (filled : rules.fill (numbered members) d slot = .ok fake) {j : Fin members.length}
    (there : j ∈ slot.positions) : fake.slotFingerprint = (members.get j).slotFingerprint := by
  obtain ⟨i, here, like⟩ := profile_of_fill filled
  rw [Member.slotFingerprint_eq_of_profile like]
  exact Component.eq_of_mem defaults.slotFingerprint_of_joined member here there

theorem DefaultClashes.exists_of_synthesize (defaults : rules.DefaultClashes)
    (made : rules.synthesize d declared members = .ok fakes) {m : Member} (here : m ∈ members) :
    ∃ fake ∈ fakes, fake.slotFingerprint = m.slotFingerprint := by
  obtain ⟨-, -, filled⟩ := synthesize_eq_ok_iff.mp made
  obtain ⟨i, rfl⟩ := List.mem_iff_get.mp here
  have covered : ∃ slot ∈ rules.slots (numbered members), i ∈ slot.positions :=
    Component.exists_component i
  obtain ⟨slot, member, inside⟩ := covered
  obtain ⟨fake, there, this⟩ := exists_right filled member
  exact ⟨fake, there, defaults.slotFingerprint_of_fill member this inside⟩

theorem DefaultClashes.exists_of_unmatched (defaults : rules.DefaultClashes)
    (made : rules.fakesFrom d inherited = .ok fakes) {m : Member}
    (free : m ∈ rules.unmatchedNamed d inherited name) :
    ∃ fake ∈ fakes, fake.name = name ∧ fake.slotFingerprint = m.slotFingerprint := by
  obtain ⟨found, parts, rfl⟩ := fakesFrom_eq_ok_iff.mp made
  have known : name ∈ NameGroup.names inherited := NameGroup.mem_names.mpr ⟨m, (mem_unmatchedNamed.mp free).1⟩
  obtain ⟨list, inside, this⟩ := exists_right parts known
  obtain ⟨fake, there, slot⟩ := defaults.exists_of_synthesize this free
  exact ⟨fake, List.mem_flatten.mpr ⟨list, inside, there⟩, name_of_group this there, slot⟩

theorem DefaultClashes.pairwise_synthesize (defaults : rules.DefaultClashes)
    (made : rules.synthesize d declared members = .ok fakes) :
    fakes.Pairwise fun a b => a.slotFingerprint ≠ b.slotFingerprint := by
  obtain ⟨-, apart, filled⟩ := synthesize_eq_ok_iff.mp made
  refine pairwise_right filled Component.disjoint fun {s t a b} here there first second disjoint same => ?_
  have different := disjoint s.least List.mem_cons_self t.least List.mem_cons_self
  have clashes : (members.get s.least).slotFingerprint = (members.get t.least).slotFingerprint := by
    rw [← defaults.slotFingerprint_of_fill here first List.mem_cons_self, same,
      defaults.slotFingerprint_of_fill there second List.mem_cons_self]
  have joined := joined_of_clash apart different
    (fun _ _ h => defaults.clashes_iff.mpr (defaults.clashes_iff.mp h).symm)
    (defaults.clashes_iff.mpr clashes)
  have inside := Component.mem_positions_of_joined here List.mem_cons_self joined
  exact disjoint t.least inside t.least List.mem_cons_self rfl

theorem DefaultClashes.apart_of_synthesize (defaults : rules.DefaultClashes)
    (made : rules.synthesize d declared members = .ok fakes) (here : own ∈ declared)
    (there : fake ∈ fakes) : own.slotFingerprint ≠ fake.slotFingerprint := by
  obtain ⟨free, -, -⟩ := synthesize_eq_ok_iff.mp made
  obtain ⟨base, inside, like⟩ := profile_of_synthesize made there
  rw [Member.slotFingerprint_eq_of_profile like]
  intro same
  have clear := declaredClash?_eq_none_iff.mp free base inside own here
  rw [defaults.clashes_iff.mpr same] at clear
  exact Bool.noConfusion clear

theorem pairwise_of_slots (apart : members.Pairwise fun a b => a.slotFingerprint ≠ b.slotFingerprint) :
    members.Pairwise fun a b => a.name = b.name → a.slotFingerprint ≠ b.slotFingerprint := by
  refine apart.imp ?_
  intro _ _ different _
  exact different

theorem DefaultClashes.pairwise_fakes (defaults : rules.DefaultClashes)
    (made : rules.fakesFrom d inherited = .ok fakes) :
    fakes.Pairwise fun a b => a.name = b.name → a.slotFingerprint ≠ b.slotFingerprint := by
  obtain ⟨found, parts, rfl⟩ := fakesFrom_eq_ok_iff.mp made
  refine List.pairwise_flatten.mpr ⟨fun list inside => ?_, ?_⟩
  · obtain ⟨name, -, this⟩ := exists_left parts inside
    exact pairwise_of_slots (defaults.pairwise_synthesize this)
  · refine pairwise_right parts (nodup_eraseDups _) fun _ _ this that different a here b there same => ?_
    rw [name_of_group this here, name_of_group that there] at same
    exact absurd same different

theorem DefaultClashes.pairwise_members (defaults : rules.DefaultClashes) (valid : d.defect? = none)
    (made : rules.fakesFrom d inherited = .ok fakes) :
    (d.members ++ fakes).Pairwise fun a b => a.name = b.name → a.slotFingerprint ≠ b.slotFingerprint := by
  refine List.pairwise_append.mpr ⟨?_, defaults.pairwise_fakes made, ?_⟩
  · exact pairwise_of_slots (Declaration.defect?_eq_none_iff.mp valid).2.1
  · intro own here fake there same
    obtain ⟨group, this, there⟩ := exists_of_mem_fakesFrom made there
    exact defaults.apart_of_synthesize this (List.mem_filter.mpr ⟨here, decide_eq_true same⟩) there

end OverrideRules

namespace Registry

variable {r : Registry} {c : EffectiveClass}

/-- Members of one name in a scope take different slots. -/
theorem Descends.pairwise_members (descends : r.Descends DefaultClashes c) :
    c.members.Pairwise fun a b => a.name = b.name → a.slotFingerprint ≠ b.slotFingerprint := by
  cases descends with
  | made defaults _ valid _ made _ => exact defaults.pairwise_members valid made

/-- However the registry came about, its scopes hold one member for a slot. -/
theorem dispatches (reached : Reached (·.Completes DefaultClashes) r) (member : c ∈ r.effective) :
    c.scope.Dispatches := by
  cases (sound_of_reached reached).descends c member with
  | made defaults _ valid _ made _ =>
    exact Scope.dispatches_of_pairwise (defaults.pairwise_members valid made)

/-- Both paths from the last class lead to `run` and `stop`. It declares the one itself, and one of the
interfaces in between declares the other. -/
def diamond : List Declaration :=
  let member (owner name : String) (modality : Modality) :=
    Member.declare owner .function name ⟨[], .unit⟩ modality
  [.named .interface "Base" [] [member "Base" "run" .abstract, member "Base" "stop" .abstract],
    .named .interface "Left" ["Base"] [],
    .named .interface "Right" ["Base"] [member "Right" "stop" .overridable],
    .named .ordinary "Both" ["Left", "Right"] [member "Both" "run" .final]]

def completedDiamond : Registry := performAll ∅ [.registerAll diamond, .complete .bySignature false]

theorem reached_diamond {kind : OverrideRules → Prop} (allowed : kind .bySignature) :
    Reached (·.Completes kind) completedDiamond :=
  ⟨_, by simp [Operation.Completes, allowed], rfl⟩

theorem dispatches_diamond : ∃ c ∈ completedDiamond.effective,
    c.name = "Both" ∧ c.scope.fakes.length = 1 ∧ c.scope.Dispatches := by
  have last : ∃ c ∈ completedDiamond.effective, c.name = "Both" ∧ c.scope.fakes.length = 1 := by
    decide +kernel
  obtain ⟨c, member, name, fakes⟩ := last
  exact ⟨c, member, name, fakes, dispatches (reached_diamond fun _ _ => rfl) member⟩

end Registry

end Inheritance
