import Inheritance.Proofs.Dispatch
import Mathlib.Data.List.Pairwise
import Mathlib.Data.List.Sort

/-! Members that compete for one slot. Where clashing is left at its default, the slots of a group hold
the members of one slot fingerprint each, so the choice of a representative and the conflicts can be told
without positions, and reordering the group changes neither slots nor success. -/
namespace Inheritance

open List (Forall₂)

namespace Member

/-- The members that compete for a slot, in their old order. -/
def rivals (members : List Member) (slot : Fingerprint) : List Member :=
  members.filter (·.slotFingerprint = slot)

@[simp] theorem mem_rivals {members : List Member} {slot : Fingerprint} {m : Member} :
    m ∈ rivals members slot ↔ m ∈ members ∧ m.slotFingerprint = slot := by
  simp [rivals]

end Member

open Member (rivals)

namespace OverrideRules

variable {rules : OverrideRules} {d : Declaration} {declared declared' members members' fakes : List Member}
  {fake m : Member}

theorem DefaultClashes.mem_positions_iff (defaults : rules.DefaultClashes)
    (apart : rules.incompatible? members = none) {slot : Component members.length}
    (member : slot ∈ rules.slots (numbered members)) {j : Fin members.length} :
    j ∈ slot.positions ↔ (members.get j).slotFingerprint = (members.get slot.least).slotFingerprint := by
  constructor
  · exact fun there => Component.eq_of_mem defaults.slotFingerprint_of_joined member there List.mem_cons_self
  · intro same
    by_cases first : slot.least = j
    · exact first ▸ List.mem_cons_self
    have joined := joined_of_clash apart first
      (fun _ _ h => defaults.clashes_iff.mpr (defaults.clashes_iff.mp h).symm)
      (defaults.clashes_iff.mpr same.symm)
    exact Component.mem_positions_of_joined member List.mem_cons_self joined

/-- A slot holds all members of its slot fingerprint. -/
theorem DefaultClashes.map_positions (defaults : rules.DefaultClashes)
    (apart : rules.incompatible? members = none) {slot : Component members.length}
    (member : slot ∈ rules.slots (numbered members)) :
    slot.positions.map members.get = rivals members (members.get slot.least).slotFingerprint := by
  have positions : slot.positions = (List.finRange members.length).filter fun j =>
      (members.get j).slotFingerprint = (members.get slot.least).slotFingerprint := by
    have ascending : slot.positions.Pairwise (· < ·) := Component.ascending member
    refine ascending.eq_of_mem_iff ((List.pairwise_lt_finRange _).sublist List.filter_sublist) fun j => ?_
    rw [defaults.mem_positions_iff apart member]
    simp
  have all : (List.finRange members.length).map members.get = members := List.map_getElem_finRange members
  generalize (members.get slot.least).slotFingerprint = fingerprint at positions ⊢
  rw [positions, rivals]
  conv_rhs => rw [← all, List.filter_map]
  rfl

theorem DefaultClashes.overridden_of_synthesize (defaults : rules.DefaultClashes)
    (made : rules.synthesize d declared members = .ok fakes) (member : fake ∈ fakes) :
    fake.overridden = rivals members fake.slotFingerprint := by
  obtain ⟨-, apart, filled⟩ := synthesize_eq_ok_iff.mp made
  obtain ⟨slot, here, this⟩ := exists_left filled member
  rw [defaults.slotFingerprint_of_fill here this List.mem_cons_self, ← defaults.map_positions apart here]
  obtain ⟨i, -, rfl⟩ := exists_represents_of_fill this
  rfl

/-- One of the members can stand for all the others. -/
def Headed (rules : OverrideRules) (members : List Member) : Prop :=
  ∃ g rest, members.Perm (g :: rest) ∧ ∀ b ∈ rest, rules.dominates g b = true

theorem Headed.of_perm (perm : members.Perm members') (headed : rules.Headed members) : rules.Headed members' := by
  obtain ⟨g, rest, split, covers⟩ := headed
  exact ⟨g, rest, perm.symm.trans split, covers⟩

theorem exists_fill_iff_headed {slot : Component members.length} (distinct : slot.positions.Nodup) :
    (∃ fake, rules.fill (numbered members) d slot = .ok fake) ↔ rules.Headed (slot.positions.map members.get) := by
  rw [exists_fill_iff_covers]
  constructor
  · rintro ⟨i, inside, covers⟩
    refine ⟨members.get i, (slot.positions.erase i).map members.get, (List.perm_cons_erase inside).map _, ?_⟩
    intro b other
    obtain ⟨j, there, rfl⟩ := List.mem_map.mp other
    obtain ⟨different, there⟩ := distinct.mem_erase_iff.mp there
    exact (covers j there).resolve_left different.symm
  · rintro ⟨g, rest, perm, covers⟩
    obtain ⟨i, inside, rfl⟩ := List.mem_map.mp (perm.mem_iff.mpr List.mem_cons_self)
    have others : ((slot.positions.erase i).map members.get).Perm rest :=
      (((List.perm_cons_erase inside).map members.get).symm.trans perm).cons_inv
    refine ⟨i, inside, fun j there => ?_⟩
    by_cases same : i = j
    · exact .inl same
    · have other : j ∈ slot.positions.erase i := distinct.mem_erase_iff.mpr ⟨Ne.symm same, there⟩
      exact .inr (covers _ (others.subset (List.mem_map_of_mem other)))

/-- Members of one name become fake overrides if they do not clash with declared ones, are compatible where they
clash with each other, and one of those that compete for a slot can stand for the others. -/
theorem DefaultClashes.exists_synthesize_iff (defaults : rules.DefaultClashes) :
    (∃ fakes, rules.synthesize d declared members = .ok fakes) ↔
      (∀ m ∈ members, ∀ own ∈ declared, own.slotFingerprint ≠ m.slotFingerprint) ∧
        rules.incompatible? members = none ∧
          ∀ m ∈ members, rules.Headed (rivals members m.slotFingerprint) := by
  simp only [synthesize_eq_ok_iff, exists_and_left, exists_forall₂_iff, declaredClash?_eq_none_iff,
    ← Bool.not_eq_true, defaults.clashes_iff]
  refine and_congr_right fun _ => and_congr_right fun apart => ?_
  have headed {slot : Component members.length} (member : slot ∈ rules.slots (numbered members)) :
      (∃ fake, rules.fill (numbered members) d slot = .ok fake) ↔
        rules.Headed (rivals members (members.get slot.least).slotFingerprint) := by
    have ascending : slot.positions.Pairwise (· < ·) := Component.ascending member
    rw [exists_fill_iff_headed ascending.nodup, defaults.map_positions apart member]
  constructor
  · intro all m here
    obtain ⟨i, rfl⟩ := List.mem_iff_get.mp here
    have covered : ∃ slot ∈ rules.slots (numbered members), i ∈ slot.positions :=
      Component.exists_component i
    obtain ⟨slot, member, inside⟩ := covered
    rw [(defaults.mem_positions_iff apart member).mp inside]
    exact (headed member).mp (all slot member)
  · intro all slot member
    exact (headed member).mpr (all _ (List.get_mem _ _))

/-- Clashing is left at its default, and compatibility does not ask which of two members comes first. -/
structure Evenhanded (rules : OverrideRules) : Prop where
  clashes : rules.DefaultClashes
  compatible_comm : ∀ a b, rules.compatible a b = rules.compatible b a

theorem evenhanded_of_defaults (clashes : rules.DefaultClashes) (compatible : ∀ a b, rules.compatible a b =
    (a.sharesRoot b || rules.overrides a b || rules.overrides b a)) : rules.Evenhanded where
  clashes := clashes
  compatible_comm a b := by
    rw [compatible, compatible, Member.sharesRoot_comm, Bool.or_assoc, Bool.or_assoc,
      Bool.or_comm (rules.overrides a b)]

theorem Evenhanded.incompatible?_of_perm (even : rules.Evenhanded) (perm : members.Perm members')
    (apart : rules.incompatible? members = none) : rules.incompatible? members' = none := by
  rw [incompatible?_eq_none_iff] at apart ⊢
  apply perm.pairwise apart
  intro a b together clashes
  rw [even.compatible_comm]
  exact together (even.clashes.clashes_iff.mpr (even.clashes.clashes_iff.mp clashes).symm)

theorem Evenhanded.exists_synthesize_of_perm (even : rules.Evenhanded) (perm : members.Perm members')
    (bodies : declared.Perm declared') (made : ∃ fakes, rules.synthesize d declared members = .ok fakes) :
    ∃ fakes, rules.synthesize d declared' members' = .ok fakes := by
  rw [even.clashes.exists_synthesize_iff] at made ⊢
  obtain ⟨free, apart, headed⟩ := made
  refine ⟨?_, even.incompatible?_of_perm perm apart, ?_⟩
  · intro m here own there
    exact free m (perm.mem_iff.mpr here) own (bodies.mem_iff.mpr there)
  · intro m here
    exact (headed m (perm.mem_iff.mpr here)).of_perm (perm.filter _)

/-- Clashing and compatibility are left at their defaults, and members override themselves. -/
structure Plain (rules : OverrideRules) : Prop where
  clashes : rules.DefaultClashes
  compatible : ∀ a b, rules.compatible a b =
    (a.sharesRoot b || rules.overrides a b || rules.overrides b a)
  refl : ∀ a, rules.overrides a a = true

theorem plain_bySignature : bySignature.Plain where
  clashes _ _ := rfl
  compatible _ _ := rfl
  refl a := by simp [bySignature]

/-- One of the members can stand for all of them. -/
def Led (rules : OverrideRules) (members : List Member) : Prop :=
  ∃ g ∈ members, ∀ b ∈ members, rules.dominates g b = true

theorem Plain.evenhanded (plain : rules.Plain) : rules.Evenhanded :=
  evenhanded_of_defaults plain.clashes plain.compatible

theorem Plain.dominates_self (plain : rules.Plain) (a : Member) : rules.dominates a a = true := by
  simp [dominates, plain.refl]

theorem Plain.headed_iff_led (plain : rules.Plain) : rules.Headed members ↔ rules.Led members := by
  constructor
  · rintro ⟨g, rest, perm, covers⟩
    refine ⟨g, perm.mem_iff.mpr List.mem_cons_self, fun b there => ?_⟩
    rcases List.mem_cons.mp (perm.mem_iff.mp there) with rfl | other
    · exact plain.dominates_self b
    · exact covers b other
  · rintro ⟨g, here, covers⟩
    exact ⟨g, members.erase g, List.perm_cons_erase here, fun b other => covers b (List.mem_of_mem_erase other)⟩

theorem Plain.incompatible?_eq_none_iff (plain : rules.Plain) : rules.incompatible? members = none ↔
    ∀ a ∈ members, ∀ b ∈ members, a.slotFingerprint = b.slotFingerprint → rules.compatible a b = true := by
  rw [OverrideRules.incompatible?_eq_none_iff]
  simp only [plain.clashes.clashes_iff]
  constructor
  · intro apart a here b there
    have symmetric : Std.Symm fun a b : Member =>
        a.slotFingerprint = b.slotFingerprint → rules.compatible a b = true :=
      ⟨fun a b together same => plain.evenhanded.compatible_comm a b ▸ together same.symm⟩
    have reflexive (m : Member) (_ : m ∈ members) (_ : m.slotFingerprint = m.slotFingerprint) :
        rules.compatible m m = true := by
      simp [plain.compatible, plain.refl]
    exact apart.forall_of_forall reflexive here there
  · exact fun all => List.pairwise_of_forall_mem_list all

theorem Plain.exists_synthesize_iff (plain : rules.Plain) :
    (∃ fakes, rules.synthesize d declared members = .ok fakes) ↔
      (∀ m ∈ members, ∀ own ∈ declared, own.slotFingerprint ≠ m.slotFingerprint) ∧
        (∀ a ∈ members, ∀ b ∈ members, a.slotFingerprint = b.slotFingerprint → rules.compatible a b = true) ∧
          ∀ m ∈ members, rules.Led (rivals members m.slotFingerprint) := by
  rw [plain.clashes.exists_synthesize_iff, plain.incompatible?_eq_none_iff]
  simp only [plain.headed_iff_led]

section

variable {inherited inherited' : List Member} {name : String} {slot : Fingerprint} {g : Member}

/-- The members of a name that compete for a slot and that no declared member overrides. -/
def competing (rules : OverrideRules) (d : Declaration) (inherited : List Member) (name : String)
    (slot : Fingerprint) : List Member :=
  rivals (rules.unmatchedNamed d inherited name) slot

theorem mem_competing : m ∈ rules.competing d inherited name slot ↔
    m ∈ rules.unmatchedNamed d inherited name ∧ m.slotFingerprint = slot := Member.mem_rivals

theorem competing_append (first rest : List Member) : rules.competing d (first ++ rest) name slot =
    rules.competing d first name slot ++ rules.competing d rest name slot := by
  simp [competing, rivals, unmatchedNamed, unmatched, NameGroup.gather]

theorem competing_eq_singleton
    (apart : inherited.Pairwise fun a b => a.name = b.name → a.slotFingerprint ≠ b.slotFingerprint)
    (here : g ∈ rules.competing d inherited name slot) : rules.competing d inherited name slot = [g] := by
  have sublist : (rules.competing d inherited name slot).Sublist inherited :=
    (List.filter_sublist.trans List.filter_sublist).trans List.filter_sublist
  have distinct := apart.sublist sublist
  have named {m : Member} (there : m ∈ rules.competing d inherited name slot) :
      m.name = name ∧ m.slotFingerprint = slot := by
    obtain ⟨free, same⟩ := mem_competing.mp there
    exact ⟨(mem_unmatchedNamed.mp free).1.2, same⟩
  match found : rules.competing d inherited name slot with
  | [] => simp [found] at here
  | [a] =>
    rw [found] at here
    rw [List.mem_singleton.mp here]
  | a :: b :: rest =>
    rw [found] at distinct
    obtain ⟨name, slot⟩ := named (m := a) (by simp [found])
    obtain ⟨name', slot'⟩ := named (m := b) (by simp [found])
    have different := (List.pairwise_cons.mp distinct).1 b List.mem_cons_self
    exact absurd (slot.trans slot'.symm) (different (name.trans name'.symm))

theorem DefaultClashes.overridden_of_fakesFrom (defaults : rules.DefaultClashes)
    (made : rules.fakesFrom d inherited = .ok fakes) (member : fake ∈ fakes) :
    fake.overridden = rules.competing d inherited fake.name fake.slotFingerprint := by
  obtain ⟨group, this, there⟩ := exists_of_mem_fakesFrom made member
  exact defaults.overridden_of_synthesize this there

theorem DefaultClashes.mem_overridden_iff (defaults : rules.DefaultClashes)
    (made : rules.fakesFrom d inherited = .ok fakes) (member : fake ∈ fakes) : m ∈ fake.overridden ↔
      m ∈ rules.unmatchedNamed d inherited fake.name ∧ m.slotFingerprint = fake.slotFingerprint := by
  rw [defaults.overridden_of_fakesFrom made member, mem_competing]

theorem DefaultClashes.exists_counterpart (defaults : rules.DefaultClashes) {fakes' : List Member}
    (made : rules.fakesFrom d inherited = .ok fakes) (made' : rules.fakesFrom d inherited' = .ok fakes')
    (kept : ∀ m ∈ rules.unmatchedNamed d inherited fake.name,
      ∃ m' ∈ rules.unmatchedNamed d inherited' fake.name, m'.slotFingerprint = m.slotFingerprint)
    (here : fake ∈ fakes) :
    ∃ fake' ∈ fakes', fake'.name = fake.name ∧ fake'.slotFingerprint = fake.slotFingerprint := by
  obtain ⟨group, this, there⟩ := exists_of_mem_fakesFrom made here
  obtain ⟨base, free, like⟩ := profile_of_synthesize this there
  obtain ⟨m', free', slot⟩ := kept base free
  obtain ⟨fake', there', name, slot'⟩ := defaults.exists_of_unmatched made' free'
  refine ⟨fake', there', name, ?_⟩
  rw [slot', slot, Member.slotFingerprint_eq_of_profile like]

theorem DefaultClashes.eq_of_slot (defaults : rules.DefaultClashes)
    (made : rules.fakesFrom d inherited = .ok fakes) {other : Member} (here : fake ∈ fakes)
    (there : other ∈ fakes) (name : fake.name = other.name)
    (slot : fake.slotFingerprint = other.slotFingerprint) : fake = other := by
  have symmetric : Std.Symm fun a b : Member => a.name = b.name → a.slotFingerprint ≠ b.slotFingerprint :=
    ⟨fun a b apart same => (apart same.symm).symm⟩
  by_contra different
  exact (defaults.pairwise_fakes made).forall here there different name slot

theorem exists_fakesFrom_iff : (∃ fakes, rules.fakesFrom d inherited = .ok fakes) ↔
    ∀ name, ∃ fakes,
      rules.synthesize d (d.membersNamed name) (rules.unmatchedNamed d inherited name) = .ok fakes := by
  constructor
  · rintro ⟨_, made⟩ name
    obtain ⟨found, parts, -⟩ := fakesFrom_eq_ok_iff.mp made
    by_cases known : name ∈ NameGroup.names inherited
    · obtain ⟨fakes, -, this⟩ := exists_right parts known
      exact ⟨fakes, this⟩
    · have none : rules.unmatchedNamed d inherited name = [] := by
        refine List.eq_nil_iff_forall_not_mem.mpr fun m free => known ?_
        exact NameGroup.mem_names.mpr ⟨m, (mem_unmatchedNamed.mp free).1⟩
      rw [none]
      exact ⟨[], synthesize_nil⟩
  · intro each
    obtain ⟨found, parts⟩ := exists_forall₂_iff.mpr fun name (_ : name ∈ NameGroup.names inherited) => each name
    exact ⟨found.flatten, fakesFrom_eq_ok_iff.mpr ⟨found, parts, rfl⟩⟩

end

end OverrideRules

end Inheritance
