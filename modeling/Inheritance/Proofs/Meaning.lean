import Inheritance.Proofs.Rivals
import Mathlib.Data.Finset.Dedup
import Mathlib.Data.List.Nodup
import Mathlib.Data.Set.Basic

/-! What a member means to subclasses under the default rules: its name, slot and result, whether it is
abstract, and the set of its roots. If declared members can be told apart by their fingerprints, members
with a common root agree on name, slot and result. Then the meanings of what a class inherits decide
whether it has fake overrides and what these mean, in whatever order the members come. -/
namespace Inheritance

namespace Member

/-- What the default rules compare. -/
def role (m : Member) : String × Fingerprint × TypeRef := (m.name, m.slotFingerprint, m.signature.result)

structure Meaning where
  name : String
  slot : Fingerprint
  result : TypeRef
  isAbstract : Bool
  roots : Finset Fingerprint

/-- Neither the owner of a member nor the members that it stands for are part of its meaning. -/
def meaning (m : Member) : Meaning :=
  ⟨m.name, m.slotFingerprint, m.signature.result, m.isAbstract, m.roots.toFinset⟩

def meanings (members : List Member) : Set Meaning := {x | ∃ m ∈ members, m.meaning = x}

variable {a b g g' m : Member} {l l' members members' : List Member} {h : Fingerprint}
  {owner owner' : Fingerprint} {ownerName ownerName' : String}

theorem role_eq_iff :
    a.role = b.role ↔ a.name = b.name ∧ a.slotFingerprint = b.slotFingerprint ∧
      a.signature.result = b.signature.result := by
  simp [role]

theorem meaning_eq_iff : a.meaning = b.meaning ↔
    a.role = b.role ∧ a.isAbstract = b.isAbstract ∧ a.roots.toFinset = b.roots.toFinset := by
  rw [meaning, meaning, Meaning.mk.injEq, role_eq_iff]
  simp only [and_assoc]

theorem name_eq_of_role (same : a.role = b.role) : a.name = b.name := (role_eq_iff.mp same).1

theorem slotFingerprint_eq_of_role (same : a.role = b.role) : a.slotFingerprint = b.slotFingerprint :=
  (role_eq_iff.mp same).2.1

theorem role_eq_of_meaning (same : a.meaning = b.meaning) : a.role = b.role := (meaning_eq_iff.mp same).1

theorem mem_meanings (here : m ∈ members) : m.meaning ∈ meanings members := ⟨m, here, rfl⟩

theorem meanings_append (l l' : List Member) : meanings (l ++ l') = meanings l ∪ meanings l' := by
  ext x
  simp [meanings, or_and_right, exists_or]

theorem role_synthesize : (synthesize owner ownerName g l).role = g.role := rfl

theorem isAbstract_synthesize : (synthesize owner ownerName g l).isAbstract = true ↔
    ∀ x ∈ meanings l, x.isAbstract = true := by
  rw [isAbstract_synthesize_eq_all]
  simp [meanings, meaning]

theorem mem_roots_synthesize : h ∈ (synthesize owner ownerName g l).roots ↔ ∃ x ∈ meanings l, h ∈ x.roots := by
  rw [roots_synthesize, mem_inheritedRoots]
  simp [meanings, meaning]

theorem meaning_synthesize_congr (role : g.role = g'.role) (same : meanings l = meanings l') :
    (synthesize owner ownerName g l).meaning = (synthesize owner' ownerName' g' l').meaning := by
  refine meaning_eq_iff.mpr ⟨role, ?_, ?_⟩
  · rw [Bool.eq_iff_iff, isAbstract_synthesize, isAbstract_synthesize, same]
  · ext h
    rw [List.mem_toFinset, List.mem_toFinset, mem_roots_synthesize, mem_roots_synthesize, same]

/-- Declared members of one name differ in their fingerprints. -/
def Distinguished (declared : List Member) : Prop :=
  ∀ m ∈ declared, ∀ n ∈ declared, m.name = n.name → m.fingerprint = n.fingerprint → m = n

theorem distinguished_of_nodup (distinct : (members.map fingerprint).Nodup) : Distinguished members := by
  intro m here n there _ same
  exact List.inj_on_of_nodup_map distinct here there same

/-- All roots of the member are declared members that have its name, slot and result. -/
def Rooted (declared : List Member) (m : Member) : Prop :=
  ∀ h ∈ m.roots, ∃ own ∈ declared, own.fingerprint = h ∧ own.role = m.role

theorem rooted_of_mem {declared : List Member} (here : m ∈ declared) (real : m.isFake = false) :
    Rooted declared m := by
  cases m with
  | declared header =>
    intro h root
    exact ⟨_, here, (List.mem_singleton.mp root).symm, rfl⟩
  | fake => simp [isFake] at real

theorem Rooted.role_eq {declared : List Member} (rooted : Rooted declared a) (other : Rooted declared b)
    (distinguished : Distinguished declared) (name : a.name = b.name) (shares : a.sharesRoot b = true) :
    a.role = b.role := by
  obtain ⟨h, root, root'⟩ := sharesRoot_iff.mp shares
  obtain ⟨own, here, same, role⟩ := rooted h root
  obtain ⟨own', there, same', role'⟩ := other h root'
  have names : own.name = own'.name := by
    rw [name_eq_of_role role, name_eq_of_role role', name]
  obtain rfl := distinguished own here own' there names (same.trans same'.symm)
  exact role.symm.trans role'

end Member

open Member (Distinguished Rooted meanings)

namespace OverrideRules

variable {d : Declaration} {declared inherited inherited' fakes fakes' : List Member}
  {a b m fake fake' : Member} {name : String} {slot h : Fingerprint}

theorem overrides_bySignature_iff (name : a.name = b.name) :
    bySignature.overrides a b = true ↔ a.role = b.role := by
  simp [bySignature, Member.role_eq_iff, name]

theorem mem_unmatched_bySignature : m ∈ bySignature.unmatchedNamed d inherited name ↔
    (m ∈ inherited ∧ m.name = name) ∧ ∀ own ∈ d.membersNamed name, own.role ≠ m.role := by
  rw [mem_unmatchedNamed]
  refine and_congr_right fun ⟨_, named⟩ => forall₂_congr fun own declared => ?_
  have same : own.name = m.name := (of_decide_eq_true (List.mem_filter.mp declared).2).trans named.symm
  rw [← Bool.not_eq_true, overrides_bySignature_iff same]

theorem exists_unmatched_of_meanings (same : meanings inherited = meanings inherited')
    (free : m ∈ bySignature.unmatchedNamed d inherited name) :
    ∃ m' ∈ bySignature.unmatchedNamed d inherited' name, m'.meaning = m.meaning := by
  obtain ⟨⟨here, named⟩, apart⟩ := mem_unmatched_bySignature.mp free
  have there : m.meaning ∈ meanings inherited' := same ▸ Member.mem_meanings here
  obtain ⟨m', there, like⟩ := there
  have role := Member.role_eq_of_meaning like
  refine ⟨m', mem_unmatched_bySignature.mpr ⟨⟨there, ?_⟩, fun own member => ?_⟩, like⟩
  · exact (Member.name_eq_of_role role).trans named
  · exact role ▸ apart own member

theorem meanings_competing_subset (same : meanings inherited = meanings inherited') :
    meanings (bySignature.competing d inherited name slot) ⊆
      meanings (bySignature.competing d inherited' name slot) := by
  rintro x ⟨m, here, rfl⟩
  obtain ⟨free, takes⟩ := mem_competing.mp here
  obtain ⟨m', free', like⟩ := exists_unmatched_of_meanings same free
  have role := Member.role_eq_of_meaning like
  refine ⟨m', mem_competing.mpr ⟨free', ?_⟩, like⟩
  exact (Member.slotFingerprint_eq_of_role role).trans takes

theorem meanings_competing (same : meanings inherited = meanings inherited') :
    meanings (bySignature.competing d inherited name slot) =
      meanings (bySignature.competing d inherited' name slot) :=
  Set.Subset.antisymm (meanings_competing_subset same) (meanings_competing_subset same.symm)

section

variable (distinguished : Distinguished declared) (rooted : ∀ m ∈ inherited, Rooted declared m)
  (made : bySignature.fakesFrom d inherited = .ok fakes)

include distinguished rooted made

/-- Members that compete for a slot agree, since they would be a conflict otherwise. -/
theorem role_eq_of_fakesFrom (first : a ∈ bySignature.unmatchedNamed d inherited name)
    (second : b ∈ bySignature.unmatchedNamed d inherited name) (slot : a.slotFingerprint = b.slotFingerprint) :
    a.role = b.role := by
  obtain ⟨-, compatible, -⟩ := plain_bySignature.exists_synthesize_iff.mp (exists_fakesFrom_iff.mp ⟨fakes, made⟩ name)
  obtain ⟨⟨here, named⟩, -⟩ := mem_unmatchedNamed.mp first
  obtain ⟨⟨there, named'⟩, -⟩ := mem_unmatchedNamed.mp second
  have name : a.name = b.name := named.trans named'.symm
  have together := compatible a first b second slot
  simp only [plain_bySignature.compatible, Bool.or_eq_true] at together
  rcases together with (shares | forth) | back
  · exact (rooted a here).role_eq (rooted b there) distinguished name shares
  · exact (overrides_bySignature_iff name).mp forth
  · exact ((overrides_bySignature_iff name.symm).mp back).symm

theorem exists_fakesFrom_of_meanings (same : meanings inherited = meanings inherited') :
    ∃ fakes', bySignature.fakesFrom d inherited' = .ok fakes' := by
  apply exists_fakesFrom_iff.mpr
  intro name
  have free := (plain_bySignature.exists_synthesize_iff.mp (exists_fakesFrom_iff.mp ⟨fakes, made⟩ name)).1
  have overrides {a b : Member} (first : a ∈ bySignature.unmatchedNamed d inherited' name)
      (second : b ∈ bySignature.unmatchedNamed d inherited' name)
      (slot : a.slotFingerprint = b.slotFingerprint) : bySignature.overrides a b = true := by
    obtain ⟨a', first', like⟩ := exists_unmatched_of_meanings same.symm first
    obtain ⟨b', second', like'⟩ := exists_unmatched_of_meanings same.symm second
    have role := Member.role_eq_of_meaning like
    have role' := Member.role_eq_of_meaning like'
    have slots : a'.slotFingerprint = b'.slotFingerprint := by
      rw [Member.slotFingerprint_eq_of_role role, Member.slotFingerprint_eq_of_role role', slot]
    have agree : a.role = b.role := by
      rw [← role, ← role', role_eq_of_fakesFrom distinguished rooted made first' second' slots]
    exact (overrides_bySignature_iff (Member.name_eq_of_role agree)).mpr agree
  apply plain_bySignature.exists_synthesize_iff.mpr
  refine ⟨?_, ?_, ?_⟩
  · intro m here own member
    obtain ⟨m', here', like⟩ := exists_unmatched_of_meanings same.symm here
    rw [← Member.slotFingerprint_eq_of_role (Member.role_eq_of_meaning like)]
    exact free m' here' own member
  · intro a here b there slot
    simp [plain_bySignature.compatible, overrides here there slot]
  · intro m here
    refine ⟨m, Member.mem_rivals.mpr ⟨here, rfl⟩, ?_⟩
    intro b there
    obtain ⟨there, slot⟩ := Member.mem_rivals.mp there
    simp [dominates, overrides here there slot.symm]

end

theorem exists_counterpart_of_meanings (same : meanings inherited = meanings inherited')
    (made : bySignature.fakesFrom d inherited = .ok fakes)
    (made' : bySignature.fakesFrom d inherited' = .ok fakes') (here : fake ∈ fakes) :
    ∃ fake' ∈ fakes', fake'.name = fake.name ∧ fake'.slotFingerprint = fake.slotFingerprint := by
  refine plain_bySignature.clashes.exists_counterpart made made' ?_ here
  intro m free
  obtain ⟨m', free', like⟩ := exists_unmatched_of_meanings same free
  exact ⟨m', free', Member.slotFingerprint_eq_of_role (Member.role_eq_of_meaning like)⟩

section

variable (distinguished : Distinguished declared) (rooted : ∀ m ∈ inherited, Rooted declared m)
  (made : bySignature.fakesFrom d inherited = .ok fakes)

include distinguished rooted made

theorem role_eq_of_overridden (here : fake ∈ fakes) (direct : m ∈ fake.overridden) : m.role = fake.role := by
  obtain ⟨g, inside, this⟩ := exists_synthesize_of_mem_fakesFrom made here
  obtain ⟨free, slot⟩ := (plain_bySignature.clashes.mem_overridden_iff made here).mp direct
  obtain ⟨free', slot'⟩ := (plain_bySignature.clashes.mem_overridden_iff made here).mp inside
  have agree : m.role = g.role :=
    role_eq_of_fakesFrom distinguished rooted made free free' (slot.trans slot'.symm)
  rw [agree, this, Member.role_synthesize]

theorem rooted_of_fakesFrom (here : fake ∈ fakes) : Rooted declared fake := by
  obtain ⟨g, -, this⟩ := exists_synthesize_of_mem_fakesFrom made here
  intro h root
  rw [this] at root
  obtain ⟨m, direct, root⟩ := Member.mem_inheritedRoots.mp root
  obtain ⟨own, there, same, role⟩ := rooted m (overridden_subset_of_fakesFrom made here direct) h root
  exact ⟨own, there, same, role.trans (role_eq_of_overridden distinguished rooted made here direct)⟩

theorem meaning_eq_of_slot (same : meanings inherited = meanings inherited')
    (made' : bySignature.fakesFrom d inherited' = .ok fakes') (here : fake ∈ fakes) (there : fake' ∈ fakes')
    (name : fake'.name = fake.name) (slot : fake'.slotFingerprint = fake.slotFingerprint) :
    fake'.meaning = fake.meaning := by
  have overridden : meanings fake'.overridden = meanings fake.overridden := by
    rw [plain_bySignature.clashes.overridden_of_fakesFrom made here,
      plain_bySignature.clashes.overridden_of_fakesFrom made' there, name, slot]
    exact (meanings_competing same).symm
  obtain ⟨g, inside, this⟩ := exists_synthesize_of_mem_fakesFrom made here
  obtain ⟨g', inside', this'⟩ := exists_synthesize_of_mem_fakesFrom made' there
  have role : g'.role = g.role := by
    obtain ⟨free, takes⟩ := (plain_bySignature.clashes.mem_overridden_iff made here).mp inside
    obtain ⟨free', takes'⟩ := (plain_bySignature.clashes.mem_overridden_iff made' there).mp inside'
    obtain ⟨m, free', like⟩ := exists_unmatched_of_meanings same.symm free'
    have role := Member.role_eq_of_meaning like
    have slots : m.slotFingerprint = g.slotFingerprint := by
      rw [Member.slotFingerprint_eq_of_role role, takes', slot, takes]
    rw [← role]
    exact role_eq_of_fakesFrom distinguished rooted made (name ▸ free') free slots
  rw [this, this']
  exact Member.meaning_synthesize_congr role overridden

theorem perm_meanings_of_fakesFrom (same : meanings inherited = meanings inherited')
    (made' : bySignature.fakesFrom d inherited' = .ok fakes') :
    (fakes.map Member.meaning).Perm (fakes'.map Member.meaning) := by
  have distinct {inherited fakes : List Member} (made : bySignature.fakesFrom d inherited = .ok fakes) :
      (fakes.map Member.meaning).Nodup := by
    refine List.pairwise_map.mpr ((plain_bySignature.clashes.pairwise_fakes made).imp fun {a b} apart like => ?_)
    obtain ⟨name, slot, -⟩ := Member.role_eq_iff.mp (Member.role_eq_of_meaning like)
    exact apart name slot
  refine (List.perm_ext_iff_of_nodup (distinct made) (distinct made')).mpr fun x => ?_
  simp only [List.mem_map]
  constructor
  · rintro ⟨fake, here, rfl⟩
    obtain ⟨fake', there, name, slot⟩ := exists_counterpart_of_meanings same made made' here
    exact ⟨fake', there, meaning_eq_of_slot distinguished rooted made same made' here there name slot⟩
  · rintro ⟨fake', there, rfl⟩
    obtain ⟨fake, here, name, slot⟩ := exists_counterpart_of_meanings same.symm made' made there
    refine ⟨fake, here, ?_⟩
    exact (meaning_eq_of_slot distinguished rooted made same made' here there name.symm slot.symm).symm

end

end OverrideRules

/-- All that is declared in the classes of a list. -/
def declaredMembers (declarations : List Declaration) : List Member := declarations.flatMap (·.members)

namespace Registry

open OverrideRules

variable {r : Registry} {c : EffectiveClass} {m : Member}

/-- Whatever is in a scope goes back to declared members of its name, slot and result. -/
theorem Descends.rooted (descends : r.Descends (· = bySignature) c)
    (distinguished : Distinguished (declaredMembers r.declarations)) :
    ∀ m ∈ c.members, Rooted (declaredMembers r.declarations) m := by
  induction descends with
  | @made _ d supertypes fakes allowed registered valid _ computed _ ih =>
    subst allowed
    intro m member
    rcases List.mem_append.mp member with own | fake
    · have real := ((Declaration.defect?_eq_none_iff.mp valid).1 m own).1
      exact Member.rooted_of_mem (List.mem_flatMap.mpr ⟨d, mem_of_get? registered, own⟩) real
    · refine rooted_of_fakesFrom distinguished (fun m inherited => ?_) computed fake
      obtain ⟨c, here, inside⟩ := List.mem_flatMap.mp inherited
      exact ih c here m inside

theorem rooted_aggregate {supertypes : List EffectiveClass}
    (distinguished : Distinguished (declaredMembers r.declarations))
    (below : ∀ c ∈ supertypes, r.Descends (· = bySignature) c) :
    ∀ m ∈ aggregate supertypes, Rooted (declaredMembers r.declarations) m := by
  intro m inherited
  obtain ⟨c, here, inside⟩ := List.mem_flatMap.mp inherited
  exact (below c here).rooted distinguished m inside

end Registry

end Inheritance
