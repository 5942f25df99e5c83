import Inheritance.Scope
import Mathlib.Data.List.Basic

/-! What the identity of a member tells. Owner, name and kind enter it without order, by exclusive or, and
parameters lose nothing after that. So members of equal identity that agree in two of the three agree in the
third too. Otherwise owner and name may cancel: all members that bear the name of their owner have one
identity, and so have members that exchange the two. -/
namespace Inheritance

/-- No two of the texts have one digest. -/
def Digest.CollisionFree (texts : List String) : Prop :=
  ∀ s ∈ texts, ∀ t ∈ texts, ofText s = ofText t → s = t

instance (texts : List String) : Decidable (Digest.CollisionFree texts) :=
  inferInstanceAs (Decidable (∀ s ∈ texts, ∀ t ∈ texts, Digest.ofText s = Digest.ofText t → s = t))

namespace Fingerprint

/-- The factor between two parameters is odd, so it can be undone. -/
theorem mul_step_inj {a b : UInt64} : a * step = b * step ↔ a = b := by
  have undone (c : UInt64) : c * step * 0xd3f20f0a40208825 = c := by
    have one : step * 0xd3f20f0a40208825 = 1 := by decide
    rw [UInt64.mul_assoc, one, UInt64.mul_one]
  constructor
  · intro same
    rw [← undone a, same, undone]
  · exact congrArg (· * step)

theorem mixFrom_inj {position : Nat} {a b : UInt64} {params : List Fingerprint} :
    mixFrom position a params = mixFrom position b params ↔ a = b := by
  induction params generalizing position a b with
  | nil => rfl
  | cons p rest ih => rw [mixFrom, mixFrom, ih, UInt64.add_left_inj, mul_step_inj]

end Fingerprint

namespace MemberKind

theorem shifted_tag_inj {a b : MemberKind} : a.tag.toUInt64 <<< 56 = b.tag.toUInt64 <<< 56 ↔ a = b := by
  cases a <;> cases b <;> decide

end MemberKind

namespace Member

/-- What owner, name and kind come to before the parameters are mixed in. -/
def seed (m : Member) : UInt64 :=
  Fingerprint.memberMark ^^^ m.owner.bits ^^^ Digest.ofText m.name ^^^ m.kind.tag.toUInt64 <<< 56

/-- The part of the seed that tells members apart if their owners are known by name. -/
def stamp (m : Member) : UInt64 :=
  Digest.ofText m.ownerName ^^^ Digest.ofText m.name ^^^ m.kind.tag.toUInt64 <<< 56

/-- Owners are the classes of the given names, parameters are the same, and digests tell the names apart. -/
structure Comparable (a b : Member) : Prop where
  left : a.owner = .ofName a.ownerName
  right : b.owner = .ofName b.ownerName
  params : a.signature.paramFingerprints = b.signature.paramFingerprints
  free : Digest.CollisionFree [a.ownerName, a.name, b.ownerName, b.name]

def SameAs (a b : Member) : Prop := a.owner = b.owner ∧ a.kind = b.kind ∧ a.name = b.name

instance (a b : Member) : Decidable (a.SameAs b) :=
  inferInstanceAs (Decidable (a.owner = b.owner ∧ a.kind = b.kind ∧ a.name = b.name))

/-- Two of owner, kind and name are the same. -/
def AgreesTwice (a b : Member) : Prop :=
  (a.owner = b.owner ∧ a.kind = b.kind) ∨ (a.owner = b.owner ∧ a.name = b.name) ∨
    (a.kind = b.kind ∧ a.name = b.name)

variable {a b : Member}

theorem fingerprint_eq_iff_seed (params : a.signature.paramFingerprints = b.signature.paramFingerprints) :
    a.fingerprint = b.fingerprint ↔ a.seed = b.seed := by
  have mixed (m : Member) : m.fingerprint =
      ⟨Fingerprint.mixFrom 0 m.seed m.signature.paramFingerprints⟩ := rfl
  rw [mixed, mixed, params, Fingerprint.mk.injEq, Fingerprint.mixFrom_inj]

theorem seed_of_named (named : a.owner = .ofName a.ownerName) :
    a.seed = Fingerprint.memberMark ^^^ (Fingerprint.typeMark ^^^ a.stamp) := by
  rw [seed, named, Fingerprint.ofName, stamp]
  simp only [UInt64.xor_assoc]

theorem Comparable.fingerprint_eq_iff (comparable : a.Comparable b) :
    a.fingerprint = b.fingerprint ↔ a.stamp = b.stamp := by
  rw [fingerprint_eq_iff_seed comparable.params, seed_of_named comparable.left,
    seed_of_named comparable.right, UInt64.xor_right_inj, UInt64.xor_right_inj]

theorem Comparable.sameAs_of_agreesTwice (comparable : a.Comparable b)
    (same : a.fingerprint = b.fingerprint) (agrees : a.AgreesTwice b) : a.SameAs b := by
  have seeds : a.seed = b.seed := (fingerprint_eq_iff_seed comparable.params).mp same
  unfold seed at seeds
  rcases agrees with ⟨owner, kind⟩ | ⟨owner, name⟩ | ⟨kind, name⟩
  · rw [owner, kind, UInt64.xor_left_inj, UInt64.xor_right_inj] at seeds
    exact ⟨owner, kind, comparable.free _ (by simp) _ (by simp) seeds⟩
  · rw [owner, name, UInt64.xor_right_inj, MemberKind.shifted_tag_inj] at seeds
    exact ⟨owner, seeds, name⟩
  · rw [kind, name, UInt64.xor_left_inj, UInt64.xor_left_inj, UInt64.xor_right_inj] at seeds
    exact ⟨Fingerprint.mk.injEq .. ▸ seeds, kind, name⟩

/-- Equal identities leave one of owner, kind and name to be found out from the other two. -/
theorem Comparable.sameAs_iff (comparable : a.Comparable b) :
    a.SameAs b ↔ a.fingerprint = b.fingerprint ∧ a.AgreesTwice b := by
  constructor
  · rintro ⟨owner, kind, name⟩
    have seeds : a.seed = b.seed := by rw [seed, seed, owner, kind, name]
    exact ⟨(fingerprint_eq_iff_seed comparable.params).mpr seeds, .inl ⟨owner, kind⟩⟩
  · rintro ⟨same, agrees⟩
    exact comparable.sameAs_of_agreesTwice same agrees

/-- Members that exchange owner and name have one identity. -/
theorem Comparable.fingerprint_eq_of_exchanged (comparable : a.Comparable b) (kind : a.kind = b.kind)
    (forth : a.ownerName = b.name) (back : a.name = b.ownerName) : a.fingerprint = b.fingerprint := by
  rw [comparable.fingerprint_eq_iff, stamp, stamp, forth, back, kind, UInt64.xor_comm (Digest.ofText b.name)]

theorem Comparable.fingerprint_eq_of_eponymous (comparable : a.Comparable b) (kind : a.kind = b.kind)
    (left : a.ownerName = a.name) (right : b.ownerName = b.name) : a.fingerprint = b.fingerprint := by
  rw [comparable.fingerprint_eq_iff, stamp, stamp, left, right, kind, UInt64.xor_self, UInt64.xor_self]

end Member

namespace Scope

open Member

variable {s : Scope} {probe : Member}

theorem contains_iff {h : Fingerprint} : s.contains h = true ↔ ∃ m ∈ s.members, m.fingerprint = h := by
  simp [contains]

/-- An identity tells owner, kind and name of a member exactly where equal stamps come with agreement in two
of the three, and so does the answer of a scope that is asked for it. -/
theorem identifies_iff (comparable : ∀ m ∈ s.members, m.Comparable probe) :
    (∀ m ∈ s.members, (m.fingerprint = probe.fingerprint → m.SameAs probe) ↔
      (m.stamp = probe.stamp → m.AgreesTwice probe)) ∧
    ((s.contains probe.fingerprint = true → ∃ m ∈ s.members, m.SameAs probe) ↔
      ((∃ m ∈ s.members, m.stamp = probe.stamp) →
        ∃ m ∈ s.members, m.stamp = probe.stamp ∧ m.AgreesTwice probe)) := by
  have same {m : Member} (here : m ∈ s.members) :
      m.SameAs probe ↔ m.stamp = probe.stamp ∧ m.AgreesTwice probe := by
    rw [(comparable m here).sameAs_iff, (comparable m here).fingerprint_eq_iff]
  have held : s.contains probe.fingerprint = true ↔ ∃ m ∈ s.members, m.stamp = probe.stamp := by
    rw [contains_iff]
    refine exists_congr fun m => and_congr_right fun here => ?_
    exact (comparable m here).fingerprint_eq_iff
  constructor
  · intro m here
    rw [same here, (comparable m here).fingerprint_eq_iff]
    exact imp_congr_right fun equal => and_iff_right equal
  · rw [held]
    refine imp_congr_right fun _ => exists_congr fun m => and_congr_right fun here => ?_
    exact same here

/-- The scope holds `Shape::area` and `Shape::Point`, and its members agree with a probe of `Shape` in owner
and kind. -/
theorem identifies_shape :
    let member (owner name : String) := Member.declare owner .function name ⟨[], .unit⟩ .overridable
    let shape : Scope := .build "Shape" [member "Shape" "area", member "Shape" "Point"] []
    let probe := member "Shape" "Point"
    (∀ m ∈ shape.members, m.Comparable probe) ∧ shape.contains probe.fingerprint = true ∧
      (∀ m ∈ shape.members, (m.fingerprint = probe.fingerprint → m.SameAs probe) ↔
        (m.stamp = probe.stamp → m.AgreesTwice probe)) ∧
      ((shape.contains probe.fingerprint = true → ∃ m ∈ shape.members, m.SameAs probe) ↔
        ((∃ m ∈ shape.members, m.stamp = probe.stamp) →
          ∃ m ∈ shape.members, m.stamp = probe.stamp ∧ m.AgreesTwice probe)) := by
  intro member shape probe
  have comparable : ∀ m ∈ shape.members, m.Comparable probe := by
    intro m here
    have distinct : Digest.CollisionFree ["Shape", "area", "Shape", "Point"] := by decide +kernel
    have one : Digest.CollisionFree ["Shape", "Point", "Shape", "Point"] := by decide +kernel
    rcases List.mem_pair.mp here with rfl | rfl
    · exact ⟨rfl, rfl, rfl, distinct⟩
    · exact ⟨rfl, rfl, rfl, one⟩
  exact ⟨comparable, by decide +kernel, identifies_iff comparable⟩

/-- `Point::Point` and `Line::Line` have one identity, so a scope with the first is said to hold the second. -/
theorem not_forall_sameAs_of_contains :
    (¬ ∀ a b : Member, a.Comparable b → a.fingerprint = b.fingerprint → a.SameAs b) ∧
      ¬ ∀ (s : Scope) (probe : Member), (∀ m ∈ s.members, m.Comparable probe) →
        s.contains probe.fingerprint = true → ∃ m ∈ s.members, m.SameAs probe := by
  let point := Member.declare "Point" .function "Point" ⟨[], .unit⟩ .overridable
  let line := Member.declare "Line" .function "Line" ⟨[], .unit⟩ .overridable
  have comparable : point.Comparable line := ⟨rfl, rfl, rfl, by decide +kernel⟩
  have equal : point.fingerprint = line.fingerprint := comparable.fingerprint_eq_of_eponymous rfl rfl rfl
  have other : ¬ point.SameAs line := by decide +kernel
  constructor
  · intro all
    exact other (all point line comparable equal)
  · intro all
    have held : (build "Point" [point] []).contains line.fingerprint = true :=
      contains_iff.mpr ⟨point, List.mem_singleton_self point, equal⟩
    have single : ∀ m ∈ (build "Point" [point] []).members, m.Comparable line := by
      intro m here
      exact List.mem_singleton.mp here ▸ comparable
    obtain ⟨m, here, same⟩ := all (build "Point" [point] []) line single held
    exact other (List.mem_singleton.mp here ▸ same)

end Scope

end Inheritance
