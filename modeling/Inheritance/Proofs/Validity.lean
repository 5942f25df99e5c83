import Inheritance.Declaration
import Mathlib.Data.List.Basic

/-! What makes a declaration valid, and what it is refused for otherwise. Its members are declared in it and take
different slots, and its supertypes are different from each other and from the class. Of all that is wrong the
first member is reported, and supertypes only where no member is at fault. -/
namespace Inheritance.Declaration

variable {d : Declaration} {front members : List Member} {m : Member} {slots : List Fingerprint}
  {seen supertypes : List String} {s : String} {e : RegistrationError}

theorem memberDefect?_eq_none_iff {slots : List Fingerprint} {m : Member} :
    d.memberDefect? slots m = none ↔
      m.isFake = false ∧ m.owner = d.fingerprint ∧ m.slotFingerprint ∉ slots := by
  unfold memberDefect?
  split <;> simp_all
  split <;> simp_all

theorem firstMemberDefect?_eq_none_iff {slots : List Fingerprint} {members : List Member} :
    d.firstMemberDefect? slots members = none ↔
      (∀ m ∈ members, m.isFake = false ∧ m.owner = d.fingerprint ∧ m.slotFingerprint ∉ slots) ∧
        members.Pairwise fun a b => a.slotFingerprint ≠ b.slotFingerprint := by
  induction members generalizing slots with
  | nil => simp [firstMemberDefect?]
  | cons m rest ih =>
    rw [firstMemberDefect?, Option.or_eq_none_iff, memberDefect?_eq_none_iff, ih, List.pairwise_cons,
      List.forall_mem_cons]
    constructor
    · rintro ⟨first, others, distinct⟩
      refine ⟨⟨first, fun n member => ?_⟩, fun n member => ?_, distinct⟩
      · exact ⟨(others n member).1, (others n member).2.1, fun h => (others n member).2.2 (.tail _ h)⟩
      · exact fun same => (others n member).2.2 (List.mem_cons.mpr (.inl same.symm))
    · rintro ⟨⟨first, others⟩, apart, distinct⟩
      refine ⟨first, fun n member => ⟨(others n member).1, (others n member).2.1, fun h => ?_⟩, distinct⟩
      rcases List.mem_cons.mp h with same | old
      · exact apart n member same.symm
      · exact (others n member).2.2 old

theorem firstRepeated?_eq_none_iff {seen supertypes : List String} :
    firstRepeated? seen supertypes = none ↔ (∀ s ∈ supertypes, s ∉ seen) ∧ supertypes.Nodup := by
  induction supertypes generalizing seen with
  | nil => simp [firstRepeated?]
  | cons s rest ih =>
    rw [firstRepeated?]
    split
    · rename_i old
      simp [old]
    · rename_i new
      simp only [ih, List.mem_cons, not_or, List.nodup_cons]
      grind

theorem defect?_eq_none_iff : d.defect? = none ↔
    (∀ m ∈ d.members, m.isFake = false ∧ m.owner = d.fingerprint) ∧
      d.members.Pairwise (fun a b => a.slotFingerprint ≠ b.slotFingerprint) ∧
        d.name ∉ d.supertypes ∧ d.supertypes.Nodup := by
  have supertypes : d.supertypeDefect? = none ↔ d.name ∉ d.supertypes ∧ d.supertypes.Nodup := by
    unfold supertypeDefect?
    split <;> simp_all [firstRepeated?_eq_none_iff]
  rw [defect?, Option.or_eq_none_iff, firstMemberDefect?_eq_none_iff, supertypes]
  simp [and_assoc]

/-- Members that may stand together in the body of the class. -/
def Accepts (d : Declaration) (members : List Member) : Prop :=
  (∀ m ∈ members, m.isFake = false ∧ m.owner = d.fingerprint) ∧
    members.Pairwise fun a b => a.slotFingerprint ≠ b.slotFingerprint

/-- Why a member is refused that comes after others. The first reason that applies is the one. -/
inductive Accuses (d : Declaration) (front : List Member) (m : Member) : RegistrationError → Prop where
  | synthetic (fake : m.isFake = true) : Accuses d front m (.invalid (.synthetic d.name (toString m)))
  | foreign (declared : m.isFake = false) (owner : m.owner ≠ d.fingerprint) :
      Accuses d front m (.foreignMember d.name (toString m))
  | duplicate (declared : m.isFake = false) (owner : m.owner = d.fingerprint)
      (again : ∃ n ∈ front, n.slotFingerprint = m.slotFingerprint) :
      Accuses d front m (.duplicateMember d.name (toString m))

/-- The first thing that is wrong with a declaration. -/
inductive FirstDefect (d : Declaration) : RegistrationError → Prop where
  | member {front m rest e} (split : d.members = front ++ m :: rest) (clear : d.Accepts front)
      (accused : d.Accuses front m e) : FirstDefect d e
  | selfSupertype (clear : d.Accepts d.members) (self : d.name ∈ d.supertypes) :
      FirstDefect d (.invalid (.selfSupertype d.name))
  | repeatedSupertype {front s rest} (clear : d.Accepts d.members) (other : d.name ∉ d.supertypes)
      (split : d.supertypes = front ++ s :: rest) (distinct : front.Nodup) (again : s ∈ front) :
      FirstDefect d (.invalid (.repeatedSupertype d.name s))

structure Valid (d : Declaration) : Prop where
  declared : ∀ m ∈ d.members, m.isFake = false
  owned : ∀ m ∈ d.members, m.owner = d.fingerprint
  slots : (d.members.map (·.slotFingerprint)).Nodup
  other : d.name ∉ d.supertypes
  distinct : d.supertypes.Nodup

/-- What the check of a declaration tells. -/
structure Judges (d : Declaration) : Prop where
  accepts : d.validate = .ok () ↔ d.Valid
  apart : d.validate = .ok () → d.members.Pairwise fun a b =>
    ¬ (a.kind = b.kind ∧ a.name = b.name ∧ a.signature.paramFingerprints = b.signature.paramFingerprints)
  refuses : ∀ e, d.validate = .error e ↔ d.FirstDefect e

theorem valid_iff : d.Valid ↔ d.defect? = none := by
  have slots : (d.members.map (·.slotFingerprint)).Nodup ↔
      d.members.Pairwise fun a b => a.slotFingerprint ≠ b.slotFingerprint := List.pairwise_map
  rw [defect?_eq_none_iff, ← slots]
  constructor
  · rintro ⟨declared, owned, distinct, other, supertypes⟩
    exact ⟨fun m member => ⟨declared m member, owned m member⟩, distinct, other, supertypes⟩
  · rintro ⟨own, distinct, other, supertypes⟩
    exact ⟨fun m member => (own m member).1, fun m member => (own m member).2, distinct, other, supertypes⟩

theorem validate_eq_error_iff : d.validate = .error e ↔ d.defect? = some e := by
  unfold validate
  split <;> simp_all

theorem memberDefect?_eq_some_iff (known : ∀ h, h ∈ slots ↔ ∃ n ∈ front, n.slotFingerprint = h) :
    d.memberDefect? slots m = some e ↔ d.Accuses front m e := by
  rw [memberDefect?]
  simp only [known]
  constructor
  · intro found
    split at found
    · rename_i fake
      obtain rfl := Option.some.inj found
      exact .synthetic fake
    rename_i declared
    split at found
    · rename_i owner
      obtain rfl := Option.some.inj found
      exact .foreign (eq_false_of_ne_true declared) owner
    rename_i owner
    split at found
    · rename_i again
      obtain rfl := Option.some.inj found
      exact .duplicate (eq_false_of_ne_true declared) (not_not.mp owner) again
    · exact nomatch found
  · rintro (fake | ⟨declared, owner⟩ | ⟨declared, owner, again⟩)
    · rw [if_pos fake]
    · rw [if_neg (ne_true_of_eq_false declared), if_pos owner]
    · rw [if_neg (ne_true_of_eq_false declared), if_neg (not_not.mpr owner), if_pos again]

/-- The members before the first bad one are taken in, and it is judged by their slots. -/
theorem firstMemberDefect?_eq_some_iff (known : ∀ h, h ∈ slots ↔ ∃ n ∈ front, n.slotFingerprint = h) :
    d.firstMemberDefect? slots members = some e ↔ ∃ before m rest, members = before ++ m :: rest ∧
      d.firstMemberDefect? slots before = none ∧ d.Accuses (front ++ before) m e := by
  induction members generalizing front slots with
  | nil => simp [firstMemberDefect?]
  | cons n members ih =>
    have known' : ∀ h, h ∈ n.slotFingerprint :: slots ↔ ∃ o ∈ front ++ [n], o.slotFingerprint = h := by
      intro h
      rw [List.mem_cons, known]
      constructor
      · rintro (rfl | ⟨o, old, same⟩)
        · exact ⟨n, by simp, rfl⟩
        · exact ⟨o, List.mem_append_left _ old, same⟩
      · rintro ⟨o, member, same⟩
        rcases List.mem_append.mp member with old | new
        · exact .inr ⟨o, old, same⟩
        · exact .inl (List.mem_singleton.mp new ▸ same.symm)
    have onward (before : List Member) : front ++ [n] ++ before = front ++ n :: before := by simp
    rw [firstMemberDefect?, Option.or_eq_some_iff, memberDefect?_eq_some_iff known, ih known']
    constructor
    · rintro (accused | ⟨fine, before, m, rest, rfl, clear, accused⟩)
      · exact ⟨[], n, members, rfl, rfl, (List.append_nil front).symm ▸ accused⟩
      · refine ⟨n :: before, m, rest, rfl, ?_, onward before ▸ accused⟩
        rw [firstMemberDefect?, fine, clear, Option.none_or]
    · rintro ⟨before, m, rest, split, clear, accused⟩
      cases before with
      | nil =>
        obtain ⟨rfl, rfl⟩ := List.cons.inj split
        exact .inl (List.append_nil front ▸ accused)
      | cons n' before =>
        obtain ⟨rfl, rfl⟩ := List.cons.inj split
        rw [firstMemberDefect?, Option.or_eq_none_iff] at clear
        exact .inr ⟨clear.1, before, m, rest, rfl, clear.2, (onward before).symm ▸ accused⟩

theorem firstRepeated?_eq_some_iff : firstRepeated? seen supertypes = some s ↔
    ∃ front rest, supertypes = front ++ s :: rest ∧ firstRepeated? seen front = none ∧ (s ∈ seen ∨ s ∈ front) := by
  induction supertypes generalizing seen with
  | nil => simp [firstRepeated?]
  | cons t supertypes ih =>
    rw [firstRepeated?]
    constructor
    · intro found
      split at found
      · rename_i old
        obtain rfl := Option.some.inj found
        exact ⟨[], supertypes, rfl, rfl, .inl old⟩
      · rename_i new
        obtain ⟨front, rest, rfl, clear, again⟩ := ih.mp found
        refine ⟨t :: front, rest, rfl, ?_, ?_⟩
        · rw [firstRepeated?, if_neg new, clear]
        · rw [List.mem_cons] at again ⊢
          tauto
    · rintro ⟨front, rest, split, clear, again⟩
      cases front with
      | nil =>
        obtain ⟨rfl, rfl⟩ := List.cons.inj split
        rw [if_pos (again.resolve_right List.not_mem_nil)]
      | cons t' front =>
        obtain ⟨rfl, rfl⟩ := List.cons.inj split
        rw [firstRepeated?] at clear
        split at clear
        · exact nomatch clear
        · rename_i new
          rw [if_neg new]
          refine ih.mpr ⟨front, rest, rfl, clear, ?_⟩
          rw [List.mem_cons] at again ⊢
          tauto

theorem firstMemberDefect?_nil_eq_none_iff : d.firstMemberDefect? [] members = none ↔ d.Accepts members := by
  simp [firstMemberDefect?_eq_none_iff, Accepts]

theorem supertypeDefect?_eq_some_iff : d.supertypeDefect? = some e ↔
    (d.name ∈ d.supertypes ∧ e = .invalid (.selfSupertype d.name)) ∨
      (d.name ∉ d.supertypes ∧ ∃ front s rest, d.supertypes = front ++ s :: rest ∧ front.Nodup ∧ s ∈ front ∧
        e = .invalid (.repeatedSupertype d.name s)) := by
  unfold supertypeDefect?
  split
  · rename_i self
    simp [self, eq_comm]
  · rename_i other
    simp only [Option.map_eq_some_iff, firstRepeated?_eq_some_iff, firstRepeated?_eq_none_iff, List.not_mem_nil,
      false_or]
    constructor
    · rintro ⟨s, ⟨front, rest, split, ⟨-, distinct⟩, again⟩, rfl⟩
      exact .inr ⟨other, front, s, rest, split, distinct, again, rfl⟩
    · rintro (⟨self, -⟩ | ⟨-, front, s, rest, split, distinct, again, rfl⟩)
      · exact absurd self other
      · exact ⟨s, ⟨front, rest, split, ⟨fun _ _ => not_false, distinct⟩, again⟩, rfl⟩

theorem defect?_eq_some_iff : d.defect? = some e ↔ d.FirstDefect e := by
  have start : ∀ h, h ∈ [] ↔ ∃ n ∈ ([] : List Member), n.slotFingerprint = h := by simp
  rw [defect?, Option.or_eq_some_iff, firstMemberDefect?_eq_some_iff start, supertypeDefect?_eq_some_iff]
  simp only [firstMemberDefect?_nil_eq_none_iff, List.nil_append]
  constructor
  · rintro (⟨front, m, rest, split, clear, accused⟩ | ⟨clear, ⟨self, rfl⟩ | ⟨other, repeated⟩⟩)
    · exact .member split clear accused
    · exact .selfSupertype clear self
    · obtain ⟨front, s, rest, split, distinct, again, rfl⟩ := repeated
      exact .repeatedSupertype clear other split distinct again
  · rintro (⟨split, clear, accused⟩ | ⟨clear, self⟩ | ⟨clear, other, split, distinct, again⟩)
    · exact .inl ⟨_, _, _, split, clear, accused⟩
    · exact .inr ⟨clear, .inl ⟨self, rfl⟩⟩
    · exact .inr ⟨clear, .inr ⟨other, _, _, _, split, distinct, again, rfl⟩⟩

theorem Valid.apart (valid : d.Valid) : d.members.Pairwise fun a b =>
    ¬ (a.kind = b.kind ∧ a.name = b.name ∧ a.signature.paramFingerprints = b.signature.paramFingerprints) := by
  refine (List.pairwise_map.mp valid.slots).imp fun {a b} distinct alike => distinct ?_
  obtain ⟨kind, name, params⟩ := alike
  rw [Member.slotFingerprint, Member.slotFingerprint, kind, name, params]

/-- A declaration passes exactly if it is valid, and it is refused for its first defect otherwise. -/
theorem judges_validate (d : Declaration) : d.Judges where
  accepts := by rw [validate_eq_ok_iff, valid_iff]
  apart passed := (valid_iff.mpr (validate_eq_ok_iff.mp passed)).apart
  refuses e := by rw [validate_eq_error_iff, defect?_eq_some_iff]

end Inheritance.Declaration
