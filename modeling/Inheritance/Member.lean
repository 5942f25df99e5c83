import Inheritance.KindSet
import Inheritance.Signature

/-! A member is declared in the body of its owner, or it is a fake override: a copy that its owner gets for the
inherited members it stands for. A fake override keeps those members, and the declarations at the bottom of them
are cached in it as its roots. -/
namespace Inheritance

inductive Modality where
  | abstract
  | overridable
  | final
  deriving DecidableEq, Repr

instance : ToString Modality where
  toString
    | .abstract => "abstract"
    | .overridable => "open"
    | .final => "final"

/-- What declared members and fake overrides have in common. -/
structure Member.Header where
  name : String
  kind : MemberKind
  signature : Signature
  modality : Modality
  owner : Fingerprint
  ownerName : String
  deriving DecidableEq, Repr

inductive Member where
  | declared (header : Member.Header)
  | fake (header : Member.Header) (overridden : List Member) (roots : List Fingerprint)

namespace Member

mutual

def decEq : (a b : Member) → Decidable (a = b)
  | .declared h, .declared k =>
    if e : h = k then isTrue (by rw [e]) else isFalse fun c => e (Member.declared.inj c)
  | .fake h o r, .fake k p s =>
    if e : h = k ∧ r = s then
      match decEqList o p with
      | isTrue d => isTrue (by rw [e.1, e.2, d])
      | isFalse d => isFalse fun c => d (Member.fake.inj c).2.1
    else isFalse fun c => e ⟨(Member.fake.inj c).1, (Member.fake.inj c).2.2⟩
  | .declared _, .fake .. => isFalse nofun
  | .fake .., .declared _ => isFalse nofun

def decEqList : (l m : List Member) → Decidable (l = m)
  | [], [] => isTrue rfl
  | a :: l, b :: m =>
    match decEq a b with
    | isTrue d =>
      match decEqList l m with
      | isTrue e => isTrue (by rw [d, e])
      | isFalse e => isFalse fun c => e (List.cons.inj c).2
    | isFalse d => isFalse fun c => d (List.cons.inj c).1
  | [], _ :: _ => isFalse nofun
  | _ :: _, [] => isFalse nofun

end

instance : DecidableEq Member := decEq

def header : Member → Header
  | .declared h => h
  | .fake h _ _ => h

abbrev name (m : Member) : String := m.header.name
abbrev kind (m : Member) : MemberKind := m.header.kind
abbrev signature (m : Member) : Signature := m.header.signature
abbrev modality (m : Member) : Modality := m.header.modality
abbrev owner (m : Member) : Fingerprint := m.header.owner
abbrev ownerName (m : Member) : String := m.header.ownerName

def isFake : Member → Bool
  | .declared _ => false
  | .fake .. => true

def isAbstract (m : Member) : Bool := m.modality = .abstract

/-- The inherited members that a fake override stands for. A declared member stands for none. -/
def overridden : Member → List Member
  | .declared _ => []
  | .fake _ o _ => o

def fingerprint (m : Member) : Fingerprint :=
  .ofMember m.owner m.kind.tag m.name m.signature.paramFingerprints

/-- The identity that decides which members compete for one slot: kind, name and parameters. -/
def slotFingerprint (m : Member) : Fingerprint :=
  .ofSignature m.kind.tag m.name m.signature.paramFingerprints

/-- The declarations that a member stands for in the end. -/
def roots : Member → List Fingerprint
  | m@(.declared _) => [m.fingerprint]
  | .fake _ _ r => r

def sharesRoot (a b : Member) : Bool := a.roots.any (· ∈ b.roots)

def declare (ownerName : String) (kind : MemberKind) (name : String) (signature : Signature)
    (modality : Modality) : Member :=
  .declared ⟨name, kind, signature, modality, .ofName ownerName, ownerName⟩

/-- A fake override is abstract only if all it stands for is abstract. -/
def inheritedModality (overridden : List Member) : Modality :=
  ((overridden.map modality).find? (· ≠ .abstract)).getD .abstract

def inheritedRoots (overridden : List Member) : List Fingerprint :=
  (overridden.flatMap roots).eraseDups

/-- The fake override with the name, kind and signature of a representative. -/
def synthesize (owner : Fingerprint) (ownerName : String) (representative : Member)
    (overridden : List Member) : Member :=
  .fake
    ⟨representative.name, representative.kind, representative.signature,
      inheritedModality overridden, owner, ownerName⟩
    overridden (inheritedRoots overridden)

section

variable {owner : Fingerprint} {ownerName : String} {representative : Member} {l : List Member}

@[simp] theorem isFake_synthesize :
    (synthesize owner ownerName representative l).isFake = true := rfl

@[simp] theorem overridden_synthesize :
    (synthesize owner ownerName representative l).overridden = l := rfl

@[simp] theorem roots_synthesize :
    (synthesize owner ownerName representative l).roots = inheritedRoots l := rfl

/-- A fake override competes for the slot of its representative. -/
@[simp] theorem slotFingerprint_synthesize :
    (synthesize owner ownerName representative l).slotFingerprint =
      representative.slotFingerprint := rfl

end

theorem inheritedModality_cons (m : Member) (l : List Member) :
    inheritedModality (m :: l) = if m.modality = .abstract then inheritedModality l else m.modality := by
  by_cases none : m.modality = .abstract <;> simp [inheritedModality, none]

theorem inheritedModality_singleton (m : Member) : inheritedModality [m] = m.modality := by
  by_cases none : m.modality = .abstract <;> simp [inheritedModality, none]

theorem inheritedModality_append (front l : List Member) : inheritedModality (front ++ l) =
    if inheritedModality front = .abstract then inheritedModality l else inheritedModality front := by
  induction front with
  | nil => rfl
  | cons m front ih =>
    rw [List.cons_append, inheritedModality_cons, inheritedModality_cons, ih]
    by_cases none : m.modality = .abstract <;> simp [none]

theorem inheritedModality_eq_abstract_iff {l : List Member} :
    inheritedModality l = .abstract ↔ ∀ m ∈ l, m.modality = .abstract := by
  induction l with
  | nil => simp [inheritedModality]
  | cons m l ih =>
    rw [inheritedModality_cons, List.forall_mem_cons, ← ih]
    by_cases none : m.modality = .abstract <;> simp [none]

theorem isAbstract_synthesize_eq_all {owner : Fingerprint} {ownerName : String} {g : Member} {l : List Member} :
    (synthesize owner ownerName g l).isAbstract = l.all (·.isAbstract) := by
  have modality : (synthesize owner ownerName g l).modality = inheritedModality l := rfl
  rw [Bool.eq_iff_iff]
  simp [isAbstract, modality, inheritedModality_eq_abstract_iff]

theorem mem_inheritedRoots {h : Fingerprint} {l : List Member} :
    h ∈ inheritedRoots l ↔ ∃ m ∈ l, h ∈ m.roots := by
  simp [inheritedRoots]

theorem sharesRoot_iff {a b : Member} : a.sharesRoot b = true ↔ ∃ h ∈ a.roots, h ∈ b.roots := by
  simp [sharesRoot]

theorem sharesRoot_comm (a b : Member) : a.sharesRoot b = b.sharesRoot a := by
  rw [Bool.eq_iff_iff, sharesRoot_iff, sharesRoot_iff]
  constructor <;> exact fun ⟨h, ha, hb⟩ => ⟨h, hb, ha⟩

instance : ToString Member where
  toString m := m.ownerName ++ "::" ++ m.name ++
    match m.kind with
    | .function => toString m.signature
    | .property => ": " ++ toString m.signature.result

/-- One line for listings: modality, kind and member. -/
def summary (m : Member) : String :=
  toString m.modality ++ " " ++ toString m.kind ++ " " ++ toString m

end Member

end Inheritance
