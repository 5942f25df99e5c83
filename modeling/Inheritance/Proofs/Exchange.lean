import Inheritance.OverrideRules
import Inheritance.Proofs.Codes
import Inheritance.Proofs.Validity
import Mathlib.Data.Nat.ModEq
import Mathlib.Tactic.Ring

/-! When the order of parameters leaves no trace in a code. Two neighbours may change places exactly if what they
add up to at their two positions is the same, whatever stands around them. That is so for all fingerprints
that differ in the top bit only, since an odd factor does not move that bit. It is never so if the marks of the
two positions differ in the lowest bit in which the fingerprints do, the top bit apart. -/
namespace Inheritance

section

variable {k : Nat}

theorem xor_eq_high_add_low (a b k : Nat) :
    a ^^^ b = 2 ^ k * (a / 2 ^ k ^^^ b / 2 ^ k) + (a % 2 ^ k ^^^ b % 2 ^ k) := by
  rw [← Nat.xor_div_two_pow, ← Nat.xor_mod_two_pow, Nat.div_add_mod]

theorem div_mod_two_ne {x y : Nat} (differ : x.testBit k ≠ y.testBit k) : x / 2 ^ k % 4 % 2 ≠ y / 2 ^ k % 4 % 2 := by
  intro same
  rw [Nat.mod_mod_of_dvd _ (by decide), Nat.mod_mod_of_dvd _ (by decide)] at same
  rw [Nat.testBit_eq_decide_div_mod_eq, Nat.testBit_eq_decide_div_mod_eq, same] at differ
  exact differ rfl

/-- What an exchange leaves, divided by a bit below which the two parameters agree. -/
theorem modEq_four_of_modEq {m n a b s : Nat} (below : k < 63) (one : s % 4 = 1) (low : a % 2 ^ k = b % 2 ^ k)
    (same : (m ^^^ a) * s + (n ^^^ b) ≡ (m ^^^ b) * s + (n ^^^ a) [MOD 2 ^ 64]) :
    (m / 2 ^ k ^^^ a / 2 ^ k) + (n / 2 ^ k ^^^ b / 2 ^ k) ≡
      (m / 2 ^ k ^^^ b / 2 ^ k) + (n / 2 ^ k ^^^ a / 2 ^ k) [MOD 4] := by
  have divides : 2 ^ k * 4 ∣ 2 ^ 64 := by
    have four : 2 ^ k * 4 = 2 ^ (k + 2) := by rw [Nat.pow_add]
    rw [four]
    exact Nat.pow_dvd_pow 2 (by omega)
  have collect (x y u v : Nat) : (2 ^ k * x + u) * s + (2 ^ k * y + v) = 2 ^ k * (x * s + y) + (u * s + v) := by
    ring
  have same := same.of_dvd divides
  rw [xor_eq_high_add_low m a k, xor_eq_high_add_low n b k, xor_eq_high_add_low m b k, xor_eq_high_add_low n a k,
    low, collect, collect] at same
  have same := Nat.ModEq.mul_left_cancel' (Nat.two_pow_pos k).ne' (Nat.ModEq.add_right_cancel' _ same)
  have factor (x y : Nat) : x * s + y ≡ x + y [MOD 4] := by
    rw [Nat.ModEq, Nat.add_mod, Nat.mul_mod, one, Nat.mul_one, Nat.mod_mod, ← Nat.add_mod]
  exact (factor _ _).symm.trans (same.trans (factor _ _))

/-- Exchanging two numbers of different parity changes the sum by two, modulo four, if the marks have different
parity. -/
theorem xor_add_xor_not_modEq : ∀ m n a b : Fin 4, m.val % 2 ≠ n.val % 2 → a.val % 2 ≠ b.val % 2 →
    ¬ (m.val ^^^ a.val) + (n.val ^^^ b.val) ≡ (m.val ^^^ b.val) + (n.val ^^^ a.val) [MOD 4] := by
  decide

end

namespace Fingerprint

variable {position k : Nat} {a x : UInt64} {front rest : List Fingerprint} {p q : Fingerprint}

abbrev topBit : UInt64 := 0x8000000000000000

/-- What a parameter adds to a code at a position. -/
def mark (position : Nat) (p : Fingerprint) : UInt64 := marker position ^^^ p.bits

/-- Two parameters add up to the same in either order, the first of them at `position`. -/
def Interchangeable (position : Nat) (p q : Fingerprint) : Prop :=
  mark position p * step + mark (position + 1) q = mark position q * step + mark (position + 1) p

instance : Decidable (Interchangeable position p q) :=
  inferInstanceAs (Decidable (mark position p * step + _ = _))

theorem mixFrom_exchange_iff : mixFrom position a (p :: q :: rest) = mixFrom position a (q :: p :: rest) ↔
    Interchangeable position p q := by
  have mixed (p q : Fingerprint) : mixFrom position a (p :: q :: rest) =
      mixFrom (position + 1 + 1) (a * step * step + (mark position p * step + mark (position + 1) q)) rest := by
    rw [mixFrom, mixFrom, UInt64.add_mul, UInt64.add_assoc]
    rfl
  rw [mixed, mixed, mixFrom_inj, UInt64.add_right_inj, Interchangeable]

theorem mixFrom_append_exchange_iff :
    mixFrom 0 a (front ++ p :: q :: rest) = mixFrom 0 a (front ++ q :: p :: rest) ↔
      Interchangeable front.length p q := by
  rw [mixFrom_append, mixFrom_append, mixFrom_exchange_iff, Nat.zero_add]

theorem xor_topBit : x ^^^ topBit = x + topBit := by
  have value : topBit.toNat = 2 ^ 63 := rfl
  have bound := x.toNat_lt
  rw [← UInt64.toNat_inj, UInt64.toNat_xor, UInt64.toNat_add, value, xor_eq_high_add_low x.toNat (2 ^ 63) 63,
    Nat.div_self (Nat.two_pow_pos 63), Nat.mod_self, Nat.xor_zero]
  rcases Nat.lt_or_ge x.toNat (2 ^ 63) with low | high
  · have none : x.toNat / 2 ^ 63 = 0 := Nat.div_eq_of_lt low
    rw [none, Nat.zero_xor]
    omega
  · have one : x.toNat / 2 ^ 63 = 1 := by omega
    rw [one, Nat.xor_self]
    omega

theorem interchangeable_of_topBit (top : p.bits ^^^ q.bits = topBit) : Interchangeable position p q := by
  have flipped (position : Nat) : mark position q = mark position p + topBit := by
    have other : q.bits = p.bits ^^^ topBit := by rw [← top, ← UInt64.xor_assoc, UInt64.xor_self, UInt64.zero_xor]
    rw [mark, mark, other, ← UInt64.xor_assoc, xor_topBit]
  have kept : topBit * step = topBit := by decide
  rw [Interchangeable, flipped, flipped, UInt64.add_mul, kept, UInt64.add_assoc, UInt64.add_comm topBit]

/-- The bit is the lowest one in which the two words differ. -/
def LowestApart (k : Nat) (x y : UInt64) : Prop :=
  (∀ j < k, x.toNat.testBit j = y.toNat.testBit j) ∧ x.toNat.testBit k ≠ y.toNat.testBit k

theorem LowestApart.mod_eq {x y : UInt64} (apart : LowestApart k x y) : x.toNat % 2 ^ k = y.toNat % 2 ^ k := by
  refine Nat.eq_of_testBit_eq fun j => ?_
  rw [Nat.testBit_mod_two_pow, Nat.testBit_mod_two_pow]
  rcases Nat.lt_or_ge j k with low | high
  · rw [apart.1 j low]
  · simp [Nat.not_lt.mpr high]

/-- No exchange goes unnoticed if the marks differ in the lowest bit in which the fingerprints do. -/
theorem not_interchangeable (below : k < 63) (apart : LowestApart k p.bits q.bits)
    (marks : (marker position).toNat.testBit k ≠ (marker (position + 1)).toNat.testBit k) :
    ¬ Interchangeable position p q := by
  intro same
  have words := congrArg UInt64.toNat same
  rw [UInt64.toNat_add, UInt64.toNat_add, UInt64.toNat_mul, UInt64.toNat_mul, Nat.mod_add_mod, Nat.mod_add_mod,
    mark, mark, mark, mark, UInt64.toNat_xor, UInt64.toNat_xor, UInt64.toNat_xor, UInt64.toNat_xor] at words
  have above := modEq_four_of_modEq below (by decide) apart.mod_eq words
  have reduced (x y : Nat) : x ^^^ y ≡ x % 4 ^^^ y % 4 [MOD 4] := by
    have high : (x ^^^ y) % 4 = x % 4 ^^^ y % 4 := Nat.xor_mod_two_pow (n := 2)
    rw [← high]
    exact (Nat.mod_modEq _ 4).symm
  have quarter (x : Nat) : x % 4 < 4 := Nat.mod_lt x (by decide)
  have equal := ((reduced _ _).add (reduced _ _)).symm.trans (above.trans ((reduced _ _).add (reduced _ _)))
  exact xor_add_xor_not_modEq ⟨_, quarter _⟩ ⟨_, quarter _⟩ ⟨_, quarter _⟩ ⟨_, quarter _⟩ (div_mod_two_ne marks)
    (div_mod_two_ne apart.2) equal

example : ¬ Interchangeable 0 (ofName "Int") (ofName "String") := by decide +kernel

end Fingerprint

namespace Declaration

variable {d : Declaration} {a b : Member} {before between after : List Member}

/-- The class lists the one member before the other, and nothing is wrong with it but what the two may be to each
other. -/
structure Holds (d : Declaration) (before : List Member) (a : Member) (between : List Member) (b : Member)
    (after : List Member) : Prop where
  members : d.members = before ++ a :: (between ++ b :: after)
  own : ∀ m ∈ d.members, m.isFake = false ∧ m.owner = d.fingerprint
  withoutFirst : (before ++ (between ++ b :: after)).Pairwise fun m n => m.slotFingerprint ≠ n.slotFingerprint
  withoutSecond : (before ++ a :: (between ++ after)).Pairwise fun m n => m.slotFingerprint ≠ n.slotFingerprint
  other : d.name ∉ d.supertypes
  distinct : d.supertypes.Nodup

theorem Holds.pairwise_iff (holds : d.Holds before a between b after) :
    (d.members.Pairwise fun m n => m.slotFingerprint ≠ n.slotFingerprint) ↔
      a.slotFingerprint ≠ b.slotFingerprint := by
  have first := holds.withoutFirst
  have second := holds.withoutSecond
  rw [holds.members]
  simp only [List.pairwise_append, List.pairwise_cons, List.mem_append, List.mem_cons] at first second ⊢
  grind

theorem Holds.validate_eq (holds : d.Holds before a between b after) : d.validate =
    if a.slotFingerprint = b.slotFingerprint then .error (.duplicateMember d.name (toString b)) else .ok () := by
  split
  · rename_i same
    have split : d.members = (before ++ a :: between) ++ b :: after := by simp [holds.members]
    have front : ∀ m ∈ before ++ a :: between, m.isFake = false ∧ m.owner = d.fingerprint :=
      fun m early => holds.own m (split ▸ List.mem_append_left _ early)
    have kept : (before ++ a :: between).Sublist (before ++ a :: (between ++ after)) := by simp
    obtain ⟨real, owned⟩ := holds.own b (by simp [split])
    rw [validate_eq_error_iff, defect?_eq_some_iff]
    exact .member split ⟨front, holds.withoutSecond.sublist kept⟩ (.duplicate real owned ⟨a, by simp, same⟩)
  · rename_i differ
    rw [validate_eq_ok_iff, defect?_eq_none_iff, holds.pairwise_iff]
    exact ⟨holds.own, differ, holds.other, holds.distinct⟩

end Declaration

namespace Member

open Fingerprint OverrideRules

variable {front rest : List Fingerprint} {p q : Fingerprint} {a b : Member}

/-- The members are alike in kind, name and parameters, but two neighbouring parameters change places. -/
structure Exchanged (front rest : List Fingerprint) (p q : Fingerprint) (a b : Member) : Prop where
  kind : a.kind = b.kind
  name : a.name = b.name
  left : a.signature.paramFingerprints = front ++ p :: q :: rest
  right : b.signature.paramFingerprints = front ++ q :: p :: rest

theorem ofSignature_exchange_iff {tag : UInt8} {name : String} :
    ofSignature tag name (front ++ p :: q :: rest) = ofSignature tag name (front ++ q :: p :: rest) ↔
      Interchangeable front.length p q := by
  rw [ofSignature, ofSignature, signatureCode, signatureCode, Fingerprint.mk.injEq, mixFrom_append_exchange_iff]

theorem ofMember_exchange_iff {owner : Fingerprint} {tag : UInt8} {name : String} :
    ofMember owner tag name (front ++ p :: q :: rest) = ofMember owner tag name (front ++ q :: p :: rest) ↔
      Interchangeable front.length p q := by
  rw [ofMember, ofMember, memberCode, memberCode, Fingerprint.mk.injEq, mixFrom_append_exchange_iff]

theorem Exchanged.slotFingerprint_eq_iff (exchanged : Exchanged front rest p q a b) :
    a.slotFingerprint = b.slotFingerprint ↔ Interchangeable front.length p q := by
  rw [slotFingerprint, slotFingerprint, exchanged.kind, exchanged.name, exchanged.left, exchanged.right,
    ofSignature_exchange_iff]

theorem Exchanged.clashes_iff (exchanged : Exchanged front rest p q a b) :
    bySignature.clashes a b = true ↔ Interchangeable front.length p q := by
  have slots : bySignature.clashes a b = decide (a.slotFingerprint = b.slotFingerprint) := rfl
  rw [slots, decide_eq_true_iff, exchanged.slotFingerprint_eq_iff]

/-- Whether an exchange of two neighbouring parameters shows is a matter of the two and their position. -/
structure ExchangeShows (front rest : List Fingerprint) (p q : Fingerprint) : Prop where
  signature : ∀ tag name, ofSignature tag name (front ++ p :: q :: rest) =
    ofSignature tag name (front ++ q :: p :: rest) ↔ Interchangeable front.length p q
  member : ∀ owner tag name, ofMember owner tag name (front ++ p :: q :: rest) =
    ofMember owner tag name (front ++ q :: p :: rest) ↔ Interchangeable front.length p q
  clashes : ∀ a b, Exchanged front rest p q a b →
    (bySignature.clashes a b = true ↔ Interchangeable front.length p q)
  accepted : ∀ a b, Exchanged front rest p q a b → ∀ (d : Declaration) before between after,
    d.Holds before a between b after → (d.validate = .ok () ↔ ¬ Interchangeable front.length p q)
  refused : ∀ a b, Exchanged front rest p q a b → ∀ (d : Declaration) before between after,
    d.Holds before a between b after →
      (d.validate = .error (.duplicateMember d.name (toString b)) ↔ Interchangeable front.length p q)
  hidden : p.bits ^^^ q.bits = topBit → Interchangeable front.length p q
  shown : ∀ k < 63, LowestApart k p.bits q.bits →
    (marker front.length).toNat.testBit k ≠ (marker (front.length + 1)).toNat.testBit k →
      ¬ Interchangeable front.length p q

theorem exchangeShows (front rest : List Fingerprint) (p q : Fingerprint) : ExchangeShows front rest p q where
  signature _ _ := ofSignature_exchange_iff
  member _ _ _ := ofMember_exchange_iff
  clashes _ _ exchanged := exchanged.clashes_iff
  accepted _ _ exchanged _ _ _ _ holds := by
    rw [holds.validate_eq, ← exchanged.slotFingerprint_eq_iff]
    split <;> simp_all
  refused _ _ exchanged _ _ _ _ holds := by
    rw [holds.validate_eq, ← exchanged.slotFingerprint_eq_iff]
    split <;> simp_all
  hidden := interchangeable_of_topBit
  shown _ below apart marks := not_interchangeable below apart marks

section

/-- A function of the class `Mixer` with two parameters of the given types. -/
def mixing (first second : String) : Member :=
  .declare "Mixer" .function "mix" ⟨[.named first, .named second], .unit⟩ .overridable

def mixer (first second : String) : Declaration :=
  .named .ordinary "Mixer" [] [mixing first second, mixing second first]

theorem exchanged_mixing (first second : String) :
    Exchanged [] [] (.ofName first) (.ofName second) (mixing first second) (mixing second first) :=
  ⟨rfl, rfl, rfl, rfl⟩

theorem holds_mixer (first second : String) :
    (mixer first second).Holds [] (mixing first second) [] (mixing second first) [] := by
  refine ⟨rfl, ?_, List.pairwise_singleton .., List.pairwise_singleton .., List.not_mem_nil, List.nodup_nil⟩
  intro m member
  rcases List.mem_pair.mp member with rfl | rfl
  · exact ⟨rfl, rfl⟩
  · exact ⟨rfl, rfl⟩

/-- `Int` and `Long` differ first in their third bit, as the first two marks do, so a class may have both overloads. -/
theorem exchangeShows_mixer :
    LowestApart 2 (ofName "Int").bits (ofName "Long").bits ∧
      bySignature.clashes (mixing "Int" "Long") (mixing "Long" "Int") = false ∧
      (mixer "Int" "Long").validate = .ok () := by
  have apart : LowestApart 2 (ofName "Int").bits (ofName "Long").bits := by
    constructor <;> decide +kernel
  have shows := exchangeShows [] [] (ofName "Int") (ofName "Long")
  have fixed := shows.shown 2 (by decide) apart (by decide)
  have exchanged := exchanged_mixing "Int" "Long"
  refine ⟨apart, ?_, (shows.accepted _ _ exchanged _ _ _ _ (holds_mixer _ _)).mpr fixed⟩
  exact eq_false_of_ne_true (mt (shows.clashes _ _ exchanged).mp fixed)

/-- The fingerprints of the two names differ in the top bit only. So overloads on them are taken for one member. -/
theorem not_forall_exchange :
    (¬ ∀ tag name front rest p q, p ≠ q →
      ofSignature tag name (front ++ p :: q :: rest) ≠ ofSignature tag name (front ++ q :: p :: rest)) ∧
    (¬ ∀ owner tag name front rest p q, p ≠ q →
      ofMember owner tag name (front ++ p :: q :: rest) ≠ ofMember owner tag name (front ++ q :: p :: rest)) ∧
    bySignature.clashes (mixing "String" "Dapymcmscknfki") (mixing "Dapymcmscknfki" "String") = true ∧
    (mixer "String" "Dapymcmscknfki").validate =
      .error (.duplicateMember "Mixer" "Mixer::mix(Dapymcmscknfki, String): Unit") := by
  have top : (ofName "String").bits ^^^ (ofName "Dapymcmscknfki").bits = topBit := by decide +kernel
  have differ : ofName "String" ≠ ofName "Dapymcmscknfki" := by decide +kernel
  have same : Interchangeable 0 (ofName "String") (ofName "Dapymcmscknfki") := interchangeable_of_topBit top
  have exchanged := exchanged_mixing "String" "Dapymcmscknfki"
  have slots := exchanged.slotFingerprint_eq_iff.mpr same
  refine ⟨fun all => ?_, fun all => ?_, exchanged.clashes_iff.mpr same, ?_⟩
  · refine all 0 "mix" [] [] _ _ differ ?_
    rw [ofSignature_exchange_iff]
    exact same
  · refine all (ofName "Mixer") 0 "mix" [] [] _ _ differ ?_
    rw [ofMember_exchange_iff]
    exact same
  · rw [(holds_mixer _ _).validate_eq, if_pos slots]
    decide +kernel

end

end Member

end Inheritance
