import Inheritance.Proofs.Identity
import Mathlib.Logic.Function.Iterate

/-! What a code tells of its parts, whatever digest the name has. Owner, name and tag only choose where mixing
starts, and moving the start moves the result by an amount that the number of parameters fixes. So each part
can be told from the others, and codes of one length agree from all starts or from none. -/
namespace Inheritance

namespace Fingerprint

variable {position : Nat} {a b c name : UInt64} {front rest params ps qs : List Fingerprint} {p q : Fingerprint}
  {s t : UInt8}

theorem mixFrom_append : mixFrom position a (front ++ rest) =
    mixFrom (position + front.length) (mixFrom position a front) rest := by
  induction front generalizing position a with
  | nil => rfl
  | cons p front ih =>
    have onward : position + 1 + front.length = position + (p :: front).length := by
      rw [List.length_cons]
      omega
    rw [List.cons_append, mixFrom, mixFrom, ih, onward]

theorem mixFrom_cons_inj : mixFrom position a (p :: rest) = mixFrom position a (q :: rest) ↔ p = q := by
  rw [mixFrom, mixFrom, mixFrom_inj, UInt64.add_right_inj, UInt64.xor_right_inj, Fingerprint.mk.injEq]

theorem mixFrom_add : mixFrom position (a + c) params = mixFrom position a params + (· * step)^[params.length] c := by
  induction params generalizing position a c with
  | nil => rfl
  | cons p rest ih =>
    have onward (x : UInt64) : (a + c) * step + x = a * step + x + c * step := by
      rw [UInt64.add_mul, UInt64.add_assoc, UInt64.add_assoc, UInt64.add_comm x]
    rw [mixFrom, mixFrom, onward, ih, List.length_cons, Function.iterate_succ_apply]

theorem mixFrom_eq_iff_start (length : ps.length = qs.length) (a b : UInt64) :
    mixFrom position a ps = mixFrom position a qs ↔ mixFrom position b ps = mixFrom position b qs := by
  have moved : a = b + (a - b) := by rw [UInt64.add_comm, UInt64.sub_add_cancel]
  rw [moved, mixFrom_add, mixFrom_add, length, UInt64.add_left_inj]

theorem shifted_inj : s.toUInt64 <<< 56 = t.toUInt64 <<< 56 ↔ s = t := by
  have shifted (u : UInt8) : (u.toUInt64 <<< 56).toNat = u.toNat * 2 ^ 56 := by
    have small : u.toNat < 256 := u.toNat_lt
    rw [UInt64.toNat_shiftLeft, UInt8.toNat_toUInt64, Nat.shiftLeft_eq]
    exact Nat.mod_eq_of_lt (by change u.toNat * 2 ^ 56 < 2 ^ 64; omega)
  rw [← UInt64.toNat_inj, shifted, shifted, ← UInt8.toNat_inj]
  omega

/-- Lists of one length that have different parameters at one position only. -/
def DiffersOnce (ps qs : List Fingerprint) : Prop := ps.length = qs.length ∧ ∃! i : Nat, ps[i]? ≠ qs[i]?

theorem differsOnce_iff : DiffersOnce ps qs ↔
    ∃ front p q rest, p ≠ q ∧ ps = front ++ p :: rest ∧ qs = front ++ q :: rest := by
  constructor
  · rintro ⟨length, i, differ, only⟩
    have agree (j : Nat) (other : j ≠ i) : ps[j]? = qs[j]? := not_not.mp (mt (only j) other)
    have inside : i < ps.length := by
      by_contra outside
      rw [List.getElem?_eq_none (by omega), List.getElem?_eq_none (by omega)] at differ
      exact differ rfl
    have inside' : i < qs.length := length ▸ inside
    have front : ps.take i = qs.take i := by
      refine List.ext_getElem? fun j => ?_
      rw [List.getElem?_take, List.getElem?_take]
      split
      · exact agree j (by omega)
      · rfl
    have rest : ps.drop (i + 1) = qs.drop (i + 1) := by
      refine List.ext_getElem? fun j => ?_
      rw [List.getElem?_drop, List.getElem?_drop]
      exact agree (i + 1 + j) (by omega)
    rw [List.getElem?_eq_getElem inside, List.getElem?_eq_getElem inside'] at differ
    refine ⟨ps.take i, ps[i], qs[i], ps.drop (i + 1), fun same => differ (congrArg some same), ?_, ?_⟩
    · rw [← List.drop_eq_getElem_cons inside, List.take_append_drop]
    · rw [front, rest, ← List.drop_eq_getElem_cons inside', List.take_append_drop]
  · rintro ⟨front, p, q, rest, differ, rfl, rfl⟩
    refine ⟨by simp, front.length, by simpa using differ, fun j => Not.imp_symm fun other => ?_⟩
    rcases Nat.lt_or_gt_of_ne other with before | after
    · rw [List.getElem?_append_left before, List.getElem?_append_left before]
    · obtain ⟨k, rfl⟩ := Nat.exists_eq_add_of_lt after
      have behind : front.length + k + 1 - front.length = k + 1 := by omega
      rw [List.getElem?_append_right (by omega), List.getElem?_append_right (by omega), behind,
        List.getElem?_cons_succ, List.getElem?_cons_succ]

/-- Parameters that differ once are told apart from any start. -/
theorem DiffersOnce.mixFrom_ne (once : DiffersOnce ps qs) : mixFrom position a ps ≠ mixFrom position a qs := by
  obtain ⟨front, p, q, rest, differ, rfl, rfl⟩ := differsOnce_iff.mp once
  rw [mixFrom_append, mixFrom_append]
  exact mt mixFrom_cons_inj.mp differ

/-- What codes tell of their parts where the name has the given digest. -/
structure Separates (name : UInt64) : Prop where
  owner : ∀ tag params a b, memberCode a tag name params = memberCode b tag name params → a = b
  memberTag : ∀ owner params s t, memberCode owner s name params = memberCode owner t name params → s = t
  signatureTag : ∀ params s t, signatureCode s name params = signatureCode t name params → s = t
  memberParams : ∀ owner tag ps qs, DiffersOnce ps qs →
    memberCode owner tag name ps ≠ memberCode owner tag name qs
  signatureParams : ∀ tag ps qs, DiffersOnce ps qs → signatureCode tag name ps ≠ signatureCode tag name qs
  agree : ∀ owner tag ps qs, ps.length = qs.length →
    (signatureCode tag name ps = signatureCode tag name qs ↔
      memberCode owner tag name ps = memberCode owner tag name qs)

theorem separates_of_digest (name : UInt64) : Separates name where
  owner tag params a b same := by
    have seeds := mixFrom_inj.mp (Fingerprint.mk.inj same)
    rw [UInt64.xor_left_inj, UInt64.xor_left_inj, UInt64.xor_right_inj] at seeds
    exact Fingerprint.mk.injEq .. ▸ seeds
  memberTag owner params s t same := by
    have seeds := mixFrom_inj.mp (Fingerprint.mk.inj same)
    rwa [UInt64.xor_right_inj, shifted_inj] at seeds
  signatureTag params s t same := by
    have seeds := mixFrom_inj.mp (Fingerprint.mk.inj same)
    rwa [UInt64.xor_right_inj, shifted_inj] at seeds
  memberParams owner tag ps qs once same := once.mixFrom_ne (Fingerprint.mk.inj same)
  signatureParams tag ps qs once same := once.mixFrom_ne (Fingerprint.mk.inj same)
  agree owner tag ps qs length := by
    rw [signatureCode, signatureCode, memberCode, memberCode, Fingerprint.mk.injEq, Fingerprint.mk.injEq]
    exact mixFrom_eq_iff_start length _ _

end Fingerprint

namespace Member

open Fingerprint

/-- Members of one owner, kind and name with equally many parameters. -/
structure Overloads (a b : Member) : Prop where
  owner : a.owner = b.owner
  kind : a.kind = b.kind
  name : a.name = b.name
  arity : a.signature.paramFingerprints.length = b.signature.paramFingerprints.length

/-- Codes tell each part from the others, whatever function the digest is. So overloads take one slot exactly
if they have one identity. -/
theorem separates_codes : (∀ (digest : String → UInt64) (name : String), Separates (digest name)) ∧
    ∀ a b : Member, a.Overloads b → (a.slotFingerprint = b.slotFingerprint ↔ a.fingerprint = b.fingerprint) := by
  constructor
  · exact fun digest name => separates_of_digest (digest name)
  · rintro a b ⟨owner, kind, name, arity⟩
    rw [slotFingerprint, slotFingerprint, fingerprint, fingerprint, owner, kind, name]
    exact (separates_of_digest (Digest.ofText b.name)).agree b.owner b.kind.tag _ _ arity

/-- Overloads with eighteen parameters of which only the last differs, past the sixteen marks of the table. -/
theorem separates_codes_wide :
    let wide (last : String) := Member.declare "Grid" .function "draw"
      ⟨List.replicate 17 (.named "Int") ++ [.named last], .unit⟩ .overridable
    (wide "Int").Overloads (wide "String") ∧
      DiffersOnce (wide "Int").signature.paramFingerprints (wide "String").signature.paramFingerprints ∧
      (wide "Int").slotFingerprint ≠ (wide "String").slotFingerprint ∧
      ((wide "Int").slotFingerprint = (wide "String").slotFingerprint ↔
        (wide "Int").fingerprint = (wide "String").fingerprint) := by
  intro wide
  have params (last : String) : (wide last).signature.paramFingerprints =
      List.replicate 17 (ofName "Int") ++ [ofName last] := rfl
  have differ : ofName "Int" ≠ ofName "String" := by decide +kernel
  have once : DiffersOnce (wide "Int").signature.paramFingerprints (wide "String").signature.paramFingerprints :=
    differsOnce_iff.mpr ⟨_, _, _, [], differ, params "Int", params "String"⟩
  have arity (last : String) : (wide last).signature.paramFingerprints.length = 18 := by
    rw [params, List.length_append, List.length_replicate, List.length_singleton]
  have overloads : (wide "Int").Overloads (wide "String") := ⟨rfl, rfl, rfl, (arity _).trans (arity _).symm⟩
  obtain ⟨separates, agree⟩ := separates_codes
  have apart := (separates Digest.ofText "draw").signatureParams MemberKind.function.tag _ _ once
  exact ⟨overloads, once, apart, agree _ _ overloads⟩

end Member

end Inheritance
