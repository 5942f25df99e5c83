import Inheritance.Proofs.Meaning
import Inheritance.Proofs.Provenance

/-! Results under the default rules. A slot may be held together by a common root and not by equal results.
Still a fake override has the result of everything that it rests on: a root is one declared member, and all
that has it as a root has its result. -/
namespace Inheritance.Registry

open OverrideRules
open Member (Distinguished)

variable {r : Registry} {c : EffectiveClass} {fake m : Member}

/-- A fake override agrees with all that it rests on in name, slot and result. -/
theorem Descends.role_eq (distinguished : Distinguished (declaredMembers r.declarations))
    (descends : r.Descends (· = bySignature) c) (inside : fake ∈ c.members) (rests : fake.RestsOn m) :
    m.role = fake.role := by
  have direct (b : EffectiveClass) (above : r.Descends (· = bySignature) b) (a : Member)
      (here : a ∈ b.scope.fakes) (m : Member) (stands : m ∈ a.overridden) : m.role = a.role := by
    cases above with
    | made allowed _ _ _ computed below =>
      subst allowed
      rw [EffectiveClass.fakes_ofDeclaration] at here
      exact role_eq_of_overridden distinguished (rooted_aggregate distinguished below) computed here stands
  exact descends.of_restsOn (fun first second => second.trans first) direct inside rests

/-- Nothing that a fake override rests on has another result, as long as declared members can be told
apart. -/
theorem result_eq_of_restsOn (reached : Reached (·.Completes (· = bySignature)) r)
    (distinguished : Distinguished (declaredMembers r.declarations)) (member : c ∈ r.effective)
    (inside : fake ∈ c.scope.fakes) (rests : fake.RestsOn m) : m.signature.result = fake.signature.result := by
  have descends := (sound_of_reached reached).descends c member
  have role := descends.role_eq distinguished (EffectiveClass.mem_members_of_fake inside) rests
  exact (Member.role_eq_iff.mp role).2.2

/-- One branch of the diamond hands down a copy of what its top declares. -/
theorem result_eq_of_restsOn_diamond : ∃ c ∈ completedDiamond.effective, c.name = "Both" ∧
    ∃ fake ∈ c.scope.fakes, ∃ m, m.ownerName = "Base" ∧ fake.RestsOn m ∧
      m.signature.result = fake.signature.result := by
  have last : ∃ c ∈ completedDiamond.effective, c.name = "Both" ∧ ∃ fake ∈ c.scope.fakes,
      ∃ copy ∈ fake.overridden, ∃ m ∈ copy.overridden, m.ownerName = "Base" := by
    decide +kernel
  obtain ⟨c, member, name, fake, inside, copy, direct, m, below, base⟩ := last
  have rests : fake.RestsOn m := .head direct (.single below)
  have distinguished : Distinguished (declaredMembers completedDiamond.declarations) :=
    Member.distinguished_of_nodup (by decide +kernel)
  exact ⟨c, member, name, fake, inside, m, base, rests,
    result_eq_of_restsOn (reached_diamond rfl) distinguished member inside rests⟩

end Inheritance.Registry
