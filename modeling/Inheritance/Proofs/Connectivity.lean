import Inheritance.Proofs.Slots
import Mathlib.Combinatorics.SimpleGraph.Connectivity.Connected

/-! Slots are connected components. The graph joins the positions of unmatched members that clash and are
compatible, and asks each pair in the order of the list. Nothing is assumed of the two relations, neither
symmetry nor transitivity. -/
namespace Inheritance

open List (Forall₂)

/-- Where an ascending list is split at a value of a set, and no value before it is in the set, there is the
least of the set. -/
theorem isLeast_of_append {α : Type} [PartialOrder α] {s : Set α} {before after : List α} {a : α}
    (ascending : (before ++ a :: after).Pairwise (· < ·)) (inside : ∀ b ∈ s, b ∈ before ++ a :: after)
    (here : a ∈ s) (others : ∀ b ∈ before, b ∉ s) : IsLeast s a := by
  refine ⟨here, fun b member => ?_⟩
  obtain ⟨-, later, -⟩ := List.pairwise_append.mp ascending
  rcases List.mem_append.mp (inside b member) with early | late
  · exact absurd member (others b early)
  · rcases List.mem_cons.mp late with rfl | late
    · exact le_rfl
    · exact le_of_lt ((List.pairwise_cons.mp later).1 b late)

namespace Component

variable {n : Nat}

def support (c : Component n) : Set (Fin n) := {i | i ∈ c.positions}

/-- The components of a graph on positions, each in ascending order, by their least positions. -/
structure Enumerates (G : SimpleGraph (Fin n)) (components : List (Component n)) : Prop where
  connected : ∀ c ∈ components, ∃ C : G.ConnectedComponent, C.supp = c.support
  complete : ∀ C : G.ConnectedComponent, ∃ c ∈ components, C.supp = c.support
  ascending : ∀ c ∈ components, c.positions.Pairwise (· < ·)
  ordered : components.Pairwise fun c d => c.least < d.least

variable {G : SimpleGraph (Fin n)} {linked : Fin n → Fin n → Bool} {c : Component n} {i : Fin n}

theorem least_le (ascending : c.positions.Pairwise (· < ·)) (here : i ∈ c.positions) : c.least ≤ i := by
  rcases List.mem_cons.mp here with rfl | other
  · exact le_rfl
  · exact le_of_lt ((List.pairwise_cons.mp ascending).1 i other)

theorem supp_eq_support (adj : ∀ i j, G.Adj i j ↔ Joined linked i j) (member : c ∈ ofLinks linked)
    (here : i ∈ c.positions) : (G.connectedComponentMk i).supp = c.support := by
  have same : G.Adj = Joined linked := by
    funext i j
    exact propext (adj i j)
  have reachable (k : Fin n) : G.Reachable c.least k ↔ k ∈ c.positions := by
    rw [SimpleGraph.reachable_iff_reflTransGen, same, mem_positions_iff member]
  ext j
  rw [SimpleGraph.ConnectedComponent.mem_supp_iff, SimpleGraph.ConnectedComponent.eq, support, Set.mem_ofPred_eq,
    ← reachable]
  have start : G.Reachable c.least i := (reachable i).mpr here
  exact ⟨fun path => start.trans path.symm, fun path => path.symm.trans start⟩

theorem enumerates_ofLinks (adj : ∀ i j, G.Adj i j ↔ Joined linked i j) : Enumerates G (ofLinks linked) where
  connected c member := ⟨_, supp_eq_support adj member List.mem_cons_self⟩
  complete C := by
    obtain ⟨i, rfl⟩ := C.exists_rep
    have covered : ∃ c ∈ ofLinks linked, i ∈ c.positions := exists_component i
    obtain ⟨c, member, here⟩ := covered
    exact ⟨c, member, supp_eq_support adj member here⟩
  ascending _ member := ascending member
  ordered := ordered

end Component

namespace OverrideRules

variable {rules : OverrideRules} {d : Declaration} {group : NameGroup} {declared members fakes : List Member}
  {fake : Member}

/-- Positions of members that clash and are compatible, asked about the earlier one first. -/
def slotGraph (rules : OverrideRules) (members : List Member) : SimpleGraph (Fin members.length) :=
  .fromRel fun i j => i < j ∧ rules.clashes (members.get i) (members.get j) = true ∧
    rules.compatible (members.get i) (members.get j) = true

/-- The member at a position of a slot shares a root with, or overrides, those at all others. -/
def Leads (rules : OverrideRules) (members : List Member) (slot : Set (Fin members.length))
    (i : Fin members.length) : Prop :=
  i ∈ slot ∧ ∀ j ∈ slot, j ≠ i → (members.get i).sharesRoot (members.get j) = true ∨
    rules.overrides (members.get i) (members.get j) = true

/-- The fake override stands for the members of a slot, and it is like the first of them that leads it. -/
structure Fills (rules : OverrideRules) (members : List Member) (slot : Component members.length)
    (fake : Member) : Prop where
  overridden : fake.overridden = slot.positions.map members.get
  like : ∃ i, IsLeast {k | rules.Leads members slot.support k} i ∧ fake.name = (members.get i).name ∧
    fake.kind = (members.get i).kind ∧ fake.signature = (members.get i).signature

theorem slotGraph_adj (i j : Fin members.length) : (rules.slotGraph members).Adj i j ↔
    Component.Joined (fun i j => rules.linked (members.get i) (members.get j)) i j := by
  simp only [slotGraph, SimpleGraph.fromRel_adj, Component.Joined, Component.adjacent, linked, Bool.or_eq_true,
    Bool.and_eq_true, decide_eq_true_eq]
  constructor
  · exact fun joined => joined.2
  · intro joined
    refine ⟨?_, joined⟩
    rintro rfl
    simp at joined

theorem enumerates_slots : Component.Enumerates (rules.slotGraph members) (rules.slots (numbered members)) :=
  Component.enumerates_ofLinks slotGraph_adj

theorem leads_iff {slot : Component members.length} {i : Fin members.length} :
    rules.Leads members slot.support i ↔ i ∈ slot.positions ∧
      ∀ j ∈ slot.positions, i = j ∨ rules.dominates (members.get i) (members.get j) = true := by
  refine and_congr_right fun _ => forall_congr' fun j => imp_congr_right fun _ => ?_
  rw [dominates_iff, ne_comm]
  exact or_iff_not_imp_left.symm

theorem Represents.isLeast {slot : Component members.length} {i : Fin members.length}
    (represents : rules.Represents members slot i) (ascending : slot.positions.Pairwise (· < ·)) :
    IsLeast {k | rules.Leads members slot.support k} i := by
  obtain ⟨inside, covers, before, after, split, earlier⟩ := represents
  apply isLeast_of_append (split ▸ ascending)
  · exact fun k leads => split ▸ leads.1
  · exact leads_iff.mpr ⟨inside, covers⟩
  · intro k early leads
    obtain ⟨j, there, different, fails⟩ := earlier k early
    rcases (leads_iff.mp leads).2 j there with same | dominates
    · exact different same
    · exact Bool.false_ne_true (fails.symm.trans dominates)

theorem exists_fill_iff {slot : Component members.length} :
    (∃ fake, rules.fill (numbered members) d slot = .ok fake) ↔ ∃ i, rules.Leads members slot.support i := by
  simp only [exists_fill_iff_covers, leads_iff]

theorem fills_of_fill {slot : Component members.length} (ascending : slot.positions.Pairwise (· < ·))
    (filled : rules.fill (numbered members) d slot = .ok fake) : rules.Fills members slot fake := by
  obtain ⟨i, represents, rfl⟩ := exists_represents_of_fill filled
  exact ⟨rfl, i, represents.isLeast ascending, rfl, rfl, rfl⟩

/-- The fake overrides of a group, one for each connected component of the inherited members that no declared
member overrides. -/
theorem exists_enumerates_of_resolveGroup (made : rules.resolveGroup d group = .synthesized fakes) :
    fakes ≠ [] ∧ ∃ slots, Component.Enumerates (rules.slotGraph (rules.remaining group)) slots ∧
      Forall₂ (rules.Fills (rules.remaining group)) slots fakes := by
  rw [← unmatched_eq_remaining]
  obtain ⟨some, made⟩ := resolveGroup_eq_synthesized_iff.mp made
  obtain ⟨-, -, filled⟩ := synthesize_eq_ok_iff.mp made
  have enumerates : Component.Enumerates (rules.slotGraph (rules.unmatched group))
      (rules.slots (numbered (rules.unmatched group))) := enumerates_slots
  have fills := imp_of_mem filled fun here _ => fills_of_fill (enumerates.ascending _ here)
  refine ⟨?_, _, enumerates, fills⟩
  obtain ⟨slot, here, -⟩ := enumerates.complete
    ((rules.slotGraph _).connectedComponentMk ⟨0, List.length_pos_of_ne_nil some⟩)
  obtain ⟨fake, there, -⟩ := exists_right fills here
  exact List.ne_nil_of_mem there

/-- The members of `A` and `B` do not clash, but both clash with that of `C`, which comes after them and joins
their slots. The member of `D` has a slot of its own, and that of `F` is overridden by the declared one. -/
theorem exists_enumerates_joined :
    let read (owner result : String) := Member.declare owner .function "read" ⟨[], .named result⟩ .abstract
    let rules : OverrideRules :=
      { overrides := fun a b => (a.ownerName, b.ownerName) ∈ [("C", "A"), ("C", "B"), ("E", "F")]
        clashes := fun a b => (a.ownerName, b.ownerName) ∈ [("A", "C"), ("B", "C"), ("F", "C")] }
    let joined := [read "A" "Any", read "B" "Any", read "C" "Int"]
    let group : NameGroup := ⟨"read", read "F" "Any" :: joined ++ [read "D" "Any"], [read "E" "Any"]⟩
    let e := Declaration.named .ordinary "E" ["F", "A", "B", "C", "D"] [read "E" "Any"]
    let fake (result : String) (overridden : List Member) : Member :=
      .fake ⟨"read", .function, ⟨[], .named result⟩, .abstract, .ofName "E", "E"⟩ overridden
        (overridden.map (·.fingerprint))
    let fakes := [fake "Int" joined, fake "Any" [read "D" "Any"]]
    rules.remaining group = joined ++ [read "D" "Any"] ∧
      rules.resolveGroup e group = .synthesized fakes ∧ fakes ≠ [] ∧
        ∃ slots, Component.Enumerates (rules.slotGraph (rules.remaining group)) slots ∧
          Forall₂ (rules.Fills (rules.remaining group)) slots fakes := by
  intro read rules joined group e fake fakes
  have remaining : rules.remaining group = joined ++ [read "D" "Any"] := by decide +kernel
  have made : rules.resolveGroup e group = .synthesized fakes := by decide +kernel
  exact ⟨remaining, made, exists_enumerates_of_resolveGroup made⟩

end OverrideRules

end Inheritance
