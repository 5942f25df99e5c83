import Mathlib.Data.List.Forall2

/-! Computations that may fail, one after the other. A sequence succeeds exactly when each of its
parts does, and what holds between neighbours of its input carries over to its output. -/
namespace Inheritance

variable {ε ε' α β γ : Type}

theorem bind_eq_ok_iff {x : Except ε α} {f : α → Except ε β} {b : β} :
    (x >>= f) = .ok b ↔ ∃ a, x = .ok a ∧ f a = .ok b := by
  cases x <;> simp [bind, Except.bind]

theorem bind_eq_error_iff {x : Except ε α} {f : α → Except ε β} {e : ε} :
    (x >>= f) = .error e ↔ x = .error e ∨ ∃ a, x = .ok a ∧ f a = .error e := by
  cases x <;> simp [bind, Except.bind]

theorem mapError_eq_ok_iff {x : Except ε α} {f : ε → ε'} {a : α} :
    x.mapError f = .ok a ↔ x = .ok a := by
  cases x <;> simp [Except.mapError]

theorem mapError_eq_error_iff {x : Except ε α} {f : ε → ε'} {e : ε'} :
    x.mapError f = .error e ↔ ∃ a, x = .error a ∧ f a = e := by
  cases x <;> simp [Except.mapError]

theorem map_eq_ok_iff {x : Except ε α} {f : α → β} {b : β} : x.map f = .ok b ↔ ∃ a, x = .ok a ∧ f a = b := by
  cases x <;> simp [Except.map]

theorem mapM_eq_ok_iff {f : α → Except ε β} {l : List α} {r : List β} :
    l.mapM f = .ok r ↔ List.Forall₂ (fun a b => f a = .ok b) l r := by
  induction l generalizing r with
  | nil => simp [pure, Except.pure, eq_comm]
  | cons a l ih =>
    rw [List.mapM_cons, bind_eq_ok_iff, List.forall₂_cons_left_iff]
    refine exists_congr fun b => ?_
    simp only [bind_eq_ok_iff, pure, Except.pure, Except.ok.injEq, ih]
    constructor
    · rintro ⟨first, rest, parts, rfl⟩
      exact ⟨rest, first, parts, rfl⟩
    · rintro ⟨rest, first, parts, rfl⟩
      exact ⟨first, rest, parts, rfl⟩

theorem exists_of_mapM_eq_error {f : α → Except ε β} {l : List α} {e : ε} (failed : l.mapM f = .error e) :
    ∃ before a after, l = before ++ a :: after ∧ (∀ b ∈ before, ∃ c, f b = .ok c) ∧ f a = .error e := by
  induction l with
  | nil => simp [pure, Except.pure] at failed
  | cons a l ih =>
    rw [List.mapM_cons] at failed
    rcases bind_eq_error_iff.mp failed with first | ⟨b, first, later⟩
    · exact ⟨[], a, l, rfl, nofun, first⟩
    · rcases bind_eq_error_iff.mp later with rest | ⟨_, -, impossible⟩
      · obtain ⟨before, c, after, rfl, fine, last⟩ := ih rest
        exact ⟨a :: before, c, after, rfl, List.forall_mem_cons.mpr ⟨⟨b, first⟩, fine⟩, last⟩
      · simp [pure, Except.pure] at impossible

theorem mapM_congr {f g : α → Except ε β} {l : List α} (same : ∀ a ∈ l, f a = g a) :
    l.mapM f = l.mapM g := by
  induction l with
  | nil => rfl
  | cons a l ih =>
    obtain ⟨first, rest⟩ := List.forall_mem_cons.mp same
    rw [List.mapM_cons, List.mapM_cons, first, ih rest]

theorem exists_right {R : α → β → Prop} {l : List α} {r : List β} (all : List.Forall₂ R l r) {a : α}
    (member : a ∈ l) : ∃ b ∈ r, R a b := by
  induction all with
  | nil => simp at member
  | cons first _ ih =>
    rcases List.mem_cons.mp member with rfl | later
    · exact ⟨_, List.mem_cons_self, first⟩
    · obtain ⟨b, there, related⟩ := ih later
      exact ⟨b, List.mem_cons_of_mem _ there, related⟩

theorem exists_left {R : α → β → Prop} {l : List α} {r : List β} (all : List.Forall₂ R l r) {b : β}
    (member : b ∈ r) : ∃ a ∈ l, R a b :=
  exists_right all.flip member

theorem exists_forall₂_iff {R : α → β → Prop} {l : List α} :
    (∃ r, List.Forall₂ R l r) ↔ ∀ a ∈ l, ∃ b, R a b := by
  constructor
  · rintro ⟨r, all⟩ a member
    obtain ⟨b, -, related⟩ := exists_right all member
    exact ⟨b, related⟩
  · intro each
    induction l with
    | nil => exact ⟨[], .nil⟩
    | cons a l ih =>
      obtain ⟨⟨b, first⟩, others⟩ := List.forall_mem_cons.mp each
      obtain ⟨r, rest⟩ := ih others
      exact ⟨b :: r, .cons first rest⟩

theorem imp_of_mem {R S : α → β → Prop} {l : List α} {r : List β} (all : List.Forall₂ R l r)
    (step : ∀ {a b}, a ∈ l → b ∈ r → R a b → S a b) : List.Forall₂ S l r := by
  induction all with
  | nil => exact .nil
  | cons first _ ih =>
    refine .cons (step List.mem_cons_self List.mem_cons_self first) (ih fun here there => ?_)
    exact step (List.mem_cons_of_mem _ here) (List.mem_cons_of_mem _ there)

/-- A relation between any earlier and later value on the left gives one on the right. -/
theorem pairwise_right {R : α → β → Prop} {S : α → α → Prop} {T : β → β → Prop} {l : List α} {r : List β}
    (all : List.Forall₂ R l r) (before : l.Pairwise S)
    (step : ∀ {a a' b b'}, a ∈ l → a' ∈ l → R a b → R a' b' → S a a' → T b b') : r.Pairwise T := by
  induction all with
  | nil => exact .nil
  | cons first rest ih =>
    obtain ⟨head, tail⟩ := List.pairwise_cons.mp before
    refine List.pairwise_cons.mpr ⟨fun b member => ?_, ih tail fun here there =>
      step (List.mem_cons_of_mem _ here) (List.mem_cons_of_mem _ there)⟩
    obtain ⟨a, there, related⟩ := exists_left rest member
    exact step List.mem_cons_self (List.mem_cons_of_mem _ there) first related (head a there)

/-- Both computations succeed with related values, or both fail with related errors. -/
inductive Tallies (E : ε → ε' → Prop) (R : α → β → Prop) : Except ε α → Except ε' β → Prop where
  | ok {a : α} {b : β} (values : R a b) : Tallies E R (.ok a) (.ok b)
  | error {e : ε} {e' : ε'} (errors : E e e') : Tallies E R (.error e) (.error e')

section

variable {δ δ' : Type} {E : ε → ε' → Prop} {R : α → β → Prop}

theorem Tallies.bind {S : γ → δ → Prop} {x : Except ε α} {y : Except ε' β} {f : α → Except ε γ}
    {g : β → Except ε' δ} (first : Tallies E R x y) (rest : ∀ a b, R a b → Tallies E S (f a) (g b)) :
    Tallies E S (x >>= f) (y >>= g) := by
  cases first with
  | ok values => exact rest _ _ values
  | error errors => exact .error errors

theorem Tallies.mapError {E' : δ → δ' → Prop} {x : Except ε α} {y : Except ε' β} {f : ε → δ} {g : ε' → δ'}
    (tallies : Tallies E R x y) (errors : ∀ e e', E e e' → E' (f e) (g e')) :
    Tallies E' R (x.mapError f) (y.mapError g) := by
  cases tallies with
  | ok values => exact .ok values
  | error related => exact .error (errors _ _ related)

theorem tallies_mapM {f : γ → Except ε α} {g : δ → Except ε' β} {l : List γ} {l' : List δ}
    (each : List.Forall₂ (fun c d => Tallies E R (f c) (g d)) l l') :
    Tallies E (List.Forall₂ R) (l.mapM f) (l'.mapM g) := by
  induction each with
  | nil => exact .ok .nil
  | cons first _ ih =>
    rw [List.mapM_cons, List.mapM_cons]
    refine first.bind fun a b head => ih.bind fun as bs tail => ?_
    exact .ok (.cons head tail)

end

end Inheritance
