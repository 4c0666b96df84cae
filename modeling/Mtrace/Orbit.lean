import Mathlib.Data.Fintype.EquivFin
import Mathlib.Logic.Relation
import Mathlib.Order.WellFounded

/-!
# Loops

A loop as a machine: a pass leads to the next state or to the result.  It ends if its passes
increase a measure that is bounded, or if each state is at one of finitely many places and the
passes lead around no circle of places. -/

namespace Orbit

variable {σ ρ : Type*} (step : σ → σ ⊕ ρ)

/-- A number of passes. -/
def run : ℕ → σ → σ ⊕ ρ
  | 0, x => .inl x
  | n + 1, x =>
    match step x with
    | .inl y => run n y
    | .inr r => .inr r

/-- The loop gets from one state to the other. -/
def Reaches (x y : σ) : Prop := ∃ n, run step n x = .inl y

/-- The loop ends. -/
def Ends (x : σ) : Prop := ∃ n r, run step n x = .inr r

variable {step} {x y z : σ} {r : ρ} {m n : ℕ}

theorem run_add : run step (m + n) x =
    match run step m x with
    | .inl y => run step n y
    | .inr r => .inr r := by
  induction m generalizing x with
  | zero => rw [Nat.zero_add]; rfl
  | succ m ih =>
    rw [Nat.succ_add, run, run]
    cases step x with
    | inl y => exact ih
    | inr r => rfl

theorem run_of_run (h : run step m x = .inl y) : run step (m + n) x = run step n y := by
  rw [run_add, h]

theorem run_of_done (h : run step m x = .inr r) (hmn : m ≤ n) : run step n x = .inr r := by
  rw [← Nat.add_sub_cancel' hmn, run_add, h]

theorem Reaches.refl (x : σ) : Reaches step x x := ⟨0, rfl⟩

theorem Reaches.trans (h : Reaches step x y) (h' : Reaches step y z) : Reaches step x z := by
  obtain ⟨m, hm⟩ := h
  obtain ⟨n, hn⟩ := h'
  exact ⟨m + n, (run_of_run hm).trans hn⟩

theorem Reaches.one (h : step x = .inl y) : Reaches step x y := by
  refine ⟨1, ?_⟩
  rw [run, h]
  rfl

/-- What the loop gets to is where it is, or what it gets to behind a pass. -/
theorem Reaches.cases (h : Reaches step x z) : z = x ∨ ∃ y, step x = .inl y ∧ Reaches step y z := by
  obtain ⟨n, h⟩ := h
  cases n with
  | zero =>
    cases h
    exact .inl rfl
  | succ n =>
    rw [run] at h
    cases heq : step x with
    | inl y =>
      rw [heq] at h
      exact .inr ⟨y, rfl, n, h⟩
    | inr r =>
      rw [heq] at h
      cases h

/-- What the loop gets to is where it is, or behind a last pass. -/
theorem Reaches.last (h : Reaches step x z) : z = x ∨ ∃ y, Reaches step x y ∧ step y = .inl z := by
  obtain ⟨n, h⟩ := h
  cases n with
  | zero =>
    cases h
    exact .inl rfl
  | succ n =>
    rw [run_add] at h
    cases hrun : run step n x with
    | inl y =>
      rw [hrun] at h
      refine .inr ⟨y, ⟨n, hrun⟩, ?_⟩
      dsimp only at h
      rw [run] at h
      cases heq : step y with
      | inl w =>
        rw [heq] at h
        exact h
      | inr r =>
        rw [heq] at h
        cases h
    | inr r =>
      rw [hrun] at h
      cases h

/-- A loop that ends does so in a pass from a state that it gets to. -/
theorem exists_last (h : run step n x = .inr r) : ∃ y, Reaches step x y ∧ step y = .inr r := by
  induction n generalizing x with
  | zero => cases h
  | succ n ih =>
    rw [run] at h
    cases heq : step x with
    | inl z =>
      rw [heq] at h
      obtain ⟨y, hy, hlast⟩ := ih h
      exact ⟨y, (Reaches.one heq).trans hy, hlast⟩
    | inr r' =>
      rw [heq] at h
      cases h
      exact ⟨x, .refl x, heq⟩

/-- What a pass keeps holds of every state that the loop gets to. -/
theorem Reaches.invariant {P : σ → Prop} (hstep : ∀ x y, P x → step x = .inl y → P y) (hx : P x)
    (h : Reaches step x y) : P y := by
  obtain ⟨n, h⟩ := h
  induction n generalizing x with
  | zero =>
    cases h
    exact hx
  | succ n ih =>
    rw [run] at h
    cases heq : step x with
    | inl z =>
      rw [heq] at h
      exact ih (hstep x z hx heq) h
    | inr r =>
      rw [heq] at h
      cases h

/-- A loop ends whose passes increase a measure that is bounded where they go on. -/
theorem ends_of_increasing (μ : σ → ℕ) (bound : ℕ)
    (h : ∀ y z, Reaches step x y → step y = .inl z → μ y < μ z ∧ μ y < bound) : Ends step x := by
  induction hn : bound - μ x using Nat.strong_induction_on generalizing x with
  | _ n ih =>
    cases hstep : step x with
    | inr r =>
      refine ⟨1, r, ?_⟩
      rw [run, hstep]
    | inl y =>
      obtain ⟨hlt, hbound⟩ := h x y (.refl x) hstep
      obtain ⟨m, r, hm⟩ := ih (bound - μ y) (by omega)
        (fun z w hz => h z w ((Reaches.one hstep).trans hz)) rfl
      refine ⟨m + 1, r, ?_⟩
      rw [run, hstep]
      exact hm

/-- A loop does not end whose passes go on from one state of a kind to the next. -/
theorem not_ends_of_goesOn {P : σ → Prop} (hstep : ∀ y, P y → ∃ z, step y = .inl z ∧ P z)
    (hx : P x) : ¬ Ends step x := by
  rintro ⟨n, r, hn⟩
  induction n generalizing x with
  | zero => cases hn
  | succ n ih =>
    obtain ⟨y, hpass, hy⟩ := hstep x hx
    rw [run, hpass] at hn
    exact ih hy hn

/-! ## Places -/

section Places

open Relation

variable {α : Type*} {R : α → α → Prop}

/-- A relation that leads around no circle from a place is well-founded there. -/
theorem wellFounded_of_acyclic [Finite α] {a : α}
    (h : ∀ b, ReflTransGen R a b → ¬ TransGen R b b) :
    WellFounded fun b c : {b // ReflTransGen R a b} => TransGen R c.1 b.1 := by
  have htrans : IsTrans {b // ReflTransGen R a b} fun b c => TransGen R c.1 b.1 :=
    ⟨fun _ _ _ hbc hcd => hcd.trans hbc⟩
  have hirrefl : Std.Irrefl fun b c : {b // ReflTransGen R a b} => TransGen R c.1 b.1 :=
    ⟨fun b => h b.1 b.2⟩
  exact Finite.wellFounded_of_trans_of_irrefl _

/-- Each state is at one of finitely many places.  The loop ends if its passes lead around no circle
of places. -/
theorem ends_of_acyclic [Finite α] (place : σ → α)
    (hplace : ∀ y z, Reaches step x y → step y = .inl z → R (place y) (place z))
    (h : ∀ a, ReflTransGen R (place x) a → ¬ TransGen R a a) : Ends step x := by
  suffices hends : ∀ a : {a // ReflTransGen R (place x) a}, ∀ y, place y = a.1 →
      Reaches step x y → Ends step y from hends ⟨place x, .refl⟩ x rfl (.refl x)
  intro a
  induction a using (wellFounded_of_acyclic h).induction with
  | h a ih =>
    rintro y hy hreach
    cases hstep : step y with
    | inr r =>
      refine ⟨1, r, ?_⟩
      rw [run, hstep]
    | inl z =>
      have hR : R a.1 (place z) := hy ▸ hplace y z hreach hstep
      obtain ⟨n, r, hn⟩ := ih ⟨place z, a.2.tail hR⟩ (.single hR) z rfl
        (hreach.trans (.one hstep))
      refine ⟨n + 1, r, ?_⟩
      rw [run, hstep]
      exact hn

end Places

/-! ## Passes with an input -/

section Inputs

open Relation

variable {ι : Type*} (pass : ι → σ → σ ⊕ ρ)

/-- A number of passes, each of which gets an input. -/
def runWith (inputs : ℕ → ι) (x : σ) : ℕ → σ ⊕ ρ
  | 0 => .inl x
  | n + 1 =>
    match runWith inputs x n with
    | .inl y => pass (inputs n) y
    | .inr r => .inr r

/-- A pass leads from one state to the other. -/
def Goes (x y : σ) : Prop := ∃ i, pass i x = .inl y

/-- The loop ends, whatever its inputs are. -/
def EndsAlways (x : σ) : Prop := ∀ inputs : ℕ → ι, ∃ n r, runWith pass inputs x n = .inr r

variable {pass} {inputs : ℕ → ι}

theorem runWith_succ (h : runWith pass inputs x n = .inl y) :
    runWith pass inputs x (n + 1) = pass (inputs n) y := by rw [runWith, h]

/-- What no pass leaves holds in every state of a run, and the run goes on. -/
theorem runWith_stays {P : σ → Prop} (hstep : ∀ i y, P y → ∃ z, pass i y = .inl z ∧ P z) (hx : P x)
    (n : ℕ) : ∃ y, runWith pass inputs x n = .inl y ∧ P y := by
  induction n with
  | zero => exact ⟨x, rfl, hx⟩
  | succ n ih =>
    obtain ⟨y, hrun, hy⟩ := ih
    rw [runWith_succ hrun]
    exact hstep (inputs n) y hy

/-- A loop ends on all inputs whose passes increase a measure that is bounded where they go on. -/
theorem endsAlways_of_increasing (μ : σ → ℕ) (bound : ℕ)
    (h : ∀ y z, ReflTransGen (Goes pass) x y → Goes pass y z → μ y < μ z ∧ μ y < bound) :
    EndsAlways pass x := by
  intro inputs
  by_contra hends
  have hgoes :
      ∀ n, ∃ y, runWith pass inputs x n = .inl y ∧ ReflTransGen (Goes pass) x y ∧ n ≤ μ y := by
    intro n
    induction n with
    | zero => exact ⟨x, rfl, .refl, Nat.zero_le _⟩
    | succ n ih =>
      obtain ⟨y, hrun, hreach, hn⟩ := ih
      cases hpass : pass (inputs n) y with
      | inr r => exact absurd ⟨n + 1, r, (runWith_succ hrun).trans hpass⟩ hends
      | inl z =>
        obtain ⟨hlt, -⟩ := h y z hreach ⟨_, hpass⟩
        exact ⟨z, (runWith_succ hrun).trans hpass, hreach.tail ⟨_, hpass⟩, by omega⟩
  obtain ⟨y, hrun, hreach, hn⟩ := hgoes bound
  obtain ⟨z, hnext, -⟩ := hgoes (bound + 1)
  have hpass : pass (inputs bound) y = .inl z := (runWith_succ hrun).symm.trans hnext
  have := (h y z hreach ⟨_, hpass⟩).2
  omega

end Inputs

end Orbit
