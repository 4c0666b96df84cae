import Mathlib.Logic.Relation

/-!
# Programs as sequences of changes

A program over a state may return or fail.  `Logic.Does x s Q` says that, started in `s`, it gets
from state to state by the changes of the logic, that it returns only with `Q`, and that it fails
for good only as the logic allows; other failures are not looked at.

What each change keeps, every program keeps that consists of changes: `Does.keeps`.
-/

namespace Hoare

open Relation

variable {ε σ α β : Type}

/-- The changes of a state, what holds of every state and is kept by them, and the failures: minor
ones, and those that say something about the state they happen in. -/
structure Logic (ε σ : Type) where
  Change : σ → σ → Prop
  Inv : σ → Prop
  Minor : ε → Prop
  Fault : ε → σ → Prop
  keeps : ∀ {s s' : σ}, Change s s' → Inv s → Inv s'

namespace Logic

variable (L : Logic ε σ)

/-- Any number of changes. -/
abbrev Changes : σ → σ → Prop := ReflTransGen L.Change

/-- What a program does from a state on. -/
def Does (x : EStateM ε σ α) (s : σ) (Q : α → σ → Prop) : Prop :=
  L.Inv s → match x s with
    | .ok a s' => L.Changes s s' ∧ Q a s'
    | .error e s' => L.Changes s s' ∧ (L.Minor e ∨ L.Fault e s')

end Logic

variable {L : Logic ε σ} {s s' : σ}

/-- An invariant of the changes is one of their sequences. -/
theorem keeps_of_change {I : σ → Prop} (hI : ∀ s s', L.Change s s' → I s → I s')
    (h : L.Changes s s') (hs : I s) : I s' := by
  induction h with
  | refl => exact hs
  | tail _ hlast ih => exact hI _ _ hlast ih

theorem inv_of_changes (h : L.Changes s s') (hs : L.Inv s) : L.Inv s' :=
  keeps_of_change (fun _ _ => L.keeps) h hs

namespace Logic.Does

variable {x : EStateM ε σ α} {f : α → EStateM ε σ β} {Q Q' : α → σ → Prop} {R : β → σ → Prop}

theorem pure {a : α} (h : Q a s) : L.Does (Pure.pure a) s Q := fun _ => ⟨.refl, h⟩

theorem bind (h : L.Does x s Q)
    (hf : ∀ a s', L.Changes s s' → Q a s' → L.Does (f a) s' R) : L.Does (x >>= f) s R := by
  intro hs
  have hx := h hs
  show match EStateM.bind x f s with
    | .ok b s' => L.Changes s s' ∧ R b s'
    | .error e s' => L.Changes s s' ∧ (L.Minor e ∨ L.Fault e s')
  unfold EStateM.bind
  cases heq : x s with
  | error e s' =>
    rw [heq] at hx
    exact hx
  | ok a s₁ =>
    rw [heq] at hx
    obtain ⟨hto, hQ⟩ := hx
    have hnext := hf a s₁ hto hQ (inv_of_changes hto hs)
    show match f a s₁ with
      | .ok b s' => L.Changes s s' ∧ R b s'
      | .error e s' => L.Changes s s' ∧ (L.Minor e ∨ L.Fault e s')
    cases heq' : f a s₁ with
    | ok b s₂ =>
      rw [heq'] at hnext
      exact ⟨hto.trans hnext.1, hnext.2⟩
    | error e s₂ =>
      rw [heq'] at hnext
      exact ⟨hto.trans hnext.1, hnext.2⟩

/-- A weaker postcondition, with what is known of the states by then. -/
theorem mono (h : L.Does x s Q)
    (hQ : ∀ a s', L.Inv s → L.Changes s s' → Q a s' → Q' a s') : L.Does x s Q' := by
  intro hs
  have hx := h hs
  cases heq : x s with
  | ok a s' =>
    rw [heq] at hx
    exact ⟨hx.1, hQ a s' hs hx.1 hx.2⟩
  | error e s' =>
    rw [heq] at hx
    exact hx

/-- What holds of every state may be used. -/
theorem inv (h : L.Inv s → L.Does x s Q) : L.Does x s Q := fun hs => h hs hs

/-- A program that makes a number of changes and goes on as another one does. -/
theorem goes {y : EStateM ε σ α} (heq : x s = y s') (hto : L.Changes s s') (h : L.Does y s' Q) :
    L.Does x s Q := by
  intro hs
  have hy := h (inv_of_changes hto hs)
  rw [heq]
  cases heq' : y s' with
  | ok a s₁ =>
    rw [heq'] at hy
    exact ⟨hto.trans hy.1, hy.2⟩
  | error e s₁ =>
    rw [heq'] at hy
    exact ⟨hto.trans hy.1, hy.2⟩

/-- A first part whose result is known. -/
theorem bind_ok {a : α} (hx : x s = .ok a s') (hto : L.Changes s s') (h : L.Does (f a) s' R) :
    L.Does (x >>= f) s R := by
  have heq : (x >>= f) s = f a s' := by
    show EStateM.bind x f s = _
    unfold EStateM.bind
    rw [hx]
  exact goes heq hto h

/-- A first part that fails. -/
theorem bind_error {e : ε} (hx : x s = .error e s) (h : L.Minor e ∨ L.Fault e s) :
    L.Does (x >>= f) s R := by
  have hfails : L.Does x s fun _ _ => False := by
    intro _
    rw [hx]
    exact ⟨.refl, h⟩
  exact hfails.bind fun _ _ _ h => h.elim

theorem throw {e : ε} (h : L.Minor e ∨ L.Fault e s) : L.Does (MonadExcept.throw e) s Q :=
  fun _ => ⟨.refl, h⟩

theorem get_bind {f : σ → EStateM ε σ β} (h : L.Does (f s) s R) : L.Does (get >>= f) s R :=
  goes rfl .refl h

theorem changed {g : σ → σ} {Q : PUnit → σ → Prop} (hto : L.Change s (g s)) (h : Q ⟨⟩ (g s)) :
    L.Does (modify g) s Q := fun _ => ⟨.single hto, h⟩

/-- An assignment that is a number of changes. -/
theorem modified_bind {g : σ → σ} {f : PUnit → EStateM ε σ β} (hto : L.Changes s (g s))
    (h : L.Does (f ⟨⟩) (g s) R) : L.Does (modify g >>= f) s R := by
  have heq : (modify g >>= f) s = f ⟨⟩ (g s) := rfl
  exact goes heq hto h

theorem changed_bind {g : σ → σ} {f : PUnit → EStateM ε σ β} (hto : L.Change s (g s))
    (h : L.Does (f ⟨⟩) (g s) R) : L.Does (modify g >>= f) s R :=
  modified_bind (.single hto) h

/-- A loop over a list keeps what each round keeps. -/
theorem forM {γ : Type} {g : γ → EStateM ε σ PUnit} {J : σ → Prop} {cs : List γ}
    (hg : ∀ c ∈ cs, ∀ s, J s → L.Does (g c) s fun _ s' => J s') (hJ : J s) :
    L.Does (cs.forM g) s fun _ s' => J s' := by
  induction cs generalizing s with
  | nil => exact pure hJ
  | cons c cs ih =>
    obtain ⟨hc, hcs⟩ := List.forall_mem_cons.mp hg
    exact (hc s hJ).bind fun _ s' _ hJ' => ih hcs hJ'

theorem of_ok {a : α} (h : L.Does x s Q) (hs : L.Inv s) (hx : x s = .ok a s') :
    L.Changes s s' ∧ Q a s' := by
  have := h hs
  rw [hx] at this
  exact this

theorem of_error {e : ε} (h : L.Does x s Q) (hs : L.Inv s) (hx : x s = .error e s') :
    L.Changes s s' ∧ (L.Minor e ∨ L.Fault e s') := by
  have := h hs
  rw [hx] at this
  exact this

end Logic.Does

end Hoare
