import Mathlib.Data.List.Basic

/-!
# Machines that can fail

A machine takes one event at a time and either fails for good or moves to its next state.  `Reach`
is the set of states it gets to when every event meets a condition on the state it arrives in, and
`Reach.invariant` is the induction all statements about whole runs go through.
-/

namespace Machine

variable {σ ε φ α β : Type}

theorem bind_eq_ok {x : Except φ α} {f : α → Except φ β} {b : β} :
    (x >>= f) = .ok b ↔ ∃ a, x = .ok a ∧ f a = .ok b := by
  cases x with
  | error e => exact ⟨fun h => (by cases h), fun ⟨a, h, _⟩ => (by cases h)⟩
  | ok a => exact ⟨fun h => ⟨a, rfl, h⟩, fun ⟨a', h, hf⟩ => (by cases h; exact hf)⟩

theorem bind_eq_error {x : Except φ α} {f : α → Except φ β} {e : φ} :
    (x >>= f) = .error e ↔ x = .error e ∨ ∃ a, x = .ok a ∧ f a = .error e := by
  cases x with
  | error e' => simp [bind, Except.bind]
  | ok a => simp [bind, Except.bind]

theorem mapM_eq_ok {f : α → Except φ β} {g : α → β} (as : List α)
    (h : ∀ a ∈ as, f a = .ok (g a)) : as.mapM f = .ok (as.map g) := by
  induction as with
  | nil => rfl
  | cons a as ih =>
    have has : ∀ a' ∈ as, f a' = .ok (g a') := fun a' ha' => h a' (List.mem_cons_of_mem a ha')
    rw [List.mapM_cons, h a List.mem_cons_self, ih has]
    rfl

/-- `x` returns a value of `Q` or fails with a fault of `E`. -/
def Ends (E : φ → Prop) (Q : α → Prop) : Except φ α → Prop
  | .ok a => Q a
  | .error e => E e

section Ends

variable {E E' : φ → Prop} {P Q : α → Prop} {R : β → Prop}

theorem Ends.bind {x : Except φ α} {f : α → Except φ β} (h : Ends E Q x)
    (hf : ∀ a, x = .ok a → Q a → Ends E R (f a)) : Ends E R (x >>= f) := by
  cases x with
  | error e => exact h
  | ok a => exact hf a rfl h

theorem Ends.mono {x : Except φ α} (h : Ends E Q x) (hE : ∀ e, E e → E' e)
    (hQ : ∀ a, x = .ok a → Q a → P a) : Ends E' P x := by
  cases x with
  | error e => exact hE e h
  | ok a => exact hQ a rfl h

theorem Ends.self (x : Except φ α) : Ends (fun e => x = .error e) (fun a => x = .ok a) x := by
  cases x with
  | error e => exact rfl
  | ok a => exact rfl

theorem Ends.ok {x : Except φ α} {a : α} (h : Ends E Q x) (hx : x = .ok a) : Q a := by
  subst hx; exact h

theorem Ends.error {x : Except φ α} {e : φ} (h : Ends E Q x) (hx : x = .error e) : E e := by
  subst hx; exact h

end Ends

/-- Two computations of which one fails exactly like the other, or which return related values. -/
def Agree (R : α → β → Prop) : Except φ α → Except φ β → Prop
  | .ok a, .ok b => R a b
  | .error e, .error e' => e = e'
  | _, _ => False

section Agree

variable {α' β' : Type} {R : α → β → Prop} {S : α' → β' → Prop}

theorem Agree.bind {x : Except φ α} {y : Except φ β} {f : α → Except φ α'} {g : β → Except φ β'}
    (h : Agree R x y) (hf : ∀ a b, R a b → Agree S (f a) (g b)) : Agree S (x >>= f) (y >>= g) := by
  rcases x with e | a <;> rcases y with e' | b
  · exact h
  · exact h.elim
  · exact h.elim
  · exact hf a b h

theorem Agree.mono {R' : α → β → Prop} {x : Except φ α} {y : Except φ β} (h : Agree R x y)
    (hR : ∀ a b, x = .ok a → y = .ok b → R a b → R' a b) : Agree R' x y := by
  rcases x with e | a <;> rcases y with e' | b
  · exact h
  · exact h.elim
  · exact h.elim
  · exact hR a b rfl rfl h

theorem Agree.ite {c d : Prop} [Decidable c] [Decidable d] {x x' : Except φ α} {y y' : Except φ β}
    (hcd : c ↔ d) (h : c → Agree R x y) (h' : ¬ c → Agree R x' y') :
    Agree R (if c then x else x') (if d then y else y') := by
  by_cases hc : c
  · rw [if_pos hc, if_pos (hcd.mp hc)]
    exact h hc
  · rw [if_neg hc, if_neg fun hd => hc (hcd.mpr hd)]
    exact h' hc

theorem Agree.ok {x : Except φ α} {y : Except φ β} {a : α} (h : Agree R x y) (hx : x = .ok a) :
    ∃ b, y = .ok b ∧ R a b := by
  subst hx
  rcases y with e | b
  · exact h.elim
  · exact ⟨b, rfl, h⟩

theorem Agree.error {x : Except φ α} {y : Except φ β} {e : φ} (h : Agree R x y)
    (hx : x = .error e) : y = .error e := by
  subst hx
  rcases y with e' | b
  · exact congrArg Except.error (Eq.symm h)
  · exact h.elim

end Agree

/-- The states reached from `init` by events that satisfy `ok` where they arrive. -/
inductive Reach (step : σ → ε → Except φ σ) (ok : σ → ε → Prop) (init : σ) : σ → Prop where
  | init : Reach step ok init init
  | step {s s' : σ} {e : ε} (h : Reach step ok init s) (hok : ok s e) (hs : step s e = .ok s') :
      Reach step ok init s'

section Reach

variable {step : σ → ε → Except φ σ} {ok : σ → ε → Prop} {init : σ}

theorem Reach.invariant {P : σ → Prop} (h0 : P init)
    (hstep : ∀ s e s', P s → ok s e → step s e = .ok s' → P s') {s : σ}
    (h : Reach step ok init s) : P s := by
  induction h with
  | init => exact h0
  | step _ hok hs ih => exact hstep _ _ _ ih hok hs

end Reach

/-- Handing a list of events to a machine. -/
def run (step : σ → ε → Except φ σ) : σ → List ε → Except φ σ
  | s, [] => .ok s
  | s, e :: es => step s e >>= fun s' => run step s' es

theorem run_append {step : σ → ε → Except φ σ} (s : σ) (es es' : List ε) :
    run step s (es ++ es') = run step s es >>= fun s' => run step s' es' := by
  induction es generalizing s with
  | nil => rfl
  | cons e es ih => simp only [List.cons_append, run, bind_assoc, ih]

/-- One event more. -/
theorem run_append_of_ok {step : σ → ε → Except φ σ} {es : List ε} {e : ε} {s s' s'' : σ}
    (h : run step s es = .ok s') (he : step s' e = .ok s'') : run step s (es ++ [e]) = .ok s'' := by
  rw [run_append, h]
  exact bind_eq_ok.mpr ⟨s', rfl, bind_eq_ok.mpr ⟨s'', he, rfl⟩⟩

theorem reach_run {step : σ → ε → Except φ σ} {ok : σ → ε → Prop} {init : σ} :
    ∀ (es : List ε) (s s' : σ), (∀ e ∈ es, ∀ s, ok s e) → Reach step ok init s →
      run step s es = .ok s' → Reach step ok init s' := by
  intro es
  induction es with
  | nil => intro s s' _ h hr; cases hr; exact h
  | cons e es ih =>
    intro s s' hok h hr
    obtain ⟨s1, h1, h2⟩ := bind_eq_ok.mp hr
    refine ih s1 s' (fun e' he' => hok e' (List.mem_cons_of_mem e he')) ?_ h2
    exact .step h (hok e List.mem_cons_self s) h1

/-- What is observed at the end of a run, is observed of a state that is reached. -/
theorem reach_of_observed (step : σ → ε → Except φ σ) (init : σ) (es : List ε) (f : σ → α) {a : α}
    (h : (run step init es).toOption.map f = some a) :
    ∃ s, Reach step (fun _ _ => True) init s ∧ f s = a := by
  cases hr : run step init es with
  | error e =>
    rw [hr] at h
    cases h
  | ok s =>
    rw [hr] at h
    exact ⟨s, reach_run es init s (fun _ _ _ => trivial) .init hr, Option.some.inj h⟩

/-- Handing a list of events to a machine, as long as they pass a test. -/
def runTested (step : σ → ε → Except φ σ) (test : σ → ε → Bool) : σ → List ε → Option σ
  | s, [] => some s
  | s, e :: es =>
    if test s e then (step s e).toOption.bind fun s' => runTested step test s' es else none

theorem reach_runTested {step : σ → ε → Except φ σ} {test : σ → ε → Bool} {ok : σ → ε → Prop}
    {init : σ} (htest : ∀ s e, Reach step ok init s → test s e = true → ok s e) (es : List ε) :
    ∀ s s', Reach step ok init s → runTested step test s es = some s' →
      Reach step ok init s' := by
  induction es with
  | nil => intro s s' h hr; cases hr; exact h
  | cons e es ih =>
    intro s s' h hr
    unfold runTested at hr
    split_ifs at hr with hpass
    obtain ⟨s₁, h₁, h₂⟩ := Option.bind_eq_some_iff.mp hr
    cases hs : step s e with
    | error f =>
      rw [hs] at h₁
      cases h₁
    | ok s₂ =>
      rw [hs] at h₁
      cases h₁
      exact ih s₁ s' (.step h (htest s e h hpass) hs) h₂

/-- A run fails in one of its steps. -/
theorem run_eq_error_iff {step : σ → ε → Except φ σ} {f : φ} (s : σ) (es : List ε) :
    run step s es = .error f ↔ ∃ before e after s', es = before ++ e :: after ∧
      run step s before = .ok s' ∧ step s' e = .error f := by
  induction es generalizing s with
  | nil =>
    constructor
    · intro h
      cases h
    · rintro ⟨before, e, after, s', hes, -⟩
      exact absurd hes.symm (List.append_ne_nil_of_right_ne_nil _ (List.cons_ne_nil e after))
  | cons e es ih =>
    rw [run, bind_eq_error]
    constructor
    · rintro (h | ⟨s1, h1, h2⟩)
      · exact ⟨[], e, es, s, rfl, rfl, h⟩
      · obtain ⟨before, e', after, s', rfl, hb, he⟩ := (ih s1).mp h2
        exact ⟨e :: before, e', after, s', rfl, bind_eq_ok.mpr ⟨s1, h1, hb⟩, he⟩
    · rintro ⟨before, e', after, s', hes, hb, he⟩
      rcases before with _ | ⟨e1, before⟩
      · cases hes
        cases hb
        exact .inl he
      · cases hes
        obtain ⟨s1, h1, h2⟩ := bind_eq_ok.mp hb
        exact .inr ⟨s1, h1, (ih s1).mpr ⟨before, e', after, s', rfl, h2, he⟩⟩

/-! ## Two runs -/

/-- Machines whose steps agree on related states have runs that agree. -/
theorem run_agree {τ : Type} {step : σ → ε → Except φ σ} {step' : τ → ε → Except φ τ}
    {R : σ → τ → Prop} {es : List ε}
    (hstep : ∀ e ∈ es, ∀ s t, R s t → Agree R (step s e) (step' t e)) {s : σ} {t : τ} (h : R s t) :
    Agree R (run step s es) (run step' t es) := by
  induction es generalizing s t with
  | nil => exact h
  | cons e es ih =>
    exact (hstep e List.mem_cons_self s t h).bind fun s' t' h' =>
      ih (fun e' he' => hstep e' (List.mem_cons_of_mem e he')) h'

section Two

variable {step : σ → ε → Except φ σ} {R : σ → σ → Prop} {own : ε → Bool} {es : List ε}

/-- A run beside the run of its own events only: when these move related states to related states
and the other events do not disturb the relation, the second run gets as far as the first. -/
theorem run_filter {s t s' : σ}
    (hown : ∀ e ∈ es, own e = true → ∀ s t, R s t → Agree R (step s e) (step t e))
    (hother : ∀ e ∈ es, own e = false → ∀ s t s', R s t → step s e = .ok s' → R s' t)
    (h : R s t) (hr : run step s es = .ok s') :
    ∃ t', run step t (es.filter own) = .ok t' ∧ R s' t' := by
  induction es generalizing s t with
  | nil => cases hr; exact ⟨t, rfl, h⟩
  | cons e es ih =>
    obtain ⟨s1, h1, h2⟩ := bind_eq_ok.mp hr
    have hown' := fun e' he' => hown e' (List.mem_cons_of_mem e he')
    have hother' := fun e' he' => hother e' (List.mem_cons_of_mem e he')
    rcases ho : own e with _ | _
    · rw [List.filter_cons_of_neg (by rw [ho]; exact Bool.false_ne_true)]
      exact ih hown' hother' (hother e List.mem_cons_self ho s t s1 h h1) h2
    · obtain ⟨t1, ht1, hR⟩ := (hown e List.mem_cons_self ho s t h).ok h1
      obtain ⟨t', ht', hR'⟩ := ih hown' hother' hR h2
      rw [List.filter_cons_of_pos ho]
      exact ⟨t', bind_eq_ok.mpr ⟨t1, ht1, ht'⟩, hR'⟩

end Two

end Machine
