import Mathlib.Data.List.Basic

/-!
# State machines

A machine whose states change by events, some of which may happen in a state
(`Machine`), and its runs, in which every event is kept with the state it has
happened in (`Machine.Run`): in any order, any number of times.

What the events keep holds after a run (`Run.inv`), which may be looked at up to one of its
events (`Run.before`), and continued by a list of events that may happen
(`Run.append`).
-/

namespace Callback

variable {σ ε : Type}

/-- A machine with states `σ` and events `ε`. -/
structure Machine (σ ε : Type) where
  /-- The events that may happen in a state. -/
  can : σ → ε → Prop
  /-- The state after an event. -/
  step : σ → ε → σ

namespace Machine

variable {M : Machine σ ε} {s₀ s : σ} {tr : List (σ × ε)}

variable (M) in
/-- The runs from the state `s₀`. -/
inductive Run (s₀ : σ) : List (σ × ε) → σ → Prop
  | nil : Run s₀ [] s₀
  | snoc {tr : List (σ × ε)} {s : σ} {e : ε} :
      Run s₀ tr s → M.can s e → Run s₀ (tr ++ [(s, e)]) (M.step s e)

/-- What holds at first, and is kept by the events, holds after a run. -/
theorem Run.inv {I : List (σ × ε) → σ → Prop} (h : M.Run s₀ tr s) (h₀ : I [] s₀)
    (hstep : ∀ tr s e, I tr s → M.can s e → I (tr ++ [(s, e)]) (M.step s e)) : I tr s := by
  induction h with
  | nil => exact h₀
  | snoc _ hcan ih => exact hstep _ _ _ ih hcan

/-- The run up to one of its events. -/
theorem Run.before {tr₁ tr₂ : List (σ × ε)} {s' : σ} {e : ε} (h : M.Run s₀ tr s)
    (htr : tr = tr₁ ++ (s', e) :: tr₂) : M.Run s₀ tr₁ s' ∧ M.can s' e := by
  induction h generalizing tr₂ with
  | nil => exact absurd htr.symm (by simp)
  | snoc hrun hcan ih =>
    rcases List.eq_nil_or_concat tr₂ with rfl | ⟨tr₃, l, rfl⟩
    · obtain ⟨rfl, hl⟩ := List.append_inj' htr rfl
      obtain ⟨rfl, rfl⟩ := Prod.mk.inj (List.singleton_inj.1 hl)
      exact ⟨hrun, hcan⟩
    · rw [List.concat_eq_append, ← List.cons_append, ← List.append_assoc] at htr
      exact ih (List.append_inj' htr rfl).1

/-! ## Lists of events -/

variable (M)

/-- A list of events, each with the state it happens in. -/
def trace (s : σ) : List ε → List (σ × ε)
  | [] => []
  | e :: es => (s, e) :: trace (M.step s e) es

/-- The events may happen, one after the other. -/
def CanAll (s : σ) : List ε → Prop
  | [] => True
  | e :: es => M.can s e ∧ CanAll (M.step s e) es

instance decidableCanAll [∀ s e, Decidable (M.can s e)] :
    ∀ (s : σ) (es : List ε), Decidable (M.CanAll s es)
  | _, [] => .isTrue trivial
  | s, e :: es =>
    have := decidableCanAll (M.step s e) es
    inferInstanceAs (Decidable (M.can s e ∧ M.CanAll (M.step s e) es))

variable {M}

theorem Run.append {es : List ε} (h : M.Run s₀ tr s) (hcan : M.CanAll s es) :
    M.Run s₀ (tr ++ M.trace s es) (es.foldl M.step s) := by
  induction es generalizing tr s with
  | nil =>
    rw [trace, List.append_nil]
    exact h
  | cons e es ih =>
    have hrun := ih (h.snoc hcan.1) hcan.2
    rwa [List.append_assoc] at hrun

/-- The run of a list of events. -/
theorem run_of_canAll {es : List ε} (hcan : M.CanAll s es) :
    M.Run s (M.trace s es) (es.foldl M.step s) := Run.nil.append hcan

variable (M) in
/-- `P` holds at each of the events, with what has come before it. -/
def Along (P : List (σ × ε) → σ → ε → Prop) (tr : List (σ × ε)) (s : σ) : List ε → Prop
  | [] => True
  | e :: es => P tr s e ∧ Along P (tr ++ [(s, e)]) (M.step s e) es

theorem Along.of_trace {P : List (σ × ε) → σ → ε → Prop} {tr₁ tr₂ : List (σ × ε)} {s' : σ} {e : ε}
    {es : List ε} (h : M.Along P tr s es) (htr : M.trace s es = tr₁ ++ (s', e) :: tr₂) :
    P (tr ++ tr₁) s' e := by
  induction es generalizing tr tr₁ s with
  | nil => exact absurd htr (by simp [trace])
  | cons e' es ih =>
    cases tr₁ with
    | nil =>
      obtain ⟨rfl, rfl⟩ := Prod.mk.inj (List.cons.inj htr).1
      rw [List.append_nil]
      exact h.1
    | cons l tr₁ =>
      obtain ⟨hl, htail⟩ := List.cons.inj htr
      rw [List.append_cons, ← hl]
      exact ih h.2 htail

end Machine

end Callback
