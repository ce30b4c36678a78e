import Kvdn.Callback.Outline

/-!
# Completion

That a program *may* come to a value, with a postcondition (`Sem.Completes`): there
are answers of the environment with which it does. The rules follow the program; a
program that follows an outline completes if every action the outline allows does,
and it throws nothing on the way (`Prog.Holds.completes`).
-/

namespace Callback

variable {A : Type} {R : A → Type} {ε σ γ α β : Type}

namespace Sem

open Prog

variable {S : Sem R ε σ} {w : σ} {a : A} {Q Q' : σ → α → Prop}

variable (S) in
/-- From the state `w`, the program may come to a value for which `Q` holds. -/
def Completes (w : σ) (p : Prog R ε α) (Q : σ → α → Prop) : Prop :=
  ∃ tr w' x, S.Runs w p tr w' (ret x) ∧ Q w' x

namespace Completes

theorem ret {x : α} (h : Q w x) : S.Completes w (ret x) Q := ⟨[], w, x, .refl .., h⟩

theorem mono {p : Prog R ε α} (h : S.Completes w p Q) (hQ : ∀ w x, Q w x → Q' w x) :
    S.Completes w p Q' := by
  obtain ⟨tr, w', x, hruns, hx⟩ := h
  exact ⟨tr, w', x, hruns, hQ w' x hx⟩

theorem bind {p : Prog R ε α} {f : α → Prog R ε β} {Q' : σ → β → Prop} (h : S.Completes w p Q)
    (hf : ∀ w' x, Q w' x → S.Completes w' (f x) Q') : S.Completes w (p.bind f) Q' := by
  obtain ⟨tr, w', x, hruns, hx⟩ := h
  obtain ⟨tr', w'', y, hruns', hy⟩ := hf w' x hx
  exact ⟨tr ++ tr', w'', y, hruns.bind_ret hruns', hy⟩

/-- A primitive action. -/
theorem perform {r : R a} {Q : σ → R a → Prop} (hb : S.body a = none) (hok : S.ok w a r)
    (h : Q (S.eff w a r) r) : S.Completes w (perform a) Q :=
  ⟨[⟨a, r⟩], S.eff w a r, r, .prim hb hok (.refl ..), h⟩

/-- A defined action. -/
theorem call {q : Prog R ε (R a)} {Q : σ → R a → Prop} (hb : S.body a = some q)
    (h : S.Completes w q Q) : S.Completes w (Prog.perform a) Q := by
  obtain ⟨tr, w', r, hruns, hr⟩ := h
  refine ⟨tr, w', r, .body hb ?_, hr⟩
  rw [bind_ret]
  exact hruns

theorem act {k : R a → Prog R ε α} {Q' : σ → R a → Prop} (h : S.Completes w (Prog.perform a) Q')
    (hk : ∀ w' r, Q' w' r → S.Completes w' (k r) Q) : S.Completes w (.act a k) Q :=
  h.bind hk

end Completes

end Sem

/-- A program following an outline comes to its end, with a value or an exception, if
    along the points `P` every action it may perform completes. -/
theorem Prog.Holds.finishes {O : Outline R ε γ} {Q : γ → α → Prop} {S : Sem R ε σ}
    {P : σ → γ → Prop}
    (hstep : ∀ w g a, P w g → O.allow g a →
      S.Completes w (perform a) fun w' r => ∃ g', O.next g a r g' ∧ P w' g')
    {w : σ} {g : γ} {p : Prog R ε α} (hP : P w g) (hp : p.Holds O Q g) :
    ∃ tr w' p', S.Runs w p tr w' p' ∧ p'.Finished ∧ ∃ g', P w' g' ∧ p'.Holds O Q g' := by
  induction p generalizing w g with
  | ret x => exact ⟨[], w, .ret x, .refl .., trivial, g, hP, hp⟩
  | throw e => exact ⟨[], w, .throw e, .refl .., trivial, g, hP, hp⟩
  | act a k ih =>
    obtain ⟨tr, w', r, hruns, g', hg', hP'⟩ := hstep w g a hP hp.1
    obtain ⟨tr', w'', p', hruns', hfinished⟩ := ih r hP' (hp.2 r g' hg')
    exact ⟨tr ++ tr', w'', p', Sem.Runs.bind_ret (f := k) hruns hruns', hfinished⟩

/-- It completes if it throws no exception on the way. -/
theorem Prog.Holds.completes {O : Outline R ε γ} {Q : γ → α → Prop} {S : Sem R ε σ}
    {P : σ → γ → Prop}
    (hstep : ∀ w g a, P w g → O.allow g a →
      S.Completes w (perform a) fun w' r => ∃ g', O.next g a r g' ∧ P w' g')
    (hthrow : ∀ w g e, P w g → ¬O.throws g e) {w : σ} {g : γ} {p : Prog R ε α} (hP : P w g)
    (hp : p.Holds O Q g) : S.Completes w p fun w' x => ∃ g, P w' g ∧ Q g x := by
  obtain ⟨tr, w', p', hruns, hfinished, g', hP', hp'⟩ := hp.finishes hstep hP
  cases p' with
  | ret x => exact ⟨tr, w', x, hruns, g', hP', hp'⟩
  | throw e => exact absurd hp' (hthrow w' g' e hP')
  | act a k => exact hfinished.elim

end Callback
