import Kvdn.Callback.Outline
import Mathlib.Algebra.Order.Monoid.Canonical.Defs
import Mathlib.Algebra.BigOperators.Group.List.Defs

/-!
# Bounded programs

What a program goes through, whatever the other programs of a pool do: its steps
(`Sem.Step`), the defined actions among them being expanded, and the actions it has come
to (`Sem.Visits`). The answers are those an action may get in any state.

A program that is bounded (`Sem.Within`) comes to an end (`Within.ends`), and its
actions cost no more than the bound together (`Within.sum_le`). The costs are in any
ordered monoid, so that a bound may count actions of several kinds, or collect them.
-/

namespace Callback

variable {A : Type} {R : A → Type} {ε σ γ ι α β : Type}

namespace Sem

open Prog

variable (S : Sem R ε σ)

/-- A step of a program: its next action is answered, or expanded. -/
inductive Step : Prog R ε α → A → Prog R ε α → Prop
  | prim {a : A} {k : R a → Prog R ε α} {w : σ} {r : R a} :
      S.body a = none → S.ok w a r → Step (act a k) a (k r)
  | body {a : A} {k : R a → Prog R ε α} {q : Prog R ε (R a)} :
      S.body a = some q → Step (act a k) a (q.bind k)

/-- The actions that a program has come to. -/
inductive Visits : Prog R ε α → List A → Prog R ε α → Prop
  | refl (p : Prog R ε α) : Visits p [] p
  | step {p q p' : Prog R ε α} {a : A} {as : List A} :
      S.Step p a q → Visits q as p' → Visits p (a :: as) p'

/-- The program comes to an end, whatever happens: it has no infinite sequence of steps. -/
def Ends (p : Prog R ε α) : Prop := Acc (fun q p => ∃ a, S.Step p a q) p

variable {S}

/-- A program that follows an outline goes on following it. -/
theorem Visits.holds {O : Outline R ε γ} {Q : γ → α → Prop} {g : γ} {p p' : Prog R ε α}
    {as : List A} (hO : O.Verified S) (hnext : ∀ g a w r, S.ok w a r → ∃ g', O.next g a r g')
    (h : S.Visits p as p') (hp : p.Holds O Q g) : ∃ g', p'.Holds O Q g' := by
  induction h generalizing g with
  | refl => exact ⟨g, hp⟩
  | step hstep _ ih =>
    cases hstep with
    | prim _ hok =>
      obtain ⟨g', hg'⟩ := hnext g _ _ _ hok
      exact ih (hp.2 _ g' hg')
    | body hb => exact ih (hO.expand hb hp)

/-- What a run goes through. -/
theorem Runs.visits {w w' : σ} {p p' : Prog R ε α} {tr : List (Label R)}
    (h : S.Runs w p tr w' p') : ∃ as, S.Visits p as p' := by
  induction h with
  | refl w p => exact ⟨[], .refl p⟩
  | prim hb hok _ ih =>
    obtain ⟨as, has⟩ := ih
    exact ⟨_, .step (.prim hb hok) has⟩
  | body hb _ ih =>
    obtain ⟨as, has⟩ := ih
    exact ⟨_, .step (.body hb) has⟩

section

variable {M : Type} [AddCommMonoid M]

variable (S) in
/-- The actions of a program cost `n` at most, whatever they answer. -/
inductive Within (cost : A → M) : M → Prog R ε α → Prop
  | ret (n : M) (x : α) : Within cost n (ret x)
  | throw (n : M) (e : ε) : Within cost n (throw e)
  | prim {n : M} {a : A} {k : R a → Prog R ε α} : S.body a = none →
      (∀ w r, S.ok w a r → Within cost n (k r)) → Within cost (cost a + n) (act a k)
  | body {n : M} {a : A} {k : R a → Prog R ε α} {q : Prog R ε (R a)} : S.body a = some q →
      Within cost n (q.bind k) → Within cost (cost a + n) (act a k)

namespace Within

variable {cost : A → M} {m n : M} {p p' q : Prog R ε α} {as : List A}

/-- A bound need not be reached. -/
theorem add (h : S.Within cost n p) (m : M) : S.Within cost (n + m) p := by
  induction h with
  | ret n x => exact .ret _ x
  | throw n e => exact .throw _ e
  | prim hb _ ih =>
    rw [add_assoc]
    exact .prim hb ih
  | body hb _ ih =>
    rw [add_assoc]
    exact .body hb ih

/-- After a step, the rest is left. -/
theorem of_step {a : A} (h : S.Within cost n p) (hstep : S.Step p a q) :
    ∃ m, n = cost a + m ∧ S.Within cost m q := by
  cases hstep with
  | prim hb hok =>
    cases h with
    | prim _ h => exact ⟨_, rfl, h _ _ hok⟩
    | body hb' => exact nomatch hb.symm.trans hb'
  | body hb =>
    cases h with
    | prim hb' => exact nomatch hb.symm.trans hb'
    | body hb' h =>
      obtain rfl := Option.some.inj (hb.symm.trans hb')
      exact ⟨_, rfl, h⟩

/-- A bounded program comes to an end. -/
theorem ends (h : S.Within cost n p) : S.Ends p := by
  induction h with
  | ret n x => exact ⟨_, fun _ ⟨_, hstep⟩ => nomatch hstep⟩
  | throw n e => exact ⟨_, fun _ ⟨_, hstep⟩ => nomatch hstep⟩
  | prim hb _ ih =>
    refine ⟨_, fun q ⟨a, hstep⟩ => ?_⟩
    cases hstep with
    | prim _ hok => exact ih _ _ hok
    | body hb' => exact nomatch hb.symm.trans hb'
  | body hb _ ih =>
    refine ⟨_, fun q ⟨a, hstep⟩ => ?_⟩
    cases hstep with
    | prim hb' => exact nomatch hb.symm.trans hb'
    | body hb' =>
      obtain rfl := Option.some.inj (hb.symm.trans hb')
      exact ih

variable [PartialOrder M] [CanonicallyOrderedAdd M]

theorem mono (h : S.Within cost n p) (hle : n ≤ m) : S.Within cost m p := by
  obtain ⟨d, rfl⟩ := exists_add_of_le hle
  exact h.add d

/-- The costs of a program and of its handler. -/
theorem bind {f : α → Prog R ε β} (h : S.Within cost n p) (hf : ∀ x, S.Within cost m (f x)) :
    S.Within cost (n + m) (p.bind f) := by
  induction h with
  | ret n x => exact (hf x).mono le_add_self
  | throw n e => exact .throw _ e
  | prim hb _ ih =>
    rw [add_assoc]
    exact .prim hb ih
  | body hb _ ih =>
    rw [add_assoc]
    exact .body hb (by rw [← bind_assoc]; exact ih)

/-- A program following an outline costs nothing if no action the outline allows does,
    at the points where `I` holds. -/
theorem of_holds {O : Outline R ε γ} {Q : γ → α → Prop} {I : γ → Prop} {g : γ}
    (hallow : ∀ g a, I g → O.allow g a → S.Within cost 0 (perform a))
    (hnext : ∀ g a r, I g → O.allow g a → ∃ g', O.next g a r g' ∧ I g')
    (h : p.Holds O Q g) (hg : I g) : S.Within cost 0 p := by
  induction p generalizing g with
  | ret x => exact .ret 0 x
  | throw e => exact .throw 0 e
  | act a k ih =>
    have hk (r : R a) : S.Within cost 0 (k r) := by
      obtain ⟨g', hg', hI⟩ := hnext g a r hg h.1
      exact ih r (h.2 r g' hg') hI
    exact zero_add (0 : M) ▸ (hallow g a hg h.1).bind hk

variable [IsOrderedAddMonoid M]

/-- What is visited costs no more than the bound. -/
theorem sum_le (h : S.Within cost n p) (hvisits : S.Visits p as p') : (as.map cost).sum ≤ n := by
  induction hvisits generalizing n with
  | refl => exact zero_le
  | step hstep _ ih =>
    obtain ⟨m, rfl, hm⟩ := h.of_step hstep
    rw [List.map_cons, List.sum_cons]
    exact add_le_add_right (ih hm) _

end Within

end

end Sem

end Callback
