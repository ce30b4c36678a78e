import Kvdn.Callback.Bound
import Mathlib.Algebra.BigOperators.Group.Finset.Piecewise
import Mathlib.Algebra.Order.BigOperators.Group.Finset
import Mathlib.Algebra.Order.Ring.Nat
import Mathlib.Data.Fintype.Basic

/-!
# Termination of pools

The steps of a pool, of which any program may take the next one (`Sem.PoolStep`). If every
program is bounded, then so are the runs of the pool, whoever takes the steps: they have no
more of them than the bounds together (`Within.length_le`). A run that cannot be continued
has brought every program to its end (`finished_of_stuck`), if every action may be answered.

A program is bounded if it follows an outline whose points have a rank, of which a step
takes away at least what it costs (`Within.of_rank`).
-/

namespace Callback

variable {A : Type} {R : A → Type} {ε σ γ ι α : Type}

namespace Sem

open Prog

variable {S : Sem R ε σ}

/-! ## Ranks -/

/-- A program following an outline costs no more than the rank of its point, if every step
    allowed costs no more than what it takes away from the rank. -/
theorem Within.of_rank {O : Outline R ε γ} {Q : γ → α → Prop} {cost : A → ℕ} {I : γ → Prop}
    (rank : γ → ℕ)
    (hstep : ∀ g a, I g → O.allow g a → ∃ n ≤ rank g, S.Within cost n (perform a) ∧
      ∀ r, ∃ g', O.next g a r g' ∧ I g' ∧ n + rank g' ≤ rank g)
    {p : Prog R ε α} {g : γ} (h : p.Holds O Q g) (hg : I g) : S.Within cost (rank g) p := by
  induction p generalizing g with
  | ret x => exact .ret _ x
  | throw e => exact .throw _ e
  | act a k ih =>
    obtain ⟨n, hn, hwithin, hrank⟩ := hstep g a hg h.1
    have hk (r : R a) : S.Within cost (rank g - n) (k r) := by
      obtain ⟨g', hnext, hg', hle⟩ := hrank r
      exact (ih r (h.2 r g' hnext) hg').mono (Nat.le_sub_of_add_le' hle)
    exact (hwithin.bind hk).mono (Nat.add_sub_of_le hn).le

/-! ## Pools -/

section

variable [DecidableEq ι]

variable (S) in
/-- A step of a pool: a program performs its next action, or expands it. -/
inductive PoolStep : σ × (ι → Prog R ε α) → σ × (ι → Prog R ε α) → Prop
  | prim {w : σ} {ps : ι → Prog R ε α} (i : ι) {a : A} {r : R a} {k : R a → Prog R ε α} :
      ps i = act a k → S.body a = none → S.ok w a r →
      PoolStep (w, ps) (S.eff w a r, Function.update ps i (k r))
  | body {w : σ} {ps : ι → Prog R ε α} (i : ι) {a : A} {q : Prog R ε (R a)}
      {k : R a → Prog R ε α} : ps i = act a k → S.body a = some q →
      PoolStep (w, ps) (w, Function.update ps i (q.bind k))

/-- A step of a pool is one of a program. -/
theorem PoolStep.exists_step {s s' : σ × (ι → Prog R ε α)} (h : S.PoolStep s s') :
    ∃ i a q, S.Step (s.2 i) a q ∧ s'.2 = Function.update s.2 i q := by
  cases h with
  | @prim w ps i a r k hi hb hok =>
    refine ⟨i, a, k r, ?_, rfl⟩
    show S.Step (ps i) a (k r)
    rw [hi]
    exact .prim hb hok
  | @body w ps i a q k hi hb =>
    refine ⟨i, a, q.bind k, ?_, rfl⟩
    show S.Step (ps i) a (q.bind k)
    rw [hi]
    exact .body hb

/-- A pool takes no more steps than its programs are bounded by. -/
theorem Within.length_le [Fintype ι] {bound : ι → ℕ} {f : ℕ → σ × (ι → Prog R ε α)} {n : ℕ}
    (hbound : ∀ i, S.Within (fun _ => 1) (bound i) ((f 0).2 i))
    (hsteps : ∀ m < n, S.PoolStep (f m) (f (m + 1))) : n ≤ ∑ i, bound i := by
  induction n generalizing f bound with
  | zero => exact Nat.zero_le _
  | succ n ih =>
    obtain ⟨i, a, q, hstep, hps⟩ := (hsteps 0 n.succ_pos).exists_step
    obtain ⟨m, hm, hq⟩ := (hbound i).of_step hstep
    have hrest : n ≤ ∑ j, Function.update bound i m j := by
      refine ih (f := fun m => f (m + 1)) (fun j => ?_)
        fun m hm => hsteps (m + 1) (Nat.succ_lt_succ hm)
      rw [hps]
      by_cases hj : j = i
      · subst hj
        rwa [Function.update_self, Function.update_self]
      · rw [Function.update_of_ne hj, Function.update_of_ne hj]
        exact hbound j
    -- one of the bounds has become less by one
    have hsum := Finset.sum_update_of_mem (Finset.mem_univ i) bound m
    have hsum' := Finset.add_sum_erase Finset.univ bound (Finset.mem_univ i)
    rw [← Finset.sdiff_singleton_eq_erase] at hsum'
    omega

/-- A pool that cannot take a step has brought its programs to their ends. -/
theorem finished_of_stuck (hok : ∀ w a, S.body a = none → ∃ r, S.ok w a r)
    {s : σ × (ι → Prog R ε α)} (h : ∀ s', ¬ S.PoolStep s s') (i : ι) : (s.2 i).Finished := by
  obtain ⟨w, ps⟩ := s
  show (ps i).Finished
  cases hi : ps i with
  | ret x => trivial
  | throw e => trivial
  | act a k =>
    cases hb : S.body a with
    | some q => exact absurd (.body i hi hb) (h _)
    | none =>
      obtain ⟨r, hr⟩ := hok w a hb
      exact absurd (.prim i hi hb hr) (h _)

/-- A pool whose programs have all come to their ends cannot take a step. -/
theorem not_poolStep_of_finished {s : σ × (ι → Prog R ε α)} (h : ∀ i, (s.2 i).Finished)
    (s' : σ × (ι → Prog R ε α)) : ¬ S.PoolStep s s' := by
  intro hstep
  have hi {i : ι} {a : A} {k : R a → Prog R ε α} (hi : s.2 i = act a k) : False := by
    have hfinished := h i
    rw [hi] at hfinished
    exact hfinished
  cases hstep with
  | prim i heq | body i heq => exact hi heq

variable (S) in
/-- The programs named in a schedule have not come to their ends yet when it is their turn. -/
def busy (pick : σ → (a : A) → R a) : List ι →
    List (ι × Label R) × σ × (ι → Prog R ε α) → Bool
  | [], _ => true
  | i :: is, s =>
    match s.2.2 i with
    | act _ _ => busy pick is (S.schedule pick [i] s)
    | _ => false

theorem schedule_cons {pick : σ → (a : A) → R a} (i : ι) (is : List ι)
    (s : List (ι × Label R) × σ × (ι → Prog R ε α)) :
    S.schedule pick (i :: is) s = S.schedule pick is (S.schedule pick [i] s) := by
  obtain ⟨tr, w, ps⟩ := s
  cases hi : ps i with
  | ret x => simp [schedule, hi]
  | throw e => simp [schedule, hi]
  | act a k => cases hb : S.body a <;> simp [schedule, hi, hb]

/-- A schedule is a run, step by step. -/
theorem poolStep_of_busy {pick : σ → (a : A) → R a} (hpick : ∀ w a, S.ok w a (pick w a))
    {is : List ι} {s : List (ι × Label R) × σ × (ι → Prog R ε α)}
    (h : S.busy pick is s = true) {m : ℕ} (hm : m < is.length) :
    S.PoolStep (S.schedule pick (is.take m) s).2 (S.schedule pick (is.take (m + 1)) s).2 := by
  induction is generalizing s m with
  | nil => exact absurd hm (Nat.not_lt_zero m)
  | cons i is ih =>
    obtain ⟨tr, w, ps⟩ := s
    cases hi : ps i with
    | ret x => simp [busy, hi] at h
    | throw e => simp [busy, hi] at h
    | act a k =>
      simp only [busy, hi] at h
      cases m with
      | zero =>
        cases hb : S.body a with
        | some q => simpa [schedule, hi, hb] using PoolStep.body i hi hb
        | none => simpa [schedule, hi, hb] using PoolStep.prim i hi hb (hpick w a)
      | succ m =>
        rw [List.take_succ_cons, List.take_succ_cons, schedule_cons i (is.take m),
          schedule_cons i (is.take (m + 1))]
        exact ih h (Nat.lt_of_succ_lt_succ hm)

end

end Sem

end Callback
