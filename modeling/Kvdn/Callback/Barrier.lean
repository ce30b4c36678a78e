import Kvdn.Callback.Outline
import Mathlib.Data.List.Induction

/-!
# Barriers

Programs that write, flush what they have written, and acknowledge (`Barrier`): what
an acknowledgement comes after has to be flushed (`Barrier.Acks`). Whether everything is
flushed, is the annotation of the outline; a defined action may leave more flushed than
it has to, as when it has its own barrier.

The programs that follow the outline flush what they acknowledge, in all
interleavings (`acks_of_pool`).
-/

namespace Callback

variable {A : Type} {R : A → Type} {ε σ ι α : Type}

/-- The actions that write, flush and acknowledge. -/
structure Barrier (A : Type) where
  writes : A → Bool
  flushes : A → Bool
  acks : A → Bool

namespace Barrier

variable (B : Barrier A)

/-- Whether everything is flushed after an action. -/
def step (flushed : Bool) (a : A) : Bool := (B.flushes a || flushed) && !B.writes a

/-- Every write of a trace is followed by a flush. -/
def Flushed (tr : List (Label R)) : Prop :=
  ∀ tr₁ l tr₂, tr = tr₁ ++ l :: tr₂ → B.writes l.1 = true → ∃ l' ∈ tr₂, B.flushes l'.1 = true

/-- Every write of a trace is flushed before an acknowledgement that comes after it. -/
def Acks (tr : List (Label R)) : Prop :=
  ∀ tr₁ l tr₂, tr = tr₁ ++ l :: tr₂ → B.acks l.1 = true → B.Flushed tr₁

/-- The outline of a program that flushes what it acknowledges. -/
def outline (permits : A → Prop) (known : (a : A) → R a → Prop) : Outline R ε Bool where
  allow flushed a := permits a ∧ (B.acks a = true → flushed = true)
  next flushed a r flushed' := known a r ∧ (B.step flushed a = true → flushed' = true)
  throws _ _ := True

variable {B} {tr : List (Label R)} {l : Label R} {flushed : Bool} {a : A}

theorem step_of_flushes (ha : B.flushes a = true) (hw : B.writes a = false) :
    B.step flushed a = true := by simp [step, ha, hw]

theorem step_of_not_writes (hw : B.writes a = false) (h : flushed = true) :
    B.step flushed a = true := by simp [step, h, hw]

/-- A trace is still flushed after an action that does not write, and is flushed by one
    that flushes. -/
theorem Flushed.snoc (h : B.flushes l.1 = false → B.Flushed tr) (hl : B.writes l.1 = false) :
    B.Flushed (tr ++ [l]) := by
  intro tr₁ l' tr₂ htr hw
  rcases List.eq_nil_or_concat tr₂ with rfl | ⟨tr₃, l'', rfl⟩
  · obtain ⟨-, heq⟩ := List.append_inj' htr rfl
    obtain rfl := List.singleton_inj.1 heq
    exact nomatch hl.symm.trans hw
  · rw [List.concat_eq_append, ← List.cons_append, ← List.append_assoc] at htr
    obtain ⟨hinit, heq⟩ := List.append_inj' htr rfl
    obtain rfl := List.singleton_inj.1 heq
    cases hflush : B.flushes l.1 with
    | true => exact ⟨l, by simp, hflush⟩
    | false =>
      obtain ⟨l', hl', hf⟩ := h hflush tr₁ l' tr₃ hinit hw
      exact ⟨l', by simp [hl'], hf⟩

theorem Acks.snoc (h : B.Acks tr) (hl : B.acks l.1 = true → B.Flushed tr) : B.Acks (tr ++ [l]) := by
  intro tr₁ l' tr₂ htr hack
  rcases List.eq_nil_or_concat tr₂ with rfl | ⟨tr₃, l'', rfl⟩
  · obtain ⟨rfl, heq⟩ := List.append_inj' htr rfl
    obtain rfl := List.singleton_inj.1 heq
    exact hl hack
  · rw [List.concat_eq_append, ← List.cons_append, ← List.append_assoc] at htr
    exact h tr₁ l' tr₃ (List.append_inj' htr rfl).1 hack

/-- The annotation tells the truth after a step. -/
theorem flushed_snoc (h : flushed = true → B.Flushed tr) (hstep : B.step flushed l.1 = true) :
    B.Flushed (tr ++ [l]) := by
  simp only [step, Bool.and_eq_true, Bool.or_eq_true, Bool.not_eq_true'] at hstep
  obtain ⟨hflush, hw⟩ := hstep
  refine Flushed.snoc (fun hnot => h ?_) hw
  exact hflush.resolve_left (Bool.eq_false_iff.1 hnot)

/-- The programs of a pool that follow the outline flush what they acknowledge. -/
theorem acks_of_pool [DecidableEq ι] {S : Sem R ε σ} {permits : ι → A → Prop}
    {known : (a : A) → R a → Prop} {Q : ι → Bool → α → Prop}
    (hverified : ∀ i, (B.outline (permits i) known : Outline R ε _).Verified S)
    (hknown : ∀ w a r, S.body a = none → S.ok w a r → known a r) {w₀ w : σ}
    {ps₀ ps : ι → Prog R ε α} {tr : List (ι × Label R)} (h : S.Pool w₀ ps₀ tr w ps)
    (hp : ∀ i, (ps₀ i).Holds (B.outline (permits i) known) (Q i) true) (i : ι) :
    B.Acks (Sem.own i tr) := by
  have hkeeps (i : ι) : (B.outline (permits i) known : Outline R ε _).Keeps S
      fun tr _ flushed => B.Acks tr ∧ (flushed = true → B.Flushed tr) := by
    rintro tr w flushed a r ⟨hacks, hflushed⟩ hb ha hok
    exact ⟨_, ⟨hknown w a r hb hok, id⟩, hacks.snoc fun hack => hflushed (ha.2 hack),
      flushed_snoc (l := ⟨a, r⟩) hflushed⟩
  obtain ⟨flushed, ⟨hacks, -⟩, -⟩ := h.holds_own hverified hkeeps (fun _ => true)
    (fun i => ⟨fun tr₁ l tr₂ htr => by simp at htr, fun _ tr₁ l tr₂ htr => by simp at htr⟩) hp i
  exact hacks

end Barrier

end Callback
