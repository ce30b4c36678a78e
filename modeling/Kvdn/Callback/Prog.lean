import Mathlib.Data.Nat.Notation
import Mathlib.Logic.Function.Basic

/-!
# Programs of callbacks

A chain of asynchronous callbacks, `a.call(x, { r -> … })`, in which every call
answers its handler once, is a tree: at each node an *action*, with one subtree
for each answer it may get. `Prog` is this tree, over actions `A` whose answers
are `R a`; a leaf either returns a value or throws an exception.

Sequencing (`Prog.bind`) grafts the handler on the leaves, so a chain is written
in `do` notation, one line for each asynchronous call.
-/

namespace Callback

/-- A chain of callbacks over the actions `A`, answering in `R`, throwing `ε`. -/
inductive Prog {A : Type} (R : A → Type) (ε α : Type) : Type
  /-- The chain ends with the value `x`. -/
  | ret (x : α)
  /-- The chain is cut by the exception `e`. -/
  | throw (e : ε)
  /-- The action `a` is performed, and `k` handles its answer. -/
  | act (a : A) (k : R a → Prog R ε α)

namespace Prog

variable {A : Type} {R : A → Type} {ε α β γ : Type}

/-- Grafting `f` on the values a chain ends with. -/
def bind (p : Prog R ε α) (f : α → Prog R ε β) : Prog R ε β :=
  match p with
  | ret x => f x
  | throw e => throw e
  | act a k => act a fun r => (k r).bind f

instance : Monad (Prog R ε) where
  pure := ret
  bind := bind

/-- A single action, returning its answer. -/
def perform (a : A) : Prog R ε (R a) := act a ret

@[simp] theorem pure_eq (x : α) : (pure x : Prog R ε α) = ret x := rfl

@[simp] theorem bind_eq (p : Prog R ε α) (f : α → Prog R ε β) : p >>= f = p.bind f := rfl

@[simp] theorem ret_bind (x : α) (f : α → Prog R ε β) : (ret x : Prog R ε α).bind f = f x := rfl

@[simp] theorem throw_bind (e : ε) (f : α → Prog R ε β) :
    (throw e : Prog R ε α).bind f = throw e := rfl

@[simp] theorem act_bind (a : A) (k : R a → Prog R ε α) (f : α → Prog R ε β) :
    (act a k).bind f = act a fun r => (k r).bind f := rfl

@[simp] theorem perform_bind (a : A) (f : R a → Prog R ε β) :
    (perform a : Prog R ε (R a)).bind f = act a f := rfl

theorem bind_ret (p : Prog R ε α) : p.bind ret = p := by
  induction p with
  | ret x => rfl
  | throw e => rfl
  | act a k ih => exact congrArg (act a) (funext ih)

theorem bind_assoc (p : Prog R ε α) (f : α → Prog R ε β) (g : β → Prog R ε γ) :
    (p.bind f).bind g = p.bind fun x => (f x).bind g := by
  induction p with
  | ret x => rfl
  | throw e => rfl
  | act a k ih => exact congrArg (act a) (funext ih)

/-- The exceptions that `catches` tells are caught, as values. -/
def attempt (catches : ε → Bool) : Prog R ε α → Prog R ε (Except ε α)
  | ret x => ret (.ok x)
  | throw e => if catches e then ret (.error e) else throw e
  | act a k => act a fun r => (k r).attempt catches

/-- The value a finished chain has returned. -/
def value : Prog R ε α → Option α
  | ret x => some x
  | throw _ | act _ _ => none

theorem eq_ret_of_value {p : Prog R ε α} {x : α} (h : p.value = some x) : p = ret x := by
  cases p with
  | ret y => exact congrArg ret (Option.some.inj h)
  | throw e => exact nomatch h
  | act a k => exact nomatch h

/-- A chain that has come to its end, with a value or an exception. -/
def Finished : Prog R ε α → Prop
  | ret _ | throw _ => True
  | act _ _ => False

theorem finished_of_value {p : Prog R ε α} (h : p.value.isSome = true) : p.Finished := by
  cases p with
  | ret y => trivial
  | throw e => trivial
  | act a k => cases h

/-- What is left of a program once its next action has been answered. -/
inductive Next : Prog R ε α → Prog R ε α → Prop
  | act (a : A) (k : R a → Prog R ε α) (r : R a) : Next (act a k) (k r)

/-- A chain of callbacks is finite, whatever its actions answer. -/
theorem not_forall_next (f : ℕ → Prog R ε α) : ¬∀ n, (f n).Next (f (n + 1)) := by
  intro hf
  generalize hp : f 0 = p
  induction p generalizing f with
  | ret x => exact nomatch hp ▸ hf 0
  | throw e => exact nomatch hp ▸ hf 0
  | act a k ih =>
    have h0 := hf 0
    rw [hp] at h0
    generalize hq : f (0 + 1) = q at h0
    cases h0 with
    | act _ _ r => exact ih r (fun n => f (n + 1)) (fun n => hf (n + 1)) hq

end Prog

end Callback
