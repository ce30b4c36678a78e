import Kvdn.Callback.Semantics

/-!
# Proof outlines of callback programs

A *proof outline* annotates the points of a program: `γ` is the type of the
annotations, and an outline says which actions may be performed at a point, at
which points an action and its answer may lead, and at which points the program
may throw. A program is correct for the outline (`Prog.Holds`) if it follows it
along all its branches and ends at a point where the postcondition holds. For a
defined action, what the outline allows is a contract: its program has to be
shown correct once (`Outline.Verified`), and is never looked into by its callers.

An invariant relates the annotations to the state (and to the trace). If every
primitive action the outline allows keeps it, it holds throughout the runs of a
correct program (`Runs.holds`), and of any number of correct programs, however
they are interleaved (`Pool.holds`): there, the annotations of the others are
unchanged by a step, so that the invariant says all a program has to know about
the interference of the others.
-/

namespace Callback

variable {A : Type} {R : A → Type} {ε σ γ ι α β : Type}

/-- A proof outline: annotations `γ` and how the actions may move along them. -/
structure Outline (R : A → Type) (ε γ : Type) where
  /-- The actions that may be performed at a point. -/
  allow : γ → A → Prop
  /-- The points an action and its answer may lead to. -/
  next : γ → (a : A) → R a → γ → Prop
  /-- The exceptions that may be thrown at a point. -/
  throws : γ → ε → Prop

/-- A program follows the outline from the point `g` on, and ends at a point
    where the postcondition `Q` holds of its value. -/
def Prog.Holds (O : Outline R ε γ) (Q : γ → α → Prop) : Prog R ε α → γ → Prop
  | .ret x, g => Q g x
  | .throw e, g => O.throws g e
  | .act a k, g => O.allow g a ∧ ∀ r g', O.next g a r g' → (k r).Holds O Q g'

variable {O : Outline R ε γ} {Q Q' : γ → α → Prop} {g : γ}

namespace Prog

@[simp] theorem holds_ret {x : α} : (ret x : Prog R ε α).Holds O Q g ↔ Q g x := Iff.rfl

@[simp] theorem holds_throw {e : ε} : (throw e : Prog R ε α).Holds O Q g ↔ O.throws g e := Iff.rfl

@[simp] theorem holds_act {a : A} {k : R a → Prog R ε α} :
    (act a k).Holds O Q g ↔ O.allow g a ∧ ∀ r g', O.next g a r g' → (k r).Holds O Q g' := Iff.rfl

/-- The rule of consequence. -/
theorem Holds.mono {p : Prog R ε α} (h : p.Holds O Q g) (hQ : ∀ g x, Q g x → Q' g x) :
    p.Holds O Q' g := by
  induction p generalizing g with
  | ret x => exact hQ g x h
  | throw e => exact h
  | act a k ih => exact ⟨h.1, fun r g' hg' => ih r (h.2 r g' hg')⟩

/-- The rule of sequencing. -/
@[simp] theorem holds_bind {p : Prog R ε α} {f : α → Prog R ε β} {Q : γ → β → Prop} :
    (p.bind f).Holds O Q g ↔ p.Holds O (fun g x => (f x).Holds O Q g) g := by
  induction p generalizing g with
  | ret x => exact Iff.rfl
  | throw e => exact Iff.rfl
  | act a k ih =>
    exact and_congr_right fun _ => forall_congr' fun r => forall_congr' fun g' =>
      imp_congr_right fun _ => ih r

end Prog

/-- A program following an outline follows another one, if the points of the two can
    be related so that the first allows no more than the second, and a move of the
    second is one of the first. -/
theorem Prog.Holds.refine {γ' : Type} {O' : Outline R ε γ'} {Q' : γ' → α → Prop}
    (Rel : γ → γ' → Prop) (hallow : ∀ g g' a, Rel g g' → O.allow g a → O'.allow g' a)
    (hnext : ∀ g g' a r g₁', Rel g g' → O.allow g a → O'.next g' a r g₁' →
      ∃ g₁, O.next g a r g₁ ∧ Rel g₁ g₁')
    (hthrows : ∀ g g' e, Rel g g' → O.throws g e → O'.throws g' e)
    (hQ : ∀ g g' x, Rel g g' → Q g x → Q' g' x) {p : Prog R ε α} {g' : γ'}
    (h : p.Holds O Q g) (hrel : Rel g g') : p.Holds O' Q' g' := by
  induction p generalizing g g' with
  | ret x => exact hQ g g' x hrel h
  | throw e => exact hthrows g g' e hrel h
  | act a k ih =>
    refine ⟨hallow g g' a hrel h.1, fun r g₁' hg₁' => ?_⟩
    obtain ⟨g₁, hg₁, hrel₁⟩ := hnext g g' a r g₁' hrel h.1 hg₁'
    exact ih r (h.2 r g₁ hg₁) hrel₁

/-- The outline holds of the programs of the defined actions it allows. -/
def Outline.Verified (O : Outline R ε γ) (S : Sem R ε σ) : Prop :=
  ∀ a q, S.body a = some q → ∀ g, O.allow g a → q.Holds O (fun g' r => O.next g a r g') g

/-- Without defined actions, there is nothing to verify. -/
theorem Outline.verified_of_body {S : Sem R ε σ} (hb : ∀ a, S.body a = none) : O.Verified S :=
  fun a _ ha => by simp [hb a] at ha

theorem Outline.Verified.expand {S : Sem R ε σ} (hO : O.Verified S) {a : A}
    {q : Prog R ε (R a)} {k : R a → Prog R ε α} (hb : S.body a = some q)
    (h : (Prog.act a k).Holds O Q g) : (q.bind k).Holds O Q g :=
  Prog.holds_bind.2 ((hO a q hb g h.1).mono fun g' r hg' => h.2 r g' hg')

/-- The outline keeps the invariant `Inv`: whatever a primitive action it allows
    answers, it leads to a point where the invariant holds again. -/
def Outline.Keeps (O : Outline R ε γ) (S : Sem R ε σ)
    (Inv : List (Label R) → σ → γ → Prop) : Prop :=
  ∀ tr w g a r, Inv tr w g → S.body a = none → O.allow g a → S.ok w a r →
    ∃ g', O.next g a r g' ∧ Inv (tr ++ [⟨a, r⟩]) (S.eff w a r) g'

/-- The invariant holds along the runs of a program following the outline. -/
theorem Sem.Runs.holds {S : Sem R ε σ} {Inv : List (Label R) → σ → γ → Prop}
    (hO : O.Verified S) (hk : O.Keeps S Inv) {w w' : σ} {p p' : Prog R ε α}
    {t tr : List (Label R)} (h : S.Runs w p tr w' p') (hInv : Inv t w g)
    (hp : p.Holds O Q g) : ∃ g', Inv (t ++ tr) w' g' ∧ p'.Holds O Q g' := by
  induction h generalizing t g with
  | refl w p => exact ⟨g, by simpa using hInv, hp⟩
  | prim hb hok _ ih =>
    obtain ⟨g', hg', hInv'⟩ := hk _ _ _ _ _ hInv hb hp.1 hok
    obtain ⟨g'', hInv'', hp'⟩ := ih hInv' (hp.2 _ _ hg')
    exact ⟨g'', by simpa using hInv'', hp'⟩
  | body hb _ ih => exact ih hInv (hO.expand hb hp)

/-- The outlines of the programs of a pool keep the invariant `Inv`: the step of a
    program moves its own annotation only. -/
def Outline.KeepsPool [DecidableEq ι] (O : ι → Outline R ε γ) (S : Sem R ε σ)
    (Inv : List (ι × Label R) → σ → (ι → γ) → Prop) : Prop :=
  ∀ tr w (g : ι → γ) i a r, Inv tr w g → S.body a = none → (O i).allow (g i) a → S.ok w a r →
    ∃ g', (O i).next (g i) a r g' ∧
      Inv (tr ++ [(i, ⟨a, r⟩)]) (S.eff w a r) (Function.update g i g')

/-- The invariant holds in every interleaving of programs following the outlines. -/
theorem Sem.Pool.holds [DecidableEq ι] {O : ι → Outline R ε γ} {S : Sem R ε σ}
    {Inv : List (ι × Label R) → σ → (ι → γ) → Prop} (hO : ∀ i, (O i).Verified S)
    (hk : Outline.KeepsPool O S Inv) {w₀ w : σ} {ps₀ ps : ι → Prog R ε α}
    {tr : List (ι × Label R)} (h : S.Pool w₀ ps₀ tr w ps) {Q : ι → γ → α → Prop} {g₀ : ι → γ}
    (hInv : Inv [] w₀ g₀) (hp : ∀ i, (ps₀ i).Holds (O i) (Q i) (g₀ i)) :
    ∃ g, Inv tr w g ∧ ∀ i, (ps i).Holds (O i) (Q i) (g i) := by
  induction h with
  | init => exact ⟨g₀, hInv, hp⟩
  | prim i _ hi hb hok ih =>
    obtain ⟨g, hInv', hp'⟩ := ih
    have hact := hp' i
    rw [hi] at hact
    obtain ⟨g', hg', hInv''⟩ := hk _ _ _ i _ _ hInv' hb hact.1 hok
    refine ⟨Function.update g i g', hInv'', fun j => ?_⟩
    by_cases hj : j = i
    · subst hj
      simpa using hact.2 _ _ hg'
    · simpa [hj] using hp' j
  | body i _ hi hb ih =>
    obtain ⟨g, hInv', hp'⟩ := ih
    refine ⟨g, hInv', fun j => ?_⟩
    by_cases hj : j = i
    · subst hj
      have hact := hp' j
      rw [hi] at hact
      simpa using (hO j).expand hb hact
    · simpa [hj] using hp' j

/-- What a program keeps of its own trace holds in every interleaving. -/
theorem Sem.Pool.holds_own [DecidableEq ι] {O : ι → Outline R ε γ} {S : Sem R ε σ}
    {I : ι → List (Label R) → γ → Prop} (hO : ∀ i, (O i).Verified S)
    (hk : ∀ i, (O i).Keeps S fun tr _ g => I i tr g) {w₀ w : σ} {ps₀ ps : ι → Prog R ε α}
    {tr : List (ι × Label R)} (h : S.Pool w₀ ps₀ tr w ps) {Q : ι → γ → α → Prop} (g₀ : ι → γ)
    (hI : ∀ i, I i [] (g₀ i)) (hp : ∀ i, (ps₀ i).Holds (O i) (Q i) (g₀ i)) (i : ι) :
    ∃ g, I i (Sem.own i tr) g ∧ (ps i).Holds (O i) (Q i) g := by
  have hkeeps : Outline.KeepsPool O S fun tr _ g => ∀ i, I i (Sem.own i tr) (g i) := by
    intro tr w g i a r hInv hb ha hok
    obtain ⟨g', hg', hI'⟩ := hk i _ w (g i) a r (hInv i) hb ha hok
    refine ⟨g', hg', fun j => ?_⟩
    by_cases hj : j = i
    · subst hj
      rwa [Sem.own_append, Sem.own_self, Function.update_self]
    · rw [Sem.own_append, Sem.own_of_ne (Ne.symm hj), List.append_nil, Function.update_of_ne hj]
      exact hInv j
  obtain ⟨g, hInv, hps⟩ := h.holds hO hkeeps hI hp
  exact ⟨g i, hInv i, hps i⟩

/-- A program of a pool follows its outline, whatever the others do, if the outline
    expects nothing but what the answers tell. -/
theorem Sem.Pool.holds_one [DecidableEq ι] {O : Outline R ε γ} {S : Sem R ε σ} (hO : O.Verified S)
    (hk : O.Keeps S fun _ _ _ => True) {w₀ w : σ} {ps₀ ps : ι → Prog R ε α}
    {tr : List (ι × Label R)} (h : S.Pool w₀ ps₀ tr w ps) {i : ι} (hp : (ps₀ i).Holds O Q g) :
    ∃ g', (ps i).Holds O Q g' := by
  induction h with
  | init => exact ⟨g, hp⟩
  | @prim tr w ps j a r k _ hj hb hok ih =>
    obtain ⟨g', hp'⟩ := ih
    by_cases hij : i = j
    · subst hij
      rw [hj] at hp'
      obtain ⟨g'', hg'', -⟩ := hk [] w g' a r trivial hb hp'.1 hok
      rw [Function.update_self]
      exact ⟨g'', hp'.2 r g'' hg''⟩
    · rw [Function.update_of_ne hij]
      exact ⟨g', hp'⟩
  | body j _ hj hb ih =>
    obtain ⟨g', hp'⟩ := ih
    by_cases hij : i = j
    · subst hij
      rw [hj] at hp'
      rw [Function.update_self]
      exact ⟨g', hO.expand hb hp'⟩
    · rw [Function.update_of_ne hij]
      exact ⟨g', hp'⟩

end Callback
