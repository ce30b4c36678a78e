import Kvdn.Callback.Prog

/-!
# Runs of callback programs

A semantics (`Sem`) says, for every action, either which answers it may get in a
state and what it does to the state (a *primitive* action, taking effect at one
instant), or which program it stands for (a *defined* action, expanded when it
is reached). The environment is in the choice of the answers: a call that may
fail is one that may answer a failure.

* `Sem.Runs`: a program running alone, with the trace of the primitive actions
  it performed and their answers;
* `Sem.Pool`: any number of programs over one state, any of which may take the
  next step: all the interleavings of their callbacks;
* `Sem.restrict`: the same semantics, where the steps meet a condition;
* `Sem.eval`, `Sem.schedule`: the evaluation of one run, given the answers (and
  the schedule), which are runs (`runs_of_eval`, `pool_schedule`).
-/

namespace Callback

variable {A : Type} {R : A → Type} {ε σ ι α β : Type}

/-- A primitive action performed, with the answer it got. -/
abbrev Label (R : A → Type) := Σ a, R a

/-- A semantics of the actions over the states `σ`. -/
structure Sem (R : A → Type) (ε σ : Type) where
  /-- The answers a primitive action may get in a state. -/
  ok : σ → (a : A) → R a → Prop
  /-- The state after a primitive action got an answer. -/
  eff : σ → (a : A) → R a → σ
  /-- The program a defined action stands for. -/
  body : (a : A) → Option (Prog R ε (R a))

namespace Sem

open Prog

variable (S : Sem R ε σ)

/-- The runs whose primitive steps all meet the condition `P`. -/
def restrict (P : σ → (a : A) → R a → Prop) : Sem R ε σ where
  ok w a r := S.ok w a r ∧ P w a r
  eff := S.eff
  body := S.body

@[simp] theorem restrict_eff (P : σ → (a : A) → R a → Prop) : (S.restrict P).eff = S.eff := rfl

@[simp] theorem restrict_body (P : σ → (a : A) → R a → Prop) : (S.restrict P).body = S.body := rfl

/-! ## A program alone -/

/-- `S.Runs w p tr w' p'`: from the state `w`, the program `p` may perform `tr`,
    leaving the state `w'` and the rest `p'` of the program. -/
inductive Runs : σ → Prog R ε α → List (Label R) → σ → Prog R ε α → Prop
  | refl (w : σ) (p : Prog R ε α) : Runs w p [] w p
  | prim {w w' : σ} {a : A} {r : R a} {k : R a → Prog R ε α} {tr : List (Label R)}
      {p' : Prog R ε α} : S.body a = none → S.ok w a r → Runs (S.eff w a r) (k r) tr w' p' →
      Runs w (act a k) (⟨a, r⟩ :: tr) w' p'
  | body {w w' : σ} {a : A} {q : Prog R ε (R a)} {k : R a → Prog R ε α} {tr : List (Label R)}
      {p' : Prog R ε α} : S.body a = some q → Runs w (q.bind k) tr w' p' →
      Runs w (act a k) tr w' p'

variable {S}

theorem Runs.trans {w w' w'' : σ} {p p' p'' : Prog R ε α} {tr tr' : List (Label R)}
    (h : S.Runs w p tr w' p') (h' : S.Runs w' p' tr' w'' p'') :
    S.Runs w p (tr ++ tr') w'' p'' := by
  induction h with
  | refl => exact h'
  | prim hb hok _ ih => exact .prim hb hok (ih h')
  | body hb _ ih => exact .body hb (ih h')

/-- A program runs the same with a handler grafted on it. -/
theorem Runs.bind {w w' : σ} {p p' : Prog R ε α} {tr : List (Label R)} (f : α → Prog R ε β)
    (h : S.Runs w p tr w' p') : S.Runs w (p.bind f) tr w' (p'.bind f) := by
  induction h with
  | refl => exact .refl ..
  | prim hb hok _ ih => exact .prim hb hok ih
  | body hb _ ih => exact .body hb (by rw [← bind_assoc]; exact ih)

/-- A run to a value, then a run of the handler on it. -/
theorem Runs.bind_ret {w w' w'' : σ} {p : Prog R ε α} {x : α} {f : α → Prog R ε β}
    {q : Prog R ε β} {tr tr' : List (Label R)} (h : S.Runs w p tr w' (ret x))
    (h' : S.Runs w' (f x) tr' w'' q) : S.Runs w (p.bind f) (tr ++ tr') w'' q :=
  (h.bind f).trans h'

theorem Runs.of_restrict {P : σ → (a : A) → R a → Prop} {w w' : σ} {p p' : Prog R ε α}
    {tr : List (Label R)} (h : (S.restrict P).Runs w p tr w' p') : S.Runs w p tr w' p' := by
  induction h with
  | refl => exact .refl ..
  | prim hb hok _ ih => exact .prim hb hok.1 ih
  | body hb _ ih => exact .body hb ih

/-- A finished program does not run further. -/
theorem Runs.of_finished {w w' : σ} {p p' : Prog R ε α} {tr : List (Label R)} (hp : p.Finished)
    (h : S.Runs w p tr w' p') : tr = [] ∧ w' = w ∧ p' = p := by
  cases h with
  | refl => exact ⟨rfl, rfl, rfl⟩
  | prim => exact hp.elim
  | body => exact hp.elim

theorem Runs.of_ret {w w' : σ} {x : α} {p : Prog R ε α} {tr : List (Label R)}
    (h : S.Runs w (ret x) tr w' p) : tr = [] ∧ w' = w ∧ p = ret x := h.of_finished trivial

theorem Runs.of_throw {w w' : σ} {e : ε} {p : Prog R ε α} {tr : List (Label R)}
    (h : S.Runs w (.throw e) tr w' p) : tr = [] ∧ w' = w ∧ p = .throw e := h.of_finished trivial

/-- A run to the end goes through the first action of the program. -/
theorem Runs.of_act {w w' : σ} {a : A} {k : R a → Prog R ε α} {tr : List (Label R)}
    {p : Prog R ε α} (hb : S.body a = none) (h : S.Runs w (act a k) tr w' p) (hp : p.Finished) :
    ∃ r tr', tr = ⟨a, r⟩ :: tr' ∧ S.ok w a r ∧ S.Runs (S.eff w a r) (k r) tr' w' p := by
  cases h with
  | refl => exact hp.elim
  | prim _ hok h => exact ⟨_, _, rfl, hok, h⟩
  | body hb' => exact nomatch hb.symm.trans hb'

/-- A run to the end of a program with a handler goes through the end of the program. -/
theorem Runs.of_bind {w w' : σ} {p : Prog R ε α} {f : α → Prog R ε β} {tr : List (Label R)}
    {y : β} (h : S.Runs w (p.bind f) tr w' (ret y)) : ∃ tr₁ w₁ x tr₂,
      tr = tr₁ ++ tr₂ ∧ S.Runs w p tr₁ w₁ (ret x) ∧ S.Runs w₁ (f x) tr₂ w' (ret y) := by
  generalize hq : p.bind f = q at h
  generalize hend : ret y = q' at h
  induction h generalizing p with
  | refl w q =>
    subst hend
    cases p with
    | ret x => exact ⟨[], w, x, [], rfl, .refl .., hq ▸ .refl ..⟩
    | throw e => cases hq
    | act a k => cases hq
  | @prim w w' a r k tr q' hb hok hruns ih =>
    cases p with
    | ret x =>
      subst hend
      rw [ret_bind] at hq
      exact ⟨[], w, x, _, rfl, .refl .., hq ▸ .prim hb hok hruns⟩
    | throw e => cases hq
    | act a' k' =>
      cases hq
      obtain ⟨tr₁, w₁, x, tr₂, rfl, h₁, h₂⟩ := ih rfl hend
      exact ⟨_, w₁, x, tr₂, rfl, .prim hb hok h₁, h₂⟩
  | @body w w' a q k tr q' hb hruns ih =>
    cases p with
    | ret x =>
      subst hend
      rw [ret_bind] at hq
      exact ⟨[], w, x, _, rfl, .refl .., hq ▸ .body hb hruns⟩
    | throw e => cases hq
    | act a' k' =>
      cases hq
      obtain ⟨tr₁, w₁, x, tr₂, rfl, h₁, h₂⟩ := ih (bind_assoc q k' f) hend
      exact ⟨tr₁, w₁, x, tr₂, rfl, .body hb h₁, h₂⟩

/-! ## Interleavings -/

variable [DecidableEq ι]

/-- The steps of the program `i` in the trace of a pool. -/
def own (i : ι) (tr : List (ι × Label R)) : List (Label R) :=
  tr.filterMap fun e => if e.1 = i then some e.2 else none

@[simp] theorem own_nil (i : ι) : own i ([] : List (ι × Label R)) = [] := rfl

@[simp] theorem own_append (i : ι) (tr tr' : List (ι × Label R)) :
    own i (tr ++ tr') = own i tr ++ own i tr' := List.filterMap_append ..

@[simp] theorem own_self (i : ι) (l : Label R) : own i [(i, l)] = [l] := by simp [own]

theorem own_of_ne {i j : ι} (h : j ≠ i) (l : Label R) : own i [(j, l)] = [] := by simp [own, h]

variable (S) in
/-- The pool of the programs `ps₀`, starting from the state `w₀`: its reachable
    states, with the trace of the actions performed and by whom. -/
inductive Pool (w₀ : σ) (ps₀ : ι → Prog R ε α) :
    List (ι × Label R) → σ → (ι → Prog R ε α) → Prop
  | init : Pool w₀ ps₀ [] w₀ ps₀
  | prim {tr : List (ι × Label R)} {w : σ} {ps : ι → Prog R ε α} (i : ι) {a : A} {r : R a}
      {k : R a → Prog R ε α} : Pool w₀ ps₀ tr w ps → ps i = act a k → S.body a = none →
      S.ok w a r → Pool w₀ ps₀ (tr ++ [(i, ⟨a, r⟩)]) (S.eff w a r) (Function.update ps i (k r))
  | body {tr : List (ι × Label R)} {w : σ} {ps : ι → Prog R ε α} (i : ι) {a : A}
      {q : Prog R ε (R a)} {k : R a → Prog R ε α} : Pool w₀ ps₀ tr w ps → ps i = act a k →
      S.body a = some q → Pool w₀ ps₀ tr w (Function.update ps i (q.bind k))

/-- The steps of a pool are primitive. -/
theorem Pool.body_eq_none {w₀ w : σ} {ps₀ ps : ι → Prog R ε α} {tr : List (ι × Label R)}
    (h : S.Pool w₀ ps₀ tr w ps) {l : ι × Label R} (hl : l ∈ tr) : S.body l.2.1 = none := by
  induction h with
  | init => exact nomatch hl
  | prim i _ hi hb hok ih =>
    rcases List.mem_append.1 hl with hl | hl
    · exact ih hl
    · exact List.mem_singleton.1 hl ▸ hb
  | body i _ hi hb ih => exact ih hl

/-- A program of a pool runs on, while the others wait. -/
theorem Pool.runs {w₀ w w' : σ} {ps₀ ps : ι → Prog R ε α} {tr : List (ι × Label R)}
    (h : S.Pool w₀ ps₀ tr w ps) {i : ι} {p p' : Prog R ε α} {t : List (Label R)}
    (hruns : S.Runs w p t w' p') (hi : ps i = p) :
    S.Pool w₀ ps₀ (tr ++ t.map (i, ·)) w' (Function.update ps i p') := by
  induction hruns generalizing tr ps with
  | refl =>
    subst hi
    simpa using h
  | prim hb hok _ ih =>
    have hpool := ih (.prim i h hi hb hok) (Function.update_self ..)
    simpa using hpool
  | body hb _ ih =>
    have hpool := ih (.body i h hi hb) (Function.update_self ..)
    simpa using hpool

/-- A pool with one program more, which has not started yet. -/
theorem Pool.extend {w₀ w : σ} {ps₀ ps : ι → Prog R ε α} {tr : List (ι × Label R)}
    (h : S.Pool w₀ ps₀ tr w ps) (q : Prog R ε α) :
    S.Pool w₀ (fun i => i.elim q ps₀) (tr.map fun e => (some e.1, e.2)) w
      (fun i => i.elim q ps) := by
  have hupdate (ps : ι → Prog R ε α) (i : ι) (p : Prog R ε α) :
      (fun j : Option ι => j.elim q (Function.update ps i p)) =
        Function.update (fun j : Option ι => j.elim q ps) (some i) p := by
    funext j
    cases j with
    | none => rfl
    | some j =>
      by_cases hj : j = i
      · subst hj
        simp
      · simp [hj]
  induction h with
  | init => exact .init
  | prim i _ hi hb hok ih =>
    rw [hupdate, List.map_append]
    exact .prim (some i) ih hi hb hok
  | body i _ hi hb ih =>
    rw [hupdate]
    exact .body (some i) ih hi hb

/-! ## Evaluation -/

variable (S)

/-- The run of `p` in which every primitive action gets the answer `pick` gives,
    for at most `n` steps: the trace, the last state and the value returned. -/
def eval (pick : σ → (a : A) → R a) : ℕ → σ → Prog R ε α → Option (List (Label R) × σ × α)
  | 0, _, _ => none
  | _ + 1, w, ret x => some ([], w, x)
  | _ + 1, _, .throw _ => none
  | n + 1, w, act a k =>
    match S.body a with
    | some q => eval pick n w (q.bind k)
    | none => (eval pick n (S.eff w a (pick w a)) (k (pick w a))).map fun (tr, w', x) =>
        (⟨a, pick w a⟩ :: tr, w', x)

variable {S}

theorem runs_of_eval {pick : σ → (a : A) → R a} (hpick : ∀ w a, S.ok w a (pick w a)) {n : ℕ}
    {w w' : σ} {p : Prog R ε α} {tr : List (Label R)} {x : α}
    (h : S.eval pick n w p = some (tr, w', x)) : S.Runs w p tr w' (ret x) := by
  induction n generalizing w p tr with
  | zero => simp [eval] at h
  | succ n ih =>
    match p with
    | ret y =>
      simp only [eval, Option.some.injEq, Prod.mk.injEq] at h
      obtain ⟨rfl, rfl, rfl⟩ := h
      exact .refl ..
    | .throw e => simp [eval] at h
    | act a k =>
      cases hb : S.body a with
      | some q =>
        simp only [eval, hb] at h
        exact .body hb (ih h)
      | none =>
        simp only [eval, hb, Option.map_eq_some_iff] at h
        obtain ⟨⟨tr', w'', y⟩, h', heq⟩ := h
        simp only [Prod.mk.injEq] at heq
        obtain ⟨rfl, rfl, rfl⟩ := heq
        exact .prim hb (hpick w a) (ih h')

variable (S) in
/-- The state in which a program ends, every action getting the answer `pick` gives, and
    none of them being defined. -/
def exec (pick : σ → (a : A) → R a) : Prog R ε α → σ → σ
  | ret _, w | .throw _, w => w
  | act a k, w => exec pick (k (pick w a)) (S.eff w a (pick w a))

/-- A handler that leaves the state as it is. -/
theorem exec_bind {pick : σ → (a : A) → R a} {f : α → Prog R ε β}
    (hf : ∀ x w, S.exec pick (f x) w = w) (p : Prog R ε α) (w : σ) :
    S.exec pick (p.bind f) w = S.exec pick p w := by
  induction p generalizing w with
  | ret x => exact hf x w
  | throw e => rfl
  | act a k ih => exact ih _ _

theorem exec_attempt {pick : σ → (a : A) → R a} (catches : ε → Bool) (p : Prog R ε α) (w : σ) :
    S.exec pick (p.attempt catches) w = S.exec pick p w := by
  induction p generalizing w with
  | ret x => rfl
  | throw e =>
    rw [attempt]
    split <;> rfl
  | act a k ih => exact ih _ _

/-- The runs with these answers end in this state. -/
theorem Runs.exec_eq {pick : σ → (a : A) → R a} (hb : ∀ a, S.body a = none) {w w' : σ}
    {p p' : Prog R ε α} {tr : List (Label R)}
    (h : (S.restrict fun w a r => r = pick w a).Runs w p tr w' p') :
    S.exec pick p w = S.exec pick p' w' := by
  induction h with
  | refl => rfl
  | prim _ hok _ ih =>
    obtain ⟨-, rfl⟩ := hok
    exact ih
  | body hb' => exact nomatch (hb _).symm.trans hb'

/-- If these answers are possible, there is such a run. -/
theorem exists_runs_exec {pick : σ → (a : A) → R a} (hb : ∀ a, S.body a = none)
    (hpick : ∀ w a, S.ok w a (pick w a)) (p : Prog R ε α) (w : σ) : ∃ tr p',
      p'.Finished ∧ (S.restrict fun w a r => r = pick w a).Runs w p tr (S.exec pick p w) p' := by
  induction p generalizing w with
  | ret x => exact ⟨[], ret x, trivial, .refl ..⟩
  | throw e => exact ⟨[], .throw e, trivial, .refl ..⟩
  | act a k ih =>
    obtain ⟨tr, p', hp', h⟩ := ih (pick w a) (S.eff w a (pick w a))
    exact ⟨_, p', hp', .prim (hb a) ⟨hpick w a, rfl⟩ h⟩

variable (S) in
/-- The interleaving in which the programs named in turn in the list take the
    next step, every primitive action getting the answer `pick` gives. -/
def schedule (pick : σ → (a : A) → R a) : List ι →
    List (ι × Label R) × σ × (ι → Prog R ε α) → List (ι × Label R) × σ × (ι → Prog R ε α)
  | [], s => s
  | i :: is, (tr, w, ps) =>
    match ps i with
    | act a k =>
      match S.body a with
      | some q => schedule pick is (tr, w, Function.update ps i (q.bind k))
      | none => schedule pick is (tr ++ [(i, ⟨a, pick w a⟩)], S.eff w a (pick w a),
          Function.update ps i (k (pick w a)))
    | _ => schedule pick is (tr, w, ps)

theorem pool_schedule {pick : σ → (a : A) → R a} (hpick : ∀ w a, S.ok w a (pick w a)) {w₀ : σ}
    {ps₀ : ι → Prog R ε α} (is : List ι)
    {s : List (ι × Label R) × σ × (ι → Prog R ε α)} (hs : S.Pool w₀ ps₀ s.1 s.2.1 s.2.2) :
    S.Pool w₀ ps₀ (S.schedule pick is s).1 (S.schedule pick is s).2.1
      (S.schedule pick is s).2.2 := by
  induction is generalizing s with
  | nil => exact hs
  | cons i is ih =>
    obtain ⟨tr, w, ps⟩ := s
    match hi : ps i with
    | ret x => simpa only [schedule, hi] using ih hs
    | .throw e => simpa only [schedule, hi] using ih hs
    | act a k =>
      cases hb : S.body a with
      | some q =>
        simp only [schedule, hi, hb]
        exact ih (.body i hs hi hb)
      | none =>
        simp only [schedule, hi, hb]
        exact ih (.prim i hs hi hb (hpick w a))

theorem pool_schedule_init {pick : σ → (a : A) → R a} (hpick : ∀ w a, S.ok w a (pick w a)) (w₀ : σ)
    (ps₀ : ι → Prog R ε α) (is : List ι) :
    S.Pool w₀ ps₀ (S.schedule pick is ([], w₀, ps₀)).1 (S.schedule pick is ([], w₀, ps₀)).2.1
      (S.schedule pick is ([], w₀, ps₀)).2.2 :=
  pool_schedule hpick is .init

variable (S) in
/-- All the primitive steps of a schedule meet the condition `cond`. -/
def meets (pick : σ → (a : A) → R a) (cond : σ → (a : A) → R a → Bool) : List ι →
    List (ι × Label R) × σ × (ι → Prog R ε α) → Bool
  | [], _ => true
  | i :: is, (tr, w, ps) =>
    match ps i with
    | act a k =>
      match S.body a with
      | some q => meets pick cond is (tr, w, Function.update ps i (q.bind k))
      | none => cond w a (pick w a) && meets pick cond is (tr ++ [(i, ⟨a, pick w a⟩)],
          S.eff w a (pick w a), Function.update ps i (k (pick w a)))
    | _ => meets pick cond is (tr, w, ps)

theorem pool_schedule_of_meets {pick : σ → (a : A) → R a} (hpick : ∀ w a, S.ok w a (pick w a))
    {cond : σ → (a : A) → R a → Bool} {P : σ → (a : A) → R a → Prop}
    (hP : ∀ w a r, cond w a r = true → P w a r) {w₀ : σ} {ps₀ : ι → Prog R ε α} (is : List ι)
    {s : List (ι × Label R) × σ × (ι → Prog R ε α)} (hmeets : S.meets pick cond is s = true)
    (hs : (S.restrict P).Pool w₀ ps₀ s.1 s.2.1 s.2.2) :
    (S.restrict P).Pool w₀ ps₀ (S.schedule pick is s).1 (S.schedule pick is s).2.1
      (S.schedule pick is s).2.2 := by
  induction is generalizing s with
  | nil => exact hs
  | cons i is ih =>
    obtain ⟨tr, w, ps⟩ := s
    match hi : ps i with
    | ret x =>
      simp only [meets, hi] at hmeets
      simpa only [schedule, hi] using ih hmeets hs
    | .throw e =>
      simp only [meets, hi] at hmeets
      simpa only [schedule, hi] using ih hmeets hs
    | act a k =>
      cases hb : S.body a with
      | some q =>
        simp only [meets, hi, hb] at hmeets
        simp only [schedule, hi, hb]
        exact ih hmeets (.body i hs hi hb)
      | none =>
        simp only [meets, hi, hb, Bool.and_eq_true] at hmeets
        simp only [schedule, hi, hb]
        exact ih hmeets.2 (.prim i hs hi hb ⟨hpick w a, hP w a _ hmeets.1⟩)

end Sem

end Callback
