import Kvdn.Callback.Semantics

/-!
# Linearizability

The operations of the programs of a pool are *linearizable* with respect to a
sequential specification, a function from a state and an operation to the next
state and the result, if there is an order of them in which the results are those
of the specification, and which keeps the real time order: an operation whose
program returned before another one took its first step comes before it.

An order grows with the trace of the pool: the operation a step makes take effect
comes last (`Linearization.commit`), other steps change nothing
(`Linearization.stutter`).
-/

namespace Callback

variable {A : Type} {R : A → Type} {ι σ Op Res : Type}

/-- The operations performed one at a time: the last state, and their results. -/
def replay (step : σ → Op → σ × Res) : σ → List Op → σ × List Res
  | s, [] => (s, [])
  | s, op :: ops =>
    let (s', r) := step s op
    let (s'', rs) := replay step s' ops
    (s'', r :: rs)

theorem replay_append_singleton (step : σ → Op → σ × Res) (s : σ) (ops : List Op) (op : Op) :
    replay step s (ops ++ [op]) =
      ((step (replay step s ops).1 op).1,
        (replay step s ops).2 ++ [(step (replay step s ops).1 op).2]) := by
  induction ops generalizing s with
  | nil => rfl
  | cons op' ops ih => simp only [List.cons_append, replay, ih]

/-- A result of the operations performed one at a time is that of its operation, in some
    state where what they keep holds. -/
theorem exists_of_mem_replay {step : σ → Op → σ × Res} {call : ι → Op} {P : σ → Prop}
    (hP : ∀ s i, P s → P (step s (call i)).1) {s s' : σ} {lin : List (ι × Res)} {x : ι × Res}
    (hs : P s) (h : replay step s (lin.map fun x => call x.1) = (s', lin.map Prod.snd))
    (hx : x ∈ lin) : ∃ s, P s ∧ (step s (call x.1)).2 = x.2 := by
  induction lin generalizing s with
  | nil => exact absurd hx List.not_mem_nil
  | cons y lin ih =>
    obtain ⟨hlast, hresults⟩ := Prod.mk.inj h
    obtain ⟨hy, hrest⟩ := List.cons.inj hresults
    rcases List.mem_cons.1 hx with rfl | hx
    · exact ⟨s, hs, hy⟩
    · exact ih (hP _ _ hs) (Prod.ext hlast hrest) hx

variable [DecidableEq ι]

/-- The program `i` returned before `j` took its first step. -/
def Precedes (back : ι → Label R → Prop) (tr : List (ι × Label R)) (i j : ι) : Prop :=
  ∃ tr₁ tr₂, tr = tr₁ ++ tr₂ ∧ (∃ l ∈ Sem.own i tr₁, back i l) ∧ Sem.own j tr₁ = []

theorem Precedes.of_snoc {back : ι → Label R → Prop} {tr : List (ι × Label R)}
    {e : ι × Label R} {i j : ι} (h : Precedes back (tr ++ [e]) i j) (hj : Sem.own j tr ≠ []) :
    Precedes back tr i j := by
  obtain ⟨tr₁, tr₂, htr, hi, hj₁⟩ := h
  rcases List.eq_nil_or_concat tr₂ with rfl | ⟨tr₂', e', rfl⟩
  · rw [List.append_nil] at htr
    rw [← htr, Sem.own_append] at hj₁
    exact absurd (List.append_eq_nil_iff.1 hj₁).1 hj
  · rw [List.concat_eq_append, ← List.append_assoc] at htr
    exact ⟨tr₁, tr₂', (List.append_inj' htr rfl).1, hi, hj₁⟩

/-- An order `lin` of the operations `call` which have taken effect in the trace
    `tr`, with their results; the specification leads from `s₀` to `s` along it. -/
structure Linearization (back : ι → Label R → Prop) (step : σ → Op → σ × Res) (call : ι → Op)
    (s₀ : σ) (tr : List (ι × Label R)) (lin : List (ι × Res)) (s : σ) : Prop where
  nodup : (lin.map Prod.fst).Nodup
  started : ∀ x ∈ lin, Sem.own x.1 tr ≠ []
  realTime : lin.Pairwise fun x y => ¬Precedes back tr y.1 x.1
  legal : replay step s₀ (lin.map fun x => call x.1) = (s, lin.map Prod.snd)

namespace Linearization

variable {back : ι → Label R → Prop} {step : σ → Op → σ × Res} {call : ι → Op} {s₀ s : σ}
  {tr : List (ι × Label R)} {lin : List (ι × Res)}

/-- The results are those of the specification, in some state where what it keeps holds. -/
theorem exists_step (h : Linearization back step call s₀ tr lin s) {P : σ → Prop}
    (hP : ∀ s i, P s → P (step s (call i)).1) (h₀ : P s₀) {x : ι × Res} (hx : x ∈ lin) :
    ∃ s', P s' ∧ (step s' (call x.1)).2 = x.2 :=
  exists_of_mem_replay hP h₀ h.legal hx

theorem nil : Linearization back step call s₀ [] [] s₀ :=
  ⟨List.nodup_nil, nofun, .nil, rfl⟩

theorem stutter (h : Linearization back step call s₀ tr lin s) (e : ι × Label R) :
    Linearization back step call s₀ (tr ++ [e]) lin s where
  nodup := h.nodup
  started x hx := by
    rw [Sem.own_append]
    exact List.append_ne_nil_of_left_ne_nil (h.started x hx) _
  realTime := h.realTime.imp_of_mem fun hx _ hne hp => hne (hp.of_snoc (h.started _ hx))
  legal := h.legal

/-- The step `l` makes the operation of `i` take effect. -/
theorem commit (h : Linearization back step call s₀ tr lin s) {i : ι} {l : Label R} {s' : σ}
    {r : Res} (hi : i ∉ lin.map Prod.fst) (hback : ∀ l' ∈ Sem.own i tr ++ [l], ¬back i l')
    (hstep : step s (call i) = (s', r)) :
    Linearization back step call s₀ (tr ++ [(i, l)]) (lin ++ [(i, r)]) s' := by
  have hstutter := h.stutter (i, l)
  refine ⟨?_, ?_, ?_, ?_⟩
  · rw [List.map_append, List.nodup_append]
    refine ⟨h.nodup, by simp, fun x hx y hy => ?_⟩
    obtain rfl : y = i := by simpa using hy
    exact fun hxy => hi (hxy ▸ hx)
  · intro x hx
    rcases List.mem_append.1 hx with hx | hx
    · exact hstutter.started x hx
    · obtain rfl : x = (i, r) := by simpa using hx
      simp
  · refine List.pairwise_append.2 ⟨hstutter.realTime, List.pairwise_singleton .., ?_⟩
    intro x _ y hy
    obtain rfl : y = (i, r) := by simpa using hy
    -- `i` has not returned, hence it precedes nothing
    rintro ⟨tr₁, tr₂, htr, ⟨l', hl', hb⟩, -⟩
    refine hback l' ?_ hb
    have hown := congrArg (Sem.own i) htr
    rw [Sem.own_append, Sem.own_self, Sem.own_append] at hown
    rw [hown]
    exact List.mem_append_left _ hl'
  · rw [List.map_append, List.map_singleton, replay_append_singleton, h.legal]
    simp [hstep]

end Linearization

end Callback
