import Kvdn.Callback.Outline
import Mathlib.Data.List.Induction
import Mathlib.Data.List.Perm.Basic

/-!
# Debts

Programs some of whose actions, when they are answered, incur a debt which another
action has to pay (`Debts`): a resource to be released, a change to be announced. A
program called from another one pays its own debts; so the debts owed are a stack, a
payment being of what was incurred last (`Debts.outline`).

* `follows_of_pool`: the programs that follow the outline honour their debts, in all
  interleavings;
* `outstanding`: all that is owed in a pool, in the order in which it was incurred;
* `incurred_perm`: what has been incurred in a pool has been paid, or is outstanding;
* `foldl_incurred`: if debts in conflict are paid in the order in which they were incurred
  (`InOrder`), then it does not matter in which order the others are.
-/

namespace Callback

variable {A : Type} {R : A → Type} {ε σ δ ι α : Type}

/-- The debts `δ` of the actions. -/
structure Debts (R : A → Type) (δ : Type) where
  /-- The debt incurred by an action, given its answer. -/
  incur : (a : A) → R a → Option δ
  /-- The debt paid by an action. -/
  pay : A → Option δ

namespace Debts

variable (D : Debts R δ)

/-- What is owed after a step. -/
def step (owed : List δ) (l : Label R) : List δ :=
  match D.incur l.1 l.2 with
  | some d => d :: owed
  | none =>
    match D.pay l.1 with
    | some _ => owed.tail
    | none => owed

/-- What is owed after a trace, the latest debt first. -/
def owed (tr : List (Label R)) : List δ := tr.foldl D.step []

/-- The payments in a trace are of the debts incurred last. -/
def Honours (tr : List (Label R)) : Prop :=
  ∀ tr₁ l tr₂, tr = tr₁ ++ l :: tr₂ → ∀ d, D.pay l.1 = some d → (D.owed tr₁).head? = some d

/-- The outline of a program that honours its debts: it performs the actions
    permitted, whose answers are as known, and may throw an exception while it owes what
    `throws` says. -/
def outline (permits : A → Prop) (known : (a : A) → R a → Prop)
    (throws : List δ → ε → Prop := fun _ _ => True) : Outline R ε (List δ) where
  allow owed a := permits a ∧ ∀ d, D.pay a = some d → owed.head? = some d
  next owed a r owed' := known a r ∧ owed' = D.step owed ⟨a, r⟩
  throws := throws

variable {D} {tr : List (Label R)} {l : Label R} {d : δ} {owed : List δ}

theorem step_of_incur (h : D.incur l.1 l.2 = some d) : D.step owed l = d :: owed := by
  rw [step, h]

theorem step_of_pay (hi : D.incur l.1 l.2 = none) (h : D.pay l.1 = some d) :
    D.step owed l = owed.tail := by
  rw [step, hi, h]

theorem step_of_none (hi : D.incur l.1 l.2 = none) (hp : D.pay l.1 = none) :
    D.step owed l = owed := by
  rw [step, hi, hp]

@[simp] theorem owed_nil : D.owed [] = [] := rfl

theorem owed_snoc : D.owed (tr ++ [l]) = D.step (D.owed tr) l := by
  rw [Debts.owed, List.foldl_append]
  rfl

theorem honours_nil : D.Honours [] := fun tr₁ l tr₂ htr => by simp at htr

theorem Honours.snoc (h : D.Honours tr)
    (hl : ∀ d, D.pay l.1 = some d → (D.owed tr).head? = some d) : D.Honours (tr ++ [l]) := by
  intro tr₁ l' tr₂ htr d hd
  rcases List.eq_nil_or_concat tr₂ with rfl | ⟨tr₃, l'', rfl⟩
  · obtain ⟨rfl, heq⟩ := List.append_inj' htr rfl
    obtain rfl := List.singleton_inj.1 heq
    exact hl d hd
  · rw [List.concat_eq_append, ← List.cons_append, ← List.append_assoc] at htr
    exact h tr₁ l' tr₃ (List.append_inj' htr rfl).1 d hd

theorem Honours.of_snoc (h : D.Honours (tr ++ [l])) :
    D.Honours tr ∧ ∀ d, D.pay l.1 = some d → (D.owed tr).head? = some d :=
  ⟨fun tr₁ l' tr₂ htr => h tr₁ l' (tr₂ ++ [l]) (by rw [htr]; simp), h tr l [] rfl⟩

/-- What is owed has been incurred. -/
theorem exists_incur_of_mem (h : d ∈ D.owed tr) : ∃ l ∈ tr, D.incur l.1 l.2 = some d := by
  induction tr using List.reverseRecOn with
  | nil => exact nomatch h
  | append_singleton tr l ih =>
    rw [owed_snoc, step] at h
    have hold (h : d ∈ D.owed tr) : ∃ l' ∈ tr ++ [l], D.incur l'.1 l'.2 = some d := by
      obtain ⟨l', hl', hd⟩ := ih h
      exact ⟨l', List.mem_append_left _ hl', hd⟩
    split at h
    · rename_i d' hd'
      rcases List.mem_cons.1 h with rfl | h
      · exact ⟨l, List.mem_append_right _ (List.mem_singleton_self l), hd'⟩
      · exact hold h
    · split at h
      · exact hold (List.mem_of_mem_tail h)
      · exact hold h

/-- A debt is incurred before it is paid. -/
theorem Honours.exists_incur (h : D.Honours tr) {tr₁ tr₂ : List (Label R)}
    (htr : tr = tr₁ ++ l :: tr₂) (hd : D.pay l.1 = some d) :
    ∃ l' ∈ tr₁, D.incur l'.1 l'.2 = some d :=
  exists_incur_of_mem (List.mem_of_mem_head? (h tr₁ l tr₂ htr d hd))

/-- A debt incurred is paid, or still owed. -/
theorem mem_owed_or_paid (h : D.Honours tr) (hl : l ∈ tr) (hd : D.incur l.1 l.2 = some d) :
    d ∈ D.owed tr ∨ ∃ l' ∈ tr, D.pay l'.1 = some d := by
  induction tr using List.reverseRecOn with
  | nil => exact nomatch hl
  | append_singleton tr l' ih =>
    obtain ⟨hprev, hpay⟩ := h.of_snoc
    rw [owed_snoc]
    rcases List.mem_append.1 hl with hl | hl
    · rcases ih hprev hl with howed | ⟨l'', hl'', hd''⟩
      · cases hi : D.incur l'.1 l'.2 with
        | some d' =>
          rw [step_of_incur hi]
          exact .inl (List.mem_cons_of_mem _ howed)
        | none =>
          cases hp : D.pay l'.1 with
          | none =>
            rw [step_of_none hi hp]
            exact .inl howed
          | some d' =>
            rw [step_of_pay hi hp]
            obtain ⟨rest, hrest⟩ := List.head?_eq_some_iff.1 (hpay d' hp)
            rw [hrest] at howed ⊢
            rcases List.mem_cons.1 howed with rfl | howed
            · exact .inr ⟨l', List.mem_append_right _ (List.mem_singleton_self l'), hp⟩
            · exact .inl howed
      · exact .inr ⟨l'', List.mem_append_left _ hl'', hd''⟩
    · obtain rfl := List.mem_singleton.1 hl
      rw [step_of_incur hd]
      exact .inl List.mem_cons_self

/-! ## Pools -/

/-- What is known of a program from its own trace: its steps have been permitted, their
    answers are as known, and it honours its debts. -/
structure Follows (D : Debts R δ) (permits : A → Prop) (known : (a : A) → R a → Prop)
    (tr : List (Label R)) : Prop where
  honours : D.Honours tr
  permits : ∀ l ∈ tr, permits l.1
  known : ∀ l ∈ tr, known l.1 l.2

theorem Follows.snoc {permits : A → Prop} {known : (a : A) → R a → Prop}
    {throws : List δ → ε → Prop} (h : D.Follows permits known tr)
    (hl : (D.outline permits known throws).allow (D.owed tr) l.1)
    (hk : known l.1 l.2) : D.Follows permits known (tr ++ [l]) where
  honours := h.honours.snoc hl.2
  permits l' hl' := by
    rcases List.mem_append.1 hl' with hl' | hl'
    · exact h.permits l' hl'
    · exact List.mem_singleton.1 hl' ▸ hl.1
  known l' hl' := by
    rcases List.mem_append.1 hl' with hl' | hl'
    · exact h.known l' hl'
    · exact List.mem_singleton.1 hl' ▸ hk

/-- The programs of a pool that follow the outline honour their debts. -/
theorem follows_of_pool [DecidableEq ι] {S : Sem R ε σ} {permits : ι → A → Prop}
    {known : (a : A) → R a → Prop} {throws : ι → List δ → ε → Prop} {Q : ι → List δ → α → Prop}
    (hverified : ∀ i, (D.outline (permits i) known (throws i)).Verified S)
    (hknown : ∀ w a r, S.body a = none → S.ok w a r → known a r) {w₀ w : σ}
    {ps₀ ps : ι → Prog R ε α} {tr : List (ι × Label R)} (h : S.Pool w₀ ps₀ tr w ps)
    (hp : ∀ i, (ps₀ i).Holds (D.outline (permits i) known (throws i)) (Q i) []) (i : ι) :
    D.Follows (permits i) known (Sem.own i tr) ∧
      (ps i).Holds (D.outline (permits i) known (throws i)) (Q i) (D.owed (Sem.own i tr)) := by
  have hkeeps (i : ι) : (D.outline (permits i) known (throws i)).Keeps S
      fun tr _ owed => D.Follows (permits i) known tr ∧ owed = D.owed tr := by
    rintro tr w owed a r ⟨hfollows, rfl⟩ hb ha hok
    have hk := hknown w a r hb hok
    exact ⟨_, ⟨hk, rfl⟩, hfollows.snoc ha hk, owed_snoc.symm⟩
  obtain ⟨owed, ⟨hfollows, rfl⟩, hps⟩ := h.holds_own hverified hkeeps (fun _ => [])
    (fun i => ⟨⟨honours_nil, nofun, nofun⟩, rfl⟩) hp i
  exact ⟨hfollows, hps⟩

section

variable [DecidableEq ι] [DecidableEq δ]

variable (D) in
/-- All that is owed after a step of the program `i`, in the order incurred. -/
def outstandingStep (outs : List (ι × δ)) (l : ι × Label R) : List (ι × δ) :=
  match D.incur l.2.1 l.2.2 with
  | some d => outs ++ [(l.1, d)]
  | none =>
    match D.pay l.2.1 with
    | some d => outs.erase (l.1, d)
    | none => outs

variable (D) in
/-- All that is owed after a trace of a pool, in the order incurred. -/
def outstanding (tr : List (ι × Label R)) : List (ι × δ) := tr.foldl D.outstandingStep []

theorem outstanding_snoc {tr : List (ι × Label R)} {l : ι × Label R} :
    D.outstanding (tr ++ [l]) = D.outstandingStep (D.outstanding tr) l := by
  rw [outstanding, List.foldl_append]
  rfl

theorem own_snoc {tr : List (ι × Label R)} {l : ι × Label R} (i : ι) :
    Sem.own i (tr ++ [l]) = if l.1 = i then Sem.own i tr ++ [l.2] else Sem.own i tr := by
  rw [Sem.own_append]
  split_ifs with hl
  · rw [← hl, Sem.own_self]
  · rw [Sem.own_of_ne hl, List.append_nil]

omit [DecidableEq δ] in
theorem honours_of_snoc {tr : List (ι × Label R)} {l : ι × Label R}
    (h : ∀ i, D.Honours (Sem.own i (tr ++ [l]))) : (∀ i, D.Honours (Sem.own i tr)) ∧
      ∀ d, D.pay l.2.1 = some d → (D.owed (Sem.own l.1 tr)).head? = some d := by
  refine ⟨fun i => ?_, ?_⟩
  · have hi := h i
    rw [own_snoc] at hi
    split_ifs at hi
    · exact hi.of_snoc.1
    · exact hi
  · have hi := h l.1
    rw [own_snoc, if_pos rfl] at hi
    exact hi.of_snoc.2

/-- What is outstanding is what the programs owe. -/
theorem count_outstanding {tr : List (ι × Label R)} (h : ∀ i, D.Honours (Sem.own i tr)) (i : ι)
    (d : δ) : (D.outstanding tr).count (i, d) = (D.owed (Sem.own i tr)).count d := by
  induction tr using List.reverseRecOn with
  | nil => rfl
  | append_singleton tr l ih =>
    obtain ⟨hprev, hpay⟩ := honours_of_snoc h
    have hcount := ih hprev
    obtain ⟨j, l⟩ := l
    rw [outstanding_snoc, own_snoc, outstandingStep]
    by_cases hj : j = i
    · subst hj
      cases hi : D.incur l.1 l.2 with
      | some d' => simp [owed_snoc, step_of_incur hi, hcount, List.count_cons]
      | none =>
        cases hp : D.pay l.1 with
        | none => simp [owed_snoc, step_of_none hi hp, hcount]
        | some d' =>
          obtain ⟨rest, howed⟩ : ∃ rest, D.owed (Sem.own j tr) = d' :: rest :=
            List.head?_eq_some_iff.1 (hpay d' hp)
          simp only [if_true, owed_snoc, step_of_pay hi hp, howed, List.tail_cons]
          rw [List.count_erase, hcount, howed, List.count_cons]
          by_cases hd : d' = d
          · simp [hd]
          · simp [hd]
    · rw [if_neg hj, ← hcount]
      cases hi : D.incur l.1 l.2 with
      | some d' => simp [hj]
      | none =>
        cases hp : D.pay l.1 with
        | none => rfl
        | some d' => simp [List.count_erase, hj]

/-- Nothing is outstanding when no program owes anything. -/
theorem outstanding_eq_nil {tr : List (ι × Label R)} (h : ∀ i, D.Honours (Sem.own i tr))
    (howed : ∀ i, D.owed (Sem.own i tr) = []) : D.outstanding tr = [] := by
  rw [List.eq_nil_iff_forall_not_mem]
  rintro ⟨i, d⟩ hmem
  have hcount := count_outstanding h i d
  rw [howed i, List.count_nil] at hcount
  exact List.count_eq_zero.1 hcount hmem

/-- A payment is of an outstanding debt. -/
theorem mem_outstanding {tr : List (ι × Label R)} {l : ι × Label R} {d : δ}
    (h : ∀ i, D.Honours (Sem.own i (tr ++ [l]))) (hp : D.pay l.2.1 = some d) :
    (l.1, d) ∈ D.outstanding tr := by
  obtain ⟨hprev, hpay⟩ := honours_of_snoc h
  rw [← List.count_pos_iff, count_outstanding hprev, List.count_pos_iff]
  exact List.mem_of_mem_head? (hpay d hp)

variable (D) in
/-- The debts incurred in a trace of a pool. -/
def incurred (tr : List (ι × Label R)) : List δ := tr.filterMap fun l => D.incur l.2.1 l.2.2

variable (D) in
/-- The debts paid in a trace of a pool. -/
def paid (tr : List (ι × Label R)) : List δ := tr.filterMap fun l => D.pay l.2.1

omit [DecidableEq ι] [DecidableEq δ] in
theorem incurred_snoc {tr : List (ι × Label R)} {l : ι × Label R} :
    D.incurred (tr ++ [l]) = D.incurred tr ++ (D.incur l.2.1 l.2.2).toList := by
  rw [incurred, List.filterMap_append]
  rfl

omit [DecidableEq ι] [DecidableEq δ] in
theorem paid_snoc {tr : List (ι × Label R)} {l : ι × Label R} :
    D.paid (tr ++ [l]) = D.paid tr ++ (D.pay l.2.1).toList := by
  rw [paid, List.filterMap_append]
  rfl

/-! ## The order of the payments -/

variable (D) in
/-- A step pays a debt which is outstanding, and before which nothing is that it must not
    overtake. -/
def InTurn (conflict : δ → δ → Prop) (outs : List (ι × δ)) (l : ι × Label R) : Prop :=
  ∀ d ∈ D.pay l.2.1, ∀ o ∈ outs.takeWhile fun o => o ≠ (l.1, d), ¬ conflict o.2 d

instance {conflict : δ → δ → Prop} [DecidableRel conflict] (outs : List (ι × δ)) (l : ι × Label R) :
    Decidable (D.InTurn conflict outs l) :=
  match h : D.pay l.2.1 with
  | none => .isTrue fun _ hd => absurd (h.symm.trans hd) nofun
  | some d => decidable_of_iff (∀ o ∈ outs.takeWhile fun o => o ≠ (l.1, d), ¬ conflict o.2 d)
      ⟨fun hall _ hd => Option.some.inj (h.symm.trans hd) ▸ hall, fun hall => hall d h⟩

variable (D) in
/-- The debts that are in conflict are paid in the order in which they were incurred. -/
def InOrder (conflict : δ → δ → Prop) (tr : List (ι × Label R)) : Prop :=
  ∀ n : Fin tr.length, D.InTurn conflict (D.outstanding (tr.take n)) (tr.get n)

instance {conflict : δ → δ → Prop} [DecidableRel conflict] (tr : List (ι × Label R)) :
    Decidable (D.InOrder conflict tr) :=
  inferInstanceAs (Decidable (∀ n : Fin tr.length,
    D.InTurn conflict (D.outstanding (tr.take n)) (tr.get n)))

theorem InOrder.of_snoc {conflict : δ → δ → Prop} {tr : List (ι × Label R)} {l : ι × Label R}
    (h : D.InOrder conflict (tr ++ [l])) :
    D.InOrder conflict tr ∧ D.InTurn conflict (D.outstanding tr) l := by
  refine ⟨fun n => ?_, ?_⟩
  · have hn := h ⟨n, by rw [List.length_append]; omega⟩
    simpa [List.take_append_of_le_length (Nat.le_of_lt n.2), List.getElem_append_left n.2] using hn
  · have hlast := h ⟨tr.length, by simp⟩
    simpa using hlast

omit [DecidableEq δ] in
/-- What does not conflict with the elements of a list may be moved before them. -/
theorem foldl_move {β : Type} {conflict : δ → δ → Prop} {f : β → δ → β}
    (hcomm : ∀ d d', ¬ conflict d d' → ∀ b, f (f b d) d' = f (f b d') d) {ds : List δ} {d : δ}
    (hds : ∀ d' ∈ ds, ¬ conflict d' d) (b : β) : f (ds.foldl f b) d = ds.foldl f (f b d) := by
  induction ds generalizing b with
  | nil => rfl
  | cons d' ds ih =>
    obtain ⟨hd', hds'⟩ := List.forall_mem_cons.1 hds
    rw [List.foldl_cons, List.foldl_cons, ih hds', hcomm d' d hd']

/-- What is paid, and then what is outstanding, amounts to what has been incurred, if
    the debts that are in conflict are paid in order. -/
theorem foldl_incurred {β : Type} {conflict : δ → δ → Prop} {f : β → δ → β}
    (hcomm : ∀ d d', ¬ conflict d d' → ∀ b, f (f b d) d' = f (f b d') d)
    {tr : List (ι × Label R)} (h : ∀ i, D.Honours (Sem.own i tr))
    (hexcl : ∀ a r, D.pay a ≠ none → D.incur a r = none) (horder : D.InOrder conflict tr) (b : β) :
    ((D.outstanding tr).map Prod.snd).foldl f ((D.paid tr).foldl f b) = (D.incurred tr).foldl f b := by
  induction tr using List.reverseRecOn with
  | nil => rfl
  | append_singleton tr l ih =>
    obtain ⟨hprev, hturn⟩ := horder.of_snoc
    have heq := ih (honours_of_snoc h).1 hprev
    rw [incurred_snoc, paid_snoc, outstanding_snoc, outstandingStep]
    cases hp : D.pay l.2.1 with
    | none =>
      cases hi : D.incur l.2.1 l.2.2 with
      | none => simpa using heq
      | some d => simp [heq]
    | some d =>
      rw [hexcl l.2.1 l.2.2 (by rw [hp]; exact nofun)]
      obtain ⟨outs₁, outs₂, hnot, houts, herase⟩ := List.exists_erase_eq (mem_outstanding h hp)
      have hbefore : (D.outstanding tr).takeWhile (fun o => o ≠ (l.1, d)) = outs₁ := by
        have hne : ∀ o ∈ outs₁, decide (o ≠ (l.1, d)) = true := fun o ho =>
          decide_eq_true fun heq => hnot (heq ▸ ho)
        rw [houts, List.takeWhile_append_of_pos hne, List.takeWhile_cons_of_neg (by simp),
          List.append_nil]
      have hfree : ∀ d' ∈ outs₁.map Prod.snd, ¬ conflict d' d := by
        rw [List.forall_mem_map]
        intro o ho
        exact hturn d hp o (hbefore ▸ ho)
      simp only [Option.toList_none, Option.toList_some, List.append_nil, herase, List.foldl_append,
        List.map_append, List.foldl_cons, List.foldl_nil]
      rw [← heq, houts, ← foldl_move hcomm hfree]
      simp

/-- What has been incurred has been paid, or is outstanding. -/
theorem incurred_perm {tr : List (ι × Label R)} (h : ∀ i, D.Honours (Sem.own i tr))
    (hexcl : ∀ a r, D.pay a ≠ none → D.incur a r = none) :
    (D.incurred tr).Perm (D.paid tr ++ (D.outstanding tr).map Prod.snd) := by
  induction tr using List.reverseRecOn with
  | nil => exact .nil
  | append_singleton tr l ih =>
    have hperm := ih (honours_of_snoc h).1
    rw [incurred_snoc, paid_snoc, outstanding_snoc, outstandingStep]
    cases hp : D.pay l.2.1 with
    | none =>
      cases hi : D.incur l.2.1 l.2.2 with
      | none => simpa using hperm
      | some d => simpa [← List.append_assoc] using hperm.append_right [d]
    | some d =>
      rw [hexcl l.2.1 l.2.2 (by rw [hp]; exact nofun)]
      have herase := (List.perm_cons_erase (mem_outstanding h hp)).map Prod.snd
      simpa using hperm.trans (herase.append_left _)

end

end Debts

end Callback
