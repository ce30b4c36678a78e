import Kvdn.Callback.Outline

/-!
# Serial runs

Programs of a family, run one after the other, each to its value before the next
one starts (`Sem.Serial`). A `Turn` is one of them, with the states it has run from
and to.

What every turn keeps holds throughout (`Serial.inv`); and where, of the states in
which a property holds, exactly those meeting a condition lead to states in which it
holds again, it holds throughout if, and only if, all turns meet the condition
(`Serial.forall_after_iff`).
-/

namespace Callback

variable {A : Type} {R : A → Type} {ε σ τ α β : Type}

/-- One program of a serial run. -/
structure Turn (τ σ α : Type) where
  before : σ
  call : τ
  value : α
  after : σ

namespace Sem

open Prog

variable {S : Sem R ε σ}

variable (S) in
/-- The programs `p` of the turns `ts`, run one after the other. -/
inductive Serial (p : τ → Prog R ε α) : σ → List (Turn τ σ α) → σ → Prop
  | nil (w : σ) : Serial p w [] w
  | cons {w w' w'' : σ} {c : τ} {x : α} {tr : List (Label R)} {ts : List (Turn τ σ α)} :
      S.Runs w (p c) tr w' (ret x) → Serial p w' ts w'' → Serial p w (⟨w, c, x, w'⟩ :: ts) w''

namespace Serial

variable {p : τ → Prog R ε α} {w w' : σ} {ts : List (Turn τ σ α)}

/-- What the turns keep holds throughout. -/
theorem inv {I : σ → Prop} {C : τ → Prop}
    (hstep : ∀ w c tr w' x, I w → C c → S.Runs w (p c) tr w' (ret x) → I w')
    (h : S.Serial p w ts w') (hC : ∀ t ∈ ts, C t.call) (hI : I w) :
    I w' ∧ ∀ t ∈ ts, I t.before ∧ I t.after := by
  induction h with
  | nil => exact ⟨hI, nofun⟩
  | cons hruns _ ih =>
    obtain ⟨hc, hC'⟩ := List.forall_mem_cons.1 hC
    have hI' := hstep _ _ _ _ _ hI hc hruns
    obtain ⟨hlast, hts⟩ := ih hC' hI'
    exact ⟨hlast, List.forall_mem_cons.2 ⟨⟨hI, hI'⟩, hts⟩⟩

/-- A property holds throughout if, and only if, all turns meet the condition under
    which they keep it. -/
theorem forall_after_iff {G : σ → Prop} {C : τ → Prop} {P : σ → τ → Prop}
    (hstep : ∀ w c tr w' x, G w → C c → S.Runs w (p c) tr w' (ret x) → (G w' ↔ P w c))
    (h : S.Serial p w ts w') (hC : ∀ t ∈ ts, C t.call) (hG : G w) :
    (∀ t ∈ ts, G t.after) ↔ ∀ t ∈ ts, P t.before t.call := by
  induction h with
  | nil => exact ⟨nofun, nofun⟩
  | cons hruns _ ih =>
    obtain ⟨hc, hC'⟩ := List.forall_mem_cons.1 hC
    rw [List.forall_mem_cons, List.forall_mem_cons, hstep _ _ _ _ _ hG hc hruns]
    exact and_congr_right fun hP => ih hC' ((hstep _ _ _ _ _ hG hc hruns).2 hP)

/-- The run up to a turn, and from it. -/
theorem split {ts₁ ts₂ : List (Turn τ σ α)} (h : S.Serial p w (ts₁ ++ ts₂) w') :
    ∃ w₁, S.Serial p w ts₁ w₁ ∧ S.Serial p w₁ ts₂ w' := by
  induction ts₁ generalizing w with
  | nil => exact ⟨w, .nil w, h⟩
  | cons t ts₁ ih =>
    cases h with
    | cons hruns hrest =>
      obtain ⟨w₁, h₁, h₂⟩ := ih hrest
      exact ⟨w₁, .cons hruns h₁, h₂⟩

/-- A turn has been run. -/
theorem exists_runs {t : Turn τ σ α} (h : S.Serial p w ts w') (ht : t ∈ ts) :
    ∃ tr, S.Runs t.before (p t.call) tr t.after (ret t.value) := by
  induction h with
  | nil => exact nomatch ht
  | cons hruns _ ih =>
    rcases List.mem_cons.1 ht with rfl | ht
    · exact ⟨_, hruns⟩
    · exact ih ht

theorem of_restrict {P : σ → (a : A) → R a → Prop} (h : (S.restrict P).Serial p w ts w') :
    S.Serial p w ts w' := by
  induction h with
  | nil => exact .nil _
  | cons hruns _ ih => exact .cons hruns.of_restrict ih

end Serial

/-! ## Evaluation -/

variable (S) in
/-- The steps of a trace meet `cond`, in the states they are taken in. -/
def meetsAll (cond : σ → (a : A) → R a → Bool) : σ → List (Label R) → Bool
  | _, [] => true
  | w, l :: tr => cond w l.1 l.2 && meetsAll cond (S.eff w l.1 l.2) tr

theorem Runs.restrict_of_meetsAll {cond : σ → (a : A) → R a → Bool} {P : σ → (a : A) → R a → Prop}
    (hP : ∀ w a r, cond w a r = true → P w a r) {w w' : σ} {p p' : Prog R ε α}
    {tr : List (Label R)} (h : S.Runs w p tr w' p') (hmeets : S.meetsAll cond w tr = true) :
    (S.restrict P).Runs w p tr w' p' := by
  induction h with
  | refl => exact .refl ..
  | prim hb hok _ ih =>
    rw [meetsAll, Bool.and_eq_true] at hmeets
    exact .prim hb ⟨hok, hP _ _ _ hmeets.1⟩ (ih hmeets.2)
  | body hb _ ih => exact .body hb (ih hmeets)

variable (S) in
/-- The serial run of the programs named in the list, every primitive action getting
    the answer `pick` gives, if all of them come to a value in `n` steps, which all
    meet `cond`. -/
def evalSerial (pick : σ → (a : A) → R a) (cond : σ → (a : A) → R a → Bool) (n : ℕ)
    (p : τ → Prog R ε α) : σ → List τ → Option (List (Turn τ σ α) × σ)
  | w, [] => some ([], w)
  | w, c :: cs =>
    match S.eval pick n w (p c) with
    | some (tr, w', x) =>
      if S.meetsAll cond w tr then
        (evalSerial pick cond n p w' cs).map fun (ts, w'') => (⟨w, c, x, w'⟩ :: ts, w'')
      else none
    | none => none

theorem serial_of_evalSerial {pick : σ → (a : A) → R a} {cond : σ → (a : A) → R a → Bool}
    {P : σ → (a : A) → R a → Prop} {n : ℕ} {p : τ → Prog R ε α} {w w' : σ} {l : List τ}
    {ts : List (Turn τ σ α)} (hpick : ∀ w a, S.ok w a (pick w a))
    (hP : ∀ w a r, cond w a r = true → P w a r)
    (h : S.evalSerial pick cond n p w l = some (ts, w')) :
    (S.restrict P).Serial p w ts w' ∧ ts.map Turn.call = l := by
  induction l generalizing w ts with
  | nil =>
    simp only [evalSerial, Option.some.injEq, Prod.mk.injEq] at h
    obtain ⟨rfl, rfl⟩ := h
    exact ⟨.nil _, rfl⟩
  | cons c l ih =>
    simp only [evalSerial] at h
    split at h
    · rename_i tr w₁ x heval
      split at h
      · rename_i hmeets
        obtain ⟨⟨ts', w₂⟩, hts, heq⟩ := Option.map_eq_some_iff.1 h
        simp only [Prod.mk.injEq] at heq
        obtain ⟨rfl, rfl⟩ := heq
        obtain ⟨hserial, hcalls⟩ := ih hts
        have hruns := (runs_of_eval hpick heval).restrict_of_meetsAll hP hmeets
        exact ⟨.cons hruns hserial, congrArg (c :: ·) hcalls⟩
      · exact nomatch h
    · exact nomatch h

/-- A serial run exists whose evaluation passes a test. -/
theorem exists_serial {pick : σ → (a : A) → R a} {P : σ → (a : A) → R a → Prop}
    [∀ w a r, Decidable (P w a r)] {p : τ → Prog R ε α} {w : σ} {l : List τ}
    {Q : List (Turn τ σ α) → σ → Prop} [∀ ts w', Decidable (Q ts w')]
    (hpick : ∀ w a, S.ok w a (pick w a)) (n : ℕ)
    (h : (S.evalSerial pick (fun w a r => decide (P w a r)) n p w l).any
      (fun (ts, w') => decide (Q ts w')) = true) :
    ∃ ts w', (S.restrict P).Serial p w ts w' ∧ ts.map Turn.call = l ∧ Q ts w' := by
  obtain ⟨⟨ts, w'⟩, heval, hQ⟩ := (Option.any_eq_true _ _).1 h
  obtain ⟨hserial, hcalls⟩ :=
    serial_of_evalSerial (P := P) hpick (fun _ _ _ => of_decide_eq_true) heval
  exact ⟨ts, w', hserial, hcalls, of_decide_eq_true hQ⟩

end Sem

end Callback
