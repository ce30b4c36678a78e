import Kvdn.Callback.Machine
import Kvdn.Value
import Mathlib.Data.List.AList
import Mathlib.Data.Nat.Notation

/-!
# Wait groups

A `DistributedWaitGroup` waits for its tokens to be acknowledged, directly or by the
messages of the channels it is attached to, and then calls `triggercb`; or, when a
timer expires, it takes back the attachment of the timer, and calls `abortcb` when
this is done.

Acknowledgements, deliveries, timers and completions come in any order. The abort
looks neither at what the group has done nor at the other timers:
`exclusive_iff` tells the runs in which there is one call at most.
-/

namespace Kvdn

open Callback

/-- A wait group, for tokens of the type `τ`. -/
structure DistributedWaitGroup (τ : Type) where
  timeout : ℤ
  ran : Bool := false
  /-- The tokens, and whether they have been acknowledged. -/
  events : AList fun _ : τ => Bool

namespace DistributedWaitGroup

variable {τ β : Type}

variable (d : DistributedWaitGroup τ)

/-- Whether everything has been acknowledged; `triggercb` is called the first time. -/
def check : DistributedWaitGroup τ × Bool :=
  let run := d.events.entries.all (·.2)
  if run && !d.ran then ({ d with ran := true }, true) else (d, false)

variable {d}

theorem check_of_incomplete (h : d.events.entries.all (·.2) = false) : d.check = (d, false) := by
  rw [check, h]
  rfl

theorem check_of_ran (h : d.ran = true) : d.check = (d, false) := by
  rw [check, h]
  simp

theorem check_of_complete (h : d.events.entries.all (·.2) = true) (hran : d.ran = false) :
    d.check = ({ d with ran := true }, true) := by
  rw [check, h, hran]
  rfl

variable [DecidableEq τ]

/-- A new group: none of its tokens has been acknowledged. -/
def new (tokens : List τ) (timeout : ℤ) : DistributedWaitGroup τ where
  timeout := timeout
  events := tokens.foldl (fun events token => events.insert token false) ∅

/-- An acknowledgement: the group, and whether `triggercb` is called. -/
def ack (d : DistributedWaitGroup τ) (token : τ) : DistributedWaitGroup τ × Bool :=
  check { d with events := d.events.insert token true }

/-- The calls a group may make. -/
inductive Call
  | triggercb
  | abortcb
  deriving DecidableEq

/-- An attachment to a channel, by `onChannel` or `onKeys`: the token that a message
    acknowledges, and the state of its consumer. -/
structure Attachment (β τ : Type) where
  evaluator : β → τ
  /-- Its timer is running. -/
  timer : Bool
  /-- Its consumer is being unregistered. -/
  unregistering : Bool := false

/-- A group, with its attachments, and the calls made so far. -/
structure World (β τ : Type) where
  group : DistributedWaitGroup τ
  attachments : List (Attachment β τ) := []
  calls : List Call := []

/-- What happens to a group. -/
inductive Event (β τ : Type)
  | ack (token : τ)
  /-- `onChannel` or `onKeys` -/
  | attach (evaluator : β → τ)
  /-- A message is delivered to the consumer of an attachment. -/
  | deliver (n : ℕ) (body : β)
  /-- The timer of an attachment expires. -/
  | expire (n : ℕ)
  /-- The consumer of an attachment has been unregistered. -/
  | unregistered (n : ℕ)

namespace World

variable (w : World β τ)

/-- The state after an acknowledgement. -/
def ack (token : τ) : World β τ :=
  let (group, run) := w.group.ack token
  { w with group, calls := if run then w.calls ++ [.triggercb] else w.calls }

/-- An attachment, with its timer if there is a timeout: `setTimer` refuses a
    negative one. -/
def attach (evaluator : β → τ) : World β τ :=
  { w with attachments := w.attachments ++ [{ evaluator, timer := decide (0 < w.group.timeout) }] }

/-- The state after an event. -/
def step : Event β τ → World β τ
  | .ack token => w.ack token
  | .attach evaluator => w.attach evaluator
  | .deliver n body =>
    match w.attachments[n]? with
    | some c => w.ack (c.evaluator body)
    | none => w
  | .expire n => { w with attachments :=
      w.attachments.modify n fun c => { c with timer := false, unregistering := true } }
  | .unregistered n => { w with
      attachments := w.attachments.modify n fun c => { c with unregistering := false }
      calls := w.calls ++ [.abortcb] }

/-- The events that may happen: the messages in flight may still be delivered while
    the consumer is being unregistered. -/
def Can : Event β τ → Prop
  | .ack _ | .attach _ => True
  | .deliver n _ => n < w.attachments.length
  | .expire n => ∃ c, w.attachments[n]? = some c ∧ c.timer = true
  | .unregistered n => ∃ c, w.attachments[n]? = some c ∧ c.unregistering = true

/-- The token that an event acknowledges. -/
def acks : Event β τ → Option τ
  | .ack token => some token
  | .deliver n body => w.attachments[n]?.map fun c => c.evaluator body
  | _ => none

end World

/-- A group, as a state machine. -/
def machine : Machine (World β τ) (Event β τ) := ⟨World.Can, World.step⟩

instance (w : World β τ) (e : Event β τ) : Decidable (machine.can w e) :=
  match e with
  | .ack _ | .attach _ => .isTrue trivial
  | .deliver n _ => inferInstanceAs (Decidable (n < _))
  | .expire _ | .unregistered _ => decidable_of_iff _ (Option.any_eq_true _ _)

/-! ## The calls of a run -/

/-- The tokens acknowledged in a run, in turn. -/
def acked (tr : List (World β τ × Event β τ)) : List τ := tr.filterMap fun l => l.1.acks l.2

/-- The unregistrations that have been completed in a run. -/
def unregistrations (tr : List (World β τ × Event β τ)) : ℕ :=
  tr.countP fun l => match l.2 with
    | .unregistered _ => true
    | _ => false

/-- All tokens have been acknowledged, with an acknowledgement at all. -/
def AllAcked (tokens : List τ) (tr : List (World β τ × Event β τ)) : Prop :=
  acked tr ≠ [] ∧ ∀ token ∈ tokens, token ∈ acked tr

section

variable {tokens : List τ} {timeout : ℤ} {tr : List (World β τ × Event β τ)} {w w₀ : World β τ}
  {e : Event β τ} {events : AList fun _ : τ => Bool} {seen : List τ}

/-- A group has recorded the acknowledgements `seen`. -/
def Records (tokens seen : List τ) (events : AList fun _ : τ => Bool) : Prop :=
  ∀ t, events.lookup t = if t ∈ seen then some true else if t ∈ tokens then some false else none

theorem records_new : Records tokens [] (new tokens timeout).events := by
  have hfold (l : List τ) (events : AList fun _ : τ => Bool) (t : τ) :
      (l.foldl (fun events token => events.insert token false) events).lookup t =
        if t ∈ l then some false else events.lookup t := by
    induction l generalizing events with
    | nil => simp
    | cons token l ih =>
      rw [List.foldl_cons, ih]
      by_cases ht : t = token
      · subst ht
        simp
      · simp [ht, AList.lookup_insert_ne ht]
  intro t
  rw [new, hfold, AList.lookup_empty]
  rfl

theorem Records.insert (h : Records tokens seen events) (token : τ) :
    Records tokens (seen ++ [token]) (events.insert token true) := by
  intro t
  by_cases ht : t = token
  · subst ht
    simp
  · rw [AList.lookup_insert_ne ht, h t]
    simp [ht]

/-- Everything is acknowledged once all tokens are. -/
theorem Records.all_iff (h : Records tokens seen events) :
    events.entries.all (·.2) = true ↔ ∀ token ∈ tokens, token ∈ seen := by
  rw [List.all_eq_true]
  constructor
  · intro hall token htoken
    by_contra hseen
    have hlookup := h token
    rw [if_neg hseen, if_pos htoken] at hlookup
    exact nomatch hall _ (AList.mem_lookup_iff.1 hlookup)
  · rintro hall ⟨t, b⟩ hmem
    have hlookup := AList.mem_lookup_iff.2 hmem
    rw [h t] at hlookup
    by_cases hseen : t ∈ seen
    · rw [if_pos hseen] at hlookup
      exact (Option.some.inj hlookup).symm
    · rw [if_neg hseen, if_neg fun ht => hseen (hall t ht)] at hlookup
      exact nomatch hlookup

/-- The state of a group after a run. -/
structure Inv (tokens : List τ) (tr : List (World β τ × Event β τ)) (w : World β τ) : Prop where
  records : Records tokens (acked tr) w.group.events
  ran : w.group.ran = true ↔ AllAcked tokens tr
  calls : w.calls.length = w.group.ran.toNat + unregistrations tr

omit [DecidableEq τ] in
theorem acked_snoc : acked (tr ++ [(w, e)]) = acked tr ++ (w.acks e).toList := by
  rw [acked, acked, List.filterMap_append]
  rfl

omit [DecidableEq τ] in
theorem unregistrations_snoc (he : ∀ n, e ≠ .unregistered n) :
    unregistrations (tr ++ [(w, e)]) = unregistrations tr := by
  cases e with
  | unregistered n => exact absurd rfl (he n)
  | _ => simp [unregistrations]

/-- An acknowledgement. -/
theorem Inv.ack (h : Inv tokens tr w) {token : τ} (he : w.acks e = some token)
    (hstep : w.step e = w.ack token) (hun : ∀ n, e ≠ .unregistered n) :
    Inv tokens (tr ++ [(w, e)]) (w.step e) := by
  have hacked : acked (tr ++ [(w, e)]) = acked tr ++ [token] := by rw [acked_snoc, he]; rfl
  have hrecords := h.records.insert token
  have hall := hrecords.all_iff
  have hfull : AllAcked tokens (tr ++ [(w, e)]) ↔ ∀ t ∈ tokens, t ∈ acked tr ++ [token] := by
    rw [AllAcked, hacked]
    exact and_iff_right (by simp)
  -- the group may have run already, and is then complete
  have hran : w.group.ran = true → ∀ t ∈ tokens, t ∈ acked tr ++ [token] := fun hran t ht =>
    List.mem_append_left _ ((h.ran.1 hran).2 t ht)
  have hcalls := h.calls
  suffices hsuff : ∀ run group, w.group.ack token = (group, run) →
      group.events = w.group.events.insert token true → (group.ran = true ↔
        ∀ t ∈ tokens, t ∈ acked tr ++ [token]) → group.ran.toNat = w.group.ran.toNat + run.toNat →
      Inv tokens (tr ++ [(w, e)]) (w.step e) by
    cases hrun : (w.group.events.insert token true).entries.all (·.2) with
    | false =>
      have hnot : ¬ ∀ t ∈ tokens, t ∈ acked tr ++ [token] := by
        rw [← hall, hrun]
        exact Bool.false_ne_true
      exact hsuff _ _ (check_of_incomplete hrun) rfl
        ⟨fun hr => absurd (hran hr) hnot, fun hyes => absurd hyes hnot⟩ rfl
    | true =>
      cases hr : w.group.ran with
      | false =>
        exact hsuff _ _ (check_of_complete hrun hr) rfl (iff_of_true rfl (hall.1 hrun)) (by rw [hr]; rfl)
      | true =>
        exact hsuff _ _ (check_of_ran hr) rfl (iff_of_true hr (hall.1 hrun)) rfl
  intro run group hack hevents hiff hnat
  rw [hstep, World.ack, hack]
  refine ⟨?_, ?_, ?_⟩
  · rw [hacked]
    exact hevents ▸ hrecords
  · rw [hfull]
    exact hiff
  · rw [unregistrations_snoc hun, hnat]
    cases run
    · exact hcalls
    · simp only [if_true, List.length_append, List.length_singleton, hcalls, Bool.toNat_true]
      omega

/-- An event that leaves the group as it is, and makes no call. -/
theorem Inv.stutter (h : Inv tokens tr w) (he : w.acks e = none)
    (hgroup : (w.step e).group = w.group) (hcalls : (w.step e).calls = w.calls)
    (hun : ∀ n, e ≠ .unregistered n) : Inv tokens (tr ++ [(w, e)]) (w.step e) := by
  have hacked : acked (tr ++ [(w, e)]) = acked tr := by simp [acked_snoc, he]
  refine ⟨?_, ?_, ?_⟩
  · rw [hacked, hgroup]
    exact h.records
  · rw [AllAcked, hacked, hgroup]
    exact h.ran
  · rw [hcalls, hgroup, unregistrations_snoc hun]
    exact h.calls

theorem Inv.step (h : Inv tokens tr w) (hcan : w.Can e) :
    Inv tokens (tr ++ [(w, e)]) (w.step e) := by
  cases e with
  | ack token => exact h.ack rfl rfl nofun
  | attach evaluator => exact h.stutter rfl rfl rfl nofun
  | deliver n body =>
    have hc : w.attachments[n]? = some w.attachments[n] := List.getElem?_eq_getElem hcan
    have hacks : w.acks (.deliver n body) = some (w.attachments[n].evaluator body) := by
      simp [World.acks, hc]
    exact h.ack hacks (by simp [World.step, hc]) nofun
  | expire n => exact h.stutter rfl rfl rfl nofun
  | unregistered n =>
    have hacked : acked (tr ++ [(w, .unregistered n)]) = acked tr := by
      rw [acked_snoc]
      simp [World.acks]
    refine ⟨?_, ?_, ?_⟩
    · rw [hacked]
      exact h.records
    · rw [AllAcked, hacked]
      exact h.ran
    · have hcalls := h.calls
      simp only [World.step, List.length_append, List.length_singleton, hcalls, unregistrations,
        List.countP_append, List.countP_singleton]
      rfl

/-- A group keeps its timeout. -/
theorem timeout_step : (w.step e).group.timeout = w.group.timeout := by
  have hack (token : τ) : (w.ack token).group.timeout = w.group.timeout := by
    simp only [World.ack, DistributedWaitGroup.ack, check]
    split_ifs <;> rfl
  cases e with
  | ack token => exact hack token
  | deliver n body =>
    rw [World.step]
    split
    · exact hack _
    · rfl
  | _ => rfl

theorem timeout_of_run (hrun : machine.Run w₀ tr w) : w.group.timeout = w₀.group.timeout :=
  hrun.inv (I := fun _ w => w.group.timeout = w₀.group.timeout) rfl fun _ _ _ ih _ =>
    timeout_step.trans ih

theorem inv (hrun : machine.Run { group := new tokens timeout } tr w) : Inv tokens tr w :=
  hrun.inv ⟨records_new, iff_of_false nofun fun h => h.1 rfl, rfl⟩ fun _ _ _ ih hcan => ih.step hcan

/-- In a run, `triggercb` and `abortcb` are called once together at most if, and only
    if, no unregistration is completed, or only one is and the tokens are not all
    acknowledged. -/
theorem exclusive_iff (hrun : machine.Run { group := new tokens timeout } tr w) :
    w.calls.length ≤ 1 ↔
      unregistrations tr = 0 ∨ unregistrations tr = 1 ∧ ¬ AllAcked tokens tr := by
  -- one call for each attachment taken back, and one if the group has been triggered
  have hinv := inv hrun
  rw [hinv.calls, ← hinv.ran]
  cases hran : w.group.ran
  · rw [Bool.toNat_false, and_iff_left Bool.false_ne_true]
    omega
  · rw [Bool.toNat_true, or_iff_left (fun h => h.2 rfl)]
    omega

/-- The timer of an attachment expires, and there are no acknowledgements. -/
theorem exclusive_expire :
    let tokens := [jstr "1", jstr "2"]
    let es : List (Event JString JString) := [.attach id, .ack (jstr "1"), .expire 0, .unregistered 0]
    let w₀ : World JString JString := { group := new tokens 100 }
    (es.foldl machine.step w₀).calls.length ≤ 1 := by
  intro tokens es w₀
  have hrun : machine.Run w₀ (machine.trace w₀ es) (es.foldl machine.step w₀) :=
    Machine.run_of_canAll (by decide +kernel)
  have hmissing : jstr "2" ∉ acked (machine.trace w₀ es) := by decide +kernel
  refine (exclusive_iff hrun).2 (.inr ⟨by decide +kernel, fun hall => hmissing (hall.2 _ ?_)⟩)
  exact List.mem_cons_of_mem _ List.mem_cons_self

/-- All tokens are acknowledged, and the timer expires: both are called. -/
theorem trigger_expire :
    let tokens := [jstr "1"]
    let es : List (Event JString JString) := [.attach id, .ack (jstr "1"), .expire 0, .unregistered 0]
    let w₀ : World JString JString := { group := new tokens 100 }
    machine.Run w₀ (machine.trace w₀ es) (es.foldl machine.step w₀) ∧
      (es.foldl machine.step w₀).calls = [.triggercb, .abortcb] := by
  intro tokens es w₀
  exact ⟨Machine.run_of_canAll (by decide +kernel), by decide +kernel⟩

/-! ## Sequences of acknowledgements -/

omit [DecidableEq τ] in
/-- `triggercb` is called when the group has run. -/
theorem toNat_ran_check (d : DistributedWaitGroup τ) :
    d.check.1.ran.toNat = d.ran.toNat + d.check.2.toNat := by
  cases hrun : d.events.entries.all (·.2) with
  | false => rw [check_of_incomplete hrun]; rfl
  | true =>
    cases hran : d.ran with
    | false => rw [check_of_complete hrun hran]; rfl
    | true => rw [check_of_ran hran]; exact congrArg Bool.toNat hran

theorem count_ack (h : w.calls.count .triggercb = w.group.ran.toNat) (token : τ) :
    (w.ack token).calls.count .triggercb = (w.ack token).group.ran.toNat := by
  have hran : (w.group.ack token).1.ran.toNat = w.group.ran.toNat + (w.group.ack token).2.toNat :=
    toNat_ran_check _
  rcases hack : w.group.ack token with ⟨group, run⟩
  rw [hack, ← h] at hran
  rw [World.ack, hack, hran]
  cases run with
  | false => rfl
  | true => exact List.count_append ..

theorem count_step (h : w.calls.count .triggercb = w.group.ran.toNat) :
    (w.step e).calls.count .triggercb = (w.step e).group.ran.toNat := by
  cases e with
  | ack token => exact count_ack h token
  | deliver n body =>
    rw [World.step]
    split
    · exact count_ack h _
    · exact h
  | attach | expire => exact h
  | unregistered n => rw [World.step, List.count_append, h]; rfl

/-- In a run, `triggercb` is called once, if all tokens have been acknowledged, and not at
    all before. -/
theorem count_triggercb (hrun : machine.Run { group := new tokens timeout } tr w) :
    w.calls.count .triggercb = w.group.ran.toNat ∧ (w.group.ran = true ↔ AllAcked tokens tr) :=
  ⟨hrun.inv (I := fun _ w => w.calls.count .triggercb = w.group.ran.toNat) rfl
    fun _ _ _ ih _ => count_step ih, (inv hrun).ran⟩

variable (β tokens timeout) in
/-- A new group after a sequence of acknowledgements. -/
def acks (l : List τ) : World β τ := l.foldl World.ack { group := new tokens timeout }

theorem acks_snoc (l : List τ) (token : τ) :
    acks β tokens timeout (l ++ [token]) = (acks β tokens timeout l).ack token := List.foldl_append ..

variable (β tokens timeout) in
theorem run_acks (l : List τ) : ∃ tr, acked tr = l ∧
    machine.Run { group := new tokens timeout } tr (acks β tokens timeout l) := by
  induction l using List.reverseRecOn with
  | nil => exact ⟨[], rfl, .nil⟩
  | append_singleton l token ih =>
    obtain ⟨tr, rfl, hrun⟩ := ih
    have hcan : machine.can (acks β tokens timeout (acked tr)) (.ack token) := trivial
    refine ⟨tr ++ [(acks β tokens timeout (acked tr), .ack token)], acked_snoc, ?_⟩
    rw [acks_snoc]
    exact hrun.snoc hcan

theorem mem_calls_acks (l : List τ) : .triggercb ∈ (acks β tokens timeout l).calls ↔
    l ≠ [] ∧ ∀ token ∈ tokens, token ∈ l := by
  obtain ⟨tr, rfl, hrun⟩ := run_acks β tokens timeout l
  obtain ⟨hcount, hran⟩ := count_triggercb hrun
  have hmem : .triggercb ∈ (acks β tokens timeout (acked tr)).calls ↔
      (acks β tokens timeout (acked tr)).group.ran = true := by
    rw [← List.count_pos_iff, hcount]
    cases (acks β tokens timeout (acked tr)).group.ran <;> simp
  exact hmem.trans hran

/-- A sequence of acknowledgements triggers once at most; it has triggered when there has
    been an acknowledgement and all tokens have been acknowledged, and not before; and
    neither the order nor the number of the acknowledgements makes a difference. -/
theorem triggers (tokens : List τ) (timeout : ℤ) (l : List τ) :
    (acks β tokens timeout l).calls.count .triggercb ≤ 1 ∧
    (∀ n, .triggercb ∈ (acks β tokens timeout (l.take n)).calls ↔
      l.take n ≠ [] ∧ ∀ token ∈ tokens, token ∈ l.take n) ∧
    ∀ l', l ≠ [] → l' ≠ [] → (∀ token, token ∈ l ↔ token ∈ l') →
      (.triggercb ∈ (acks β tokens timeout l).calls ↔
        .triggercb ∈ (acks β tokens timeout l').calls) := by
  refine ⟨?_, fun n => mem_calls_acks (l.take n), fun l' hl hl' hsame => ?_⟩
  · obtain ⟨tr, -, hrun⟩ := run_acks β tokens timeout l
    rw [(count_triggercb hrun).1]
    exact Bool.toNat_le _
  · rw [mem_calls_acks, mem_calls_acks, and_iff_right hl, and_iff_right hl']
    exact forall₂_congr fun token _ => hsame token

end

end DistributedWaitGroup

end Kvdn
