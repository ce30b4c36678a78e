import Kvdn.Callback.Debts
import Kvdn.Hooks

/-!
# The events of the transactions

A transaction whose call has changed its map owes an event (`eventDebts`), which it
publishes after its post hooks; so do the transactions that its hooks open. All of
them pay what they owe (`follows_of_pool`), whatever fails, in any interleaving.

What the hooks of the repository do between the two neither incurs nor pays anything
but the debts of their own transactions; this is said once for debts of any kind
(`verified_of_run`).
-/

namespace Kvdn

open Callback Callback.Prog AsyncResult

/-! ## Debts of transactions -/

section

variable {δ : Type} {D : Debts Act.Res δ} {s : KvdnSession} {owed : List δ}

/-- The outline of the transactions of a session, and of their hooks. -/
abbrev debtOutline (D : Debts Act.Res δ) (s : KvdnSession) : Outline Act.Res Exn (List δ) :=
  D.outline (Permits s) Located

/-- The debts are not of the hooks. -/
def HookFree (D : Debts Act.Res δ) : Prop :=
  ∀ a r, a.isHooks = true → D.incur a r = none ∧ D.pay a = none

theorem HookFree.transparent (hD : HookFree D) :
    Transparent (debtOutline D s) s fun owed owed' => owed' = owed where
  refl _ := rfl
  trans _ _ _ h₁ h₂ := h₂.trans h₁
  allow owed a ha hn := by
    refine ⟨hn.permits ha, fun d hd => ?_⟩
    have hnone (r : a.Res) : D.pay a = none := (hD a r ha).2
    cases a with
    | cacheContains tx => cases (hnone false).symm.trans hd
    | newTx s sa => cases (hnone { txid := 0, session := s, strAddr := sa }).symm.trans hd
    | cacheAdd | cacheRemove => cases (hnone ()).symm.trans hd
    | commit | hook | op => cases (hnone (succeededFuture .null)).symm.trans hd
    | _ => cases ha
  next owed a r owed' ha h := by
    obtain ⟨hi, hp⟩ := hD a r ha
    exact ⟨h.1, h.2.trans (Debts.step_of_none hi hp)⟩
  throws _ _ := trivial

/-- If the operations leave the debts of others alone, then so do the hooks. -/
theorem verified_of_run (hD : HookFree D)
    (hrun : ∀ (tx : KvTx) (o : Op) (owed : List δ), tx.session = s →
      (tx.run o).Holds (debtOutline D s) (fun owed' _ => owed' = owed) owed) :
    (debtOutline D s).Verified sem := by
  intro a q hb owed ha
  have hnext (ha : a.isHooks = true) (hk : ∀ r, Located a r) {q : Prog a.Res}
      (hq : q.Holds (debtOutline D s) (fun owed' _ => owed' = owed) owed) :
      q.Holds (debtOutline D s) (fun owed' r => (debtOutline D s).next owed a r owed') owed :=
    hq.mono fun owed' r howed =>
      ⟨hk r, howed.trans (Debts.step_of_none (hD a r ha).1 (hD a r ha).2).symm⟩
  cases a with
  | hook h tx =>
    refine hnext rfl (fun _ => trivial) ?_
    cases h with
    | StoreMetaKVHook =>
      obtain rfl : StoreMetaKVHook.call tx = q := Option.some.inj hb
      exact hD.transparent.holds_call ha.1 owed
    | MapdbPostTXHook =>
      obtain rfl : MapdbPostTXHook.call = q := Option.some.inj hb
      exact ⟨hD.transparent.allow owed .commit rfl trivial, fun r owed' h =>
        (hD.transparent.next owed .commit r owed' rfl h).2⟩
    | other n type => exact nomatch hb
  | op tx o =>
    obtain rfl : tx.run o = q := Option.some.inj hb
    exact hnext rfl (fun _ => trivial) (hrun tx o owed ha.1)
  | _ => exact nomatch hb

end

/-! ## Events -/

/-- The event owed by a successful change of a map, and paid by its publication. -/
def eventDebts : Debts Act.Res Event where
  incur
    | .put m key _, (r : AsyncResult Obj) =>
      if r.succeeded then some ⟨KvTx.writeChannel m.name, some key⟩ else none
    | .remove m key, (r : AsyncResult Obj) =>
      if r.succeeded then some ⟨KvTx.deleteChannel m.name, some key⟩ else none
    | .clear m, (r : AsyncResult Obj) =>
      if r.succeeded then some ⟨KvTx.clearChannel m.name, none⟩ else none
    | _, _ => none
  pay
    | .publish e => some e
    | _ => none

theorem hookFree_eventDebts : HookFree eventDebts := by
  intro a r ha
  cases a with
  | cacheContains | cacheAdd | cacheRemove | commit | newTx | hook | op => exact ⟨rfl, rfl⟩
  | _ => exact nomatch ha

theorem incur_eq_none_of_pay (a : Act) (r : a.Res) (h : eventDebts.pay a ≠ none) :
    eventDebts.incur a r = none := by
  cases a with
  | publish e => rfl
  | _ => exact absurd rfl h

namespace Progress

variable {tx : KvTx} {op : Op} {g : Progress} {base owed : List Event}

/-- The event a transaction still owes. -/
def pending (tx : KvTx) (op : Op) (g : Progress) : List Event :=
  match g.outcome with
  | .called _ => if g.published then [] else (op.event tx.strAddr g.digest).toList
  | _ => []

/-- What is owed while a transaction runs: its event, and what was owed before. -/
structure Owes (tx : KvTx) (op : Op) (base : List Event) (g : Progress) (owed : List Event) :
    Prop where
  sound : g.Sound tx op
  owed : owed = pending tx op g ++ base
  map : ∀ m, g.phase.map = some m → m = ⟨tx.session.D.space, tx.strAddr⟩
  published : g.published = true → g.Called
  handled : ∀ res, g.phase = .handled res → pending tx op g = []

theorem pending_of_open (h : g.outcome = .open) : pending tx op g = [] := by
  rw [pending, h]

theorem owes_init : Owes tx op base {} base :=
  ⟨sound_init, rfl, fun _ hm => (nomatch hm), fun hp => (nomatch hp), fun _ _ => rfl⟩

/-- A step that neither incurs nor pays. -/
theorem Owes.stutter (h : Owes tx op base g owed) {a : Act} {r : a.Res}
    (hi : eventDebts.incur a r = none) (hp : eventDebts.pay a = none) {g' : Progress}
    (hsound : g'.Sound tx op) (hpending : pending tx op g' = pending tx op g) (hpublished : g'.published = true → g'.Called)
    (hmap : ∀ m, g'.phase.map = some m → m = ⟨tx.session.D.space, tx.strAddr⟩)
    (hhandled : ∀ res, g'.phase ≠ .handled res) :
    Owes tx op base g' (eventDebts.step owed ⟨a, r⟩) where
  sound := hsound
  owed := by rw [Debts.step_of_none hi hp, hpending, h.owed]
  map := hmap
  published := hpublished
  handled res hres := absurd hres (hhandled res)

/-- The answer of the call. -/
theorem Owes.answered (h : Owes tx op base g owed) (hopen : g.outcome = .open) {a : Act} {r : a.Res}
    (res : AsyncResult Obj) (hp : eventDebts.pay a = none)
    (hi : eventDebts.incur a r =
      if res.succeeded then op.event tx.strAddr g.digest else none) :
    Owes tx op base (g.answered op res) (eventDebts.step owed ⟨a, r⟩) := by
  have hpublished : g.published = false := by
    by_contra hne
    obtain ⟨x, hx⟩ := h.published (Bool.eq_true_of_not_eq_false hne)
    exact nomatch hopen.symm.trans hx
  have howed : owed = base := by rw [h.owed, pending_of_open hopen, List.nil_append]
  cases res with
  | failedFuture c =>
    refine ⟨sound_answered, ?_, fun _ hm => (nomatch hm), fun hpub => (nomatch hpublished.symm.trans hpub),
      fun _ hres => (nomatch hres)⟩
    rw [Debts.step_of_none hi hp, howed]
    rfl
  | succeededFuture x =>
    refine ⟨sound_answered, ?_, fun m hm => ?_, fun _ => ⟨x, rfl⟩, fun res hres => ?_⟩
    · have hpending : pending tx op (g.answered op (succeededFuture x)) =
          (op.event tx.strAddr g.digest).toList := by
        simp [pending, Progress.answered, hpublished]
      rw [hpending, howed]
      cases he : op.event tx.strAddr g.digest with
      | none => exact Debts.step_of_none (hi.trans he) hp
      | some e => exact Debts.step_of_incur (hi.trans he)
    · cases hn : op.notifies <;> simp [Progress.answered, hn, Phase.map] at hm
    · cases hn : op.notifies <;> simp [Progress.answered, hn] at hres

theorem event_of_mutates (h : op.mutates = false) (sa : JString) (digest : Option JString) :
    op.event sa digest = none := by
  cases op with
  | get | getKeys | size => rfl
  | _ => exact nomatch h

/-- The call of an operation incurs its event, if it succeeds. -/
theorem incur_of_call {digest : Option JString} {m : AsyncMap} {a : Act} {r : a.Res}
    {res : AsyncResult Obj} (hcall : op.call digest m = some a) (hr : a.answer r = some res) :
    eventDebts.incur a r = if res.succeeded then op.event m.name digest else none := by
  cases op with
  | submit content =>
    obtain ⟨key, rfl, rfl⟩ := Option.map_eq_some_iff.1 hcall
    obtain rfl := Option.some.inj hr
    rfl
  | set | clear | del =>
    obtain rfl := Option.some.inj hcall
    obtain rfl := Option.some.inj hr
    rfl
  | get | size =>
    obtain rfl := Option.some.inj hcall
    exact (ite_self none).symm
  | getKeys => cases hcall

/-- What is owed moves with the progress of a transaction. -/
theorem Owes.step (h : Owes tx op base g owed) {a : Act} {r : a.Res} (ha : allow tx op g a)
    (hk : Located a r) : Owes tx op base (g.step tx op a r) (eventDebts.step owed ⟨a, r⟩) := by
  have hsound : (g.step tx op a r).Sound tx op := h.sound.step ha
  have hmap : FindsOwn tx (g.step tx op a r) := FindsOwn.step h.map ha hk
  have hcall : g.Calls op a → _ := FindsOwn.call h.map
  have hfailed (hopen : g.outcome = .open) : ¬ g.published = true := fun hp => by
    obtain ⟨x, hx⟩ := h.published hp
    cases hopen.symm.trans hx
  cases a with
  | dirty txid =>
    refine h.stutter rfl rfl hsound rfl h.published hmap fun res => ?_
    cases (r : Bool) <;> rintro ⟨⟩
  | hook nxt tx' =>
    obtain ⟨⟨hooks, hg | hg⟩, -⟩ := ha
    · rw [step_hook_starting hg] at hsound hmap ⊢
      exact h.stutter rfl rfl hsound rfl h.published hmap fun _ hres => by cases hres
    · rw [step_hook_finishing hg] at hsound hmap ⊢
      exact h.stutter rfl rfl hsound rfl h.published hmap fun _ hres => by cases hres
  | getMap D sa =>
    obtain ⟨-, hopen, -⟩ := ha
    cases (r : AsyncResult AsyncMap) with
    | succeededFuture map =>
      exact h.stutter rfl rfl hsound rfl h.published hmap fun _ hres => by cases hres
    | failedFuture c =>
      exact h.stutter rfl rfl hsound (pending_of_open hopen).symm
        (fun hp => absurd hp (hfailed hopen)) hmap fun _ hres => by cases hres
  | checkFlags sessionid mode =>
    obtain ⟨⟨map, hg⟩, hopen, -⟩ := ha
    rw [step_checkFlags hg] at hsound hmap ⊢
    cases (r : Bool) with
    | true => exact h.stutter rfl rfl hsound rfl h.published hmap fun _ hres => by cases hres
    | false =>
      exact h.stutter rfl rfl hsound (pending_of_open hopen).symm
        (fun hp => absurd hp (hfailed hopen)) hmap fun _ hres => by cases hres
  | digest bytes =>
    obtain ⟨⟨map, hg⟩, -⟩ := ha
    have hopen : g.outcome = .open := by
      have hs := h.sound
      rw [Sound, hg] at hs
      exact hs
    refine h.stutter rfl rfl hsound ?_ h.published hmap fun res hres => ?_
    · rw [pending_of_open hopen]
      exact pending_of_open hopen
    · cases hg.symm.trans hres
  | put | remove | clear | get | size =>
    obtain ⟨hopen, hcall⟩ := hcall ha
    exact h.answered hopen r rfl (incur_of_call hcall rfl)
  | getKeys p sa =>
    obtain ⟨-, hopen, rfl, -⟩ := ha
    exact h.answered hopen r rfl (ite_self none).symm
  | setKey | deleteKey | untrack | accessPut | accessPutIfAbsent =>
    exact h.stutter rfl rfl hsound rfl h.published hmap fun _ hres => by cases hres
  | publish e =>
    -- pending since the call has succeeded, the event is paid
    obtain ⟨hg, hcalled, hpublished, hevent⟩ := ha
    obtain ⟨x, hx⟩ := id hcalled
    have hpending : pending tx op g = [e] := by simp [pending, hx, hpublished, hevent]
    have hpaid : pending tx op (g.step tx op (.publish e) r) = [] := by
      simp [pending, Progress.step, hx]
    refine ⟨hsound, ?_, h.map, fun _ => hcalled, fun _ _ => hpaid⟩
    rw [Debts.step_of_pay rfl rfl, h.owed, hpending, hpaid]
    rfl
  | handle txid res =>
    -- what has not been published by now is never owed
    obtain ⟨hg, -, -, hpublished⟩ := ha
    have hpending : pending tx op g = [] := by
      unfold pending
      split
      · rename_i x hx
        split
        · rfl
        · rename_i hnot
          have hmut : op.mutates = false := by
            by_contra hne
            exact hnot (hpublished.2 ⟨⟨x, hx⟩, Bool.eq_true_of_not_eq_false hne⟩)
          rw [event_of_mutates hmut]
          rfl
      · rfl
    refine ⟨hsound, ?_, hmap, h.published, fun _ _ => hpending⟩
    rw [Debts.step_of_none rfl rfl, h.owed]
    rfl
  | commit | newTx | op | cacheContains | cacheAdd | cacheRemove => exact ha.elim

/-- A transaction pays what is owed, when it pays. -/
theorem Owes.allow (h : Owes tx op base g owed) {a : Act} (ha : allow tx op g a) :
    (debtOutline eventDebts tx.session).allow owed a := by
  have hspace {m : AsyncMap} (hcalls : g.Calls op a) (htarget : a.target = some m) :
      m.space = tx.session.D.space := by
    obtain ⟨map, hg, -, hcall⟩ := hcalls
    rcases Op.target_of_call hcall with hnone | hmap
    · exact nomatch htarget.symm.trans hnone
    · obtain rfl : m = map := Option.some.inj (htarget.symm.trans hmap)
      rw [h.map m (by rw [hg]; rfl)]
  cases a with
  | put | remove | clear => exact ⟨hspace ha rfl, nofun⟩
  | hook nxt tx' =>
    obtain ⟨-, rfl⟩ := ha
    exact ⟨rfl, nofun⟩
  | publish e =>
    obtain ⟨-, ⟨x, hx⟩, hpublished, hevent⟩ := ha
    refine ⟨trivial, fun d hd => ?_⟩
    obtain rfl : e = d := Option.some.inj hd
    rw [h.owed]
    simp [pending, hx, hpublished, hevent]
  | op => exact ha.elim
  | _ => exact ⟨trivial, nofun⟩

end Progress

/-- A transaction pays for its event, and leaves what else is owed. -/
theorem holds_run_debts (tx : KvTx) (op : Op) (owed : List Event) :
    (tx.run op).Holds (debtOutline eventDebts tx.session) (fun owed' _ => owed' = owed) owed := by
  refine (Progress.holds_run tx op).refine (Progress.Owes tx op owed)
    (fun g owed' a h ha => h.allow ha)
    (fun g owed' a r owed'' h ha hnext => ⟨_, rfl, hnext.2 ▸ h.step ha hnext.1⟩)
    (fun _ _ _ _ _ => trivial) (fun g owed' res h hdone => ?_) Progress.owes_init
  rw [h.owed, h.handled res hdone, List.nil_append]

theorem verified_eventDebts (s : KvdnSession) : (debtOutline eventDebts s).Verified sem :=
  verified_of_run hookFree_eventDebts fun tx o owed hs => hs ▸ holds_run_debts tx o owed

section

variable {ι : Type} [DecidableEq ι] {txs : ι → KvTx} {ops : ι → Op} {w₀ w : World}
  {tr : List (ι × Step)} {ps : ι → Prog (AsyncResult Obj)}

/-- In all interleavings of transactions, every one of them honours its debts, and owes
    nothing at its end. -/
theorem follows_of_pool (h : sem.Pool w₀ (fun i => (txs i).run (ops i)) tr w ps) (i : ι) :
    eventDebts.Follows (Permits (txs i).session) Located (Sem.own i tr) ∧
      (ps i).Holds (debtOutline eventDebts (txs i).session) (fun owed _ => owed = [])
        (eventDebts.owed (Sem.own i tr)) :=
  Debts.follows_of_pool (fun i => verified_eventDebts (txs i).session)
    (fun _ _ _ _ hok => located_of_ok hok) h (fun i => holds_run_debts (txs i) (ops i) []) i

/-- No transaction is in progress: it has not been invoked, or has come to its end. -/
def Quiescent (tr : List (ι × Step)) (ps : ι → Prog (AsyncResult Obj)) : Prop :=
  ∀ i, Sem.own i tr = [] ∨ ∃ res, ps i = .ret res

/-- Nothing is outstanding when no transaction is in progress. -/
theorem outstanding_of_quiescent (h : sem.Pool w₀ (fun i => (txs i).run (ops i)) tr w ps)
    (hquiet : Quiescent tr ps) : eventDebts.outstanding tr = [] := by
  refine Debts.outstanding_eq_nil (fun i => (follows_of_pool h i).1.honours) fun i => ?_
  rcases hquiet i with hnil | ⟨res, hres⟩
  · rw [hnil]
    rfl
  · have hdone := (follows_of_pool h i).2
    rw [hres] at hdone
    exact hdone

/-- The changes made to the maps have been published, each once. -/
theorem incurred_perm_paid (h : sem.Pool w₀ (fun i => (txs i).run (ops i)) tr w ps)
    (hquiet : Quiescent tr ps) : (eventDebts.incurred tr).Perm (eventDebts.paid tr) := by
  have hperm := Debts.incurred_perm (fun i => (follows_of_pool h i).1.honours) incur_eq_none_of_pay
  rwa [outstanding_of_quiescent h hquiet, List.map_nil, List.append_nil] at hperm

/-- What is published, is paid. -/
theorem published_eff (w : World) (a : Act) (r : a.Res) :
    (w.eff a r).published = w.published ++ (eventDebts.pay a).toList := by
  by_cases hpublish : ∃ e, a = .publish e
  · obtain ⟨e, rfl⟩ := hpublish
    rfl
  · rw [World.published_eff fun e he => hpublish ⟨e, he⟩]
    cases a with
    | publish e => exact absurd ⟨e, rfl⟩ hpublish
    | _ => exact (List.append_nil _).symm

theorem published_of_pool {ps₀ : ι → Prog (AsyncResult Obj)} (h : sem.Pool w₀ ps₀ tr w ps) :
    w.published = w₀.published ++ eventDebts.paid tr := by
  induction h with
  | init => exact (List.append_nil _).symm
  | @prim tr w ps i a r k _ _ _ _ ih =>
    rw [Debts.paid_snoc, ← List.append_assoc, ← ih]
    exact published_eff w a r
  | body i _ hi hb ih => exact ih

end

end Kvdn
