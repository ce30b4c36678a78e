import Kvdn.Callback.Termination
import Kvdn.HookChain

/-!
# Termination

A transaction opens others through its hooks, whose own hooks are called too: but these are
the metadata hook's, and open none (`steps_nested`). So a transaction takes a bounded number
of steps, whatever the environment answers, and whatever hooks its session has
(`steps_transaction`).

* `terminates`: no interleaving of any number of transactions goes on forever, or gets stuck
  before all of them have returned, or have been cut by an exception.
-/

namespace Kvdn

open Callback Callback.Prog Callback.Sem AsyncResult

/-- The steps a program takes, whatever they answer, are no more than `n`. -/
abbrev Steps {α : Type} (n : ℕ) (p : Prog α) : Prop := sem.Within (fun _ => 1) n p

/-- The hooks of a session. -/
def KvdnSession.hooks (s : KvdnSession) : ℕ := s.preHooks.length + s.postHooks.length

namespace Progress

variable {tx : KvTx} {op : Op} {g : Progress} {weight : TXNHook → ℕ}

/-- The steps of some hooks. -/
def weigh (weight : TXNHook → ℕ) (hooks : List TXNHook) : ℕ := (hooks.map weight).sum

/-- The steps that a transaction has before it, if its hooks take `weight`. -/
def rank (tx : KvTx) (weight : TXNHook → ℕ) (g : Progress) : ℕ :=
  let post := weigh weight (tx.called tx.session.postHooks)
  match g.phase with
  | .idle => 10 + weigh weight (tx.called tx.session.preHooks) + post
  | .starting hooks => 9 + weigh weight hooks + post
  | .found _ => 8 + post
  | .cleared _ => (if g.digest = none then 7 else 6) + post
  | .notifying => 5 + post
  | .decided => 4 + post
  | .finishing hooks => 3 + weigh weight hooks
  | .finished => if g.published then 1 else 2
  | .denied | .handled _ => 0

theorem rank_answered (res : AsyncResult Obj) :
    rank tx weight (g.answered op res) ≤ 5 + weigh weight (tx.called tx.session.postHooks) := by
  cases res with
  | succeededFuture x => cases hn : op.notifies <;> simp [rank, answered, hn]
  | failedFuture c => simp [rank, answered]

/-- The steps of an action, if a hook takes `weight`. -/
def cost (weight : TXNHook → ℕ) : Act → ℕ
  | .hook h _ => weight h
  | _ => 1

/-- An action takes its steps away from the rank. -/
theorem rank_step (weight : TXNHook → ℕ) {a : Act} (ha : allow tx op g a) (r : a.Res) :
    cost weight a + rank tx weight (g.step tx op a r) ≤ rank tx weight g := by
  cases a with
  | dirty txid =>
    simp only [rank, ha.1, cost]
    cases (r : Bool) <;> simp only [Progress.step, Bool.false_eq_true, if_false, if_true] <;> omega
  | hook nxt tx' =>
    obtain ⟨⟨hooks, hg | hg⟩, -⟩ := ha
    · rw [step_hook_starting hg]
      simp only [rank, hg, cost, weigh, List.map_cons, List.sum_cons]
      omega
    · rw [step_hook_finishing hg]
      simp only [rank, hg, cost, weigh, List.map_cons, List.sum_cons]
      omega
  | getMap D sa =>
    simp only [rank, ha.1, cost]
    cases (r : AsyncResult AsyncMap) <;> simp only [Progress.step, weigh] <;> omega
  | checkFlags sessionid mode =>
    obtain ⟨⟨map, hg⟩, -⟩ := ha
    rw [step_checkFlags hg]
    simp only [rank, hg, cost]
    cases (r : Bool) with
    | true =>
      simp only [if_true]
      split_ifs <;> omega
    | false =>
      simp only [Bool.false_eq_true, if_false]
      omega
  | digest bytes =>
    obtain ⟨⟨map, hg⟩, hdigest, -⟩ := ha
    simp only [Progress.step, rank, hg, cost, hdigest, if_true, reduceCtorEq, if_false]
    omega
  -- at most five steps follow the call of the map, and six were left before it
  | put | get | remove | clear | size =>
    obtain ⟨map, hg, -⟩ := ha
    refine (Nat.add_le_add_left (rank_answered r) 1).trans ?_
    simp only [rank, hg]
    split_ifs <;> omega
  | getKeys p sa =>
    refine (Nat.add_le_add_left (rank_answered r) 1).trans ?_
    simp only [rank, ha.1]
    omega
  | setKey | deleteKey =>
    simp only [Progress.step, rank, ha.1, cost]
    omega
  | untrack sessionid txid =>
    simp only [Progress.step, rank, ha.1, cost]
    omega
  | accessPut sa txid | accessPutIfAbsent sa =>
    have hrest : rank tx weight { g with phase := .finished } ≤ 2 := by
      cases g.published <;> simp [rank]
    refine (Nat.add_le_add_left hrest 1).trans ?_
    simp only [rank, ha.1]
    omega
  | publish e =>
    obtain ⟨hg, -, hpublished, -⟩ := ha
    simp [Progress.step, rank, hg, cost, hpublished]
  | handle txid res =>
    simp only [Progress.step, rank, ha.1, cost]
    split_ifs <;> omega
  | commit | newTx | op | cacheContains | cacheAdd | cacheRemove => exact ha.elim

end Progress

section

variable {α : Type} {tx : KvTx} {op : Op} {n : ℕ}

theorem steps_act {a : Act} {k : a.Res → Prog α} (hb : sem.body a = none)
    (hk : ∀ r, Steps n (k r)) : Steps (1 + n) (.act a k) :=
  .prim hb fun _ r _ => hk r

theorem steps_perform {a : Act} (hb : sem.body a = none) : Steps 1 (perform a) :=
  steps_act hb fun r => .ret 0 r

theorem steps_body {a : Act} {q : Prog a.Res} (hb : sem.body a = some q) (hq : Steps n q) :
    Steps (1 + n) (perform a) := by
  have hbind : q.bind .ret = q := bind_ret q
  exact .body hb (hbind.symm ▸ hq)

/-- An operation takes ten steps at most, and those of the hooks that are called for it. -/
theorem steps_run (weight : TXNHook → ℕ)
    (hhook : ∀ h, (h = .StoreMetaKVHook → tx.strAddr ≠ METADATA_MAP) →
      Steps (weight h) (perform (.hook h (tx.started op)))) :
    Steps (10 + Progress.weigh weight (tx.called tx.session.preHooks) +
      Progress.weigh weight (tx.called tx.session.postHooks)) (tx.run op) := by
  refine Within.of_rank (I := fun g => g.Sound tx op) (Progress.rank tx weight)
    (fun g a hsound ha => ?_) (Progress.holds_run tx op) Progress.sound_init
  have hrank := Progress.rank_step weight ha
  refine ⟨Progress.cost weight a, (Nat.le_add_right ..).trans (hrank (World.succeed {} a)), ?_,
    fun r => ⟨_, rfl, hsound.step ha, hrank r⟩⟩
  cases a with
  | hook h tx' =>
    obtain ⟨-, hne⟩ := session_of_hook hsound ha
    obtain rfl := ha.2
    exact hhook h hne
  | newTx | op => exact ha.elim
  | _ => exact steps_perform rfl

theorem weigh_le (tx : KvTx) (weight : TXNHook → ℕ) (hweight : ∀ h, weight h ≤ n)
    (hooks : List TXNHook) :
    Progress.weigh weight (tx.called hooks) ≤ n * hooks.length := by
  have hlength : (tx.called hooks).length ≤ hooks.length := List.length_filter_le ..
  have hsum : Progress.weigh weight (tx.called hooks) ≤ n * (tx.called hooks).length := by
    have hcard := List.sum_le_card_nsmul ((tx.called hooks).map weight) n fun m hm => by
      obtain ⟨h, -, rfl⟩ := List.mem_map.1 hm
      exact hweight h
    rwa [List.length_map, nsmul_eq_mul, Nat.cast_id, mul_comm] at hcard
  exact hsum.trans (Nat.mul_le_mul_left n hlength)

/-- The hooks but the metadata hook take two steps at most, and so does the metadata hook for
    a transaction that has nothing to do with the index. -/
theorem steps_hook {h : TXNHook} (hquiet : h = .StoreMetaKVHook → tx.Quiet) :
    Steps 2 (perform (.hook h tx)) := by
  show Steps (1 + 1) _
  cases h with
  | StoreMetaKVHook =>
    refine steps_body (a := .hook .StoreMetaKVHook tx) (q := StoreMetaKVHook.call tx) rfl ?_
    obtain ⟨hset, hsubmit, hdel⟩ := hquiet rfl
    unfold StoreMetaKVHook.call
    split
    · exact absurd ‹_› hset
    · exact absurd ‹_› hsubmit
    · exact absurd ‹_› hdel
    · exact .ret 1 _
  | MapdbPostTXHook =>
    exact steps_body (a := .hook .MapdbPostTXHook tx) (q := MapdbPostTXHook.call) rfl
      (steps_perform rfl)
  | other m type => exact (steps_perform rfl).mono (by omega)

/-- The transactions that the metadata hook opens. -/
theorem steps_nested (hop : op.mutates = false ∨ tx.strAddr = METADATA_MAP) :
    Steps (10 + 2 * tx.session.hooks) (tx.run op) := by
  refine (steps_run (fun _ => 2) fun h hh => steps_hook fun heq => ?_).mono ?_
  · have hreads := hop.resolve_right (hh heq)
    cases op with
    | get | getKeys | size => exact ⟨by rintro ⟨⟩, by rintro ⟨⟩, by rintro ⟨⟩⟩
    | _ => cases hreads
  · have hpre := weigh_le tx (fun _ => 2) (fun _ => le_rfl) tx.session.preHooks
    have hpost := weigh_le tx (fun _ => 2) (fun _ => le_rfl) tx.session.postHooks
    rw [KvdnSession.hooks]
    omega

/-! ## The metadata hook -/

/-- The steps of a nested transaction. -/
def KvdnSession.nestedSteps (s : KvdnSession) : ℕ := 10 + 2 * s.hooks

/-- A nested transaction that is opened and called. -/
theorem steps_transaction_nested {s : KvdnSession} {sa : JString} {f : KvTx → AsyncResult Obj → Prog α}
    (hop : op.mutates = false ∨ sa = METADATA_MAP) (hf : ∀ mtx res, Steps n (f mtx res)) :
    Steps (2 + s.nestedSteps + n) ((s.newTx sa).bind fun mtx => .act (.op mtx op) (f mtx)) := by
  unfold KvdnSession.newTx
  split_ifs
  · have hrest (mtx : KvTx) (hmtx : mtx.session = s ∧ mtx.strAddr = sa) :
        Steps (1 + (s.nestedSteps + n)) (.act (.op mtx op) (f mtx)) := by
      obtain ⟨rfl, rfl⟩ := hmtx
      exact .body (a := Act.op mtx op) rfl ((steps_nested hop).bind (hf mtx))
    have hnew : Steps (1 + (1 + (s.nestedSteps + n)))
        (.act (.newTx s sa) fun mtx => .act (.op mtx op) (f mtx)) :=
      .prim rfl fun _ mtx hmtx => hrest mtx (located_of_ok (a := .newTx s sa) hmtx)
    exact hnew.mono (by omega)
  · exact .throw _ _

theorem steps_storeMeta : Steps (4 + tx.session.nestedSteps) (StoreMetaKVHook.storeMeta tx) := by
  simp only [StoreMetaKVHook.storeMeta, bind_eq, perform_bind]
  refine Within.mono (m := 4 + tx.session.nestedSteps)
    (steps_act (n := 2 + tx.session.nestedSteps + 1) rfl fun cached => ?_) (by omega)
  cases (cached : Bool) with
  | true => exact .ret _ _
  | false =>
    refine steps_transaction_nested (.inr rfl) fun mtx res => ?_
    cases (res : AsyncResult Obj) with
    | failedFuture c => exact .ret _ _
    | succeededFuture x => exact steps_act (n := 0) rfl fun _ => .ret 0 _

theorem steps_remove : Steps (3 + tx.session.nestedSteps) (StoreMetaKVHook.remove tx) := by
  simp only [StoreMetaKVHook.remove, bind_eq]
  refine Within.mono (steps_transaction_nested (n := 1) (.inr rfl) fun mtx res => ?_) (by omega)
  cases (res : AsyncResult Obj) with
  | failedFuture c => exact .ret _ _
  | succeededFuture x => exact steps_act (n := 0) rfl fun _ => .ret 0 _

theorem steps_checkIfEmpty :
    Steps (6 + 2 * tx.session.nestedSteps) (StoreMetaKVHook.checkIfEmpty tx) := by
  simp only [StoreMetaKVHook.checkIfEmpty, bind_eq, perform_bind]
  refine Within.mono (steps_act (n := 2 + tx.session.nestedSteps + (3 + tx.session.nestedSteps))
    rfl fun cached => ?_) (by omega)
  cases (cached : Bool) with
  | false => exact .ret _ _
  | true =>
    refine steps_transaction_nested (.inl (rfl : Op.size.mutates = false)) fun ktx res => ?_
    cases (res : AsyncResult Obj) with
    | failedFuture c => exact .ret _ _
    | succeededFuture x =>
      by_cases hx : x = .int 0
      · simp only [hx, if_true]
        exact steps_remove
      · simp only [hx, if_false]
        exact .ret _ _

/-- The steps of a hook. -/
def KvdnSession.hookSteps (s : KvdnSession) : ℕ := 7 + 2 * s.nestedSteps

theorem steps_call (tx : KvTx) (h : TXNHook) : Steps tx.session.hookSteps (perform (.hook h tx)) := by
  rw [KvdnSession.hookSteps]
  by_cases hh : h = .StoreMetaKVHook
  · subst hh
    refine Within.mono (steps_body (a := .hook .StoreMetaKVHook tx) (n := 6 + 2 * tx.session.nestedSteps)
      (q := StoreMetaKVHook.call tx) rfl ?_) (by omega)
    unfold StoreMetaKVHook.call
    split
    · exact steps_storeMeta.mono (by omega)
    · exact steps_storeMeta.mono (by omega)
    · exact steps_checkIfEmpty
    · exact .ret _ _
  · exact (steps_hook fun heq => absurd heq hh).mono (by omega)

/-! ## Requests -/

/-- The steps of a transaction. -/
def KvdnSession.txSteps (s : KvdnSession) : ℕ := 11 + s.hooks * s.hookSteps

theorem steps_transaction (c : Request) : Steps c.session.txSteps c.transaction := by
  simp only [Request.transaction, KvdnSession.newTx, bind_eq]
  split_ifs
  · have hrun (tx : KvTx) (hs : tx.session = c.session) :
        Steps (10 + c.session.hooks * c.session.hookSteps) (tx.run c.op) := by
      rw [← hs]
      refine (steps_run (fun _ => tx.session.hookSteps) fun h _ =>
        steps_call (tx.started c.op) h).mono ?_
      have hpre := weigh_le tx (fun _ => tx.session.hookSteps) (fun _ => le_rfl)
        tx.session.preHooks
      have hpost := weigh_le tx (fun _ => tx.session.hookSteps) (fun _ => le_rfl)
        tx.session.postHooks
      have hsum : tx.session.hooks * tx.session.hookSteps =
          tx.session.hookSteps * tx.session.preHooks.length +
            tx.session.hookSteps * tx.session.postHooks.length := by
        rw [KvdnSession.hooks, mul_comm, mul_add]
      omega
    have hnew : Steps (1 + (10 + c.session.hooks * c.session.hookSteps))
        (.act (.newTx c.session c.strAddr) fun tx => tx.run c.op) :=
      .prim rfl fun _ tx htx => hrun tx (located_of_ok (a := .newTx c.session c.strAddr) htx).1
    exact hnew.mono (by rw [KvdnSession.txSteps]; omega)
  · exact .throw _ _

/-- No interleaving of transactions takes more steps than they are bounded by, whatever the
    environment answers and whatever hooks their sessions have; and one that cannot go on has
    brought all of them to their ends. -/
theorem terminates {ι : Type} [Fintype ι] [DecidableEq ι] (c : ι → Request) (w : World)
    (f : ℕ → World × (ι → Prog (AsyncResult Obj))) (hf : f 0 = (w, fun i => (c i).transaction))
    (n : ℕ) (hsteps : ∀ m < n, sem.PoolStep (f m) (f (m + 1))) :
    n ≤ ∑ i, (c i).session.txSteps ∧
      ((∀ s, ¬ sem.PoolStep (f n) s) → ∀ i, ((f n).2 i).Finished) := by
  refine ⟨Within.length_le (fun i => ?_) hsteps, fun hstuck i => ?_⟩
  · rw [hf]
    exact steps_transaction (c i)
  · exact finished_of_stuck (fun w a _ => ⟨w.succeed a, w.ok_succeed a⟩) hstuck i

/-- A `set`, with its metadata transaction, and a `del`, in turn, to the end. -/
theorem terminates_two :
    let c : Bool → Request := fun i =>
      { session := .inMemory 0, strAddr := jstr "a",
        op := if i then .set (jstr "k") (jstr "v") else .del (jstr "k") }
    ∃ f : ℕ → World × (Bool → Prog (AsyncResult Obj)), f 0 = ({}, fun i => (c i).transaction) ∧
      (∀ m < 36, sem.PoolStep (f m) (f (m + 1))) ∧ (∀ s, ¬ sem.PoolStep (f 36) s) ∧
        36 ≤ ∑ i, (c i).session.txSteps ∧ ∀ i, ((f 36).2 i).Finished := by
  intro c
  let is := (List.replicate 12 [true, false]).flatten ++ List.replicate 12 true
  let s₀ : List (Bool × Step) × World × (Bool → Prog (AsyncResult Obj)) :=
    ([], {}, fun i => (c i).transaction)
  let f (m : ℕ) := (sem.schedule World.succeed (is.take m) s₀).2
  have hsteps : ∀ m < 36, sem.PoolStep (f m) (f (m + 1)) := fun m hm =>
    poolStep_of_busy World.ok_succeed (by decide +kernel) hm
  have hfinished : ∀ i, ((f 36).2 i).Finished := fun i =>
    finished_of_value (by revert i; decide +kernel)
  have hstuck := not_poolStep_of_finished (S := sem) hfinished
  obtain ⟨hle, hends⟩ := terminates c {} f rfl 36 hsteps
  exact ⟨f, rfl, hsteps, hstuck, hle, hends hstuck⟩

end

end Kvdn
