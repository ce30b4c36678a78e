import Kvdn.Callback.Bound
import Kvdn.Callback.Machine
import Kvdn.Hooks
import Mathlib.Algebra.Order.Monoid.Unbundled.Pow
import Mathlib.Data.Multiset.OrderedMonoid

/-!
# Hook chains

How a session calls its hooks: `_hookCaller` calls one hook, with a continuation that
has captured where to go on, and is left; the continuation may be called at any time, and
calls the next one. `Chain.law` tells what has been called, whenever it is looked at.

The metadata hook opens transactions, whose hooks are called in the same way: how many in
all, and that this comes to an end, is told by `within_hookCaller`, and all of this together
by `chain_law`.
-/

namespace Kvdn

open Callback Callback.Prog AsyncResult

/-! ## Chains -/

namespace Chain

/-- What a chain calls. -/
inductive Callee
  | hook (h : TXNHook)
  /-- The final handler. -/
  | cb
  deriving DecidableEq

/-- A call of `_hookCaller`, in progress. -/
structure State where
  /-- What has been called, in turn. -/
  calls : List Callee := []
  /-- The `ptr` captured by the continuation that the hook called last is to call. -/
  continuation : Option ℕ := none
  deriving DecidableEq

/-- `_hookCaller(tx, hooks, ptr, cb)`: metadata hooks are skipped on the metadata map. -/
def hookCaller (tx : KvTx) (hooks : List TXNHook) (ptr : ℕ) (c : State) : State :=
  if hptr : ptr < hooks.length then
    let nxt := hooks[ptr]
    if nxt.getType = some .META_HOOK ∧ tx.strAddr = METADATA_MAP then
      hookCaller tx hooks (ptr + 1) c
    else { calls := c.calls ++ [.hook nxt], continuation := some (ptr + 1) }
  else { calls := c.calls ++ [.cb], continuation := none }
termination_by hooks.length - ptr

variable {ι : Type} [DecidableEq ι]

/-- What happens to the chains of the transactions. -/
inductive Event (ι : Type)
  /-- `sessionPreTxHooks` or `sessionPostTxHooks` -/
  | start (i : ι)
  /-- The hook in progress calls its continuation, with any result. -/
  | resume (i : ι) (res : AsyncResult Obj)

variable (txs : ι → KvTx) (hooks : ι → List TXNHook)

/-- Any number of chains: each is started once, and the continuation that has been given
    to a hook is called once. -/
def machine : Machine (ι → State) (Event ι) where
  can w
    | .start i => (w i).calls = []
    | .resume i _ => (w i).continuation.isSome
  step w
    | .start i => Function.update w i (hookCaller (txs i) (hooks i) 0 (w i))
    | .resume i _ =>
      match (w i).continuation with
      | some ptr => Function.update w i (hookCaller (txs i) (hooks i) ptr (w i))
      | none => w

/-- How often the continuations of a chain have been called. -/
def resumed (i : ι) (tr : List ((ι → State) × Event ι)) : ℕ :=
  tr.countP fun
    | (_, .resume j _) => j = i
    | _ => false

/-- What a chain is to call, in turn. -/
def due (tx : KvTx) (hooks : List TXNHook) : List Callee := (tx.called hooks).map .hook ++ [.cb]

/-- A chain has been started. -/
def started (i : ι) (tr : List ((ι → State) × Event ι)) : Bool :=
  tr.any fun
    | (_, .start j) => j = i
    | _ => false

/-- A chain, whose continuations have been called `n` times. -/
def At (tx : KvTx) (hooks : List TXNHook) (n : ℕ) (c : State) : Prop :=
  match c.continuation with
  | some ptr => c.calls = (tx.called (hooks.take ptr)).map .hook ∧ ptr ≤ hooks.length ∧
    (tx.called (hooks.take ptr)).length = n + 1
  | none => c.calls = due tx hooks ∧ (tx.called hooks).length = n

section

variable {tx : KvTx} {l : List TXNHook} {ptr n : ℕ} {c : State}

theorem called_take_succ (hptr : ptr < l.length) : tx.called (l.take (ptr + 1)) =
    tx.called (l.take ptr) ++ if l[ptr].Skipped tx.strAddr then [] else [l[ptr]] := by
  rw [List.take_add_one, List.getElem?_eq_getElem hptr, KvTx.called, List.filter_append]
  congr 1
  by_cases hskip : l[ptr].Skipped tx.strAddr <;> simp [hskip]

/-- The next callee is called. -/
theorem at_hookCaller (hcalls : c.calls = (tx.called (l.take ptr)).map .hook)
    (hptr : ptr ≤ l.length) : At tx l (tx.called (l.take ptr)).length (hookCaller tx l ptr c) := by
  -- the induction is on the hooks that are left
  induction hleft : l.length - ptr generalizing ptr with
  | zero =>
    have hend : ¬ ptr < l.length := by omega
    obtain rfl : ptr = l.length := by omega
    rw [hookCaller, dif_neg hend]
    refine ⟨?_, by rw [List.take_length]⟩
    rw [hcalls, List.take_length]
    rfl
  | succ left ih =>
    have hlt : ptr < l.length := by omega
    have htake : tx.called (l.take (ptr + 1)) =
        tx.called (l.take ptr) ++ if l[ptr].Skipped tx.strAddr then [] else [l[ptr]] :=
      called_take_succ hlt
    rw [hookCaller, dif_pos hlt]
    by_cases hskip : l[ptr].Skipped tx.strAddr
    · rw [if_pos hskip, List.append_nil] at htake
      rw [← htake] at hcalls
      have hnext := ih hcalls (by omega) (by omega)
      rw [htake] at hnext
      exact (if_pos hskip).symm ▸ hnext
    · rw [if_neg hskip] at htake
      have hstep : At tx l (tx.called (l.take ptr)).length
          { calls := c.calls ++ [.hook l[ptr]], continuation := some (ptr + 1) } := by
        refine ⟨?_, hlt, by rw [htake, List.length_append, List.length_singleton]⟩
        rw [htake, List.map_append, hcalls]
        rfl
      exact (if_neg hskip).symm ▸ hstep

/-- What has been called is what is due, as far as the continuations have been called. -/
theorem At.calls_eq (h : At tx l n c) : c.calls = (due tx l).take (n + 1) := by
  obtain ⟨calls, _ | ptr⟩ := c
  · obtain ⟨rfl, hn⟩ := h
    rw [List.take_of_length_le]
    simp [due, hn]
  · obtain ⟨rfl, -, hn⟩ := h
    have hcalled : tx.called l = tx.called (l.take ptr) ++ tx.called (l.drop ptr) := by
      rw [KvTx.called, KvTx.called, KvTx.called, ← List.filter_append, List.take_append_drop]
    rw [due, hcalled, List.map_append, List.append_assoc, List.take_append_of_le_length]
    · exact (List.take_of_length_le (by simp [hn])).symm
    · simp [hn]

/-- A continuation is to be called, until there is one call for each hook. -/
theorem At.isSome_iff (h : At tx l n c) : c.continuation.isSome ↔ n < (tx.called l).length := by
  obtain ⟨calls, _ | ptr⟩ := c
  · obtain ⟨-, hn⟩ := h
    simp [hn]
  · obtain ⟨-, -, hn⟩ := h
    have hle : (tx.called (l.take ptr)).length ≤ (tx.called l).length :=
      ((List.take_sublist ptr l).filter _).length_le
    simp
    omega

variable {tr : List ((ι → State) × Event ι)} {w : ι → State} {txs : ι → KvTx}
  {hooks : ι → List TXNHook} {i : ι}

theorem At.calls_ne_nil (h : At tx l n c) : c.calls ≠ [] := by
  rw [h.calls_eq, due]
  cases tx.called l <;> exact nofun

variable (txs hooks) in
/-- The state of a chain after a run. -/
def Inv (i : ι) (tr : List ((ι → State) × Event ι)) (w : ι → State) : Prop :=
  if started i tr then At (txs i) (hooks i) (resumed i tr) (w i)
  else w i = {} ∧ resumed i tr = 0

/-- Another chain has moved. -/
theorem Inv.other (h : Inv txs hooks i tr w) {w' : ι → State} {e : Event ι} (hw : w' i = w i)
    (hstarted : started i (tr ++ [(w, e)]) = started i tr)
    (hresumed : resumed i (tr ++ [(w, e)]) = resumed i tr) :
    Inv txs hooks i (tr ++ [(w, e)]) w' := by
  rw [Inv, hstarted, hresumed, hw]
  exact h

theorem Inv.start (h : Inv txs hooks i tr w) (hcan : (w i).calls = []) :
    Inv txs hooks i (tr ++ [(w, .start i)]) ((machine txs hooks).step w (.start i)) := by
  have hnot : started i tr = false := by
    by_contra hstarted
    rw [Inv, if_pos (Bool.not_eq_false _ ▸ hstarted)] at h
    exact h.calls_ne_nil hcan
  rw [Inv, hnot] at h
  obtain ⟨hw, hresumed⟩ := h
  have hstarted : started i (tr ++ [(w, .start i)]) = true := by simp [started]
  have hresumed' : resumed i (tr ++ [(w, .start i)]) = 0 := by
    rw [← hresumed, resumed, List.countP_append]
    rfl
  have hat : At (txs i) (hooks i) 0 (hookCaller (txs i) (hooks i) 0 {}) :=
    at_hookCaller rfl (Nat.zero_le _)
  rw [Inv, if_pos hstarted, hresumed']
  simpa [machine, hw] using hat

theorem Inv.resume (h : Inv txs hooks i tr w) {res : AsyncResult Obj}
    (hcan : (w i).continuation.isSome) :
    Inv txs hooks i (tr ++ [(w, .resume i res)]) ((machine txs hooks).step w (.resume i res)) := by
  obtain ⟨ptr, hptr⟩ := Option.isSome_iff_exists.1 hcan
  have hstarted : started i tr = true := by
    by_contra hnot
    rw [Inv, if_neg hnot] at h
    rw [h.1] at hptr
    exact nomatch hptr
  have hstarted' : started i (tr ++ [(w, .resume i res)]) = true := by
    rw [started, List.any_append]
    exact Bool.or_eq_true_iff.2 (.inl hstarted)
  have hresumed : resumed i (tr ++ [(w, .resume i res)]) = resumed i tr + 1 := by
    simp [resumed, List.countP_append]
  rw [Inv, if_pos hstarted, At, hptr] at h
  obtain ⟨hcalls, hle, hlength⟩ := h
  have hat := at_hookCaller hcalls hle
  rw [hlength] at hat
  rw [Inv, if_pos hstarted', hresumed]
  simpa [machine, hptr] using hat

theorem inv (hrun : (machine txs hooks).Run (fun _ => {}) tr w) (i : ι) :
    Inv txs hooks i tr w := by
  refine hrun.inv (I := Inv txs hooks i) ⟨rfl, rfl⟩ fun tr w e hinv hcan => ?_
  cases e with
  | start j =>
    by_cases hj : j = i
    · subst hj
      exact hinv.start hcan
    · refine hinv.other (Function.update_of_ne (Ne.symm hj) ..) ?_ ?_
      · simp [started, hj]
      · simp [resumed, List.countP_append]
  | resume j res =>
    by_cases hj : j = i
    · subst hj
      exact hinv.resume hcan
    · obtain ⟨ptr, hptr⟩ := Option.isSome_iff_exists.1 hcan
      refine hinv.other ?_ ?_ ?_
      · simp [machine, hptr, Function.update_of_ne (Ne.symm hj)]
      · simp [started]
      · simp [resumed, List.countP_append, hj]

/-- What has been called of a chain in a run: if it has been started, the hooks in the order of
    the list, but for those skipped, and then the final handler; each when the
    continuation of the one before it has been called, and not before. -/
theorem law (hrun : (machine txs hooks).Run (fun _ => {}) tr w) (i : ι) :
    (w i).calls = (if started i tr then (due (txs i) (hooks i)).take (resumed i tr + 1) else []) ∧
      ∀ res, (machine txs hooks).can w (.resume i res) ↔
        started i tr ∧ resumed i tr < ((txs i).called (hooks i)).length := by
  have hinv := inv hrun i
  rw [Inv] at hinv
  by_cases hstarted : started i tr = true
  · rw [if_pos hstarted] at hinv
    rw [if_pos hstarted]
    exact ⟨hinv.calls_eq, fun _ => hinv.isSome_iff.trans (and_iff_right hstarted).symm⟩
  · rw [if_neg hstarted] at hinv
    rw [if_neg hstarted]
    refine ⟨by rw [hinv.1], fun _ => iff_of_false ?_ fun h => hstarted h.1⟩
    rintro hcan
    have hsome : (w i).continuation.isSome := hcan
    rw [hinv.1] at hsome
    exact nomatch hsome

omit [DecidableEq ι] in
/-- The program of a chain calls what `_hookCaller` calls, and goes on as its continuation. -/
theorem hookCaller_drop (tx : KvTx) {l : List TXNHook} {ptr : ℕ} (c : State)
    (hptr : ptr ≤ l.length) :
    (∃ h ptr', hookCaller tx l ptr c = ⟨c.calls ++ [.hook h], some ptr'⟩ ∧
      KvdnSession.hookCaller tx (l.drop ptr) =
        .act (.hook h tx) fun _ => KvdnSession.hookCaller tx (l.drop ptr')) ∨
    hookCaller tx l ptr c = ⟨c.calls ++ [.cb], none⟩ ∧
      KvdnSession.hookCaller tx (l.drop ptr) = .ret () := by
  induction hleft : l.length - ptr generalizing ptr with
  | zero =>
    have hend : ¬ ptr < l.length := by omega
    obtain rfl : ptr = l.length := by omega
    rw [hookCaller, dif_neg hend, List.drop_length]
    exact .inr ⟨rfl, rfl⟩
  | succ left ih =>
    have hlt : ptr < l.length := by omega
    rw [hookCaller, dif_pos hlt, List.drop_eq_getElem_cons hlt, KvdnSession.hookCaller]
    by_cases hskip : l[ptr].getType = some .META_HOOK ∧ tx.strAddr = METADATA_MAP
    · rw [if_pos hskip]
      simp only [if_pos hskip]
      exact ih (by omega) (by omega)
    · rw [if_neg hskip]
      simp only [if_neg hskip]
      exact .inl ⟨_, _, rfl, rfl⟩

end

end Chain

/-! ## The transactions opened -/

/-- What an action has to do with opening a transaction: the address, and the operation
    once it is called. -/
def Act.openings : Act → Multiset (JString × Option Op)
  | newTx _ sa => {(sa, none)}
  | op tx o => {(tx.strAddr, some o)}
  | _ => 0

/-- A transaction is opened, and its operation called. -/
def transaction (sa : JString) (o : Op) : Multiset (JString × Option Op) :=
  {(sa, none)} + {(sa, some o)}

/-- A transaction that has nothing to do with the index. -/
def KvTx.Quiet (tx : KvTx) : Prop :=
  tx.type ≠ some .KV_SET ∧ tx.type ≠ some .KV_SUBMIT ∧ tx.type ≠ some .KV_DEL

/-- The transactions the metadata hook opens at most for a transaction. -/
def KvTx.opens (tx : KvTx) : Multiset (JString × Option Op) :=
  transaction tx.strAddr .size + transaction METADATA_MAP
    (if tx.type = some .KV_DEL then .del tx.strAddr else .set tx.strAddr (jstr "1"))

section

variable {α : Type} {tx tx' : KvTx} {op : Op} {h : TXNHook} {n : Multiset (JString × Option Op)}

theorem within_act {a : Act} {k : a.Res → Prog α} (hb : sem.body a = none) (ha : a.openings = 0)
    (hk : ∀ r, sem.Within Act.openings n (k r)) : sem.Within Act.openings n (.act a k) := by
  have hact := Sem.Within.prim hb fun _ r _ => hk r
  rwa [ha, zero_add] at hact

theorem within_body {a : Act} {q : Prog a.Res} (hb : sem.body a = some q) (ha : a.openings = 0)
    (hq : sem.Within Act.openings n q) : sem.Within Act.openings n (perform a) := by
  have hbind : q.bind .ret = q := bind_ret q
  have hact := Sem.Within.body (k := .ret) hb (hbind.symm ▸ hq)
  rwa [ha, zero_add] at hact

/-- Hooks open nothing for a quiet transaction. -/
theorem within_hook (hquiet : h = .StoreMetaKVHook → tx.Quiet) :
    sem.Within Act.openings 0 (perform (.hook h tx)) := by
  cases h with
  | StoreMetaKVHook =>
    refine within_body (q := StoreMetaKVHook.call tx) rfl rfl ?_
    obtain ⟨hset, hsubmit, hdel⟩ := hquiet rfl
    unfold StoreMetaKVHook.call
    split
    · exact absurd ‹_› hset
    · exact absurd ‹_› hsubmit
    · exact absurd ‹_› hdel
    · exact .ret 0 _
  | MapdbPostTXHook =>
    exact within_body (q := MapdbPostTXHook.call) rfl rfl (within_act rfl rfl fun r => .ret 0 r)
  | other m type => exact within_act rfl rfl fun r => .ret 0 r

/-- The transactions that are opened open none: those asking for something, and those on the
    metadata map, on which the metadata hook is not called. -/
theorem within_run (hop : op.mutates = false ∨ tx.strAddr = METADATA_MAP) :
    sem.Within Act.openings 0 (tx.run op) := by
  refine Sem.Within.of_holds (I := fun g => g.Sound tx op) (fun g a hsound ha => ?_)
    (fun g a r hsound ha => ⟨_, rfl, hsound.step ha⟩) (Progress.holds_run tx op) Progress.sound_init
  have hprim (hb : sem.body a = none) (h0 : a.openings = 0) :
      sem.Within Act.openings 0 (perform a) := within_act hb h0 fun r => .ret 0 r
  cases a with
  | hook h tx' =>
    refine within_hook fun hh => ?_
    have hne := (session_of_hook hsound ha).2 hh
    obtain rfl := ha.2
    have hreads := hop.resolve_right hne
    cases op with
    | get | getKeys | size => exact ⟨nofun, nofun, nofun⟩
    | _ => exact nomatch hreads
  | newTx | op => exact ha.elim
  | _ => exact hprim rfl rfl

/-- A new transaction, and what is done with it. -/
theorem within_newTx {s : KvdnSession} {sa : JString} {f : KvTx → Prog α}
    (hf : ∀ mtx, mtx.strAddr = sa → sem.Within Act.openings n (f mtx)) :
    sem.Within Act.openings ({(sa, none)} + n) ((s.newTx sa).bind f) := by
  unfold KvdnSession.newTx
  split_ifs
  · exact Sem.Within.prim (a := Act.newTx s sa) rfl fun _ mtx hmtx =>
      hf mtx (congrArg KvTx.strAddr hmtx)
  · exact .throw _ _

theorem within_op {f : AsyncResult Obj → Prog α} (hop : op.mutates = false ∨ tx.strAddr = METADATA_MAP)
    (hf : ∀ res, sem.Within Act.openings n (f res)) :
    sem.Within Act.openings ({(tx.strAddr, some op)} + n) (.act (.op tx op) f) := by
  refine Sem.Within.body (a := Act.op tx op) rfl ?_
  have hbind := (within_run hop).bind hf
  rwa [zero_add] at hbind

/-- A transaction that is opened, and whose operation is called. -/
theorem within_transaction {s : KvdnSession} {sa : JString} {f : KvTx → AsyncResult Obj → Prog α}
    (hop : op.mutates = false ∨ sa = METADATA_MAP)
    (hf : ∀ mtx res, sem.Within Act.openings n (f mtx res)) :
    sem.Within Act.openings (transaction sa op + n)
      ((s.newTx sa).bind fun mtx => .act (.op mtx op) (f mtx)) := by
  rw [transaction, add_assoc]
  refine within_newTx fun mtx hmtx => ?_
  subst hmtx
  exact within_op hop (hf mtx)

/-- The last transaction that is opened. -/
theorem within_last {s : KvdnSession} {sa : JString} {f : KvTx → AsyncResult Obj → Prog α}
    (hop : op.mutates = false ∨ sa = METADATA_MAP)
    (hf : ∀ mtx res, sem.Within Act.openings 0 (f mtx res)) :
    sem.Within Act.openings (transaction sa op)
      ((s.newTx sa).bind fun mtx => .act (.op mtx op) (f mtx)) :=
  add_zero (transaction sa op) ▸ within_transaction hop hf

theorem within_storeMeta : sem.Within Act.openings
    (transaction METADATA_MAP (.set tx.strAddr (jstr "1"))) (StoreMetaKVHook.storeMeta tx) := by
  simp only [StoreMetaKVHook.storeMeta, bind_eq, perform_bind]
  refine within_act rfl rfl fun cached => ?_
  cases (cached : Bool) with
  | true => exact .ret _ _
  | false =>
    refine within_last (.inr rfl) fun mtx res => ?_
    cases (res : AsyncResult Obj) with
    | failedFuture c => exact .ret 0 _
    | succeededFuture x => exact within_act rfl rfl fun _ => .ret 0 _

theorem within_remove : sem.Within Act.openings (transaction METADATA_MAP (.del tx.strAddr))
    (StoreMetaKVHook.remove tx) := by
  simp only [StoreMetaKVHook.remove, bind_eq, perform_bind]
  refine within_last (.inr rfl) fun mtx res => ?_
  cases res with
  | failedFuture c => exact .ret 0 _
  | succeededFuture x => exact within_act rfl rfl fun _ => .ret 0 _

theorem within_checkIfEmpty : sem.Within Act.openings
    (transaction tx.strAddr .size + transaction METADATA_MAP (.del tx.strAddr))
    (StoreMetaKVHook.checkIfEmpty tx) := by
  simp only [StoreMetaKVHook.checkIfEmpty, bind_eq, perform_bind]
  refine within_act rfl rfl fun cached => ?_
  cases (cached : Bool) with
  | false => exact .ret _ _
  | true =>
    refine within_transaction (.inl (rfl : Op.size.mutates = false)) fun ktx res => ?_
    cases res with
    | failedFuture c => exact .ret _ _
    | succeededFuture x =>
      by_cases hx : x = .int 0
      · simp only [hx, if_true]
        exact within_remove
      · simp only [hx, if_false]
        exact .ret _ _

/-- The metadata hook opens one transaction for the size, and one on the metadata map. -/
theorem within_call : sem.Within Act.openings tx.opens (StoreMetaKVHook.call tx) := by
  unfold StoreMetaKVHook.call
  have hset (hne : tx.type ≠ some .KV_DEL) : tx.opens =
      transaction tx.strAddr .size + transaction METADATA_MAP (.set tx.strAddr (jstr "1")) := by
    rw [KvTx.opens, if_neg hne]
  split
  · rename_i htype
    rw [hset (htype ▸ nofun)]
    exact within_storeMeta.mono le_add_self
  · rename_i htype
    rw [hset (htype ▸ nofun)]
    exact within_storeMeta.mono le_add_self
  · rename_i htype
    rw [KvTx.opens, if_pos htype]
    exact within_checkIfEmpty
  · exact .ret _ _

/-- A chain opens what its metadata hooks open. -/
theorem within_hookCaller (tx : KvTx) (hooks : List TXNHook) : sem.Within Act.openings
    (hooks.count .StoreMetaKVHook • tx.opens) (KvdnSession.hookCaller tx hooks) := by
  induction hooks with
  | nil => exact .ret _ _
  | cons h hooks ih =>
    rw [KvdnSession.hookCaller]
    split_ifs
    · exact ih.mono (nsmul_le_nsmul_left (zero_le) List.count_le_count_cons)
    · by_cases hh : h = .StoreMetaKVHook
      · subst hh
        rw [List.count_cons_self, add_comm, add_nsmul, one_nsmul]
        exact (within_body (a := Act.hook .StoreMetaKVHook tx) rfl rfl within_call).bind fun _ => ih
      · rw [List.count_cons_of_ne hh]
        have hhook : sem.Within Act.openings 0 (perform (.hook h tx)) :=
          within_hook fun heq => absurd heq hh
        have hbind := hhook.bind fun _ => ih
        rwa [zero_add] at hbind

/-! ## The end of a chain -/

/-- The transactions that hooks open call their handlers, with any result. -/
def Act.bodyOfHook : (a : Act) → Option (Prog a.Res)
  | .op _ _ => none
  | a => a.body

/-- The semantics in which they do. -/
def hookSem : Sem Act.Res Exn World := { sem with body := Act.bodyOfHook }

/-- The outline of programs that throw nothing, where sessions are initialized. -/
def throwless : Outline Act.Res Exn Unit where
  allow _ a := match a with
    | .hook _ tx => tx.session.initalized = true
    | _ => True
  next _ _ _ _ := True
  throws _ _ := False

theorem holds_newTx_throwless {s : KvdnSession} (hs : s.initalized = true) (sa : JString) :
    (s.newTx sa).Holds throwless (fun _ _ => True) () := by
  rw [KvdnSession.newTx, if_pos hs]
  exact ⟨trivial, fun _ _ _ => trivial⟩

theorem holds_storeMeta_throwless (hs : tx.session.initalized = true) :
    (StoreMetaKVHook.storeMeta tx).Holds throwless (fun _ _ => True) () := by
  simp only [StoreMetaKVHook.storeMeta, bind_eq, perform_bind]
  refine ⟨trivial, fun cached _ _ => ?_⟩
  cases (cached : Bool) with
  | true => exact trivial
  | false =>
    refine holds_bind.2 ((holds_newTx_throwless hs METADATA_MAP).mono fun _ mtx _ => ?_)
    refine ⟨trivial, fun res _ _ => ?_⟩
    cases (res : AsyncResult Obj) with
    | failedFuture c => exact trivial
    | succeededFuture x => exact ⟨trivial, fun _ _ _ => trivial⟩

theorem holds_remove_throwless (hs : tx.session.initalized = true) :
    (StoreMetaKVHook.remove tx).Holds throwless (fun _ _ => True) () := by
  simp only [StoreMetaKVHook.remove, bind_eq, perform_bind]
  refine holds_bind.2 ((holds_newTx_throwless hs METADATA_MAP).mono fun _ mtx _ => ?_)
  refine ⟨trivial, fun res _ _ => ?_⟩
  cases (res : AsyncResult Obj) with
  | failedFuture c => exact trivial
  | succeededFuture x => exact ⟨trivial, fun _ _ _ => trivial⟩

theorem holds_checkIfEmpty_throwless (hs : tx.session.initalized = true) :
    (StoreMetaKVHook.checkIfEmpty tx).Holds throwless (fun _ _ => True) () := by
  simp only [StoreMetaKVHook.checkIfEmpty, bind_eq, perform_bind]
  refine ⟨trivial, fun cached _ _ => ?_⟩
  cases (cached : Bool) with
  | false => exact trivial
  | true =>
    refine holds_bind.2 ((holds_newTx_throwless hs tx.strAddr).mono fun _ ktx _ => ?_)
    refine ⟨trivial, fun res _ _ => ?_⟩
    cases (res : AsyncResult Obj) with
    | failedFuture c => exact trivial
    | succeededFuture x =>
      by_cases hx : x = .int 0
      · simp only [hx, if_true]
        exact holds_remove_throwless hs
      · simp only [hx, if_false]
        exact trivial

theorem verified_throwless : throwless.Verified hookSem := by
  intro a q hb _ ha
  cases a with
  | hook h tx =>
    have hs : tx.session.initalized = true := ha
    cases h with
    | StoreMetaKVHook =>
      obtain rfl : StoreMetaKVHook.call tx = q := Option.some.inj hb
      unfold StoreMetaKVHook.call
      split
      · exact holds_storeMeta_throwless hs
      · exact holds_storeMeta_throwless hs
      · exact holds_checkIfEmpty_throwless hs
      · exact trivial
    | MapdbPostTXHook =>
      obtain rfl : MapdbPostTXHook.call = q := Option.some.inj hb
      exact ⟨trivial, fun _ _ _ => trivial⟩
    | other m type => exact nomatch hb
  | _ => exact nomatch hb

theorem holds_hookCaller_throwless (hs : tx.session.initalized = true) (hooks : List TXNHook) :
    (KvdnSession.hookCaller tx hooks).Holds throwless (fun _ _ => True) () := by
  induction hooks with
  | nil => exact trivial
  | cons h hooks ih =>
    rw [KvdnSession.hookCaller]
    split_ifs
    · exact ih
    · exact ⟨hs, fun _ _ _ => ih⟩

/-- If the transactions opened call their handlers, a chain ends with its final handler. -/
theorem eq_ret_of_finished (hs : tx.session.initalized = true) {hooks : List TXNHook} {as : List Act}
    {p : Prog Unit} (h : hookSem.Visits (KvdnSession.hookCaller tx hooks) as p)
    (hp : p.Finished) : p = .ret () := by
  obtain ⟨_, hholds⟩ := h.holds verified_throwless (fun g a w r _ => ⟨g, trivial⟩)
    (holds_hookCaller_throwless hs hooks)
  cases p with
  | ret x => rfl
  | throw e => exact hholds.elim
  | act a k => exact hp.elim

end

/-- Chains call the hooks that are due, once each and in turn, each after the continuation of the
    one before it, and then the final handler. With one metadata hook among the hooks, a chain
    comes to an end, whatever happens: one transaction for the size is opened at most, and one
    on the metadata map; those open none; and if they call their handlers, then the final
    handler is called. -/
theorem chain_law :
    (∀ {ι : Type} [DecidableEq ι] (txs : ι → KvTx) (hooks : ι → List TXNHook)
      (tr : List ((ι → Chain.State) × Chain.Event ι)) (w : ι → Chain.State),
      (Chain.machine txs hooks).Run (fun _ => {}) tr w → ∀ i,
        (w i).calls = (if Chain.started i tr then
          (Chain.due (txs i) (hooks i)).take (Chain.resumed i tr + 1) else []) ∧
        ∀ res, (Chain.machine txs hooks).can w (.resume i res) ↔
          Chain.started i tr ∧ Chain.resumed i tr < ((txs i).called (hooks i)).length) ∧
    (∀ (tx : KvTx) (hooks : List TXNHook), hooks.count .StoreMetaKVHook = 1 →
      sem.Ends (KvdnSession.hookCaller tx hooks) ∧
      (∃ o, (o = .set tx.strAddr (jstr "1") ∨ o = .del tx.strAddr) ∧
        ∀ as p, sem.Visits (KvdnSession.hookCaller tx hooks) as p →
          (as.map Act.openings).sum ≤ transaction tx.strAddr .size + transaction METADATA_MAP o) ∧
      (tx.session.initalized = true → ∀ as p,
        hookSem.Visits (KvdnSession.hookCaller tx hooks) as p → p.Finished → p = .ret ())) ∧
    ∀ (tx : KvTx) (op : Op), op = .size ∨ tx.strAddr = METADATA_MAP →
      ∀ as p, sem.Visits (tx.run op) as p → (as.map Act.openings).sum = 0 := by
  refine ⟨fun txs hooks tr w => Chain.law, fun tx hooks hcount => ⟨?_, ?_, ?_⟩,
    fun tx op hop as p h => ?_⟩
  · exact (within_hookCaller tx hooks).ends
  · refine ⟨if tx.type = some .KV_DEL then .del tx.strAddr else .set tx.strAddr (jstr "1"), ?_,
      fun as p h => ?_⟩
    · split_ifs
      · exact .inr rfl
      · exact .inl rfl
    · -- the metadata hook is called once: what it opens is all that is opened
      have hwithin := within_hookCaller tx hooks
      rw [hcount, one_nsmul] at hwithin
      exact hwithin.sum_le h
  · exact fun hs as p h hp => eq_ret_of_finished hs h hp
  · have hquiet : op.mutates = false ∨ tx.strAddr = METADATA_MAP := by
      rcases hop with rfl | hmeta
      · exact .inl rfl
      · exact .inr hmeta
    exact le_antisymm ((within_run hquiet).sum_le h) zero_le

/-- Two chains after a `set` over MapDB, in turn, the hooks of which fail and succeed, and what
    the metadata hook does in one of them; the transaction for a size. -/
theorem chain_law_mapdb :
    let tx : KvTx := { txid := 0, session := .mapdb 0, strAddr := jstr "a", type := some .KV_SET }
    let hooks := tx.session.postHooks
    let M := Chain.machine (fun _ : Bool => tx) fun _ => hooks
    (∃ tr w, M.Run (fun _ => {}) tr w ∧ ∀ i, (w i).calls =
      [.hook .MapdbPostTXHook, .hook .StoreMetaKVHook, .cb]) ∧
    sem.Ends (KvdnSession.hookCaller tx hooks) ∧
    (∃ as, hookSem.Visits (KvdnSession.hookCaller tx hooks) as (.ret ())) ∧
    ∃ as res, sem.Visits (tx.run .size) as (.ret res) ∧ (as.map Act.openings).sum = 0 := by
  intro tx hooks M
  obtain ⟨hlaw, hhooks, hsize⟩ := chain_law
  obtain ⟨hends, -, hfinal⟩ := hhooks tx hooks rfl
  refine ⟨?_, hends, ?_, ?_⟩
  · have hstart {tr : List ((Bool → Chain.State) × Chain.Event Bool)} {w : Bool → Chain.State}
        (h : M.Run (fun _ => {}) tr w) (i : Bool) (hi : Chain.started i tr = false) :
        M.Run (fun _ => {}) (tr ++ [(w, .start i)]) (M.step w (.start i)) :=
      h.snoc ((hlaw _ _ tr w h i).1.trans (by rw [hi]; rfl))
    have hresume {tr : List ((Bool → Chain.State) × Chain.Event Bool)} {w : Bool → Chain.State}
        (h : M.Run (fun _ => {}) tr w) (i : Bool) (res : AsyncResult Obj)
        (hi : Chain.started i tr = true ∧ Chain.resumed i tr < 2) :
        M.Run (fun _ => {}) (tr ++ [(w, .resume i res)]) (M.step w (.resume i res)) :=
      h.snoc (((hlaw _ _ tr w h i).2 res).2 hi)
    let failed : AsyncResult Obj := failedFuture (.exception [])
    let ok : AsyncResult Obj := succeededFuture .null
    have h₂ := hstart (hstart .nil false rfl) true rfl
    have h₄ := hresume (hresume h₂ true failed ⟨rfl, by decide⟩) false ok ⟨rfl, by decide⟩
    have h₆ := hresume (hresume h₄ false ok ⟨rfl, by decide⟩) true failed ⟨rfl, by decide⟩
    exact ⟨_, _, h₆, fun i => (hlaw _ _ _ _ h₆ i).1.trans (by revert i; decide)⟩
  · have hruns := Sem.runs_of_eval (S := hookSem) World.ok_succeed (n := 20) (w := {})
      (p := KvdnSession.hookCaller tx hooks) rfl
    obtain ⟨as, has⟩ := hruns.visits
    exact ⟨as, hfinal rfl as _ has trivial ▸ has⟩
  · have hruns := Sem.runs_of_eval (S := sem) World.ok_succeed (n := 60) (w := {})
      (p := tx.run .size) rfl
    obtain ⟨as, has⟩ := hruns.visits
    exact ⟨as, _, has, hsize tx .size (.inl rfl) as _ has⟩

end Kvdn
