import Kvdn.Callback.Outline
import Kvdn.Progress

/-!
# Null keys

A `LocalMap` throws when it is to remove a null key. `shimAsyncMap.remove` answers with this
failure, and then, for there is no `return` in its `catch`, answers once more, with a success.
So the handler that `del` has given it goes on from either answer: the transaction is finished
twice, and its own handler is given a failure, and then a success.

What follows the two answers are two *strands* of the transaction (`KvTx.strands`), which may
run in any interleaving, as their hooks may answer later (`RunsTwice`). The null key is in no
map, and the string of the operation stands for it.
-/

namespace Kvdn

open Callback Callback.Prog Callback.Sem AsyncResult

namespace KvTx

variable (tx : KvTx) (key : JString)

/-- What `del` does with the answer of its map. -/
def removed : AsyncResult Obj → Prog (AsyncResult Obj)
  | succeededFuture _ => do
    let _res ← perform (.deleteKey tx.session.keyprov tx.strAddr key)
    tx.session.finishTx tx
    perform (.publish ⟨deleteChannel tx.strAddr, some key⟩)
    tx.handle (succeededFuture (.str key))
  | failedFuture c => tx.bailTx (failedFuture c)

theorem del_eq : tx.del key = (tx.startTX .KV_DEL).bind fun tx => tx.withMap .MODE_WRITE fun map =>
    (perform (.remove map key)).bind (tx.removed key) := by
  show (tx.startTX .KV_DEL).bind _ = _
  congr 1
  funext tx
  refine congrArg (tx.withMap .MODE_WRITE) (funext fun map => ?_)
  refine congrArg (perform (.remove map key)).bind (funext fun res => ?_)
  cases res <;> rfl

/-- The strands of a deletion that is answered twice: the transaction, and what follows the
    second answer. -/
def strands (again : Bool) : Prog (AsyncResult Obj) :=
  if again then (tx.started (.del key)).removed key (succeededFuture .null) else tx.run (.del key)

end KvTx

/-- The runs of the deletion of a null key, the map being a `LocalMap`: it is answered that the
    removal has failed, after which the second strand may start, and both come to their end. -/
structure RunsTwice {σ : Type} (S : Sem Act.Res Exn σ) (w : σ) (tx : KvTx) (key : JString)
    (tr : List (Bool × Label Act.Res)) (w' : σ) (res res' : AsyncResult Obj) : Prop where
  isLocal : tx.session.D.space = .localMap
  pool : ∃ ps, S.Pool w (tx.strands key) tr w' ps ∧ ps false = .ret res ∧ ps true = .ret res'
  failure : ∃ n c, (∀ l ∈ tr.take n, l.1 = false) ∧
    tr[n]? = some (false, ⟨.remove ⟨tx.session.D.space, tx.strAddr⟩ key, failedFuture c⟩)

/-! ## What the handler is given -/

/-- The outline of a strand of the transaction `txid`: what its handler has been given last. -/
def hearing (txid : ℕ) : Outline Act.Res Exn (Option (AsyncResult Obj)) where
  allow _ _ := True
  next heard a _ heard' := heard' = match a with
    | .handle txid' res => if txid' = txid then some res else heard
    | _ => heard
  throws _ _ := True

section

variable {tx : KvTx} {key : JString} {txid : ℕ} {heard : Option (AsyncResult Obj)}

theorem holds_hearing {α : Type} (p : Prog α) :
    p.Holds (hearing txid) (fun _ _ => True) heard := by
  induction p generalizing heard with
  | ret x => trivial
  | throw e => trivial
  | act a k ih => exact ⟨trivial, fun r _ _ => ih r⟩

theorem holds_hookCaller_hearing (hooks : List TXNHook) :
    (KvdnSession.hookCaller tx hooks).Holds (hearing txid) (fun heard' _ => heard' = heard)
      heard := by
  induction hooks with
  | nil => rfl
  | cons nxt hooks ih =>
    rw [KvdnSession.hookCaller]
    split_ifs
    · exact ih
    · refine ⟨trivial, fun _ heard' h => ?_⟩
      obtain rfl : heard' = heard := h
      exact ih

theorem holds_finishTx_hearing :
    (tx.session.finishTx tx).Holds (hearing txid) (fun heard' _ => heard' = heard) heard := by
  simp only [KvdnSession.finishTx, bind_eq, perform_bind, holds_act, holds_bind]
  refine ⟨trivial, fun _ heard' h => ?_⟩
  obtain rfl : heard' = heard := h
  refine (holds_hookCaller_hearing _).mono fun heard' _ h => ?_
  subst h
  split_ifs <;> exact ⟨trivial, fun _ _ h => h⟩

/-- After the second answer, the handler is given a success. -/
theorem holds_removed_hearing (x : Obj) :
    (tx.removed key (succeededFuture x)).Holds (hearing tx.txid)
      (fun heard' _ => heard' = some (succeededFuture (.str key))) heard := by
  simp only [KvTx.removed, bind_eq, perform_bind, holds_act, holds_bind]
  refine ⟨trivial, fun _ heard' _ => holds_finishTx_hearing.mono fun _ _ _ => ?_⟩
  refine ⟨trivial, fun _ _ _ => ⟨trivial, fun _ heard' h => ?_⟩⟩
  exact h.trans (if_pos rfl)

/-- The handler is given a success in the end. -/
theorem RunsTwice.succeeded {σ : Type} {S : Sem Act.Res Exn σ} {w w' : σ}
    {tr : List (Bool × Label Act.Res)} {res res' : AsyncResult Obj} (hb : ∀ a, S.body a = none)
    (h : RunsTwice S w tx key tr w' res res') :
    (true, ⟨.handle tx.txid (succeededFuture (.str key)), ()⟩) ∈ tr := by
  obtain ⟨ps, hpool, -, hres'⟩ := h.pool
  -- what a strand has heard is in the trace; that the other one goes on changes nothing of it
  have hkeeps : Outline.KeepsPool (fun _ : Bool => hearing tx.txid) S fun tr _ heard =>
      ∀ b res, heard b = some res → (b, ⟨.handle tx.txid res, ()⟩) ∈ tr := by
    intro tr w heard b a r hInv _ _ _
    refine ⟨_, rfl, fun b' res hres => ?_⟩
    rw [List.mem_append]
    by_cases hb' : b' = b
    · subst hb'
      rw [Function.update_self] at hres
      cases a with
      | handle txid res' =>
        by_cases htxid : txid = tx.txid
        · subst htxid
          obtain rfl := Option.some.inj ((if_pos rfl).symm.trans hres)
          exact .inr (List.mem_singleton_self _)
        · exact .inl (hInv b' res ((if_neg htxid).symm.trans hres))
      | _ => exact .inl (hInv b' res hres)
    · rw [Function.update_of_ne hb'] at hres
      exact .inl (hInv b' res hres)
  let unheard : Bool → Option (AsyncResult Obj) := fun _ => none
  have hinit : ∀ b res, unheard b = some res →
      (b, ⟨.handle tx.txid res, ()⟩) ∈ ([] : List (Bool × Label Act.Res)) := fun _ _ h => by cases h
  obtain ⟨heard, hInv, hps⟩ := hpool.holds
    (Q := fun b heard _ => b = true → heard = some (succeededFuture (.str key)))
    (fun _ => Outline.verified_of_body hb) hkeeps hinit fun b => by
      cases b with
      | false => exact (holds_hearing _).mono fun _ _ _ h => by cases h
      | true =>
        have hheard := @holds_removed_hearing (tx.started (.del key)) key none .null
        exact hheard.mono fun _ _ h _ => h
  have hend := hps true
  rw [hres'] at hend
  exact hInv true _ (hend rfl)

end

end Kvdn
