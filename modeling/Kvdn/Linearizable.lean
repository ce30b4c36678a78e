import Kvdn.Callback.Linearizable
import Kvdn.Store

/-!
# Clients

Any number of clients, each with a transaction object of its own, on one session
without flags whose only hook is the metadata hook.

The abstract store is a finite map for every address, and an operation acts on one
of them (`Op.apply`, `kvStep`). The operations of the clients are linearizable with
respect to it (`linearizable`): they take effect with their call of the map. All
that comes before and after, the transactions the metadata hook opens included,
leaves the maps of the clients alone.
-/

namespace Kvdn

open Callback Callback.Prog Callback.Sem AsyncResult

/-! ## The steps of a client -/

/-- The operation of a client has not taken effect yet, or has, or never will. -/
inductive Effect
  | pending
  | effective (result : Obj)
  | failed

namespace Effect

/-- Where a step leads. -/
def next (S : Setting) (op : Op) (e : Effect) (a : Act) (r : a.Res) : Effect :=
  match e with
  | .pending =>
    if a.decides && a.fails r then .failed
    else
      match a.answer r with
      | some (succeededFuture x) => ((op.result (op.digestOf S.md5) x).map .effective).getD .pending
      | _ => .pending
  | e => e

/-- The result a handler may be given. -/
def Reports : Effect → AsyncResult Obj → Prop
  | .pending, _ => False
  | .effective v, res => res = succeededFuture v
  | .failed, res => ∃ c, res = failedFuture c

/-- The calls of maps: the one call of the operation, and then calls that change the
    metadata map only. -/
def AllowsCall (S : Setting) (tx : KvTx) (op : Op) (e : Effect) (a : Act) : Prop :=
  match e with
  | .pending => op.call (op.digestOf S.md5) ⟨S.session.D.space, tx.strAddr⟩ = some a
  | _ => a.target = none ∨ a.target = some ⟨S.session.D.space, METADATA_MAP⟩

/-- The operations of the nested transactions. -/
def Nested (S : Setting) (tx : KvTx) (o : Op) : Prop :=
  tx.session = S.session ∧ S.uuids ≤ tx.txid ∧
    match o with
    | .set _ _ | .del _ => tx.strAddr = METADATA_MAP
    | .size => True
    | _ => False

/-- The steps a client, or a transaction nested in its own, may take. -/
def allow (S : Setting) (tx : KvTx) (op : Op) (e : Effect) : Act → Prop
  | .put m key value => e.AllowsCall S tx op (.put m key value)
  | .get m key => e.AllowsCall S tx op (.get m key)
  | .remove m key => e.AllowsCall S tx op (.remove m key)
  | .clear m => e.AllowsCall S tx op (.clear m)
  | .size m => e.AllowsCall S tx op (.size m)
  | .getKeys _ _ => False
  | .hook h tx' => e ≠ .pending ∧ h = .StoreMetaKVHook ∧ tx'.session = S.session
  | .op tx' o => e ≠ .pending ∧ Nested S tx' o
  | .handle txid res => txid = tx.txid → e.Reports res
  | _ => True

/-- The outline of a client. -/
def outline (S : Setting) (tx : KvTx) (op : Op) : Outline Act.Res Exn Effect where
  allow := allow S tx op
  next e a r e' := Known S a r ∧ e' = e.next S op a r
  throws _ _ := True

variable {S : Setting} {tx tx' : KvTx} {op o : Op} {e : Effect}

@[simp] theorem outline_allow : (outline S tx op).allow = allow S tx op := rfl

@[simp] theorem outline_next {a : Act} {r : a.Res} {e' : Effect} :
    (outline S tx op).next e a r e' ↔ Known S a r ∧ e' = e.next S op a r := Iff.rfl

theorem next_of_ne (he : e ≠ .pending) (a : Act) (r : a.Res) : e.next S op a r = e := by
  cases e <;> first | rfl | exact absurd rfl he

theorem next_of_not_decides {a : Act} (ha : a.decides = false) (r : a.Res) :
    e.next S op a r = e := by
  have hanswer : a.answer r = none := by cases a <;> first | rfl | exact nomatch ha
  cases e <;> simp [next, ha, hanswer]

/-! ### Transactions -/

section

variable (hpre : S.session.preHooks = []) (hpost : S.session.postHooks = [.StoreMetaKVHook])

include hpre hpost in
/-- Only the metadata hook is called, once the outcome is known. -/
theorem hook_of_fits {g : Progress} {nxt : TXNHook} (h : Fits S tx o g) (hs : tx.session = S.session)
    (ha : Progress.allow tx o g (.hook nxt tx')) :
    g.outcome ≠ .open ∧ nxt = .StoreMetaKVHook ∧ tx'.session = S.session := by
  obtain ⟨⟨hooks, hg | hg⟩, rfl⟩ := ha
  · have hsound := h.sound
    rw [Progress.Sound, hg, hs, hpre] at hsound
    exact absurd hsound.2.length_le (by simp [KvTx.called])
  · have hsound := h.sound
    rw [Progress.Sound, hg, hs, hpost] at hsound
    have hmem : nxt ∈ tx.called [.StoreMetaKVHook] := hsound.2.subset List.mem_cons_self
    refine ⟨hsound.1, ?_, hs⟩
    simpa using List.mem_of_mem_filter hmem

end

/-- The effect of a client, from the outcome of its transaction. -/
def Of (S : Setting) (op : Op) (e : Effect) : Outcome → Prop
  | .open => e = .pending
  | .refused _ => False
  | .failed _ => e = .failed
  | .called x => ∃ v, op.result (op.digestOf S.md5) x = some v ∧ e = .effective v

theorem next_of_succeeded {a : Act} {r : a.Res} {x v : Obj}
    (hr : a.answer r = some (succeededFuture x))
    (hv : op.result (op.digestOf S.md5) x = some v) : next S op .pending a r = .effective v := by
  have hfails : a.fails r = false := by
    cases a <;> first | (cases hr; rfl) | exact nomatch hr
  simp [next, hfails, hr, hv]

theorem next_of_failed {a : Act} {r : a.Res} {c : Throwable}
    (hr : a.answer r = some (failedFuture c)) : next S op .pending a r = .failed := by
  cases a <;> first | (cases hr; rfl) | exact nomatch hr

theorem Of.answered {g : Progress} {a : Act} {r : a.Res} {res : AsyncResult Obj}
    (hr : a.answer r = some res) : Of S op (next S op .pending a r) (g.answered op res).outcome := by
  cases res with
  | failedFuture c => exact next_of_failed hr
  | succeededFuture x =>
    obtain ⟨v, hv⟩ := op.exists_result S.md5 x
    exact ⟨v, hv, next_of_succeeded hr hv⟩

theorem Of.step {g : Progress} {a : Act} {r : a.Res} (h : Of S op e g.outcome)
    (hs : tx.session = S.session) (hop : op ≠ .getKeys) (hfits : Fits S tx op g) (ha : Progress.allow tx op g a)
    (hk : Known S a r) : Of S op (e.next S op a r) (g.step tx op a r).outcome := by
  by_cases hd : a.decides = false
  · -- a step that decides nothing leaves the effect, and the check of the flags cannot refuse
    rw [next_of_not_decides hd]
    by_cases hflags : ∃ sessionid mode, a = .checkFlags sessionid mode
    · obtain ⟨sessionid, mode, rfl⟩ := hflags
      obtain ⟨⟨map, hg⟩, -, rfl, -⟩ := ha
      obtain rfl : r = true := hk (by rw [hs])
      rw [Progress.step_checkFlags hg]
      exact h
    · rw [Progress.outcome_step hd fun sessionid mode ha => hflags ⟨sessionid, mode, ha⟩]
      exact h
  · cases a with
    | put | get | remove | clear | size =>
      have hopen := (hfits.call ha).1
      rw [hopen] at h
      obtain rfl : e = .pending := h
      exact Of.answered rfl
    | getKeys => exact absurd ha.2.2.1 hop
    | getMap D sa =>
      rw [ha.2.1] at h
      obtain rfl : e = .pending := h
      cases (r : AsyncResult AsyncMap) with
      | succeededFuture map => exact ha.2.1 ▸ rfl
      | failedFuture c => rfl
    | _ => exact absurd rfl hd

/-- A client goes through its transaction. -/
theorem holds_run (hpre : S.session.preHooks = []) (hpost : S.session.postHooks = [.StoreMetaKVHook])
    (hs : tx.session = S.session) (hop : op ≠ .getKeys) :
    (tx.run op).Holds (outline S tx op) (fun _ _ => True) .pending := by
  have hallow : ∀ g e a, Fits S tx op g ∧ Of S op e g.outcome → Progress.allow tx op g a →
      allow S tx op e a := by
    rintro g e a ⟨hfits, hof⟩ ha
    cases a with
    | put | get | remove | clear | size =>
      obtain ⟨hopen, hcall⟩ := hfits.call ha
      rw [hopen] at hof
      obtain rfl : e = .pending := hof
      exact hcall
    | getKeys => exact absurd ha.2.2.1 hop
    | hook =>
      obtain ⟨hopen, hnxt⟩ := hook_of_fits hpre hpost hfits hs ha
      refine ⟨?_, hnxt⟩
      rintro rfl
      cases ho : g.outcome with
      | «open» => exact hopen ho
      | refused map => exact hfits.not_refused map ho
      | failed c => rw [ho] at hof; cases hof
      | called x => rw [ho] at hof; obtain ⟨v, -, hv⟩ := hof; cases hv
    | handle txid res =>
      intro _
      obtain ⟨-, -, hres, -⟩ := ha
      cases ho : g.outcome with
      | «open» => rw [Progress.result, ho] at hres; cases hres
      | refused map => exact absurd ho (hfits.not_refused map)
      | failed c =>
        rw [Progress.result, ho] at hres
        rw [ho] at hof
        obtain rfl : e = .failed := hof
        exact ⟨c, (Option.some.inj hres).symm⟩
      | called x =>
        rw [Progress.result, ho] at hres
        rw [ho] at hof
        obtain ⟨v, hv, rfl⟩ := hof
        obtain ⟨v', hv', rfl⟩ := Option.map_eq_some_iff.1 hres
        obtain rfl : v' = v := Option.some.inj ((hfits.result hv').symm.trans hv)
        rfl
    | op => exact ha.elim
    | _ => trivial
  have hnext : ∀ g e a r e', Fits S tx op g ∧ Of S op e g.outcome → Progress.allow tx op g a →
      Known S a r ∧ e' = e.next S op a r → ∃ g', g' = g.step tx op a r ∧
        Fits S tx op g' ∧ Of S op e' g'.outcome := by
    rintro g e a r _ ⟨hfits, hof⟩ ha ⟨hk, rfl⟩
    exact ⟨_, rfl, hfits.step hs ha hk, hof.step hs hop hfits ha hk⟩
  exact (Progress.holds_run tx op).refine _ hallow hnext (fun _ _ _ _ _ => trivial)
    (fun _ _ _ _ _ => trivial) ⟨fits_init, rfl⟩

/-! ### Nested transactions -/

/-- A nested transaction leaves the maps of the clients alone. -/
theorem holds_nested (hpre : S.session.preHooks = [])
    (hpost : S.session.postHooks = [.StoreMetaKVHook]) (htx : tx.txid < S.uuids)
    (he : e ≠ .pending) (hn : Nested S tx' o) :
    (tx'.run o).Holds (outline S tx op) (fun e' _ => e' = e) e := by
  obtain ⟨hs, htx', ho⟩ := hn
  have hmeta {a : Act} (ha : o.call (o.digestOf S.md5) ⟨S.session.D.space, tx'.strAddr⟩ = some a) :
      AllowsCall S tx op e a := by
    have htarget : a.target = none ∨ a.target = some ⟨S.session.D.space, METADATA_MAP⟩ := by
      cases o with
      | set key content | del key =>
        obtain rfl := Option.some.inj ha
        rw [← show tx'.strAddr = METADATA_MAP from ho]
        exact .inr rfl
      | size =>
        obtain rfl := Option.some.inj ha
        exact .inl rfl
      | _ => exact ho.elim
    cases e <;> first | exact absurd rfl he | exact htarget
  have hallow : ∀ g e' a, Fits S tx' o g ∧ e' = e → Progress.allow tx' o g a →
      allow S tx op e' a := by
    rintro g _ a ⟨hfits, rfl⟩ ha
    cases a with
    -- a write of the hook goes to the metadata map, and its size is read without one
    | put | get | remove | clear | size => exact hmeta (hfits.call ha).2
    | getKeys =>
      obtain ⟨-, -, rfl, -⟩ := ha
      exact ho.elim
    | hook => exact ⟨he, (hook_of_fits hpre hpost hfits hs ha).2⟩
    -- the nested transaction has an id the client's cannot have
    | handle txid res =>
      intro htxid
      have htxid' := ha.2.1
      omega
    | op => exact ha.elim
    | _ => trivial
  have hnext : ∀ g e' a r e'', Fits S tx' o g ∧ e' = e → Progress.allow tx' o g a →
      Known S a r ∧ e'' = e'.next S op a r → ∃ g', g' = g.step tx' o a r ∧
        Fits S tx' o g' ∧ e'' = e := by
    rintro g e' a r _ ⟨hfits, rfl⟩ ha ⟨hk, rfl⟩
    exact ⟨_, rfl, hfits.step hs ha hk, next_of_ne he a r⟩
  exact (Progress.holds_run tx' o).refine _ hallow hnext (fun _ _ _ _ _ => trivial)
    (fun _ _ _ hrel _ => hrel.2) ⟨fits_init, rfl⟩

/-- What follows once the operation of the client has been settled. -/
theorem holds_act_of_ne {β : Type} {Q : Effect → β → Prop} (he : e ≠ .pending) {a : Act}
    {k : a.Res → Prog β} : (act a k).Holds (outline S tx op) Q e ↔
      allow S tx op e a ∧ ∀ r, Known S a r → (k r).Holds (outline S tx op) Q e := by
  refine and_congr_right fun _ => forall_congr' fun r => ?_
  constructor
  · exact fun h hk => h e ⟨hk, (next_of_ne he a r).symm⟩
  · rintro h _ ⟨hk, rfl⟩
    rw [next_of_ne he]
    exact h hk

theorem holds_newTx {sa : JString} (he : e ≠ .pending) :
    (S.session.newTx sa).Holds (outline S tx op)
      (fun e' mtx => e' = e ∧ S.uuids ≤ mtx.txid ∧ mtx.session = S.session ∧ mtx.strAddr = sa)
      e := by
  unfold KvdnSession.newTx
  split_ifs
  · exact (holds_act_of_ne he).2 ⟨trivial, fun _ hmtx => ⟨rfl, hmtx⟩⟩
  · trivial

theorem holds_storeMeta (he : e ≠ .pending) (hs : tx'.session = S.session) :
    (StoreMetaKVHook.storeMeta tx').Holds (outline S tx op) (fun e' _ => e' = e) e := by
  simp only [StoreMetaKVHook.storeMeta, bind_eq, perform_bind, hs]
  refine (holds_act_of_ne he).2 ⟨trivial, fun hit _ => ?_⟩
  split
  · rfl
  · refine holds_bind.2 ((holds_newTx he).mono fun e' mtx ⟨he', hmtx⟩ => ?_)
    subst he'
    refine (holds_act_of_ne he).2 ⟨⟨he, hmtx.2.1, hmtx.1, hmtx.2.2⟩, fun res _ => ?_⟩
    cases (res : AsyncResult Obj) with
    | succeededFuture x => exact (holds_act_of_ne he).2 ⟨trivial, fun _ _ => rfl⟩
    | failedFuture c => rfl

theorem holds_remove (he : e ≠ .pending) (hs : tx'.session = S.session) :
    (StoreMetaKVHook.remove tx').Holds (outline S tx op) (fun e' _ => e' = e) e := by
  simp only [StoreMetaKVHook.remove, bind_eq, hs]
  refine holds_bind.2 ((holds_newTx he).mono fun e' mtx ⟨he', hmtx⟩ => ?_)
  subst he'
  refine (holds_act_of_ne he).2 ⟨⟨he, hmtx.2.1, hmtx.1, hmtx.2.2⟩, fun res _ => ?_⟩
  cases (res : AsyncResult Obj) with
  | succeededFuture x => exact (holds_act_of_ne he).2 ⟨trivial, fun _ _ => rfl⟩
  | failedFuture c => rfl

theorem holds_checkIfEmpty (he : e ≠ .pending) (hs : tx'.session = S.session) :
    (StoreMetaKVHook.checkIfEmpty tx').Holds (outline S tx op) (fun e' _ => e' = e) e := by
  simp only [StoreMetaKVHook.checkIfEmpty, bind_eq, perform_bind, hs]
  refine (holds_act_of_ne he).2 ⟨trivial, fun hit _ => ?_⟩
  split
  · refine holds_bind.2 ((holds_newTx he).mono fun e' ktx ⟨he', hktx⟩ => ?_)
    subst he'
    refine (holds_act_of_ne he).2 ⟨⟨he, hktx.2.1, hktx.1, trivial⟩, fun res _ => ?_⟩
    cases (res : AsyncResult Obj) with
    | succeededFuture x =>
      simp only
      split_ifs
      · exact holds_remove he hs
      · rfl
    | failedFuture c => rfl
  · rfl

/-- The metadata hook leaves the maps of the clients alone. -/
theorem holds_hook (he : e ≠ .pending) (hs : tx'.session = S.session) :
    (StoreMetaKVHook.call tx').Holds (outline S tx op) (fun e' _ => e' = e) e := by
  unfold StoreMetaKVHook.call
  split
  · exact holds_storeMeta he hs
  · exact holds_storeMeta he hs
  · exact holds_checkIfEmpty he hs
  · rfl

theorem verified (hpre : S.session.preHooks = [])
    (hpost : S.session.postHooks = [.StoreMetaKVHook]) (htx : tx.txid < S.uuids) :
    (outline S tx op).Verified sem := by
  intro a q hb e ha
  cases a with
  | hook h tx' =>
    obtain ⟨he, rfl, hs⟩ := ha
    obtain rfl : StoreMetaKVHook.call tx' = q := Option.some.inj hb
    exact (holds_hook he hs).mono fun e' r he' =>
      ⟨trivial, he'.trans (next_of_ne he (.hook .StoreMetaKVHook tx') r).symm⟩
  | op tx' o =>
    obtain ⟨he, hn⟩ := ha
    obtain rfl : tx'.run o = q := Option.some.inj hb
    exact (holds_nested hpre hpost htx he hn).mono fun e' r he' =>
      ⟨trivial, he'.trans (next_of_ne he (.op tx' o) r).symm⟩
  | _ => exact nomatch hb

/-! ### Interleavings -/

variable {w : World}

/-- The maps of the clients are changed by the calls of pending operations only. -/
theorem map_eff {a : Act} {r : a.Res} {sa : JString} (hsa : UserAddr sa)
    (ha : allow S tx op e a)
    (hcommit : e = .pending → ∀ x, a.answer r ≠ some (succeededFuture x)) :
    (w.eff a r).map ⟨S.session.D.space, sa⟩ = w.map ⟨S.session.D.space, sa⟩ := by
  have hcall (ha : e.AllowsCall S tx op a) (hr : a.answer r ≠ none) :
      (w.eff a r).map ⟨S.session.D.space, sa⟩ = w.map ⟨S.session.D.space, sa⟩ := by
    by_cases he : e = .pending
    · -- the call of the operation has failed
      match hres : a.answer r with
      | none => exact absurd hres hr
      | some (succeededFuture x) => exact absurd hres (hcommit he x)
      | some (failedFuture c) => rw [World.eff_of_failed hres]
    · -- a call nested in the transaction of the client
      have htarget : a.target = none ∨ a.target = some ⟨S.session.D.space, METADATA_MAP⟩ := by
        cases e <;> first | exact absurd rfl he | exact ha
      refine World.map_eff_of_ne ?_
      rcases htarget with h | h
      · rw [h]
        exact nofun
      · rw [h]
        exact fun hm => hsa.1 (congrArg AsyncMap.name (Option.some.inj hm)).symm
  have haccess : some World.accessCache ≠ some ⟨S.session.D.space, sa⟩ :=
    fun hm => hsa.2 (congrArg AsyncMap.name (Option.some.inj hm)).symm
  cases a with
  | put | get | remove | clear | size => exact hcall ha nofun
  | accessPut | accessPutIfAbsent => exact World.map_eff_of_ne haccess
  | _ => exact World.map_eff_of_ne nofun

end Effect

/-! ## Linearizability -/

section

variable {ι : Type} [DecidableEq ι] {S : Setting} {txs : ι → KvTx} {ops : ι → Op}
  {w₀ w : World} {tr : List (ι × Step)} {e : ι → Effect}

/-- The handler of the transaction of a client is called. -/
def CalledBack (txs : ι → KvTx) (i : ι) (l : Step) : Prop :=
  ∃ res, l = ⟨.handle (txs i).txid res, ()⟩

/-- An order of the operations that have taken effect, which leads from the maps of
    `w₀` to those of `w`. -/
def Ordered (D : KVData) (md5 : List UInt8 → List UInt8) (txs : ι → KvTx) (ops : ι → Op)
    (w₀ : World) (tr : List (ι × Step)) (w : World) (lin : List (ι × Obj)) : Prop :=
  ∃ s, Linearization (CalledBack txs) (kvStep md5) (fun i => ((txs i).strAddr, ops i))
      (fun sa => w₀.map ⟨D.space, sa⟩) tr lin s ∧
    ∀ sa, UserAddr sa → s sa = w.map ⟨D.space, sa⟩

/-- What is known of the clients: their session has no flags, their handlers are
    given what has become of their operations, and these can be ordered. -/
structure Consistent (S : Setting) (txs : ι → KvTx) (ops : ι → Op) (w₀ : World)
    (tr : List (ι × Step)) (w : World) (e : ι → Effect) : Prop where
  flags : w.txflags S.session.sessionid = ∅
  md5 : w.md5 = S.md5
  uuids : S.uuids ≤ w.uuids
  reports : ∀ i res, (⟨.handle (txs i).txid res, ()⟩ : Step) ∈ own i tr → (e i).Reports res
  ordered : ∃ lin, Ordered S.session.D S.md5 txs ops w₀ tr w lin ∧ ∀ i v, e i = .effective v ↔ (i, v) ∈ lin

theorem Consistent.reports_step (h : Consistent S txs ops w₀ tr w e) {i : ι} {a : Act}
    {r : a.Res} (ha : Effect.allow S (txs i) (ops i) (e i) a) (j : ι) (res : AsyncResult Obj)
    (hres : (⟨.handle (txs j).txid res, ()⟩ : Step) ∈ own j (tr ++ [(i, ⟨a, r⟩)])) :
    (Function.update e i ((e i).next S (ops i) a r) j).Reports res := by
  by_cases hj : j = i
  · subst hj
    rw [Function.update_self]
    rw [own_append, own_self, List.mem_append, List.mem_singleton] at hres
    rcases hres with hres | hres
    · have hreports := h.reports j res hres
      have hne : e j ≠ .pending := by
        intro hj
        rw [hj] at hreports
        exact hreports
      rwa [Effect.next_of_ne hne]
    · cases hres
      rw [Effect.next_of_not_decides rfl]
      exact ha rfl
  · rw [own_append, own_of_ne (Ne.symm hj), List.append_nil] at hres
    rw [Function.update_of_ne hj]
    exact h.reports j res hres

/-- A pending operation takes effect with its call. -/
theorem Ordered.commit {lin : List (ι × Obj)} (h : Ordered S.session.D S.md5 txs ops w₀ tr w lin)
    (hmd5 : w.md5 = S.md5) {i : ι} (hi : i ∉ lin.map Prod.fst)
    (hback : ∀ l ∈ own i tr, ¬CalledBack txs i l) {a : Act} {r : a.Res} {x : Obj}
    (ha : (ops i).call ((ops i).digestOf S.md5) ⟨S.session.D.space, (txs i).strAddr⟩ = some a)
    (hok : w.ok a r) (hr : a.answer r = some (succeededFuture x)) (hsa : UserAddr (txs i).strAddr) :
    ∃ v, (ops i).result ((ops i).digestOf S.md5) x = some v ∧
      Ordered S.session.D S.md5 txs ops w₀ (tr ++ [(i, ⟨a, r⟩)]) (w.eff a r) (lin ++ [(i, v)]) := by
  obtain ⟨s, hlin, hs⟩ := h
  rw [← hmd5] at ha
  obtain ⟨hmap, hresult⟩ := Op.apply_of_call ha hok hr
  rw [hmd5] at hmap hresult
  rw [← hs _ hsa] at hmap hresult
  refine ⟨_, hresult, _, hlin.commit hi (fun l hl => ?_) rfl, fun sa hsa' => ?_⟩
  · rcases List.mem_append.1 hl with hl | hl
    · exact hback l hl
    · rintro ⟨res, rfl⟩
      cases List.mem_singleton.1 hl
      exact nomatch hr
  · by_cases heq : sa = (txs i).strAddr
    · subst heq
      simp [hmap]
    · have htarget : a.target ≠ some ⟨S.session.D.space, sa⟩ := by
        rcases Op.target_of_call ha with h | h
        · rw [h]
          exact nofun
        · rw [h]
          exact fun hm => heq (congrArg AsyncMap.name (Option.some.inj hm)).symm
      rw [World.map_eff_of_ne htarget, ← hs sa hsa']
      simp [heq]

theorem Consistent.step (h : Consistent S txs ops w₀ tr w e)
    (htxs : ∀ i, UserAddr (txs i).strAddr) {i : ι} {a : Act} {r : a.Res}
    (ha : Effect.allow S (txs i) (ops i) (e i) a) (hok : w.ok a r) :
    Consistent S txs ops w₀ (tr ++ [(i, ⟨a, r⟩)]) (w.eff a r)
      (Function.update e i ((e i).next S (ops i) a r)) := by
  refine ⟨by rw [World.txflags_eff, h.flags], by rw [World.md5_eff, h.md5],
    h.uuids.trans World.uuids_le_eff, h.reports_step ha, ?_⟩
  obtain ⟨lin, hordered, hlin⟩ := h.ordered
  by_cases hcommit : e i = .pending ∧ ∃ x, a.answer r = some (succeededFuture x)
  · obtain ⟨hpending, x, hr⟩ := hcommit
    have hi : i ∉ lin.map Prod.fst := by
      intro hi
      obtain ⟨⟨j, v⟩, hv, hj⟩ := List.mem_map.1 hi
      obtain rfl : j = i := hj
      exact nomatch hpending.symm.trans ((hlin j v).2 hv)
    have hback : ∀ l ∈ own i tr, ¬CalledBack txs i l := by
      rintro _ hl ⟨res, rfl⟩
      have hreports := h.reports i res hl
      rw [hpending] at hreports
      exact hreports
    have hcall : (ops i).call ((ops i).digestOf S.md5) ⟨S.session.D.space, (txs i).strAddr⟩ =
        some a := by
      rw [hpending] at ha
      cases a with
      | put | get | remove | clear | size => exact ha
      | getKeys => exact ha.elim
      | _ => exact nomatch hr
    obtain ⟨v, hv, hordered'⟩ := hordered.commit h.md5 hi hback hcall hok hr (htxs i)
    rw [hpending, Effect.next_of_succeeded hr hv]
    refine ⟨_, hordered', fun j u => ?_⟩
    by_cases hj : j = i
    · subst hj
      have hu : (j, u) ∉ lin := fun hu => hi (List.mem_map_of_mem hu)
      simp [hu, eq_comm]
    · rw [Function.update_of_ne hj, hlin j u, List.mem_append, List.mem_singleton]
      simp [hj]
  · have hmap (sa : JString) (hsa : UserAddr sa) :=
      Effect.map_eff hsa ha (w := w) (r := r) fun hp x hx => hcommit ⟨hp, x, hx⟩
    obtain ⟨s, hlin', hs⟩ := hordered
    refine ⟨lin, ⟨s, hlin'.stutter _, fun sa hsa => (hs sa hsa).trans (hmap sa hsa).symm⟩,
      fun j u => ?_⟩
    rw [← hlin j u]
    by_cases hj : j = i
    · subst hj
      rw [Function.update_self]
      cases he : e j with
      | pending =>
        have hne (v : Obj) : Effect.next S (ops j) .pending a r ≠ .effective v := by
          unfold Effect.next
          simp only
          split_ifs
          · exact nofun
          · split
            · rename_i x hx
              exact absurd ⟨he, x, hx⟩ hcommit
            · exact nofun
        simp [hne u]
      | _ => rfl
    · rw [Function.update_of_ne hj]

/-- Whatever the interleaving of the clients' transactions, there is an order `lin` of
    the operations that have taken effect, with their results, which keeps the real
    time order, and in which results and maps are those of the abstract store. The
    handlers are given these results, and failures for the operations that do not
    take effect. -/
theorem linearizable {s : KvdnSession} (hpre : s.preHooks = [])
    (hpost : s.postHooks = [.StoreMetaKVHook]) (hflags : w₀.txflags s.sessionid = ∅)
    (hs : ∀ i, (txs i).session = s) (hsa : ∀ i, UserAddr (txs i).strAddr)
    (htxid : ∀ i, (txs i).txid < w₀.uuids) (hops : ∀ i, ops i ≠ .getKeys)
    {ps : ι → Prog (AsyncResult Obj)}
    (h : sem.Pool w₀ (fun i => (txs i).run (ops i)) tr w ps) :
    ∃ lin, Ordered s.D w₀.md5 txs ops w₀ tr w lin ∧
      ∀ i res, (⟨.handle (txs i).txid res, ()⟩ : Step) ∈ own i tr →
        (∃ v, res = succeededFuture v ∧ (i, v) ∈ lin) ∨
          (∃ c, res = failedFuture c) ∧ i ∉ lin.map Prod.fst := by
  let S : Setting := ⟨s, w₀.md5, w₀.uuids⟩
  have hinit : Consistent S txs ops w₀ [] w₀ fun _ => .pending :=
    ⟨hflags, rfl, le_rfl, fun i res hres => (nomatch hres),
      [], ⟨_, .nil, fun _ _ => rfl⟩, fun i v => ⟨nofun, nofun⟩⟩
  -- a transaction takes effect when its map answers: there it is put at the end of the order
  have hkeeps : Outline.KeepsPool (fun i => Effect.outline S (txs i) (ops i)) sem
      (Consistent S txs ops w₀) := fun tr w e i a r hInv _ ha hok =>
    ⟨_, ⟨known_of_ok (.inl fun _ => by simp [hInv.flags]) hInv.md5 hInv.uuids hok, rfl⟩, hInv.step hsa ha hok⟩
  obtain ⟨e, hconsistent, -⟩ := h.holds (fun i => Effect.verified hpre hpost (htxid i)) hkeeps
    hinit fun i => Effect.holds_run hpre hpost (hs i) (hops i)
  obtain ⟨lin, hordered, hlin⟩ := hconsistent.ordered
  refine ⟨lin, hordered, fun i res hres => ?_⟩
  have hreports := hconsistent.reports i res hres
  cases he : e i with
  | pending => rw [he] at hreports; exact hreports.elim
  | effective v =>
    rw [he] at hreports
    exact .inl ⟨v, hreports, (hlin i v).1 he⟩
  | failed =>
    rw [he] at hreports
    refine .inr ⟨hreports, fun hi => ?_⟩
    obtain ⟨⟨j, v⟩, hv, hj⟩ := List.mem_map.1 hi
    obtain rfl : j = i := hj
    exact nomatch he.symm.trans ((hlin j v).2 hv)

end

/-- Two clients on one address, whose callbacks alternate. -/
theorem linearizable_two :
    let txs : Bool → KvTx := fun i =>
      { txid := if i then 0 else 1, session := .inMemory 0, strAddr := jstr "a" }
    let ops : Bool → Op := fun i => if i then .set (jstr "k") (jstr "v") else .get (jstr "k")
    let w₀ : World := { uuids := 2 }
    ∃ tr w ps, sem.Pool w₀ (fun i => (txs i).run (ops i)) tr w ps ∧ tr.length = 28 ∧
      ∃ lin, Ordered (.DefaultDataImpl false) w₀.md5 txs ops w₀ tr w lin ∧
        ∀ i res, (⟨.handle (txs i).txid res, ()⟩ : Step) ∈ own i tr →
          (∃ v, res = succeededFuture v ∧ (i, v) ∈ lin) ∨
            (∃ c, res = failedFuture c) ∧ i ∉ lin.map Prod.fst := by
  intro txs ops w₀
  have hpool := pool_schedule_init World.ok_succeed w₀ (fun i => (txs i).run (ops i))
    (List.replicate 30 [true, false]).flatten (S := sem)
  refine ⟨_, _, _, hpool, ?_, ?_⟩
  · decide
  · exact linearizable (s := .inMemory 0) rfl rfl rfl (fun _ => rfl) (by decide) (by decide)
      (by decide) hpool

end Kvdn
