import Kvdn.Linearizable
import Kvdn.RestStore

/-!
# Clients that ask for the keys

The clients of a session without flags whose only hook is the metadata hook, and whose key
provider looks for the keys where the data are: with the answer of the provider, `getKeys`
takes effect like the other operations do with the call of their map. So all of them are
linearizable together (`exists_linearization`), and so are the requests of the data routes,
by what they are answered (`linearizable_requests`).
-/

namespace Kvdn

open Callback Callback.Prog Callback.Sem AsyncResult

/-! ## The steps of a client -/

namespace Effect

/-- The steps of a client, which may ask for its keys: a `getKeys` decides with nothing else. -/
def allowKeys (S : Setting) (tx : KvTx) (op : Op) (e : Effect) (a : Act) : Prop :=
  (allow S tx op e a ∧ (op = .getKeys → e = .pending → a.decides = false)) ∨
    (e = .pending ∧ op = .getKeys ∧ a = .getKeys S.session.keyprov tx.strAddr)

/-- The outline of a client, which may ask for its keys. -/
def keysOutline (S : Setting) (tx : KvTx) (op : Op) : Outline Act.Res Exn Effect where
  allow := allowKeys S tx op
  next e a r e' := Known S a r ∧ e' = e.next S op a r
  throws _ _ := True

variable {S : Setting} {tx tx' : KvTx} {op o : Op} {e : Effect}

/-- What other clients do is allowed, and what is done once the keys have been had. -/
theorem holds_keysOutline {α : Type} {Q : Effect → α → Prop} {p : Prog α}
    (he : op = .getKeys → e ≠ .pending) (h : p.Holds (outline S tx op) Q e) :
    p.Holds (keysOutline S tx op) Q e := by
  refine h.refine (fun g g' => g = g' ∧ (op = .getKeys → g ≠ .pending)) ?_ ?_
    (fun _ _ _ _ _ => trivial) ?_ ⟨rfl, he⟩
  · rintro g _ a ⟨rfl, hg⟩ ha
    exact .inl ⟨ha, fun hop hpending => absurd hpending (hg hop)⟩
  · rintro g _ a r g' ⟨rfl, hg⟩ _ ⟨hk, rfl⟩
    refine ⟨_, ⟨hk, rfl⟩, rfl, fun hop => ?_⟩
    rw [next_of_ne (hg hop)]
    exact hg hop
  · rintro g _ x ⟨rfl, -⟩ hQ
    exact hQ

theorem verified_keysOutline (hpre : S.session.preHooks = [])
    (hpost : S.session.postHooks = [.StoreMetaKVHook]) (htx : tx.txid < S.uuids) :
    (keysOutline S tx op).Verified sem := by
  rintro a q hb e (⟨ha, -⟩ | ⟨-, -, rfl⟩)
  · refine holds_keysOutline (fun _ => ?_) (verified hpre hpost htx a q hb e ha)
    cases a with
    | hook | op => exact ha.1
    | _ => cases hb
  · cases hb

/-- The effect of a `getKeys`, from the outcome of its transaction. -/
theorem Of.step_keys {g : Progress} {a : Act} {r : a.Res} (h : Of S .getKeys e g.outcome)
    (hs : tx.session = S.session) (hfits : Fits S tx .getKeys g)
    (ha : Progress.allow tx .getKeys g a) (hk : Known S a r) :
    Of S .getKeys (e.next S .getKeys a r) (g.step tx .getKeys a r).outcome := by
  have hcalls (hcalls : g.Calls .getKeys a) :
      Of S .getKeys (e.next S .getKeys a r) (g.step tx .getKeys a r).outcome := by
    cases (hfits.call hcalls).2
  cases a with
  | put | get | remove | clear | size => exact hcalls ha
  | getKeys p sa =>
    rw [ha.2.1] at h
    obtain rfl : e = .pending := h
    exact Of.answered rfl
  | getMap D sa => exact absurd rfl ha.2.2.1
  | checkFlags sessionid mode =>
    obtain ⟨⟨map, hg⟩, -, rfl, -⟩ := ha
    obtain rfl : r = true := hk (by rw [hs])
    rw [next_of_not_decides rfl, Progress.step_checkFlags hg]
    exact h
  | _ =>
    rw [next_of_not_decides rfl, Progress.outcome_step rfl fun _ _ hflags => by cases hflags]
    exact h

theorem Of.ne_pending {g : Progress} (h : Of S op e g.outcome) (ho : g.outcome ≠ .open) :
    e ≠ .pending := by
  rintro rfl
  cases hg : g.outcome with
  | «open» => exact ho hg
  | refused map =>
    rw [hg] at h
    exact h
  | failed c =>
    rw [hg] at h
    cases h
  | called x =>
    rw [hg] at h
    obtain ⟨v, -, hv⟩ := h
    cases hv

/-- A handler is given what has become of the operation. -/
theorem Of.reports {g : Progress} (h : Of S op e g.outcome) (hfits : Fits S tx op g)
    {res : AsyncResult Obj} (hres : g.result op = some res) : e.Reports res := by
  cases Progress.gives_of_result hres with
  | refused map ho => exact absurd ho (hfits.not_refused map)
  | failed c ho =>
    rw [ho] at h
    obtain rfl : e = .failed := h
    exact ⟨c, rfl⟩
  | called x v ho hv =>
    rw [ho] at h
    obtain ⟨v', hv', rfl⟩ := h
    obtain rfl : v = v' := Option.some.inj ((hfits.result hv).symm.trans hv')
    rfl

/-- A `getKeys` goes through its transaction. -/
theorem holds_run_keys (hpre : S.session.preHooks = [])
    (hpost : S.session.postHooks = [.StoreMetaKVHook]) (hs : tx.session = S.session) :
    (tx.run .getKeys).Holds (keysOutline S tx .getKeys) (fun _ _ => True) .pending := by
  refine (Progress.holds_run tx .getKeys).refine
    (fun g e => Fits S tx .getKeys g ∧ Of S .getKeys e g.outcome) ?_ ?_ (fun _ _ _ _ _ => trivial)
    (fun _ _ _ _ _ => trivial) ⟨fits_init, rfl⟩
  · rintro g e a ⟨hfits, hof⟩ ha
    have hcalls (hcalls : g.Calls .getKeys a) : allowKeys S tx .getKeys e a := by
      cases (hfits.call hcalls).2
    cases a with
    | put | get | remove | clear | size => exact hcalls ha
    | getKeys p sa =>
      obtain ⟨-, hopen, -, rfl, rfl⟩ := ha
      rw [hopen] at hof
      exact .inr ⟨hof, rfl, by rw [hs]⟩
    | getMap => exact absurd rfl ha.2.2.1
    | hook =>
      obtain ⟨hopen, hnxt⟩ := hook_of_fits hpre hpost hfits hs ha
      exact .inl ⟨⟨hof.ne_pending hopen, hnxt⟩, fun _ _ => rfl⟩
    | handle txid res => exact .inl ⟨fun _ => hof.reports hfits ha.2.2.1, fun _ _ => rfl⟩
    | op => exact ha.elim
    | _ => exact .inl ⟨trivial, fun _ _ => rfl⟩
  · rintro g e a r _ ⟨hfits, hof⟩ ha ⟨hk, rfl⟩
    exact ⟨_, rfl, hfits.step hs ha hk, hof.step_keys hs hfits ha hk⟩

/-- A client goes through its transaction, whatever it asks for. -/
theorem holds_run_all (hpre : S.session.preHooks = [])
    (hpost : S.session.postHooks = [.StoreMetaKVHook]) (hs : tx.session = S.session) (op : Op) :
    (tx.run op).Holds (keysOutline S tx op) (fun _ _ => True) .pending := by
  by_cases hop : op = .getKeys
  · rw [hop]
    exact holds_run_keys hpre hpost hs
  · exact holds_keysOutline (fun h => absurd h hop) (holds_run hpre hpost hs hop)

end Effect

/-! ## Linearizability -/

section

variable {ι : Type} [DecidableEq ι] {S : Setting} {txs : ι → KvTx} {ops : ι → Op}
  {w₀ w : World} {tr : List (ι × Step)} {e : ι → Effect}

/-- The answer of the key provider is that of the store. -/
theorem Consistent.step_keys (h : Consistent S txs ops w₀ tr w e)
    (hsource : S.session.keyprov.source = some S.session.D.space) {i : ι}
    (hsa : UserAddr (txs i).strAddr) (hpending : e i = .pending) (hop : ops i = .getKeys)
    {a : Act} {r : a.Res} (ha : a = .getKeys S.session.keyprov (txs i).strAddr) (hok : w.ok a r) :
    Consistent S txs ops w₀ (tr ++ [(i, ⟨a, r⟩)]) (w.eff a r)
      (Function.update e i ((e i).next S (ops i) a r)) := by
  subst ha
  obtain rfl := World.ok_getKeys hsource hok
  obtain ⟨lin, ⟨s, hlin, hs⟩, hin⟩ := h.ordered
  let keys := (w.map ⟨S.session.D.space, (txs i).strAddr⟩).keys
  have hstep : kvStep S.md5 s ((txs i).strAddr, ops i) = (s, .keys keys) := by
    rw [hop]
    show (Function.update s (txs i).strAddr (s (txs i).strAddr), Obj.keys (s (txs i).strAddr).keys) = _
    rw [Function.update_eq_self, hs _ hsa]
  have hnone (res : AsyncResult Obj) :
      (⟨.handle (txs i).txid res, ()⟩ : Step) ∉ own i tr := by
    intro hres
    have hreports := h.reports i res hres
    rw [hpending] at hreports
    exact hreports
  have hi : i ∉ lin.map Prod.fst := by
    intro hi
    obtain ⟨⟨j, v⟩, hv, rfl⟩ := List.mem_map.1 hi
    cases hpending.symm.trans ((hin _ v).2 hv)
  have hnext : (e i).next S (ops i) (.getKeys S.session.keyprov (txs i).strAddr)
      (succeededFuture (.keys keys)) = .effective (.keys keys) := by
    rw [hpending, hop]
    exact Effect.next_of_succeeded rfl rfl
  rw [hnext]
  -- the operation takes effect now: it is put at the end of the order
  refine ⟨h.flags, h.md5, h.uuids, fun j res hres => ?_, lin ++ [(i, .keys keys)],
    ⟨s, hlin.commit hi (fun l hl => ?_) hstep, hs⟩, fun j v => ?_⟩
  · by_cases hj : j = i
    · subst hj
      rw [own_append, own_self, List.mem_append, List.mem_singleton] at hres
      rcases hres with hres | hres
      · exact absurd hres (hnone res)
      · cases hres
    · rw [own_append, own_of_ne (Ne.symm hj), List.append_nil] at hres
      rw [Function.update_of_ne hj]
      exact h.reports j res hres
  · rintro ⟨res, rfl⟩
    rcases List.mem_append.1 hl with hl | hl
    · exact hnone res hl
    · cases List.mem_singleton.1 hl
  · rw [List.mem_append, List.mem_singleton]
    by_cases hj : j = i
    · subst hj
      have hv : (j, v) ∉ lin := fun hv => hi (List.mem_map_of_mem hv)
      simp [hv, eq_comm]
    · rw [Function.update_of_ne hj, hin]
      simp [hj]

/-- No `getKeys` fails. -/
theorem Effect.next_ne_failed {S : Setting} {tx : KvTx} {op : Op} {e : Effect} {a : Act}
    {r : a.Res} {w : World} (hsource : S.session.keyprov.source = some S.session.D.space)
    (hop : op = .getKeys) (he : e ≠ .failed) (ha : e.allowKeys S tx op a) (hok : w.ok a r) :
    e.next S op a r ≠ .failed := by
  by_cases hpending : e = .pending
  · rcases ha with ⟨-, hdecides⟩ | ⟨-, -, rfl⟩
    · rw [next_of_not_decides (hdecides hop hpending)]
      exact he
    · obtain rfl := World.ok_getKeys hsource hok
      rw [hpending, hop, next_of_succeeded rfl rfl]
      rintro ⟨⟩
  · rwa [next_of_ne hpending]

/-- Whatever the interleaving of the clients' transactions, there is an order `lin` of the
    operations that have taken effect, with their results, which keeps the real time order,
    and in which results and maps are those of the abstract store. The handlers are given
    these results, and failures for the operations that do not take effect, among which
    there is no `getKeys`. -/
theorem exists_linearization {s : KvdnSession} (hpre : s.preHooks = [])
    (hpost : s.postHooks = [.StoreMetaKVHook]) (hsource : s.keyprov.source = some s.D.space)
    (hflags : w₀.txflags s.sessionid = ∅) (hs : ∀ i, (txs i).session = s)
    (hsa : ∀ i, UserAddr (txs i).strAddr) (htxid : ∀ i, (txs i).txid < w₀.uuids)
    {ps : ι → Prog (AsyncResult Obj)} (h : sem.Pool w₀ (fun i => (txs i).run (ops i)) tr w ps) :
    ∃ lin, Ordered s.D w₀.md5 txs ops w₀ tr w lin ∧
      ∀ i res, (⟨.handle (txs i).txid res, ()⟩ : Step) ∈ own i tr →
        (∃ v, res = succeededFuture v ∧ (i, v) ∈ lin) ∨
          (∃ c, res = failedFuture c) ∧ ops i ≠ .getKeys ∧ i ∉ lin.map Prod.fst := by
  let S : Setting := ⟨s, w₀.md5, w₀.uuids⟩
  have hinit : Consistent S txs ops w₀ [] w₀ fun _ => .pending :=
    ⟨hflags, rfl, le_rfl, fun i res hres => (by cases hres),
      [], ⟨_, .nil, fun _ _ => rfl⟩, fun i v => by simp⟩
  have hkeeps : Outline.KeepsPool (fun i => Effect.keysOutline S (txs i) (ops i)) sem
      fun tr w e => Consistent S txs ops w₀ tr w e ∧ ∀ i, ops i = .getKeys → e i ≠ .failed := by
    rintro tr w e i a r ⟨hInv, hkeys⟩ _ ha hok
    refine ⟨_, ⟨known_of_ok (.inl fun _ => by simp [hInv.flags]) hInv.md5 hInv.uuids hok, rfl⟩,
      ?_, fun j hj => ?_⟩
    · rcases ha with ⟨ha, -⟩ | ⟨hpending, hop, rfl⟩
      · exact hInv.step hsa ha hok
      · exact hInv.step_keys hsource (hsa i) hpending hop rfl hok
    · by_cases hji : j = i
      · subst hji
        rw [Function.update_self]
        exact Effect.next_ne_failed hsource hj (hkeys j hj) ha hok
      · rw [Function.update_of_ne hji]
        exact hkeys j hj
  obtain ⟨e, ⟨hconsistent, hkeys⟩, -⟩ := h.holds
    (fun i => Effect.verified_keysOutline hpre hpost (htxid i)) hkeeps
    ⟨hinit, fun _ _ => by rintro ⟨⟩⟩ fun i => Effect.holds_run_all hpre hpost (hs i) (ops i)
  obtain ⟨lin, hordered, hin⟩ := hconsistent.ordered
  refine ⟨lin, hordered, fun i res hres => ?_⟩
  have hreports := hconsistent.reports i res hres
  cases he : e i with
  | pending =>
    rw [he] at hreports
    exact hreports.elim
  | effective v =>
    rw [he] at hreports
    exact .inl ⟨v, hreports, (hin i v).1 he⟩
  | failed =>
    rw [he] at hreports
    refine .inr ⟨hreports, fun hop => hkeys i hop he, fun hi => ?_⟩
    obtain ⟨⟨j, v⟩, hv, rfl⟩ := List.mem_map.1 hi
    cases he.symm.trans ((hin _ v).2 hv)

end

/-! ## Requests -/

section

variable {ι : Type} [DecidableEq ι] {server : HTTPServer} {router : Router}
  {qs : ι → DataRequest} {mNames : ι → JString} {txs : ι → KvTx} {ops : ι → Op} {w₀ w : World}
  {tr : List (ι × Step)}

/-- The handler of a request performs the operation `o`, on the transaction object `tx`. -/
structure DataRequest.Performs (server : HTTPServer) (q : DataRequest) (mName : JString)
    (tx : KvTx) (o : Op) : Prop where
  route : q.route.Matches q.rc
  map : q.rc.getParam .map = some mName
  op : q.route.op q.randomUUID q.rc = some o
  session : tx.session = server.svc.session
  address : ∃ sName, q.rc.getParam .str = some sName ∧ tx.strAddr = server.address sName mName

theorem DataRequest.Performs.handler_eq {q : DataRequest} {mName : JString} {tx : KvTx} {o : Op}
    (h : q.Performs server mName tx o) (a : Reply) :
    q.route.handler server q.randomUUID a q.rc {} = a.guarded q.route.catches
      ⟨⟨server.svc.session, tx.strAddr, o⟩,
        Route.resultHandler (HTTPServer.filterName mName) o⟩ {} := by
  obtain ⟨sName, hs, haddr⟩ := h.address
  have hh := Route.handler_eq server q.randomUUID a h.route hs h.map
  rw [h.op] at hh
  rw [hh, haddr]
  rfl

/-- Requests are handled at the same time, by the transactions `txs`: what they are answered
    is in the order of those that have taken effect, and the others are answered that they
    have not. A request whose transaction is cut by an exception has no handler called, and
    nothing is said of what the router answers it. -/
theorem linearizable_requests (hinit : server.svc.session.initalized = true)
    (hpre : server.svc.session.preHooks = [])
    (hpost : server.svc.session.postHooks = [.StoreMetaKVHook])
    (hsource : server.svc.session.keyprov.source = some server.svc.session.D.space)
    (hflags : w₀.txflags server.svc.session.sessionid = ∅)
    (hstrings : HoldsStrings (w₀.view server.svc.session.D))
    (hqs : ∀ i, (qs i).Performs server (mNames i) (txs i) (ops i))
    (hsa : ∀ i, UserAddr (txs i).strAddr) (htxid : ∀ i, (txs i).txid < w₀.uuids)
    {ps : ι → Prog (AsyncResult Obj)} (h : sem.Pool w₀ (fun i => (txs i).run (ops i)) tr w ps) :
    ∃ lin, Ordered server.svc.session.D w₀.md5 txs ops w₀ tr w lin ∧
      ∀ i res, (⟨.handle (txs i).txid res, ()⟩ : Step) ∈ own i tr →
        let sent := ((qs i).exchange server router res).response.sent
        (∃ v, (i, v) ∈ lin ∧
          sent = [(200, Rest.body (HTTPServer.filterName (mNames i)) v (ops i))]) ∨
        (i ∉ lin.map Prod.fst ∧ ∃ cause, sent = [(501, .cause cause)]) := by
  obtain ⟨lin, hordered, hhandled⟩ := exists_linearization hpre hpost hsource hflags
    (fun i => (hqs i).session) hsa htxid h
  refine ⟨lin, hordered, fun i res hres => ?_⟩
  have hh := (hqs i).handler_eq ⟨res, (qs i).later⟩
  rcases hhandled i res hres with ⟨v, rfl, hv⟩ | ⟨⟨cause, rfl⟩, hop, hi⟩
  · obtain ⟨s, hlin, -⟩ := hordered
    obtain ⟨s', hs, hs'⟩ := hlin.exists_step (P := HoldsStrings)
      (fun s i hs => hs.kvStep w₀.md5 _) hstrings hv
    obtain rfl : ((ops i).apply w₀.md5 (s' (txs i).strAddr)).2 = v := hs'
    obtain ⟨response, hm, hsent⟩ := resultHandler_succeeded (HTTPServer.filterName (mNames i))
      (ops i) w₀.md5 (hs _ (hsa i))
    obtain ⟨hresponse, -⟩ := exchange_of_ok router hh hinit hm
    exact .inl ⟨_, hv, (congrArg HttpServerResponse.sent hresponse).trans hsent⟩
  · obtain ⟨response, hm, hsent⟩ :=
      resultHandler_failed (HTTPServer.filterName (mNames i)) hop cause
    obtain ⟨hresponse, -⟩ := exchange_of_ok router hh hinit hm
    exact .inr ⟨hi, cause, (congrArg HttpServerResponse.sent hresponse).trans hsent⟩

end

/-- A key is put while another client asks for the keys, and their callbacks alternate. -/
theorem linearizable_putRequest :
    let server := HTTPServer.inMemory
    let qs : Bool → DataRequest := fun i => if i then putRequest else keysLater
    let txs : Bool → KvTx := fun i =>
      { txid := if i then 0 else 1, session := server.svc.session, strAddr := jstr "a_b" }
    let ops : Bool → Op := fun i => if i then .set (jstr "k") (jstr "v") else .getKeys
    let w₀ : World := { uuids := 2 }
    ∃ tr w ps, sem.Pool w₀ (fun i => (txs i).run (ops i)) tr w ps ∧ tr.length = 26 ∧
      ∃ lin, Ordered server.svc.session.D w₀.md5 txs ops w₀ tr w lin ∧
        ∀ i res, (⟨.handle (txs i).txid res, ()⟩ : Step) ∈ own i tr →
          let sent := ((qs i).exchange server .plain res).response.sent
          (∃ v, (i, v) ∈ lin ∧ sent = [(200, Rest.body (jstr "b") v (ops i))]) ∨
          (i ∉ lin.map Prod.fst ∧ ∃ cause, sent = [(501, .cause cause)]) := by
  intro server qs txs ops w₀
  have hpool := pool_schedule_init World.ok_succeed w₀ (fun i => (txs i).run (ops i))
    (List.replicate 30 [true, false]).flatten (S := sem)
  have hqs (i : Bool) : (qs i).Performs server (jstr "b") (txs i) (ops i) := by
    cases i <;> exact ⟨by decide, rfl, rfl, rfl, jstr "a", rfl, rfl⟩
  refine ⟨_, _, _, hpool, by decide +kernel, ?_⟩
  exact linearizable_requests rfl rfl rfl rfl rfl (fun _ _ _ _ hx => by cases hx) hqs
    (fun _ => show UserAddr (jstr "a_b") by decide) (by decide) hpool

end Kvdn
