import Kvdn.Isolation
import Kvdn.StoreRuns

/-!
# The store behind the data routes

What the clients of the data routes see, who know nothing of transactions: a finite map for
every pair of names, on which the requests act one after the other (`Rest.Answers`,
`Rest.Run`). A server of which the key provider looks for the keys where the data are is such
a store (`Conversation.refines_store`): whatever fails underneath, every request whose
transaction comes to its end is answered once; with the status 200 if it has done what it asks
for, and otherwise with another one, and then it has done nothing.

Transactions that are cut by an exception, as `bailTx` is by a cause that is an error, are
left out: their requests are answered with the status 500 by the router, or by nobody,
whether they have done what they ask for or not.
-/

namespace Kvdn

open Callback Callback.Sem AsyncResult HttpServerResponse

/-! ## Requests being served -/

/-- A request of a data route, and what is up to the environment. -/
structure DataRequest where
  route : Route
  rc : RoutingContext
  /-- The UUID drawn for it, if the route draws one. -/
  randomUUID : JString := []
  /-- Its transaction answers after the call of the service has returned. -/
  later : Bool := false

/-- What becomes of a request whose transaction answers `res`. -/
def DataRequest.exchange (q : DataRequest) (server : HTTPServer) (router : Router)
    (res : AsyncResult Obj) : Exchange :=
  router.answer ⟨res, q.later⟩ (q.route.handler server q.randomUUID ⟨res, q.later⟩ q.rc)

/-- A request is served: the transactions that its handler performs are run, none of them is
    cut by an exception, and they answer `res`. -/
def Served (server : HTTPServer) (router : Router) (q : DataRequest) (w : World) (x : Exchange)
    (w' : World) : Prop :=
  ∃ res ts, x = q.exchange server router res ∧ sem.Serial Request.transaction w ts w' ∧
    ts.map Turn.call = x.calls.map ServiceCall.request ∧ ∀ t ∈ ts, t.value = res

/-- Requests are served one after the other, with these responses. -/
inductive Conversation (server : HTTPServer) (router : Router) :
    World → List (DataRequest × HttpServerResponse) → World → Prop
  | nil (w : World) : Conversation server router w [] w
  | cons {q : DataRequest} {x : Exchange} {w w' w'' : World}
      {l : List (DataRequest × HttpServerResponse)} : Served server router q w x w' →
      Conversation server router w' l w'' → Conversation server router w ((q, x.response) :: l) w''

/-! ## The store -/

namespace Rest

/-- The body of the answer to an operation with the result `x`. -/
def body (mName : JString) (x : Obj) : Op → Body
  | .set key _ | .del key => .json mName (.str key)
  | .submit _ => .json mName x
  | .getKeys =>
    match x with
    | .keys ks => .array ks
    | _ => .empty
  | .get _ | .size | .clear => .obj x

/-- What a request may be answered, and what it makes of the store: it is performed, or
    refused for it lacks something, or it fails. -/
inductive Answers (md5 : List UInt8 → List UInt8) (server : HTTPServer) (q : DataRequest)
    (s : JString → KMap) : ℕ → Body → (JString → KMap) → Prop
  | performed {sName mName : JString} {o : Op} (hs : q.rc.getParam .str = some sName)
      (hm : q.rc.getParam .map = some mName) (ho : q.route.op q.randomUUID q.rc = some o) :
      Answers md5 server q s 200
        (body (HTTPServer.filterName mName) (kvStep md5 s (server.address sName mName, o)).2 o)
        (kvStep md5 s (server.address sName mName, o)).1
  | refused (ho : q.route.op q.randomUUID q.rc = none) :
      Answers md5 server q s 400 q.route.refusal s
  | failed (cause : Throwable) (ho : q.route.op q.randomUUID q.rc ≠ none) :
      Answers md5 server q s 501 (.cause cause) s

/-- The store answers the requests, each of them once. -/
inductive Run (md5 : List UInt8 → List UInt8) (server : HTTPServer) :
    (JString → KMap) → List (DataRequest × HttpServerResponse) → (JString → KMap) → Prop
  | nil (s : JString → KMap) : Run md5 server s [] s
  | cons {q : DataRequest} {response : HttpServerResponse} {code : ℕ} {b : Body}
      {s s' s'' : JString → KMap} {l : List (DataRequest × HttpServerResponse)} :
      response.sent = [(code, b)] → Answers md5 server q s code b s' → Run md5 server s' l s'' →
      Run md5 server s ((q, response) :: l) s''

end Rest

/-! ## Strings -/

/-- The values of a map are strings. -/
def KMap.HoldsStrings (m : KMap) : Prop := ∀ key x, m.lookup key = some x → x.isString = true

/-- The maps of the clients hold strings. -/
def HoldsStrings (s : JString → KMap) : Prop := ∀ sa, UserAddr sa → (s sa).HoldsStrings

/-- The operations put nothing else into a map. -/
theorem KMap.HoldsStrings.apply {m : KMap} (h : m.HoldsStrings) (md5 : List UInt8 → List UInt8)
    (o : Op) : (o.apply md5 m).1.HoldsStrings := by
  have hinsert (key content : JString) : KMap.HoldsStrings (m.insert key (.str content)) := by
    intro key' x hx
    by_cases hkey : key' = key
    · rw [hkey, Finmap.lookup_insert] at hx
      obtain rfl := Option.some.inj hx
      rfl
    · rw [Finmap.lookup_insert_of_ne m hkey] at hx
      exact h key' x hx
  cases o with
  | set key content => exact hinsert key content
  | submit content => exact hinsert _ content
  | clear =>
    intro key x hx
    cases hx
  | del key =>
    intro key' x hx
    by_cases hkey : key' = key
    · rw [hkey, Op.apply, Finmap.lookup_erase] at hx
      cases hx
    · rw [Op.apply, Finmap.lookup_erase_ne hkey] at hx
      exact h key' x hx
  | get | getKeys | size => exact h

theorem HoldsStrings.kvStep {s : JString → KMap} (h : HoldsStrings s)
    (md5 : List UInt8 → List UInt8) (call : JString × Op) : HoldsStrings (kvStep md5 s call).1 := by
  intro sa hsa
  dsimp only [Kvdn.kvStep]
  by_cases hcall : sa = call.1
  · subst hcall
    rw [Function.update_self]
    exact (h _ hsa).apply md5 call.2
  · rw [Function.update_of_ne hcall]
    exact h sa hsa

/-- What a `get` finds is a string, or nothing. -/
theorem KMap.HoldsStrings.isString_get {m : KMap} (h : m.HoldsStrings)
    (md5 : List UInt8 → List UInt8) (key : JString) : ((Op.get key).apply md5 m).2.isString = true := by
  show (((m.lookup key).getD .null).isString) = true
  cases hx : m.lookup key with
  | none => rfl
  | some x => exact h key x hx

/-! ## Responses -/

section

variable (router : Router) {a : Reply} {h : Handling Unit} {c : ServiceCall}
  {catches : Option (Thrown → Body)} (mName : JString) {o : Op}

theorem exchange_of_refused {b : Body} (hh : h {} = (endStatus 400 b).toHandling {}) :
    (router.answer a h).response.sent = [(400, b)] ∧ (router.answer a h).calls = [] := by
  have hanswer : router.answer a h = { response := { statusCode := 400, sent := [(400, b)] } } := by
    unfold Router.answer
    rw [hh]
    cases a.later <;> rfl
  rw [hanswer]
  exact ⟨rfl, rfl⟩

/-- The callback ends the response whether it is called before the handler returns or after. -/
theorem exchange_of_ok {response : HttpServerResponse} (hh : h {} = a.guarded catches c {})
    (hinit : c.request.session.initalized = true)
    (hm : c.resultHandler a.res {} = .ok () response) :
    (router.answer a h).response = response ∧ (router.answer a h).calls = [c] := by
  cases hlater : a.later with
  | true =>
    have hperform : a.perform c {} = .ok () { calls := [c] } := by
      rw [Reply.perform, if_pos hinit, hlater]
      rfl
    have hanswer : router.answer a h = Exchange.callBack a { calls := [c] } c := by
      rw [Router.answer, hh, guarded_of_ok hperform, if_pos hlater]
      rfl
    rw [hanswer, Exchange.callBack, hm]
    exact ⟨rfl, rfl⟩
  | false =>
    have hperform : a.perform c {} = .ok () { response := response, calls := [c] } := by
      have hcall : a.perform c {} = (c.resultHandler a.res).toHandling { calls := [c] } := by
        rw [Reply.perform, if_pos hinit, hlater]
        rfl
      rw [hcall, Answering.toHandling, hm]
    have hanswer : router.answer a h = { response := response, calls := [c] } := by
      rw [Router.answer, hh, guarded_of_ok hperform, hlater]
      rfl
    rw [hanswer]
    exact ⟨rfl, rfl⟩

/-- The result of the abstract store is answered with the status 200. -/
theorem resultHandler_succeeded (o : Op) (md5 : List UInt8 → List UInt8) {m : KMap}
    (h : m.HoldsStrings) :
    ∃ response, Route.resultHandler mName o (succeededFuture (o.apply md5 m).2) {} =
      .ok () response ∧ response.sent = [(200, Rest.body mName (o.apply md5 m).2 o)] := by
  cases o with
  | get key =>
    rw [Route.resultHandler, KvdnServiceImpl.logged, if_pos (h.isString_get md5 key)]
    exact ⟨_, rfl, rfl⟩
  | _ => exact ⟨_, rfl, rfl⟩

/-- A failure is answered with another one. -/
theorem resultHandler_failed (ho : o ≠ .getKeys) (cause : Throwable) :
    ∃ response, Route.resultHandler mName o (failedFuture cause) {} = .ok () response ∧
      response.sent = [(501, .cause cause)] := by
  cases o with
  | getKeys => exact absurd rfl ho
  | _ => exact ⟨_, rfl, rfl⟩

end

/-! ## The refinement -/

section

variable {server : HTTPServer} {router : Router} {q : DataRequest} {w w' : World} {x : Exchange}
  {s : JString → KMap} {sName mName : JString}

/-- The maps of the clients are those of the store. -/
def Refines (server : HTTPServer) (w : World) (s : JString → KMap) : Prop :=
  ∀ sa, UserAddr sa → w.view server.svc.session.D sa = s sa

/-- A request names a pair of names that has an address of the clients. -/
def DataRequest.Addressed (server : HTTPServer) (q : DataRequest) : Prop :=
  q.route.Matches q.rc ∧ ∀ sName mName, q.rc.getParam .str = some sName →
    q.rc.getParam .map = some mName → UserAddr (server.address sName mName)

theorem Route.Matches.names {route : Route} {rc : RoutingContext} (h : route.Matches rc) :
    ∃ sName mName, rc.getParam .str = some sName ∧ rc.getParam .map = some mName := by
  have hparam {p : Param} (hp : p ∈ route.params) : ∃ v, rc.getParam p = some v :=
    Option.ne_none_iff_exists'.1 (h p hp)
  obtain ⟨sName, hs⟩ := hparam (p := .str) (by cases route <;> decide)
  obtain ⟨mName, hm⟩ := hparam (p := .map) (by cases route <;> decide)
  exact ⟨sName, mName, hs, hm⟩

/-- What a single run of a transaction does to the store. -/
theorem Refines.kvStep_eq (h : Refines server w s) {sa : JString} (hsa : UserAddr sa) (o : Op) :
    (kvStep w.md5 (w.view server.svc.session.D) (sa, o)).2 = (kvStep w.md5 s (sa, o)).2 ∧
      ∀ sa', UserAddr sa' → (kvStep w.md5 (w.view server.svc.session.D) (sa, o)).1 sa' =
        (kvStep w.md5 s (sa, o)).1 sa' := by
  simp only [kvStep, h sa hsa, true_and]
  intro sa' hsa'
  by_cases heq : sa' = sa
  · rw [heq, Function.update_self, Function.update_self]
  · rw [Function.update_of_ne heq, Function.update_of_ne heq]
    exact h sa' hsa'

/-- A request that is served is answered once, as the store answers it. -/
theorem Served.refines (hserved : Served server router q w x w') (hw : w.Reachable)
    (hinit : server.svc.session.initalized = true)
    (hsource : server.svc.session.keyprov.source = some server.svc.session.D.space)
    (hq : q.Addressed server) (hs : Refines server w s) (hstrings : HoldsStrings s) :
    ∃ code b s', x.response.sent = [(code, b)] ∧ Rest.Answers w.md5 server q s code b s' ∧
      Refines server w' s' ∧ HoldsStrings s' ∧ w'.Reachable ∧ w'.md5 = w.md5 := by
  obtain ⟨res, ts, rfl, hserial, hcalls, hvalues⟩ := hserved
  obtain ⟨hmatch, haddr⟩ := hq
  obtain ⟨sName, mName, hsName, hmName⟩ := hmatch.names
  have hsa := haddr sName mName hsName hmName
  have hh := Route.handler_eq server q.randomUUID ⟨res, q.later⟩ hmatch hsName hmName
  rw [DataRequest.exchange] at hcalls ⊢
  cases hop : q.route.op q.randomUUID q.rc with
  | none =>
    rw [hop] at hh
    obtain ⟨hsent, hnone⟩ := exchange_of_refused router hh
    rw [hnone, List.map_nil, List.map_eq_nil_iff] at hcalls
    subst hcalls
    cases hserial
    exact ⟨400, _, s, hsent, .refused hop, hs, hstrings, hw, rfl⟩
  | some o =>
    rw [hop] at hh
    let c : Request := ⟨server.svc.session, server.address sName mName, o⟩
    -- the one transaction of the handler, whatever its callback does
    have honly : ts.map Turn.call = [c] := by
      rw [hcalls, router.calls_answer, Handling.calls, hh]
      have hguarded := Handling.calls_guarded ⟨res, q.later⟩ q.route.catches
        ⟨c, Route.resultHandler (HTTPServer.filterName mName) o⟩ {}
      rw [Handling.calls_perform, if_pos hinit] at hguarded
      exact congrArg (List.map ServiceCall.request) hguarded
    obtain ⟨t, rfl, ht⟩ := List.map_eq_singleton_iff.1 honly
    obtain rfl := hvalues t List.mem_cons_self
    obtain ⟨w₁, call, value, w₂⟩ := t
    obtain rfl : call = c := ht
    cases hserial with
    | cons hruns hrest =>
      cases hrest
      have hreachable := hw.of_runs hruns
      have hmd5 := md5_of_runs hruns
      obtain ⟨hresult, hnext⟩ := hs.kvStep_eq hsa o
      rcases Request.step_of_runs hw hsa hsource hruns with ⟨rfl, hview⟩ | ⟨⟨cause, rfl⟩, hview⟩
      · obtain ⟨response, hm, hsent⟩ := resultHandler_succeeded (HTTPServer.filterName mName) o
          w.md5 (m := w.view server.svc.session.D c.strAddr) (hs _ hsa ▸ hstrings _ hsa)
        obtain ⟨hresponse, -⟩ := exchange_of_ok router hh hinit hm
        refine ⟨200, _, _, ?_, .performed hsName hmName hop, fun sa hsa' => ?_,
          hstrings.kvStep w.md5 _, hreachable, hmd5⟩
        · rw [hresponse, hsent, ← hresult]
          rfl
        · exact (hview sa hsa').trans (hnext sa hsa')
      · have ho : o ≠ .getKeys := by
          rintro rfl
          cases (yields_getKeys hinit hsource hw _).2 _ _ _ hruns trivial
        obtain ⟨response, hm, hsent⟩ :=
          resultHandler_failed (HTTPServer.filterName mName) ho cause
        obtain ⟨hresponse, -⟩ := exchange_of_ok router hh hinit hm
        refine ⟨501, _, s, ?_, .failed cause ?_, fun sa hsa' => ?_, hstrings, hreachable, hmd5⟩
        · rw [hresponse, hsent]
        · rw [hop]
          rintro ⟨⟩
        · exact (hview sa hsa').trans (hs sa hsa')

theorem Served.of_runs {c : Request} {tr : List Step} {res : AsyncResult Obj}
    (h : sem.Runs w c.transaction tr w' (.ret res))
    (hcalls : (q.exchange server router res).calls.map ServiceCall.request = [c]) :
    Served server router q w (q.exchange server router res) w' :=
  ⟨res, [⟨w, c, res, w'⟩], rfl, .cons h (.nil w'), hcalls.symm,
    List.forall_mem_singleton.2 rfl⟩

/-- The requests of a conversation, in which no transaction is cut by an exception, are answered
    as the store answers them, which leads to the maps that are left in the end. -/
theorem Conversation.refines_store {l : List (DataRequest × HttpServerResponse)}
    (h : Conversation server router w l w') (hw : w.Reachable)
    (hinit : server.svc.session.initalized = true)
    (hsource : server.svc.session.keyprov.source = some server.svc.session.D.space)
    (hstrings : HoldsStrings (w.view server.svc.session.D)) (hl : ∀ e ∈ l, e.1.Addressed server) :
    ∃ s, Rest.Run w.md5 server (w.view server.svc.session.D) l s ∧ Refines server w' s := by
  have hrun (s : JString → KMap) (hs : Refines server w s) (hstored : HoldsStrings s) :
      ∃ s', Rest.Run w.md5 server s l s' ∧ Refines server w' s' := by
    -- on the requests, the first one served first; the abstract store goes along
    clear hstrings
    induction h generalizing s with
    | nil w => exact ⟨s, .nil s, hs⟩
    | cons hserved _ ih =>
      obtain ⟨hq, hl⟩ := List.forall_mem_cons.1 hl
      obtain ⟨code, b, s', hsent, hanswers, hs', hstored', hw', hmd5⟩ :=
        hserved.refines hw hinit hsource hq hs hstored
      obtain ⟨s'', hrun, hs''⟩ := ih hw' hl s' hs' hstored'
      rw [hmd5] at hrun
      exact ⟨s'', .cons hsent hanswers hrun, hs''⟩
  exact hrun _ (fun _ _ => rfl) hstrings

end

/-- `PUT /X/a/b/k` with the body `v` -/
def putRequest : DataRequest where
  route := .set
  rc := HTTPServer.request (jstr "a") (jstr "b") (jstr "k") (some (jstr "v"))

/-- `GET /KEYS/a/b/`, which is answered later. -/
def keysLater : DataRequest where
  route := .keys
  rc := keysRequest
  later := true

/-- A key that has been put is listed. -/
theorem refines_putRequest :
    ∃ l w s, Conversation .inMemory .plain {} l w ∧ l.map Prod.fst = [putRequest, keysLater] ∧
      l.map (fun e => e.2.sent) = [[(200, .json (jstr "b") (.str (jstr "k")))],
        [(200, .array {jstr "k"})]] ∧
      Rest.Run ({} : World).md5 .inMemory (({} : World).view (.DefaultDataImpl false)) l s ∧
      Refines .inMemory w s := by
  let sa : JString := jstr "a_b"
  let session := HTTPServer.inMemory.svc.session
  obtain ⟨ts, w, hserial, hcalls, hvalues⟩ := exists_serial (S := sem) (P := fun _ _ _ => True)
    (p := Request.transaction) (w := {})
    (l := [⟨session, sa, .set (jstr "k") (jstr "v")⟩, ⟨session, sa, .getKeys⟩])
    (Q := fun ts _ => ts.map Turn.value =
      [succeededFuture (.str (jstr "k")), succeededFuture (.keys {jstr "k"})])
    World.ok_succeed 60 (by decide +kernel)
  obtain ⟨t₁, ts₁, rfl, hcall₁, hcalls₁⟩ := List.map_eq_cons_iff.1 hcalls
  obtain ⟨t₂, ts₂, rfl, hcall₂, hcalls₂⟩ := List.map_eq_cons_iff.1 hcalls₁
  obtain rfl := List.map_eq_nil_iff.1 hcalls₂
  obtain ⟨hvalue₁, hrest⟩ := List.cons.inj hvalues
  obtain ⟨hvalue₂, -⟩ := List.cons.inj hrest
  obtain ⟨w₁, c₁, res₁, w₁'⟩ := t₁
  obtain ⟨w₂, c₂, res₂, w₂'⟩ := t₂
  obtain rfl : c₁ = _ := hcall₁
  obtain rfl : c₂ = _ := hcall₂
  obtain rfl : res₁ = _ := hvalue₁
  obtain rfl : res₂ = _ := hvalue₂
  cases hserial.of_restrict with
  | cons hset hrest =>
    cases hrest with
    | cons hkeys hnil =>
      cases hnil
      have hconversation : Conversation .inMemory .plain {} [_, _] _ :=
        .cons (Served.of_runs (q := putRequest) hset rfl)
          (.cons (Served.of_runs (q := keysLater) hkeys rfl) (.nil _))
      have haddressed : putRequest.Addressed .inMemory ∧ keysLater.Addressed .inMemory := by
        refine ⟨⟨by decide, ?_⟩, by decide, ?_⟩ <;>
          · rintro _ _ ⟨⟩ ⟨⟩
            decide
      obtain ⟨s, hrun, hs⟩ := hconversation.refines_store
        (World.Initial.reachable ⟨fun _ => rfl, fun _ => rfl, rfl⟩) rfl rfl
        (fun _ _ _ _ hx => by cases hx) (by simp [haddressed])
      exact ⟨_, _, s, hconversation, rfl, rfl, hrun, hs⟩

end Kvdn
