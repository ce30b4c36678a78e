import Kvdn.KvTx

/-!
# The HTTP server

The data routes of `HTTPServer` and the service `KvdnServiceImpl` they call. A handler
reads the parameters of its request, calls the service at most once, and ends the response
when the service calls it back. What the transaction beneath answers, and whether it does so
before the call of the service returns, is up to the environment (`Reply`); an exception
of the handler itself goes to the router, one of a later callback to nobody.

The responses are truthful (`Truthful`), but for three routes whose callback may throw
(`answered_iff`): the adapter of the keys takes the result of a failure, that of `get` takes
the result for a string, and a JSON object refuses what a refused `submit` succeeds with.
-/

namespace Kvdn

open AsyncResult

/-! ## Responses -/

/-- The exceptions of the handlers. -/
inductive Thrown
  | exn (e : Exn)
  /-- `IllegalStateException`: of a response already written, or of an object that a JSON
      object does not take. -/
  | illegalState
  deriving DecidableEq

/-- What a response is ended with: the text of one of these. -/
inductive Body
  | empty
  | obj (x : Obj)
  | cause (c : Throwable)
  | thrown (e : Thrown)
  /-- `getMessage` -/
  | message (e : Thrown)
  /-- A JSON object of one field. -/
  | json (key : JString) (value : Obj)
  /-- A JSON array. -/
  | array (ks : Finset JString)
  | statusMessage
  | response
  deriving DecidableEq

/-- A response: what it has been ended with so far, with the status code sent. -/
structure HttpServerResponse where
  statusCode : ℕ := 200
  headers : List (JString × JString) := []
  sent : List (ℕ × Body) := []
  deriving DecidableEq

/-- A callback that answers the request. -/
abbrev Answering := EStateM Thrown HttpServerResponse

namespace HttpServerResponse

def ended (response : HttpServerResponse) : Bool := !response.sent.isEmpty

def setStatusCode (code : ℕ) : Answering Unit :=
  modify fun response => { response with statusCode := code }

def putHeader (name value : JString) : Answering Unit :=
  modify fun response => { response with headers := response.headers ++ [(name, value)] }

/-- `end`: a response that has been ended cannot be ended again. -/
def endWith (body : Body) : Answering Unit := do
  let response ← get
  if response.ended then throw .illegalState
  else set { response with sent := response.sent ++ [(response.statusCode, body)] }

/-- `setStatusCode(code).end(body)` -/
def endStatus (code : ℕ) (body : Body) : Answering Unit := do
  setStatusCode code
  endWith body

end HttpServerResponse

open HttpServerResponse

/-- The objects a JSON object takes. -/
def Obj.isJson : Obj → Bool
  | null | str _ | bool _ | int _ => true
  | uuid _ | keys _ | asyncMap _ => false

/-- What can be taken for a string: a string, or `null`. -/
def Obj.isString : Obj → Bool
  | null | str _ => true
  | bool _ | int _ | uuid _ | keys _ | asyncMap _ => false

/-- `new JsonObject().put(key, value).toString()` -/
def jsonObject (key : JString) (value : Obj) : Answering Body :=
  if value.isJson then pure (.json key value) else throw .illegalState

/-! ## The service -/

/-- A call of the service: the transaction it performs, and the handler of its result. -/
structure ServiceCall where
  request : Request
  resultHandler : AsyncResult Obj → Answering Unit

/-- A request being handled: its response, and the transactions performed for it. -/
structure Exchange where
  response : HttpServerResponse := {}
  calls : List ServiceCall := []

/-- The handler of a request. -/
abbrev Handling := EStateM Thrown Exchange

/-- A handler answers the request itself. -/
def Answering.toHandling {α : Type} (m : Answering α) : Handling α := fun x =>
  match m x.response with
  | .ok y response => .ok y { x with response := response }
  | .error e response => .error e { x with response := response }

instance : MonadLift Answering Handling where
  monadLift := Answering.toHandling

/-- What the transaction of a request answers, and when. -/
structure Reply where
  res : AsyncResult Obj
  /-- The answer comes after the call of the service has returned. -/
  later : Bool
  deriving DecidableEq

namespace Reply

variable (a : Reply)

/-- A transaction is performed, on a new transaction object, and its handler called. -/
def perform (c : ServiceCall) : Handling Unit := do
  if c.request.session.initalized then
    modify fun x => { x with calls := x.calls ++ [c] }
    if a.later then pure () else c.resultHandler a.res
  else throw (.exn .notInitalized)

end Reply

structure KvdnServiceImpl where
  session : KvdnSession
  deriving DecidableEq

namespace KvdnServiceImpl

variable (svc : KvdnServiceImpl) (a : Reply) (straddr : JString)

/-- The keys are given to the handler as an array, copied from the result of the
    transaction: whether it has succeeded is not looked at. -/
def setjsoninterceptor (cb : AsyncResult (Finset JString) → Answering Unit) :
    AsyncResult Obj → Answering Unit
  | succeededFuture (.keys ks) => cb (succeededFuture ks)
  | succeededFuture .null | failedFuture _ => throw (.exn .nullPointer)
  | succeededFuture _ => throw (.exn .classCast)

/-- The handler of `get` logs the result of the transaction, which is taken for a string
    there (it throws `classCast` otherwise), before it calls the handler it has been given. -/
def logged {ε σ : Type} (classCast : ε) (resultHandler : AsyncResult Obj → EStateM ε σ Unit) :
    AsyncResult Obj → EStateM ε σ Unit
  | succeededFuture x =>
    if x.isString then resultHandler (succeededFuture x) else throw classCast
  | failedFuture c => resultHandler (failedFuture c)

def set (key value : JString) (resultHandler : AsyncResult Obj → Answering Unit) :
    Handling Unit :=
  a.perform ⟨⟨svc.session, straddr, .set key value⟩, resultHandler⟩

def submit (value : JString) (resultHandler : AsyncResult Obj → Answering Unit) : Handling Unit :=
  a.perform ⟨⟨svc.session, straddr, .submit value⟩, resultHandler⟩

def get (key : JString) (resultHandler : AsyncResult Obj → Answering Unit) : Handling Unit :=
  a.perform ⟨⟨svc.session, straddr, .get key⟩, logged (.exn .classCast) resultHandler⟩

def getKeys (resultHandler : AsyncResult (Finset JString) → Answering Unit) : Handling Unit :=
  a.perform ⟨⟨svc.session, straddr, .getKeys⟩, setjsoninterceptor resultHandler⟩

def size (resultHandler : AsyncResult Obj → Answering Unit) : Handling Unit :=
  a.perform ⟨⟨svc.session, straddr, .size⟩, resultHandler⟩

def del (key : JString) (resultHandler : AsyncResult Obj → Answering Unit) : Handling Unit :=
  a.perform ⟨⟨svc.session, straddr, .del key⟩, resultHandler⟩

end KvdnServiceImpl

/-! ## The handlers -/

inductive Param
  | str
  | map
  | key
  deriving DecidableEq

/-- What the handlers read of a request. -/
structure RoutingContext where
  /-- `request().getParam`, `null` if there is none -/
  getParam : Param → Option JString
  getBodyAsString : Option JString := none
  /-- `get('keyOverride')` -/
  keyOverride : Option JString := none

/-- The key of a request to set a value: the empty string is no override. -/
def RoutingContext.kName (rc : RoutingContext) : Option JString :=
  match rc.keyOverride with
  | some (u :: us) => some (u :: us)
  | _ => rc.getParam .key

theorem RoutingContext.kName_ne_none {rc : RoutingContext} (h : rc.getParam .key ≠ none) :
    rc.kName ≠ none := by
  unfold RoutingContext.kName
  split
  · exact Option.some_ne_none _
  · exact h

structure HTTPServer where
  svc : KvdnServiceImpl
  token : JString := jstr "_"
  deriving DecidableEq

namespace HTTPServer

/-- The full stops of a name are dropped. -/
def filterName (s : JString) : JString := s.filter (· ≠ 0x2E)

def filterAddr (s : Option JString) : Handling JString :=
  match s with
  | none => throw (.exn .nullPointer)
  | some s => pure (filterName s)

variable (server : HTTPServer) (a : Reply) (rc : RoutingContext)

/-- `"${sName}${_token}${mName}"` -/
def straddr (sName mName : JString) : JString := sName ++ server.token ++ mName

/-- `response.setStatusCode(400).end()` -/
def badRequest : Answering Unit := endStatus 400 .empty

/-! ### The handlers of the results -/

/-- The keys are answered as an array. -/
def endKeys : AsyncResult (Finset JString) → Answering Unit
  | succeededFuture j => do
    putHeader (jstr "Content-Type") (jstr "application/json")
    endWith (.array j)
  | failedFuture c => endStatus 501 (.cause c)

/-- The result of a transaction is answered as a text. -/
def endResult : AsyncResult Obj → Answering Unit
  | succeededFuture x => endWith (.obj x)
  | failedFuture c => endStatus 501 (.cause c)

/-- The key of a request is answered, in a JSON object. -/
def endKey (mName kName : JString) : AsyncResult Obj → Answering Unit
  | succeededFuture _ => do endWith (← jsonObject mName (.str kName))
  | failedFuture c => endStatus 501 (.cause c)

/-- The key is answered unless the response has been ended. -/
def endDel (mName kName : JString) : AsyncResult Obj → Answering Unit
  | succeededFuture _ => do
    if (← get).ended then pure () else endWith (← jsonObject mName (.str kName))
  | failedFuture c => endStatus 501 (.cause c)

/-- The result of a transaction is answered, in a JSON object. -/
def endSubmit (mName : JString) : AsyncResult Obj → Answering Unit
  | succeededFuture x => do endWith (← jsonObject mName x)
  | failedFuture c => endStatus 501 (.cause c)

/-! ### The handlers of the requests -/

def handleMapKeys : Handling Unit := do
  let mName ← filterAddr (rc.getParam .map)
  let sName ← filterAddr (rc.getParam .str)
  server.svc.getKeys a (server.straddr sName mName) endKeys

def handleMapSize : Handling Unit := do
  let mName ← filterAddr (rc.getParam .map)
  let sName ← filterAddr (rc.getParam .str)
  server.svc.size a (server.straddr sName mName) endResult

def handleMapGet : Handling Unit := do
  let mName ← filterAddr (rc.getParam .map)
  let sName ← filterAddr (rc.getParam .str)
  match rc.getParam .key with
  | none => badRequest
  | some kName => server.svc.get a (server.straddr sName mName) kName endResult

def handleMapSet : Handling Unit := do
  let mName ← filterAddr (rc.getParam .map)
  let sName ← filterAddr (rc.getParam .str)
  match rc.kName with
  | none => badRequest
  | some kName =>
    try
      match rc.getBodyAsString with
      | none => badRequest
      | some content =>
        server.svc.set a (server.straddr sName mName) kName content (endKey mName kName)
    catch e => endStatus 501 (.thrown e)

def handleMapSubmitUUID (randomUUID : JString) : Handling Unit :=
  server.handleMapSet a { rc with keyOverride := some randomUUID }

def handleMapSetRaw : Handling Unit := do
  let mName ← filterAddr (rc.getParam .map)
  let sName ← filterAddr (rc.getParam .str)
  match rc.kName with
  | none => badRequest
  | some kName =>
    match rc.getBodyAsString with
    | none => endStatus 400 .response
    | some content =>
      server.svc.set a (server.straddr sName mName) kName content (endKey mName kName)

def handleMapSubmit : Handling Unit := do
  let mName ← filterAddr (rc.getParam .map)
  let sName ← filterAddr (rc.getParam .str)
  try
    match rc.getBodyAsString with
    | none => badRequest
    | some content =>
      server.svc.submit a (server.straddr sName mName) content (endSubmit mName)
  catch e => endStatus 501 (.message e)

def handleMapDel : Handling Unit := do
  let mName ← filterAddr (rc.getParam .map)
  let sName ← filterAddr (rc.getParam .str)
  match rc.getParam .key with
  | none => badRequest
  | some kName => server.svc.del a (server.straddr sName mName) kName (endDel mName kName)

end HTTPServer

/-- The data routes. -/
inductive Route
  /-- `DELETE /X/:str/:map/:key` -/
  | del
  /-- `POST /X/:str/:map` -/
  | submit
  /-- `POST /U/:str/:map` -/
  | submitUUID
  /-- `GET /X/:str/:map/:key` -/
  | get
  /-- `GET /KEYS/:str/:map/` -/
  | keys
  /-- `GET /SIZE/:str/:map/` -/
  | size
  /-- `PUT /X/:str/:map/:key` -/
  | set
  /-- `PUT /R/:str/:map/:key` and `POST /R/:str/:map/:key` -/
  | setRaw
  deriving DecidableEq

namespace Route

/-- The path parameters of a route. -/
def params : Route → List Param
  | submit | submitUUID | keys | size => [.str, .map]
  | del | get | set | setRaw => [.str, .map, .key]

/-- The handler `init` registers for a route. -/
def handler (server : HTTPServer) (randomUUID : JString) (a : Reply) (rc : RoutingContext) :
    Route → Handling Unit
  | del => server.handleMapDel a rc
  | submit => server.handleMapSubmit a rc
  | submitUUID => server.handleMapSubmitUUID a rc randomUUID
  | get => server.handleMapGet a rc
  | keys => server.handleMapKeys a rc
  | size => server.handleMapSize a rc
  | set => server.handleMapSet a rc
  | setRaw => server.handleMapSetRaw a rc

/-- The request is one of the route: its path parameters are there. -/
def Matches (route : Route) (rc : RoutingContext) : Prop :=
  ∀ p ∈ route.params, rc.getParam p ≠ none

instance (route : Route) (rc : RoutingContext) : Decidable (route.Matches rc) :=
  inferInstanceAs (Decidable (∀ p ∈ route.params, rc.getParam p ≠ none))

end Route

/-! ## The router -/

/-- The router catches the exceptions of the handlers it calls: it ends the response with
    the status 500, unless it has been ended. -/
structure Router where
  fail : Thrown → HttpServerResponse → HttpServerResponse
  fail_of_open : ∀ e response, response.sent = [] →
    ∃ body, (fail e response).sent = [(500, body)]
  fail_of_ended : ∀ e response, response.sent ≠ [] → fail e response = response

/-- A router without any failure handler. -/
def Router.plain : Router where
  fail _ response :=
    if response.sent = [] then
      { response with statusCode := 500, sent := [(500, .statusMessage)] }
    else response
  fail_of_open e response h := ⟨.statusMessage, by rw [if_pos h]⟩
  fail_of_ended e response h := if_neg h

/-- A handler called back by a transaction that has not answered at once: what it throws
    is nobody's. -/
def Exchange.callBack (a : Reply) (x : Exchange) (c : ServiceCall) : Exchange :=
  match c.resultHandler a.res x.response with
  | .ok _ response | .error _ response => { x with response := response }

/-- What becomes of a request: its handler is called by the router, then called back. -/
def Router.answer (router : Router) (a : Reply) (h : Handling Unit) : Exchange :=
  let x := match h {} with
    | .ok _ x => x
    | .error e x => { x with response := router.fail e x.response }
  if a.later then x.calls.foldl (Exchange.callBack a) x else x

/-! ## What a handler does -/

/-- A transaction is performed; if `catches` is given, an exception is caught and the
    response ended with what it tells. -/
def Reply.guarded (a : Reply) (catches : Option (Thrown → Body)) (c : ServiceCall) :
    Handling Unit :=
  match catches with
  | none => a.perform c
  | some body => try a.perform c catch e => endStatus 501 (body e)

namespace Route

/-- The operation a request asks for: none if it has no body where one is needed. -/
def op (randomUUID : JString) (rc : RoutingContext) : Route → Option Op
  | del => (rc.getParam .key).map .del
  | get => (rc.getParam .key).map .get
  | keys => some .getKeys
  | size => some .size
  | submit => rc.getBodyAsString.map .submit
  | submitUUID => ({ rc with keyOverride := some randomUUID }).kName.bind fun kName =>
    rc.getBodyAsString.map (.set kName)
  | set | setRaw => rc.kName.bind fun kName => rc.getBodyAsString.map (.set kName)

/-- What is answered to a request without a body. -/
def refusal : Route → Body
  | setRaw => .response
  | _ => .empty

/-- The exceptions caught by the handler of a route. -/
def catches : Route → Option (Thrown → Body)
  | set | submitUUID => some .thrown
  | submit => some .message
  | _ => none

/-- The handler of the result of the transaction. -/
def resultHandler (mName : JString) : Op → AsyncResult Obj → Answering Unit
  | .del key => HTTPServer.endDel mName key
  | .set key _ => HTTPServer.endKey mName key
  | .submit _ => HTTPServer.endSubmit mName
  | .getKeys => KvdnServiceImpl.setjsoninterceptor HTTPServer.endKeys
  | .get _ => KvdnServiceImpl.logged (.exn .classCast) HTTPServer.endResult
  | .size | .clear => HTTPServer.endResult

/-- A handler refuses the request, or performs its operation on the address it names. -/
theorem handler_eq (server : HTTPServer) (randomUUID : JString) (a : Reply) {route : Route}
    {rc : RoutingContext} {s m : JString} (h : route.Matches rc)
    (hs : rc.getParam .str = some s) (hm : rc.getParam .map = some m) :
    route.handler server randomUUID a rc {} =
      match route.op randomUUID rc with
      | none => (endStatus 400 route.refusal : Answering Unit).toHandling {}
      | some o => a.guarded route.catches
        ⟨⟨server.svc.session,
          server.straddr (HTTPServer.filterName s) (HTTPServer.filterName m), o⟩,
          resultHandler (HTTPServer.filterName m) o⟩ {} := by
  have hfilter {β : Type} (f : JString → JString → Handling β) :
      (HTTPServer.filterAddr (rc.getParam .map) >>= fun mName =>
        HTTPServer.filterAddr (rc.getParam .str) >>= f mName) =
        f (HTTPServer.filterName m) (HTTPServer.filterName s) := by
    rw [hs, hm]
    rfl
  cases route with
  | keys => exact congrFun (hfilter _) {}
  | size => exact congrFun (hfilter _) {}
  | submit =>
    refine (congrFun (hfilter _) {}).trans ?_
    simp only [op]
    cases rc.getBodyAsString with
    | none => rfl
    | some content => rfl
  | del =>
    refine (congrFun (hfilter _) {}).trans ?_
    simp only [op]
    cases rc.getParam .key with
    | none => rfl
    | some key => rfl
  | get =>
    refine (congrFun (hfilter _) {}).trans ?_
    simp only [op]
    cases rc.getParam .key with
    | none => rfl
    | some key => rfl
  | set =>
    refine (congrFun (hfilter _) {}).trans ?_
    simp only [op]
    cases rc.kName with
    | none => rfl
    | some kName =>
      cases rc.getBodyAsString with
      | none => rfl
      | some content => rfl
  | submitUUID =>
    refine (congrFun (hfilter _) {}).trans ?_
    simp only [op]
    cases RoutingContext.kName { rc with keyOverride := some randomUUID } with
    | none => rfl
    | some kName =>
      cases rc.getBodyAsString with
      | none => rfl
      | some content => rfl
  -- a missing key would be refused with another body than a missing content: its path has one
  | setRaw =>
    refine (congrFun (hfilter _) {}).trans ?_
    simp only [op]
    cases hk : rc.kName with
    | none => exact absurd hk (RoutingContext.kName_ne_none (h .key (by decide)))
    | some kName =>
      cases rc.getBodyAsString with
      | none => rfl
      | some content => rfl

end Route

/-! ## Truthful answers -/

/-- The response is ended, once; not with the status of a success if the transaction has
    reported a failure; with the status 200 only if it has reported a success. -/
def Exchange.Truthful (x : Exchange) (res : AsyncResult Obj) : Prop :=
  ∃ code body, x.response.sent = [(code, body)] ∧
    (x.calls ≠ [] → res.succeeded = false → 400 ≤ code) ∧
    (code = 200 → x.calls ≠ [] ∧ res.succeeded = true)

/-- A callback tells the result of the transaction, unless it throws before the response
    is ended. -/
def Answering.Tells (m : Answering Unit) (res : AsyncResult Obj) : Prop :=
  match m {} with
  | .ok _ response => ∃ code body, response.sent = [(code, body)] ∧
      (res.succeeded = false → 400 ≤ code) ∧ (code = 200 → res.succeeded = true)
  | .error _ response => response.sent = []

def Answering.Throws (m : Answering Unit) : Prop :=
  match m {} with
  | .ok _ _ => False
  | .error _ _ => True

namespace HTTPServer

variable {mName kName : JString} {o : Op} {res : AsyncResult Obj}

theorem tells_endStatus (c : Throwable) (body : Body) :
    (endStatus 501 body).Tells (failedFuture c) :=
  ⟨501, body, rfl, fun _ => by decide, fun h => absurd h (by decide)⟩

theorem tells_endWith (x : Obj) {m : Answering Unit} {body : Body}
    {response : HttpServerResponse} (h : m {} = .ok () response)
    (hsent : response.sent = [(200, body)]) : m.Tells (succeededFuture x) := by
  unfold Answering.Tells
  rw [h]
  exact ⟨200, body, hsent, fun h => absurd h (by simp), fun _ => rfl⟩

/-- The handlers of the results tell them. -/
theorem tells_resultHandler (mName : JString) (o : Op) (res : AsyncResult Obj) :
    (Route.resultHandler mName o res).Tells res := by
  cases res with
  | failedFuture c =>
    cases o with
    | getKeys => rfl
    | _ => exact tells_endStatus c _
  | succeededFuture x =>
    cases o with
    | getKeys =>
      cases x with
      | keys ks => exact tells_endWith _ rfl rfl
      | _ => rfl
    | submit content =>
      cases x with
      | null | str | bool | int => exact tells_endWith _ rfl rfl
      | uuid | keys | asyncMap => rfl
    | get key =>
      cases x with
      | null | str => exact tells_endWith _ rfl rfl
      | bool | int | uuid | keys | asyncMap => rfl
    | _ => exact tells_endWith _ rfl rfl

/-- The results on which a handler of them throws. -/
def ThrowsOn (o : Op) (res : AsyncResult Obj) : Prop :=
  match o with
  | .getKeys => ∀ ks, res ≠ succeededFuture (.keys ks)
  | .submit _ => ∃ x, res = succeededFuture x ∧ x.isJson = false
  | .get _ => ∃ x, res = succeededFuture x ∧ x.isString = false
  | _ => False

theorem throws_resultHandler (mName : JString) (o : Op) (res : AsyncResult Obj) :
    (Route.resultHandler mName o res).Throws ↔ ThrowsOn o res := by
  cases o with
  | getKeys =>
    cases res with
    | failedFuture c => exact ⟨fun _ ks => (nomatch ·), fun _ => trivial⟩
    | succeededFuture x =>
      cases x with
      | keys ks => exact ⟨False.elim, fun h => h ks rfl⟩
      | _ => exact ⟨fun _ ks => (nomatch ·), fun _ => trivial⟩
  | submit content =>
    cases res with
    | failedFuture c => exact ⟨False.elim, fun ⟨_, h, _⟩ => nomatch h⟩
    | succeededFuture x =>
      cases x with
      | null | str | bool | int =>
        refine ⟨False.elim, ?_⟩
        rintro ⟨_, h, hx⟩
        obtain rfl := AsyncResult.succeededFuture.inj h
        exact nomatch hx
      | uuid | keys | asyncMap => exact ⟨fun _ => ⟨_, rfl, rfl⟩, fun _ => trivial⟩
  | get key =>
    cases res with
    | failedFuture c => exact ⟨False.elim, fun ⟨_, h, _⟩ => nomatch h⟩
    | succeededFuture x =>
      cases x with
      | null | str =>
        refine ⟨False.elim, ?_⟩
        rintro ⟨_, h, hx⟩
        obtain rfl := AsyncResult.succeededFuture.inj h
        exact nomatch hx
      | bool | int | uuid | keys | asyncMap => exact ⟨fun _ => ⟨_, rfl, rfl⟩, fun _ => trivial⟩
  | _ => cases res <;> exact Iff.rfl

end HTTPServer

section

variable {router : Router} {a : Reply} {h : Handling Unit} {c : ServiceCall}

/-- A request is refused truthfully. -/
theorem truthful_of_refused {body : Body}
    (hh : h {} = (endStatus 400 body).toHandling {}) : (router.answer a h).Truthful a.res := by
  have hanswer : router.answer a h =
      { response := { statusCode := 400, sent := [(400, body)] } } := by
    unfold Router.answer
    rw [hh]
    cases a.later <;> rfl
  rw [hanswer]
  exact ⟨400, body, rfl, fun h => absurd rfl h, fun h => absurd h (by decide)⟩

variable {catches : Option (Thrown → Body)}

theorem guarded_of_ok {x x' : Exchange} (hc : a.perform c x = .ok () x') :
    a.guarded catches c x = .ok () x' := by
  cases catches with
  | none => exact hc
  | some body =>
    simp only [Reply.guarded, tryCatch, tryCatchThe, MonadExceptOf.tryCatch, EStateM.tryCatch, hc]

theorem guarded_of_error {body : Thrown → Body} {x x' : Exchange} {e : Thrown}
    (hc : a.perform c x = .error e x') :
    a.guarded (some body) c x = (endStatus 501 (body e)).toHandling x' := by
  simp only [Reply.guarded, tryCatch, tryCatchThe, MonadExceptOf.tryCatch, EStateM.tryCatch, hc]
  rfl

/-- A transaction that answers later: its handler is called back, and only an exception
    keeps it from ending the response. -/
theorem truthful_later_iff (hlater : a.later = true) (hh : h {} = a.guarded catches c {})
    (hinit : c.request.session.initalized = true)
    (htells : (c.resultHandler a.res).Tells a.res) :
    (router.answer a h).Truthful a.res ↔ ¬(c.resultHandler a.res).Throws := by
  have hperform : a.perform c {} = .ok () { calls := [c] } := by
    unfold Reply.perform
    rw [if_pos hinit, hlater]
    rfl
  have hanswer : router.answer a h = Exchange.callBack a { calls := [c] } c := by
    unfold Router.answer
    rw [hh, guarded_of_ok hperform, if_pos hlater]
    rfl
  rw [hanswer]
  unfold Answering.Tells at htells
  unfold Answering.Throws Exchange.callBack
  cases hm : c.resultHandler a.res {} with
  | ok _ response =>
    rw [hm] at htells
    obtain ⟨code, body, hsent, hfailed, hok⟩ := htells
    refine ⟨fun _ => id, fun _ => ⟨code, body, hsent, fun _ => hfailed, fun hcode => ?_⟩⟩
    exact ⟨List.cons_ne_nil _ _, hok hcode⟩
  | error e response =>
    rw [hm] at htells
    refine ⟨?_, fun hnot => absurd trivial hnot⟩
    rintro ⟨code, body, hsent, -⟩
    exact nomatch htells.symm.trans hsent

/-- A transaction that answers at once: an exception of its handler is answered by the
    handler of the request, or by the router. -/
theorem truthful_now (hnow : a.later = false) (hh : h {} = a.guarded catches c {})
    (hinit : c.request.session.initalized = true)
    (htells : (c.resultHandler a.res).Tells a.res) : (router.answer a h).Truthful a.res := by
  have hperform : a.perform c {} = (c.resultHandler a.res).toHandling { calls := [c] } := by
    unfold Reply.perform
    rw [if_pos hinit, hnow]
    rfl
  unfold Answering.Tells at htells
  unfold Router.answer
  rw [hh, hnow]
  cases hm : c.resultHandler a.res {} with
  | ok _ response =>
    have hcall : a.perform c {} = .ok () { response := response, calls := [c] } := by
      rw [hperform]
      unfold Answering.toHandling
      rw [hm]
    rw [hm] at htells
    obtain ⟨code, body, hsent, hfailed, hok⟩ := htells
    rw [guarded_of_ok hcall]
    exact ⟨code, body, hsent, fun _ => hfailed, fun hcode => ⟨List.cons_ne_nil _ _, hok hcode⟩⟩
  | error e response =>
    have hcall : a.perform c {} = .error e { response := response, calls := [c] } := by
      rw [hperform]
      unfold Answering.toHandling
      rw [hm]
    rw [hm] at htells
    cases catches with
    -- the router answers what nobody catches, as the response has not been ended
    | none =>
      obtain ⟨body, hbody⟩ := router.fail_of_open e response htells
      simp only [Reply.guarded, hcall]
      exact ⟨500, body, hbody, fun _ _ => by decide, fun h => absurd h (by decide)⟩
    | some body =>
      have hcaught : (endStatus 501 (body e)).toHandling { response := response, calls := [c] } =
          .ok () {
            response := { response with statusCode := 501, sent := [(501, body e)] }
            calls := [c] } := by
        obtain ⟨statusCode, headers, sent⟩ := response
        obtain rfl : sent = [] := htells
        rfl
      rw [guarded_of_error hcall, hcaught]
      exact ⟨501, body e, rfl, fun _ _ => by decide, fun h => absurd h (by decide)⟩

end

/-! ## The data routes -/

/-- The operations of the routes of the keys, of the submissions and of the values. -/
theorem Route.throwsOn_op {route : Route} (randomUUID : JString) {rc : RoutingContext}
    (h : route.Matches rc) (res : AsyncResult Obj) :
    (∃ o, route.op randomUUID rc = some o ∧ HTTPServer.ThrowsOn o res) ↔
      (route = .keys ∧ ∀ ks, res ≠ succeededFuture (.keys ks)) ∨
        (route = .submit ∧ rc.getBodyAsString ≠ none ∧
          ∃ x, res = succeededFuture x ∧ x.isJson = false) ∨
        (route = .get ∧ ∃ x, res = succeededFuture x ∧ x.isString = false) := by
  cases route with
  | get =>
    obtain ⟨key, hkey⟩ := Option.ne_none_iff_exists'.1 (h .key (by decide))
    simp [Route.op, hkey, HTTPServer.ThrowsOn]
  | keys =>
    simp only [Route.op, Option.some.injEq, exists_eq_left', HTTPServer.ThrowsOn]
    simp
  | submit =>
    simp only [Route.op]
    cases rc.getBodyAsString <;> simp [HTTPServer.ThrowsOn]
  | size => simp [Route.op, HTTPServer.ThrowsOn]
  | del =>
    simp only [Route.op]
    cases rc.getParam .key <;> simp [HTTPServer.ThrowsOn]
  | set | setRaw =>
    simp only [Route.op]
    cases rc.kName <;> cases rc.getBodyAsString <;> simp [HTTPServer.ThrowsOn]
  | submitUUID =>
    simp only [Route.op]
    cases RoutingContext.kName { rc with keyOverride := some randomUUID } <;>
      cases rc.getBodyAsString <;> simp [HTTPServer.ThrowsOn]

/-- A request is answered exactly once and truthfully, unless its transaction answers
    later and the handler of its result throws: the adapter of the keys does on anything
    but a set of keys, a failure included, that of a submission on a success with what is
    no key, and that of `get` on a success with what is no string. -/
theorem answered_iff (server : HTTPServer) (router : Router) (route : Route) (rc : RoutingContext)
    (randomUUID : JString) (a : Reply) (hinit : server.svc.session.initalized = true)
    (hmatch : route.Matches rc) :
    (router.answer a (route.handler server randomUUID a rc)).Truthful a.res ↔
      ¬(a.later = true ∧
        ((route = .keys ∧ ∀ ks, a.res ≠ succeededFuture (.keys ks)) ∨
          (route = .submit ∧ rc.getBodyAsString ≠ none ∧
            ∃ x, a.res = succeededFuture x ∧ x.isJson = false) ∨
          (route = .get ∧ ∃ x, a.res = succeededFuture x ∧ x.isString = false))) := by
  have hparam {p : Param} (hp : p ∈ route.params) : ∃ v, rc.getParam p = some v :=
    Option.ne_none_iff_exists'.1 (hmatch p hp)
  obtain ⟨s, hs⟩ := hparam (p := .str) (by cases route <;> decide)
  obtain ⟨m, hm⟩ := hparam (p := .map) (by cases route <;> decide)
  have hh := Route.handler_eq server randomUUID a hmatch hs hm
  rw [← Route.throwsOn_op randomUUID hmatch a.res]
  cases hop : route.op randomUUID rc with
  | none =>
    -- the handler answers itself, and calls no service
    rw [hop] at hh
    refine ⟨fun _ => ?_, fun _ => truthful_of_refused hh⟩
    rintro ⟨_, _, h, _⟩
    exact nomatch h
  | some o =>
    rw [hop] at hh
    have htells := HTTPServer.tells_resultHandler (HTTPServer.filterName m) o a.res
    have hthrows : (∃ o', some o = some o' ∧ HTTPServer.ThrowsOn o' a.res) ↔
        (Route.resultHandler (HTTPServer.filterName m) o a.res).Throws := by
      rw [HTTPServer.throws_resultHandler]
      refine ⟨?_, fun h => ⟨o, rfl, h⟩⟩
      rintro ⟨_, ho, h⟩
      exact Option.some.inj ho ▸ h
    -- what a callback throws reaches the router only if it is called during the handler
    rw [hthrows]
    cases hlater : a.later with
    | true =>
      rw [truthful_later_iff hlater hh hinit htells]
      simp only [true_and]
    | false =>
      exact ⟨fun _ h => (nomatch h.1), fun _ => truthful_now hlater hh hinit htells⟩

/-- A server over a data implementation and a key provider from outside the repository, whose
    session has a hook that answers later. -/
def outsideServer : HTTPServer where
  svc := ⟨{
    sessionid := 0
    D := .other 0
    keyprov := .other 0 true
    postHooks := [.other 0 (some .PLUGIN_HOOK), .StoreMetaKVHook] }⟩

/-- `GET /KEYS/a/b/` -/
def keysRequest : RoutingContext where
  getParam
    | .str => some (jstr "a")
    | .map => some (jstr "b")
    | .key => none

/-- The keys cannot be had. -/
def keysFailed (later : Bool) : Reply :=
  ⟨failedFuture (.exception (jstr "cache is stopped")), later⟩

/-- A failure of the keys is told at once only. -/
theorem answered_keys_failed :
    (Router.plain.answer (keysFailed false)
      (Route.keys.handler outsideServer [] (keysFailed false) keysRequest)).Truthful
        (keysFailed false).res := by
  refine (answered_iff outsideServer .plain .keys keysRequest [] (keysFailed false) rfl
    (by decide)).2 ?_
  simp [keysFailed]

/-- Not every request is answered. -/
theorem not_answered :
    ¬∀ (server : HTTPServer) (router : Router) (route : Route) (rc : RoutingContext)
      (randomUUID : JString) (a : Reply), server.svc.session.initalized = true →
        route.Matches rc →
          (router.answer a (route.handler server randomUUID a rc)).Truthful a.res := by
  intro h
  obtain ⟨code, body, hsent, -⟩ :=
    h outsideServer .plain .keys keysRequest [] (keysFailed true) rfl (by decide)
  exact nomatch hsent

end Kvdn
