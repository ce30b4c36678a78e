import Kvdn.Json
import Kvdn.LinearizableKeys

/-!
# The service on the event bus

The service `KvdnService` as clients elsewhere call it. A call is sent as a message, with
the name of the method as its header `action` and the arguments as its body, by the proxies
`KvdnServiceVertxEBProxy` and `kvdn_service-proxy.js`; it is handled by
`KvdnServiceVertxProxyHandler`, which calls the service and replies with the result, or with
a `ServiceException`: of the code `-1` if the transaction has failed, of the code `500` if the
handler itself has thrown.

What a proxy sends is what the handler calls (`decode_message`), once; so the calls of any
clients, at the same time, are linearizable by what they are replied (`linearizable_calls`).
Arguments that are null are not followed into the transactions.
-/

namespace Kvdn

open Callback Callback.Sem AsyncResult

/-! ## Messages -/

/-- A message to the service. -/
structure ServiceMessage where
  /-- The header `action`. -/
  action : Option JString
  body : Json JString

/-- The calls of the service. -/
inductive KvdnService
  | set (straddr key value : JString) (options : Json JString)
  | submit (straddr value : JString) (options : Json JString)
  | get (straddr key : JString) (options : Json JString)
  | size (straddr : JString) (options : Json JString)
  | getKeys (straddr : JString) (options : Json JString)
  | del (straddr key : JString) (options : Json JString)
  | query (straddr : JString) (query options : Json JString)

/-- What is thrown while a message is handled. -/
inductive ProxyThrown
  /-- `IllegalStateException`, with its message. -/
  | illegalState (message : JString)
  /-- `IllegalArgumentException`: an object that the event bus has no codec for. -/
  | noCodec
  | thrown (e : Thrown)
  deriving DecidableEq

/-- What a `ServiceException` is made of. -/
inductive ProxyCause
  | thrown (e : ProxyThrown)
  | cause (c : Throwable)
  deriving DecidableEq

/-- A reply: a result, the keys as an array, or a `ServiceException`. -/
inductive MessageReply
  | body (x : Obj)
  | array (ks : Finset JString)
  | serviceException (failureCode : ℤ) (cause : ProxyCause)
  deriving DecidableEq

/-! ## The proxies -/

namespace KvdnServiceVertxEBProxy

/-- The body with an argument put. -/
def put (json : Json JString) (name : String) (value : Json JString) : Json JString :=
  json.set (jstr name) value

/-- The message sent for a call. -/
def message : KvdnService → ServiceMessage
  | .set straddr key value options => ⟨some (jstr "set"),
      put (put (put (put (.object []) "straddr" (.string straddr)) "key" (.string key)) "value"
        (.string value)) "options" options⟩
  | .submit straddr value options => ⟨some (jstr "submit"),
      put (put (put (.object []) "straddr" (.string straddr)) "value" (.string value)) "options"
        options⟩
  | .get straddr key options => ⟨some (jstr "get"),
      put (put (put (.object []) "straddr" (.string straddr)) "key" (.string key)) "options" options⟩
  | .size straddr options => ⟨some (jstr "size"),
      put (put (.object []) "straddr" (.string straddr)) "options" options⟩
  | .getKeys straddr options => ⟨some (jstr "getKeys"),
      put (put (.object []) "straddr" (.string straddr)) "options" options⟩
  | .del straddr key options => ⟨some (jstr "del"),
      put (put (put (.object []) "straddr" (.string straddr)) "key" (.string key)) "options" options⟩
  | .query straddr query options => ⟨some (jstr "query"),
      put (put (put (.object []) "straddr" (.string straddr)) "query" query) "options" options⟩

end KvdnServiceVertxEBProxy

/-! ## The handler -/

namespace KvdnServiceVertxProxyHandler

/-- What the arguments of a message are read as: a call, an exception, or a call with an
    argument that is null, which is not followed further. -/
inductive Decoded
  | call (c : KvdnService)
  | thrown (e : ProxyThrown)
  | nullArgument

/-- The call with all its strings, if none of them is null. -/
def Decoded.ofOption : Option KvdnService → Decoded
  | some c => call c
  | none => nullArgument

/-- `(String) json.getValue(name)` -/
def string (json : Json JString) (name : String) (k : Option JString → Decoded) : Decoded :=
  match json.get (jstr name) .null with
  | .string s => k (some s)
  | .null => k none
  | _ => .thrown (.thrown (.exn .classCast))

/-- `(JsonObject) json.getValue(name)` -/
def jsonObject (json : Json JString) (name : String) (k : Json JString → Decoded) : Decoded :=
  let value := json.get (jstr name) .null
  if value.hasMembers then k value else .thrown (.thrown (.exn .classCast))

/-- The call a message asks for: the arguments are cast in their order. -/
def decode (msg : ServiceMessage) : Decoded :=
  let string := string msg.body
  let jsonObject := jsonObject msg.body
  match msg.action with
  | none => .thrown (.illegalState (jstr "action not specified"))
  | some action =>
    if action = jstr "set" then
      string "straddr" fun straddr => string "key" fun key => string "value" fun value =>
        jsonObject "options" fun options =>
          .ofOption do return .set (← straddr) (← key) (← value) options
    else if action = jstr "submit" then
      string "straddr" fun straddr => string "value" fun value =>
        jsonObject "options" fun options => .ofOption do return .submit (← straddr) (← value) options
    else if action = jstr "get" then
      string "straddr" fun straddr => string "key" fun key =>
        jsonObject "options" fun options => .ofOption do return .get (← straddr) (← key) options
    else if action = jstr "size" then
      string "straddr" fun straddr => jsonObject "options" fun options =>
        .ofOption do return .size (← straddr) options
    else if action = jstr "getKeys" then
      string "straddr" fun straddr => jsonObject "options" fun options =>
        .ofOption do return .getKeys (← straddr) options
    else if action = jstr "del" then
      string "straddr" fun straddr => string "key" fun key =>
        jsonObject "options" fun options => .ofOption do return .del (← straddr) (← key) options
    else if action = jstr "query" then
      string "straddr" fun straddr => jsonObject "query" fun query =>
        jsonObject "options" fun options => .ofOption do return .query (← straddr) query options
    else .thrown (.illegalState (jstr "Invalid action: " ++ action))

/-- A message being handled: the replies to it, and the transactions performed for it. -/
structure Delivery where
  replies : List MessageReply := []
  calls : List Request := []
  deriving DecidableEq

abbrev Delivering := EStateM ProxyThrown Delivery

/-- `msg.reply` -/
def reply (r : MessageReply) : Delivering Unit :=
  modify fun d => { d with replies := d.replies ++ [r] }

/-- `createHandler`: a result without a codec is not replied. -/
def createHandler : AsyncResult Obj → Delivering Unit
  | failedFuture cause => reply (.serviceException (-1) (.cause cause))
  | succeededFuture x => if x.isJson then reply (.body x) else throw .noCodec

/-- `createHandler`, of the keys the service copies from the result of the transaction:
    whether it has succeeded is not looked at. -/
def setjsoninterceptor : AsyncResult Obj → Delivering Unit
  | succeededFuture (.keys ks) => reply (.array ks)
  | succeededFuture .null | failedFuture _ => throw (.thrown (.exn .nullPointer))
  | succeededFuture _ => throw (.thrown (.exn .classCast))

/-- The handler of the result of a transaction. -/
def resultHandler : Op → AsyncResult Obj → Delivering Unit
  | .getKeys => setjsoninterceptor
  | .get _ => KvdnServiceImpl.logged (.thrown (.exn .classCast)) createHandler
  | _ => createHandler

end KvdnServiceVertxProxyHandler

open KvdnServiceVertxProxyHandler

/-- The operation of a call, and its address: a `query` is not performed. -/
def KvdnService.op : KvdnService → Option (JString × Op)
  | set straddr key value _ => some (straddr, .set key value)
  | submit straddr value _ => some (straddr, .submit value)
  | get straddr key _ => some (straddr, .get key)
  | size straddr _ => some (straddr, .size)
  | getKeys straddr _ => some (straddr, .getKeys)
  | del straddr key _ => some (straddr, .del key)
  | query _ _ _ => none

namespace KvdnServiceVertxProxyHandler

variable (svc : KvdnServiceImpl) (a : Reply)

/-- A call of the service, the transaction of which answers as `a` tells. -/
def invoke (c : KvdnService) : Delivering Unit :=
  match c.op with
  | none => pure ()
  | some (straddr, o) =>
    if svc.session.initalized then do
      modify fun d => { d with calls := d.calls ++ [⟨svc.session, straddr, o⟩] }
      if a.later then pure () else resultHandler o a.res
    else throw (.thrown (.exn .notInitalized))

/-- What is thrown is replied, and thrown again. -/
def handle (msg : ServiceMessage) : Delivering Unit :=
  try
    match decode msg with
    | .call c => invoke svc a c
    | .thrown e => throw e
    | .nullArgument => pure ()
  catch t => do
    reply (.serviceException 500 (.thrown t))
    throw t

/-- The handler of the result called back by a transaction that has not answered at once: what
    it throws is nobody's. -/
def Delivery.callBack (d : Delivery) (r : Request) : Delivery :=
  match resultHandler r.op a.res d with
  | .ok _ d | .error _ d => d

/-- What becomes of a message. -/
def deliver (msg : ServiceMessage) : Delivery :=
  let d := match handle svc a msg {} with
    | .ok _ d | .error _ d => d
  if a.later then d.calls.foldl (Delivery.callBack a) d else d

end KvdnServiceVertxProxyHandler

/-! ## What is sent is what is called -/

/-- The options and the query are objects, or null. -/
def KvdnService.WellFormed : KvdnService → Prop
  | set _ _ _ options | submit _ _ options | get _ _ options | size _ options
  | getKeys _ options | del _ _ options => options.hasMembers = true
  | query _ q options => q.hasMembers = true ∧ options.hasMembers = true

section

variable {json value : Json JString}

theorem get_put (name name' : String) : (KvdnServiceVertxEBProxy.put json name value).get
    (jstr name') .null = if jstr name' = jstr name then value else json.get (jstr name') .null := by
  rw [Json.get, KvdnServiceVertxEBProxy.put, Json.find_set, Json.get]
  split <;> rfl

/-- What is sent for a call is called. -/
theorem decode_message {c : KvdnService} (h : c.WellFormed) :
    decode (KvdnServiceVertxEBProxy.message c) = .call c := by
  cases c with
  | query straddr q options =>
    obtain ⟨hq, hoptions⟩ := h
    simp +decide [decode, KvdnServiceVertxEBProxy.message, KvdnServiceVertxProxyHandler.string,
      KvdnServiceVertxProxyHandler.jsonObject, Decoded.ofOption, get_put, hq, hoptions]
  | _ =>
    simp +decide [decode, KvdnServiceVertxEBProxy.message, KvdnServiceVertxProxyHandler.string,
      KvdnServiceVertxProxyHandler.jsonObject, Decoded.ofOption, get_put, show _ = true from h]

end

/-! ## Replies -/

/-- The reply of a result. -/
def replyOf : Obj → MessageReply
  | .keys ks => .array ks
  | x => .body x

theorem Obj.isJson_of_isString {x : Obj} (h : x.isString = true) : x.isJson = true := by
  cases x with
  | null | str => rfl
  | _ => cases h

theorem replyOf_of_isJson {x : Obj} (h : x.isJson = true) : replyOf x = .body x := by
  cases x with
  | keys => cases h
  | _ => rfl

/-- The result of the abstract store is replied. -/
theorem resultHandler_apply {m : KMap} (h : m.HoldsStrings) (md5 : List UInt8 → List UInt8)
    (o : Op) (d : Delivery) : resultHandler o (succeededFuture (o.apply md5 m).2) d =
      .ok () { d with replies := d.replies ++ [replyOf (o.apply md5 m).2] } := by
  cases o with
  | get key =>
    have hstring := h.isString_get md5 key
    have hjson : ((Op.get key).apply md5 m).2.isJson = true := Obj.isJson_of_isString hstring
    rw [resultHandler, KvdnServiceImpl.logged, if_pos hstring, createHandler, if_pos hjson,
      replyOf_of_isJson hjson]
    rfl
  | _ => rfl

/-- So is a failure, with the code `-1`. -/
theorem resultHandler_failedFuture {o : Op} (ho : o ≠ .getKeys) (cause : Throwable) (d : Delivery) :
    resultHandler o (failedFuture cause) d =
      .ok () { d with replies := d.replies ++ [.serviceException (-1) (.cause cause)] } := by
  cases o with
  | getKeys => exact absurd rfl ho
  | _ => rfl

section

variable {svc : KvdnServiceImpl} {a : Reply} {msg : ServiceMessage} {c : KvdnService}
  {straddr : JString} {o : Op}

/-- A call is performed once, and its result handled, at once or later. -/
theorem deliver_eq (hmsg : decode msg = .call c) (hop : c.op = some (straddr, o))
    (hinit : svc.session.initalized = true) {d : Delivery}
    (hd : resultHandler o a.res { calls := [⟨svc.session, straddr, o⟩] } = .ok () d) :
    deliver svc a msg = d := by
  have hhandle {d : Delivery} (h : invoke svc a c {} = .ok () d) : handle svc a msg {} = .ok () d := by
    rw [handle, hmsg]
    show EStateM.tryCatch (invoke svc a c) _ {} = _
    rw [EStateM.tryCatch, h]
  cases hlater : a.later with
  | true =>
    have hinvoke : invoke svc a c {} = .ok () { calls := [⟨svc.session, straddr, o⟩] } := by
      rw [invoke, hop]
      dsimp only
      rw [if_pos hinit, hlater]
      rfl
    rw [deliver, hhandle hinvoke]
    simp only [hlater, if_true, List.foldl_cons, List.foldl_nil, Delivery.callBack, hd]
  | false =>
    have hinvoke : invoke svc a c {} = .ok () d := by
      rw [← hd, invoke, hop]
      dsimp only
      rw [if_pos hinit, hlater]
      rfl
    rw [deliver, hhandle hinvoke, hlater]
    rfl

end

/-! ## Linearizability -/

section

variable {ι : Type} [DecidableEq ι] {svc : KvdnServiceImpl} {calls : ι → KvdnService}
  {later : ι → Bool} {txs : ι → KvTx} {ops : ι → Op} {w₀ w : World} {tr : List (ι × Step)}

/-- A call asks for the operation `o`, which is performed on the transaction object `tx`. -/
structure KvdnService.Performs (svc : KvdnServiceImpl) (c : KvdnService) (tx : KvTx) (o : Op) :
    Prop where
  wellFormed : c.WellFormed
  op : c.op = some (tx.strAddr, o)
  session : tx.session = svc.session

/-- Calls are made through the proxies, and their messages handled at the same time, by the
    transactions `txs`: each of them is replied to once, what is replied is in the order of the
    operations that have taken effect, and to the others it is replied that they have not. (A
    call whose transaction is cut by an exception has no handler called.) -/
theorem linearizable_calls (hinit : svc.session.initalized = true)
    (hpre : svc.session.preHooks = []) (hpost : svc.session.postHooks = [.StoreMetaKVHook])
    (hsource : svc.session.keyprov.source = some svc.session.D.space)
    (hflags : w₀.txflags svc.session.sessionid = ∅)
    (hstrings : HoldsStrings (w₀.view svc.session.D))
    (hcalls : ∀ i, (calls i).Performs svc (txs i) (ops i)) (hsa : ∀ i, UserAddr (txs i).strAddr)
    (htxid : ∀ i, (txs i).txid < w₀.uuids) {ps : ι → Prog (AsyncResult Obj)}
    (h : sem.Pool w₀ (fun i => (txs i).run (ops i)) tr w ps) :
    ∃ lin, Ordered svc.session.D w₀.md5 txs ops w₀ tr w lin ∧
      ∀ i res, (⟨.handle (txs i).txid res, ()⟩ : Step) ∈ own i tr →
        let msg := KvdnServiceVertxEBProxy.message (calls i)
        let replies := (deliver svc ⟨res, later i⟩ msg).replies
        (∃ v, (i, v) ∈ lin ∧ replies = [replyOf v]) ∨
        (i ∉ lin.map Prod.fst ∧ ∃ cause, replies = [.serviceException (-1) (.cause cause)]) := by
  obtain ⟨lin, hordered, hhandled⟩ := exists_linearization hpre hpost hsource hflags
    (fun i => (hcalls i).session) hsa htxid h
  refine ⟨lin, hordered, fun i res hres => ?_⟩
  have hdecode := decode_message (hcalls i).wellFormed
  rcases hhandled i res hres with ⟨v, rfl, hv⟩ | ⟨⟨cause, rfl⟩, hop, hi⟩
  · obtain ⟨s, hlin, -⟩ := hordered
    -- the abstract store holds strings, so that the adapters take the result for what it is
    obtain ⟨s', hs', hv'⟩ := hlin.exists_step (P := HoldsStrings)
      (fun s i hs => hs.kvStep w₀.md5 _) hstrings hv
    refine .inl ⟨v, hv, ?_⟩
    obtain rfl : ((ops i).apply w₀.md5 (s' (txs i).strAddr)).2 = v := hv'
    have happly := resultHandler_apply (hs' _ (hsa i)) w₀.md5 (ops i)
    rw [deliver_eq hdecode (hcalls i).op hinit (happly _)]
    exact List.nil_append _
  · refine .inr ⟨hi, cause, ?_⟩
    rw [deliver_eq hdecode (hcalls i).op hinit (resultHandler_failedFuture hop cause _)]
    rfl

end

/-- A key is put while another client asks for the keys, and their callbacks alternate. -/
theorem linearizable_message :
    let svc : KvdnServiceImpl := HTTPServer.inMemory.svc
    let calls : Bool → KvdnService := fun i =>
      if i then .set (jstr "a_b") (jstr "k") (jstr "v") (.object []) else .getKeys (jstr "a_b") .null
    let txs : Bool → KvTx := fun i =>
      { txid := if i then 0 else 1, session := svc.session, strAddr := jstr "a_b" }
    let ops : Bool → Op := fun i => if i then .set (jstr "k") (jstr "v") else .getKeys
    let w₀ : World := { uuids := 2 }
    ∃ tr w ps, sem.Pool w₀ (fun i => (txs i).run (ops i)) tr w ps ∧ tr.length = 26 ∧
      ∃ lin, Ordered svc.session.D w₀.md5 txs ops w₀ tr w lin ∧
        ∀ i res, (⟨.handle (txs i).txid res, ()⟩ : Step) ∈ own i tr →
          let msg := KvdnServiceVertxEBProxy.message (calls i)
          let replies := (deliver svc ⟨res, i⟩ msg).replies
          (∃ v, (i, v) ∈ lin ∧ replies = [replyOf v]) ∨
          (i ∉ lin.map Prod.fst ∧ ∃ cause, replies = [.serviceException (-1) (.cause cause)]) := by
  intro svc calls txs ops w₀
  have hpool := pool_schedule_init World.ok_succeed w₀ (fun i => (txs i).run (ops i))
    (List.replicate 30 [true, false]).flatten (S := sem)
  have hcalls (i : Bool) : (calls i).Performs svc (txs i) (ops i) := by
    cases i <;> exact ⟨rfl, rfl, rfl⟩
  refine ⟨_, _, _, hpool, by decide +kernel, ?_⟩
  exact linearizable_calls rfl rfl rfl rfl rfl (fun _ _ _ _ hx => by cases hx) hcalls
    (fun _ => show UserAddr (jstr "a_b") by decide) (by decide) hpool

end Kvdn
