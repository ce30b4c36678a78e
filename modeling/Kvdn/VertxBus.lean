import Kvdn.Callback.Semantics
import Kvdn.Json

/-!
# The event bus of the C++ client

The event bus of the C++ client: any number of calls of its functions, from the threads of
the application, from the handlers it calls, and from its own two threads, in any
interleaving. The lock of the handlers (`hm_lock_`) and that of the pending replies
(`rh_lock_`) are each held for one action; everything is sent without them. But `OnMessage`
keeps `hm_lock_` for good when the address of a message is an array or an object, for
`asString()` throws then (`Act.lock`): after that nobody gets at the handlers any more.

A handler is called by the thread of the connection; what it does with the bus are calls
of their own. An exception ends a call; that this is the end of the whole program if nobody
catches it is left out.

What the code does without a lock is taken to be atomic all the same: the two `clear()` of
`OnClose`, the reads and writes of `default_headers_`, of `state_` and of the callbacks. The
increment of an erased iterator in `UnregisterHandler`, after which the loop ends, and the reals
of JSON are left out.
-/

namespace Kvdn.VertxBus

open Callback Callback.Sem

/-! ## Values -/

/-- A `std::string`: its bytes. -/
abbrev CppString := List UInt8

/-- The string of a literal. -/
def cstr (s : String) : CppString := s.toList.map fun c => c.toNat.toUInt8

/-- A `Json::Value`. -/
abbrev JsonValue := Json CppString

/-- The decimal digits of an integer. -/
def decimal (n : ℤ) : CppString := cstr (toString n)

/-- What `asString()` returns: it throws for arrays and objects. -/
def JsonValue.toStr : JsonValue → Option CppString
  | .null => some []
  | .bool b => some (cstr (if b then "true" else "false"))
  | .int n => some (decimal n)
  | .string s => some s
  | .array _ | .object _ => none

/-- The headers of a call, with those of the default headers that it does not have. -/
def MergeHeaders (default_headers_ headers : JsonValue) : JsonValue :=
  if default_headers_.isObject then
    if headers.isObject then
      headers.setMissing (default_headers_.get · .null) default_headers_.getMemberNames
    else default_headers_
  else if headers.isObject then headers
  else .null

/-- The members of the merged headers are those given, and the default ones. -/
theorem find_MergeHeaders (default_headers_ headers : JsonValue) (name : CppString) :
    (MergeHeaders default_headers_ headers).find name =
      (headers.find name).or (default_headers_.find name) := by
  rw [MergeHeaders]
  by_cases hd : default_headers_.isObject = true
  · rw [if_pos hd]
    by_cases hh : headers.isObject = true
    · rw [if_pos hh, Json.find_setMissing]
      simp only [Json.mem_getMemberNames, Json.isMember, Json.get]
      cases default_headers_.find name <;> rfl
    · rw [if_neg hh, Json.find_of_not_isObject hh, Option.none_or]
  · rw [if_neg hd, Json.find_of_not_isObject hd, Option.or_none]
    by_cases hh : headers.isObject = true
    · rw [if_pos hh]
    · rw [if_neg hh, Json.find_of_not_isObject hh]
      rfl

/-! ## The bus -/

/-- The value of a `ReplyHandler`: a pointer to a function, or a function object, which
    cannot be compared with another one. -/
inductive ReplyHandler
  | pointer (n : ℕ)
  | object (n : ℕ)
  deriving DecidableEq

/-- A `FailureHandler` that is not empty. -/
abbrev FailureHandler := ℕ

structure VertxReplyHandlers where
  reply_handler : ReplyHandler
  failure_handler : Option FailureHandler
  deriving DecidableEq

inductive State
  | kConnecting | kOpen | kClosing | kClosed
  deriving DecidableEq

/-- The callbacks given to `Connect`, those that are not empty. -/
structure Callbacks where
  on_open_ : Option ℕ := none
  on_close_ : Option ℕ := none
  on_fail_ : Option ℕ := none

/-- What is sent to the server. -/
inductive Frame
  | register (address : CppString) (headers : JsonValue)
  | unregister (address : CppString) (headers : JsonValue)
  | envelope (send_or_pub address : CppString) (headers body : JsonValue)
      (replyAddress : Option CppString)
  | ping

/-- What a handler is called with: a message and the address to reply to, or a failure. -/
inductive Invocation
  | reply_handler (handler : ReplyHandler) (json : JsonValue) (replyAddress : CppString)
  | failure_handler (handler : FailureHandler) (failureCode failureType message : JsonValue)

/-- A message is of the type `err`. -/
def isErr (json : JsonValue) : Bool :=
  match json.find (cstr "type") with
  | some (.string s) => s == cstr "err"
  | _ => false

/-- What the handlers are called with: a message of the type `err` is for the failure
    handler, if there is one. -/
def VertxReplyHandlers.call (rh : VertxReplyHandlers) (json : JsonValue) (replyAddress : CppString) :
    Option Invocation :=
  if isErr json then
    rh.failure_handler.map fun handler =>
      .failure_handler handler (json.get (cstr "failureCode") (.int (-1)))
        (json.get (cstr "failureType") (.string (cstr "UNKNOWN")))
        (json.get (cstr "message") (.string []))
  else some (.reply_handler rh.reply_handler json replyAddress)

/-- Whether a registered handler is the one to be removed: only pointers compare. -/
def VertxReplyHandlers.isPointer (n : ℕ) (rh : VertxReplyHandlers) : Bool :=
  rh.reply_handler == .pointer n

/-- The handlers left after a removal: of all of them, or of the first one that is the
    pointer. -/
def removed (reply_handler : Option ReplyHandler) (handlers : List VertxReplyHandlers) :
    List VertxReplyHandlers :=
  match reply_handler with
  | none => []
  | some (.pointer n) => handlers.eraseP (VertxReplyHandlers.isPointer n)
  | some (.object _) => handlers

/-- A bus, with the reply addresses made. -/
structure Bus where
  /-- `hm_lock_` is held by nobody who would release it. -/
  locked : Bool := false
  state_ : State := .kClosed
  callbacks : Callbacks := {}
  default_headers_ : JsonValue := .null
  do_ping_ : Bool := false
  reply_handlers_ : CppString → Option VertxReplyHandlers := fun _ => none
  handler_map_ : CppString → List VertxReplyHandlers := fun _ => []
  uuids : List CppString := []

/-! ## Actions -/

inductive Act
  | readyState
  | setState (s : State)
  /-- The callbacks and the state `kConnecting`. -/
  | configure (callbacks : Callbacks)
  /-- `get_connection`: whether there is no error. -/
  | getConnection (url : CppString)
  /-- The connection is queued, and the thread created. -/
  | connect
  /-- A handler pushed, under the lock: whether it is the first one. -/
  | pushHandler (address : CppString) (rh : VertxReplyHandlers)
  /-- Handlers removed, under the lock: whether the last one was. -/
  | eraseHandlers (address : CppString) (reply_handler : Option ReplyHandler)
  /-- The registered handlers, copied under the lock. -/
  | copyHandlers (address : CppString)
  /-- The lock of the handlers is taken, and kept. -/
  | lock
  | getDefaultHeaders
  | setDefaultHeaders (headers : JsonValue)
  | makeUUID
  | putReply (uuid : CppString) (rh : VertxReplyHandlers)
  /-- The handlers of a pending reply, erased under the lock. -/
  | takeReply (address : CppString)
  /-- Whether there is no error. -/
  | send (frame : Frame)
  | close
  | clearReplies
  | clearHandlers
  | getCallbacks
  /-- A registered handler called. -/
  | deliver (invocation : Invocation)
  /-- The handlers of the pending reply at the address called. -/
  | answer (address : CppString) (rh : VertxReplyHandlers) (invocation : Option Invocation)
  /-- A callback of the connection called, with a message for `on_fail_`. -/
  | callback (f : ℕ) (json : Option JsonValue)
  /-- `do_ping_` set, under its lock: whether it was not. -/
  | startPing
  /-- `do_ping_` reset, under its lock. -/
  | stopPing
  | readPing

/-- The actions that take the lock of the handlers. -/
def Act.locks : Act → Bool
  | .pushHandler .. | .eraseHandlers .. | .copyHandlers _ | .lock => true
  | _ => false

/-- What is answered. -/
abbrev Act.Res : Act → Type
  | .readyState => State
  | .getConnection _ | .pushHandler .. | .eraseHandlers .. | .send _ | .close | .startPing
  | .readPing => Bool
  | .copyHandlers _ => List VertxReplyHandlers
  | .getDefaultHeaders => JsonValue
  | .makeUUID => CppString
  | .takeReply _ => Option VertxReplyHandlers
  | .getCallbacks => Callbacks
  | _ => Unit

/-- `Json::LogicError`. -/
inductive Exn
  | logicError

abbrev Prog := Callback.Prog Act.Res Exn

def perform (a : Act) : Prog a.Res := Callback.Prog.perform a

namespace Bus

/-- The answers that are possible: a new address is one that was never made before. -/
def ok (w : Bus) : (a : Act) → a.Res → Prop
  | .readyState, s => s = w.state_
  | .pushHandler address _, (first : Bool) => first = (w.handler_map_ address).isEmpty
  | .eraseHandlers address reply_handler, (last : Bool) =>
    last = (!(w.handler_map_ address).isEmpty &&
      (removed reply_handler (w.handler_map_ address)).isEmpty)
  | .copyHandlers address, handlers => handlers = w.handler_map_ address
  | .getDefaultHeaders, headers => headers = w.default_headers_
  | .makeUUID, uuid => uuid ∉ w.uuids
  | .takeReply address, rh => rh = w.reply_handlers_ address
  | .getCallbacks, callbacks => callbacks = w.callbacks
  | .startPing, (started : Bool) => started = !w.do_ping_
  | .readPing, (b : Bool) => b = w.do_ping_
  | _, _ => True

def eff (w : Bus) : (a : Act) → a.Res → Bus
  | .setState s, _ => { w with state_ := s }
  | .lock, _ => { w with locked := true }
  | .configure callbacks, _ => { w with callbacks, state_ := .kConnecting }
  | .pushHandler address rh, _ => { w with
      handler_map_ := Function.update w.handler_map_ address (w.handler_map_ address ++ [rh]) }
  | .eraseHandlers address reply_handler, _ => { w with
      handler_map_ := Function.update w.handler_map_ address
        (removed reply_handler (w.handler_map_ address)) }
  | .setDefaultHeaders headers, _ => { w with default_headers_ := headers }
  | .makeUUID, uuid => { w with uuids := uuid :: w.uuids }
  | .putReply uuid rh, _ => { w with
      reply_handlers_ := Function.update w.reply_handlers_ uuid (some rh) }
  | .takeReply address, _ => { w with
      reply_handlers_ := Function.update w.reply_handlers_ address none }
  | .clearReplies, _ => { w with reply_handlers_ := fun _ => none }
  | .clearHandlers, _ => { w with handler_map_ := fun _ => [] }
  | .startPing, _ => { w with do_ping_ := true }
  | .stopPing, _ => { w with do_ping_ := false }
  | _, _ => w

/-- The lock of the handlers is free, if the action takes it. -/
def Unlocked (w : Bus) (a : Act) : Bool := !(w.locked && a.locks)

end Bus

/-- The semantics of the actions, but for the lock. -/
def lockless : Sem Act.Res Exn Bus where
  ok := Bus.ok
  eff := Bus.eff
  body _ := none

/-- The semantics of the actions. -/
def sem : Sem Act.Res Exn Bus := lockless.restrict fun w a _ => w.Unlocked a = true

theorem eff_eq (w : Bus) (a : Act) (r : a.Res) : sem.eff w a r = w.eff a r := rfl

/-! ## Functions -/

/-- The name, lower case. -/
def tolower (s : CppString) : CppString := s.map fun c => if 0x41 ≤ c ∧ c ≤ 0x5A then c + 0x20 else c

/-- The address that is connected to. -/
def finalUrl (url : CppString) : CppString :=
  if (cstr "/websocket").isSuffixOf (tolower url) then tolower url
  else tolower url ++ cstr "/websocket"

def Connect (url : CppString) (callbacks : Callbacks) : Prog Bool := do
  if (← perform .readyState) ≠ .kClosed then return false
  perform (.configure callbacks)
  if ← perform (.getConnection (finalUrl url)) then
    perform .connect
    return true
  else return false

def RegisterHandler (address : CppString) (headers : JsonValue) (rh : VertxReplyHandlers) :
    Prog Bool := do
  if (← perform .readyState) ≠ .kOpen then return false
  if ← perform (.pushHandler address rh) then
    let default_headers_ ← perform .getDefaultHeaders
    perform (.send (.register address (MergeHeaders default_headers_ headers)))
  else return true

def UnregisterHandler (address : CppString) (headers : JsonValue)
    (reply_handler : Option ReplyHandler) : Prog Bool := do
  if (← perform .readyState) ≠ .kOpen then return false
  if ← perform (.eraseHandlers address reply_handler) then
    let default_headers_ ← perform .getDefaultHeaders
    perform (.send (.unregister address (MergeHeaders default_headers_ headers)))
  else return true

def SendOrPub (send_or_pub address : CppString) (message headers : JsonValue)
    (rh : Option VertxReplyHandlers) : Prog Bool := do
  if (← perform .readyState) ≠ .kOpen then return false
  let default_headers_ ← perform .getDefaultHeaders
  let envelope := Frame.envelope send_or_pub address (MergeHeaders default_headers_ headers) message
  match rh with
  | some rh =>
    let reply_address ← perform .makeUUID
    perform (.putReply reply_address rh)
    perform (.send (envelope (some reply_address)))
  | none => perform (.send (envelope none))

def Send (address : CppString) (message headers : JsonValue) (rh : Option VertxReplyHandlers) :
    Prog Bool := SendOrPub (cstr "send") address message headers rh

def Publish (address : CppString) (message headers : JsonValue) : Prog Bool :=
  SendOrPub (cstr "publish") address message headers none

/-- The call of a `VertxBusReplier`. -/
def VertxBusReplier (address_ : CppString) (reply : JsonValue) (rh : Option VertxReplyHandlers) :
    Prog Bool :=
  if address_.isEmpty then return true else Send address_ reply .null rh

def Close : Prog Bool := do
  if (← perform .readyState) ≠ .kOpen then return false
  if ← perform .close then
    perform (.setState .kClosing)
    return true
  else return false

def SendPing : Prog Bool := do
  if (← perform .readyState) ≠ .kOpen then return false
  perform (.send .ping)

/-- A callback called, unless it is empty. -/
def callBack (json : Option JsonValue) : Option ℕ → Prog Bool
  | some f => do
    perform (.callback f json)
    return true
  | none => return true

def OnOpen : Prog Bool := do
  let _ ← SendPing
  perform (.setState .kOpen)
  let _ ← perform .startPing
  let callbacks ← perform .getCallbacks
  callBack none callbacks.on_open_

def OnClose : Prog Bool := do
  perform (.setState .kClosed)
  perform .stopPing
  perform .clearReplies
  perform .clearHandlers
  let callbacks ← perform .getCallbacks
  callBack none callbacks.on_close_

def OnFail : Prog Bool := do
  perform (.setState .kClosed)
  let callbacks ← perform .getCallbacks
  callBack (some .null) callbacks.on_fail_

/-- A wake-up of the thread that pings. -/
def pingInterval : Prog Bool := do
  if ← perform .readPing then SendPing else return true

/-- The copied handlers called, one after the other. -/
def deliverAll (json : JsonValue) (replyAddress : CppString) : List VertxReplyHandlers → Prog Bool
  | [] => return true
  | rh :: copy =>
    match rh.call json replyAddress with
    | some invocation => do
      perform (.deliver invocation)
      deliverAll json replyAddress copy
    | none => deliverAll json replyAddress copy

/-- The address to reply to: `asString()` throws for arrays and objects. -/
def replyAddress (json : JsonValue) : Option CppString :=
  let replyAddress := json.get (cstr "replyAddress") .null
  JsonValue.toStr (if replyAddress.empty then .string [] else replyAddress)

/-- The reply address a handler is called with, which is read for a message only, not for
    a failure. -/
def replyAddressOf (json : JsonValue) : Prog CppString :=
  if isErr json then return []
  else match replyAddress json with
    | some s => return s
    | none => .throw .logicError

/-- The address of a message, read while the lock is held. -/
def addressOf (json : JsonValue) : Prog CppString :=
  match JsonValue.toStr (json.get (cstr "address") .null) with
  | some address => return address
  | none => do
    perform .lock
    .throw .logicError

/-- A message that nothing was found for. -/
def noHandler (json : JsonValue) : Prog Bool := do
  let callbacks ← perform .getCallbacks
  if isErr json then callBack (some json) callbacks.on_fail_ else return true

/-- A payload received, as it is parsed. -/
def OnMessage (payload : Option JsonValue) : Prog Bool :=
  match payload with
  | none => return true
  | some json =>
    if json.hasMembers then do
      let address ← addressOf json
      let handlers ← perform (.copyHandlers address)
      if handlers.isEmpty then
        match ← perform (.takeReply address) with
        | some rh => do
          let replyAddress ← replyAddressOf json
          perform (.answer address rh (rh.call json replyAddress))
          return true
        | none => noHandler json
      else do
        let replyAddress ← replyAddressOf json
        deliverAll json replyAddress handlers
    else .throw .logicError

/-- The calls of the functions of the bus, by the application, the handlers and the threads
    of the connection. -/
inductive Call
  | Connect (url : CppString) (callbacks : Callbacks)
  | RegisterHandler (address : CppString) (headers : JsonValue) (rh : VertxReplyHandlers)
  | UnregisterHandler (address : CppString) (headers : JsonValue) (reply_handler : Option ReplyHandler)
  | Send (address : CppString) (message headers : JsonValue) (rh : Option VertxReplyHandlers)
  | Publish (address : CppString) (message headers : JsonValue)
  | VertxBusReplier (address_ : CppString) (reply : JsonValue) (rh : Option VertxReplyHandlers)
  | Close
  | SetDefaultHeaders (headers : JsonValue)
  | OnOpen
  | OnClose
  | OnFail
  | OnMessage (payload : Option JsonValue)
  | pingInterval

def Call.run : Call → Prog Bool
  | Connect url callbacks => VertxBus.Connect url callbacks
  | RegisterHandler address headers rh => VertxBus.RegisterHandler address headers rh
  | UnregisterHandler address headers reply_handler =>
    VertxBus.UnregisterHandler address headers reply_handler
  | Send address message headers rh => VertxBus.Send address message headers rh
  | Publish address message headers => VertxBus.Publish address message headers
  | VertxBusReplier address_ reply rh => VertxBus.VertxBusReplier address_ reply rh
  | Close => VertxBus.Close
  | SetDefaultHeaders headers => do
    perform (.setDefaultHeaders headers)
    return true
  | OnOpen => VertxBus.OnOpen
  | OnClose => VertxBus.OnClose
  | OnFail => VertxBus.OnFail
  | OnMessage payload => VertxBus.OnMessage payload
  | pingInterval => VertxBus.pingInterval

end Kvdn.VertxBus
