import Kvdn.Callback.Machine
import Mathlib.Data.List.AList
import Mathlib.Data.Nat.Notation
import Mathlib.Logic.Function.Basic

/-!
# Clients in Python

The module `kvdn_client`: the settings of all clients are in one dictionary `CONF`
of the module, which every constructor updates. The headers among them are a dictionary
again: that of the module, or one that a caller has given to a constructor. The module keeps
this object itself, and puts the token and the `Content-Type` of every call into it, where
they stay; the caller may change it too.

What a request is made with thus depends on what has happened in the module, on all
its clients (`past`): `isolated_iff` tells the runs in which every request is made
with the settings of its own client, and the `Content-Type` of its own call.

`requests` looks at the names of headers without their case, the last one counts, and it
makes no request that it cannot prepare, as with an invalid header or address (`prepare`, a
parameter). What it adds itself, for a user in the address or from the environment, is left out.
The arguments have the types of the defaults: in particular, the headers are a dictionary of
strings.
-/

namespace Kvdn.PythonClient

open Callback

/-! ## The module -/

/-- The certificate to be presented. -/
inductive Cert
  | pem (path : String)
  | pair (cert key : String)
  deriving DecidableEq

/-- How the certificate of the server is verified. -/
inductive Verify
  | bool (b : Bool)
  | cacert (path : String)
  deriving DecidableEq

/-- The contents of a dictionary of headers. -/
abbrev Dict := AList fun _ : String => String

/-- `CONF`, with its defaults. -/
structure Conf where
  baseurl : String := "https://localhost:6500"
  token : Option String := none
  /-- `prefix` -/
  pathPrefix : String := ""
  setMode : String := "raw"
  /-- A dictionary object; the first one is that of the module. -/
  headers : ℕ := 0
  verify : Verify := .bool true
  timeout : ℕ := 15
  cert : Option Cert := none

/-- The keyword arguments of a constructor, each given or not. -/
structure Options where
  baseurl : Option String := none
  token : Option (Option String) := none
  pathPrefix : Option String := none
  setMode : Option String := none
  headers : Option ℕ := none
  verify : Option Verify := none
  timeout : Option ℕ := none
  cert : Option (Option Cert) := none
  deriving DecidableEq

/-- The calls of the methods of a client. -/
inductive Call
  | set (straddr key data : String) (type : Option String)
  | get (straddr key : String)
  | setRaw (straddr key data type : String)
  | setJson (straddr key data type : String)
  | getKeys (straddr : String)
  | delete (straddr key : String)
  | submitCas (straddr data type : String)
  | submitUuid (straddr data type : String)
  /-- The request of the constructor. -/
  | version
  deriving DecidableEq

/-- A request: its address is `base` followed by `path`. -/
structure Request where
  method : String
  base : String
  path : String
  data : Option String
  headers : List (String × String)
  verify : Verify
  timeout : ℕ
  cert : Option Cert

/-- The value of a header, in whatever case: the last one counts. -/
def Request.header (r : Request) (name : String) : Option String :=
  (r.headers.filterMap fun h => if h.1.toLower = name then some h.2 else none).getLast?

/-- `CONF[key] = value`, for all arguments given. -/
def Conf.update (conf : Conf) (o : Options) : Conf where
  baseurl := o.baseurl.getD conf.baseurl
  token := o.token.getD conf.token
  pathPrefix := o.pathPrefix.getD conf.pathPrefix
  setMode := o.setMode.getD conf.setMode
  headers := o.headers.getD conf.headers
  verify := o.verify.getD conf.verify
  timeout := o.timeout.getD conf.timeout
  cert := o.cert.getD conf.cert

/-- The call that is made for `set`, if any: `set_mode` decides. -/
def Conf.dispatch (conf : Conf) : Call → Option Call
  | .set straddr key data type =>
    if conf.setMode = "raw" then some (.setRaw straddr key data (type.getD "text/plain"))
    else if conf.setMode = "json" then
      some (.setJson straddr key data (type.getD "application/json"))
    else none
  | c => some c

/-- `CONF`, and the dictionary objects of headers. -/
structure Memory where
  conf : Conf := {}
  dicts : ℕ → Dict := fun _ => ∅

namespace Memory

variable (m : Memory)

/-- The headers of `CONF`. -/
def headers : Dict := m.dicts m.conf.headers

/-- `CONF['headers'].update({name: value})`. -/
def setHeader (name value : String) : Memory :=
  { m with dicts := Function.update m.dicts m.conf.headers (m.headers.insert name value) }

def update (o : Options) : Memory := { m with conf := m.conf.update o }

/-- What `__init__` leaves, before it makes its request. -/
def init (o : Options) : Memory :=
  match (m.update o).conf.token with
  | some token => (m.update o).setHeader "Authorization" ("Bearer " ++ token)
  | none => m.update o

/-- The items of the headers, in the order in which the dictionary is gone through. -/
def items (order : List String) : List (String × String) :=
  order.filterMap fun name => (m.headers.lookup name).map fun value => (name, value)

/-- The request made with `CONF`. -/
def kvdnReq (order : List String) (method path : String) (data : Option String) : Request where
  method := method
  base := m.conf.baseurl ++ m.conf.pathPrefix
  path := path
  data := data
  headers := m.items order
  verify := m.conf.verify
  timeout := m.conf.timeout
  cert := m.conf.cert

end Memory

namespace Call

/-- The type a call gives to its content. -/
def type : Call → Option String
  | setRaw _ _ _ type | setJson _ _ _ type | submitCas _ _ type | submitUuid _ _ type => some type
  | set _ _ _ type => type
  | get _ _ | getKeys _ | delete _ _ | version => none

/-- What a call leaves of the headers, once it has been dispatched. -/
def updates (m : Memory) (c : Call) : Memory :=
  match c.type with
  | some type => m.setHeader "Content-Type" type
  | none => m

/-- The request of a call, once it has been dispatched. -/
def request (m : Memory) (order : List String) : Call → Request
  | get straddr key => m.kvdnReq order "GET" ("/X/" ++ straddr ++ "/" ++ key) none
  | setRaw straddr key data _ | set straddr key data _ =>
    m.kvdnReq order "PUT" ("/R/" ++ straddr ++ "/" ++ key) (some data)
  | setJson straddr key data _ =>
    m.kvdnReq order "PUT" ("/X/" ++ straddr ++ "/" ++ key) (some data)
  | getKeys straddr => m.kvdnReq order "GET" ("/KEYS/" ++ straddr ++ "/") none
  | delete straddr key => m.kvdnReq order "DELETE" ("/X/" ++ straddr ++ "/" ++ key) (some "")
  | submitCas straddr data _ => m.kvdnReq order "POST" ("/X/" ++ straddr) (some data)
  | submitUuid straddr data _ => m.kvdnReq order "POST" ("/U/" ++ straddr) (some data)
  | version => m.kvdnReq order "GET" "/__VERSION" none

/-- A call: what it leaves, and its request, if it makes one. -/
def run (m : Memory) (order : List String) (c : Call) : Memory × Option Request :=
  match m.conf.dispatch c with
  | some c => (c.updates m, some (c.request (c.updates m) order))
  | none => (m, none)

end Call

/-! ## Runs -/

/-- What happens in the module, on its clients `ι`. The headers are gone through in the order
    `order`. -/
inductive Event (ι : Type)
  /-- A constructor; the client is there once the server has answered. -/
  | construct (i : ι) (o : Options) (order : List String) (answered : Bool)
  | call (i : ι) (c : Call) (order : List String)
  /-- A caller changes a dictionary of its own. -/
  | assign (dict : ℕ) (name : String) (value : Option String)

/-- A client: the arguments of its constructor, and what its caller had put into the headers. -/
structure Client where
  options : Options
  headers : Dict
  deriving DecidableEq

/-- The memory of the module, the clients, and what the callers have put into the dictionaries. -/
structure World (ι : Type) where
  memory : Memory := {}
  clients : ι → Option Client := fun _ => none
  given : ℕ → Dict := fun _ => ∅

/-- `dict[name] = value`, or `del dict[name]`. -/
def Dict.put (d : Dict) (name : String) : Option String → Dict
  | some value => d.insert name value
  | none => d.erase name

def assign (dicts : ℕ → Dict) (dict : ℕ) (name : String) (value : Option String) : ℕ → Dict :=
  Function.update dicts dict ((dicts dict).put name value)

variable {ι : Type} [DecidableEq ι]

namespace World

section

variable (prepare : Request → Bool) (w : World ι)

/-- What a constructor is given. -/
def client (o : Options) : Client := ⟨o, (o.headers.map w.given).getD ∅⟩

/-- The state after an event. -/
def step : Event ι → World ι
  | .construct i o order answered =>
    { w with
      memory := w.memory.init o
      clients := if answered && prepare (Call.version.request (w.memory.init o) order) then
        Function.update w.clients i (some (w.client o)) else w.clients }
  | .call _ c order => { w with memory := (c.run w.memory order).1 }
  | .assign dict name value =>
    { w with
      memory.dicts := assign w.memory.dicts dict name value
      given := assign w.given dict name value }

/-- A client is constructed once, and then called; the callers have no access to the dictionary
    of the module. -/
def Can : Event ι → Prop
  | .construct i o order _ =>
    w.clients i = none ∧ o.headers ≠ some 0 ∧ order.Perm (w.memory.init o).headers.keys
  | .call i c order => w.clients i ≠ none ∧ c ≠ .version ∧
    order.Perm (c.run w.memory order).1.headers.keys
  | .assign dict _ _ => dict ≠ 0

instance : ∀ e : Event ι, Decidable (w.Can e)
  | .construct .. | .call .. => inferInstanceAs (Decidable (_ ∧ _ ∧ _))
  | .assign .. => inferInstanceAs (Decidable (_ ≠ _))

/-- A request made, with the call that has made it and its client. -/
structure Sent where
  client : Client
  call : Call
  request : Request

/-- The request `r`, if it can be prepared. -/
def send (client : Client) (c : Call) (r : Request) : Option Sent :=
  if prepare r then some ⟨client, c, r⟩ else none

omit [DecidableEq ι] in
/-- The request an event makes, if any. -/
def sends : Event ι → Option Sent
  | .construct _ o order _ => ((Call.version).run (w.memory.init o) order).2.bind
      (send prepare (w.client o) .version)
  | .call i c order => (w.clients i).bind fun client =>
    (c.run w.memory order).2.bind (send prepare client c)
  | .assign _ _ _ => none

end

end World

/-- The module, as a state machine. -/
def machine (prepare : Request → Bool) : Machine (World ι) (Event ι) :=
  ⟨World.Can, World.step prepare⟩

/-! ## Isolation -/

namespace Client

variable (client : Client)

/-- The settings a client has asked for: those its constructor would leave, were it the
    only client of the module, and the headers as its caller has given them. -/
def own : Memory :=
  ({ dicts := fun dict => if client.options.headers = some dict then client.headers else ∅ } :
    Memory).init client.options

/-- The client has asked for this value of a header, in whatever case, or for none. -/
def Asks (name : String) : Option String → Prop
  | some value => ∃ name', name'.toLower = name ∧ client.own.headers.lookup name' = some value
  | none => ∀ name', name'.toLower = name → client.own.headers.lookup name' = none

/-- The `Content-Type` of a call of a client. -/
def contentType (c : Call) : Option String := (client.own.conf.dispatch c).bind Call.type

end Client

/-- The request is made with the settings of its own client, and the type of its call. -/
structure World.Sent.Isolated (s : World.Sent) : Prop where
  base : s.request.base = s.client.own.conf.baseurl ++ s.client.own.conf.pathPrefix
  authorization : s.client.Asks "authorization" (s.request.header "authorization")
  verify : s.request.verify = s.client.own.conf.verify
  cert : s.request.cert = s.client.own.conf.cert
  contentType : s.request.header "content-type" = s.client.contentType s.call

section

variable {α : Type}

/-- The value that was last given to a constructor, or else the default `d`; the past
    has the latest event first. -/
def lastGiven (f : Options → Option α) (d : α) : List (Event ι) → α
  | [] => d
  | .construct _ o _ _ :: past => (f o).getD (lastGiven f d past)
  | _ :: past => lastGiven f d past

/-- The type that a call gives, in the mode `setMode`. -/
def callType (setMode : String) (c : Call) : Option String :=
  (({ setMode } : Conf).dispatch c).bind Call.type

/-- What has been put last into a dictionary under a name: by its caller, or, if it was the one
    given last, the token in force by a constructor, and its type by a call. -/
def lastPut (dict : ℕ) (name : String) : List (Event ι) → Option String
  | [] => none
  | .assign dict' name' value :: past =>
    if dict' = dict ∧ name' = name then value else lastPut dict name past
  | .construct i o order answered :: past =>
    match lastGiven Options.token none (.construct i o order answered :: past) with
    | some token =>
      if lastGiven Options.headers 0 (.construct i o order answered :: past) = dict ∧
        "Authorization" = name then some ("Bearer " ++ token) else lastPut dict name past
    | none => lastPut dict name past
  | .call _ c _ :: past =>
    match callType (lastGiven Options.setMode "raw" past) c with
    | some type =>
      if lastGiven Options.headers 0 past = dict ∧ "Content-Type" = name then some type
      else lastPut dict name past
    | none => lastPut dict name past

/-- What has been put last, in whatever case, into the headers given last. -/
def lastHeader (order : List String) (name : String) (past : List (Event ι)) : Option String :=
  (order.filterMap fun name' => if name'.toLower = name then
    lastPut (lastGiven Options.headers 0 past) name' past else none).getLast?

end

/-- The events of a run, the latest first. -/
def past (tr : List (World ι × Event ι)) : List (Event ι) := (tr.map Prod.snd).reverse

/-- The order in which the headers are gone through for a request. -/
def Event.order : Event ι → List String
  | .construct _ _ order _ | .call _ _ order => order
  | .assign _ _ _ => []

/-- What has been given last, by whatever client, is what the client has asked for: the past
    includes the event that makes the request. -/
structure Undisturbed (past : List (Event ι)) (order : List String) (client : Client) (c : Call) :
    Prop where
  base : lastGiven Options.baseurl "https://localhost:6500" past ++
      lastGiven Options.pathPrefix "" past =
    client.options.baseurl.getD "https://localhost:6500" ++ client.options.pathPrefix.getD ""
  authorization : client.Asks "authorization" (lastHeader order "authorization" past)
  verify : lastGiven Options.verify (.bool true) past = client.options.verify.getD (.bool true)
  cert : lastGiven Options.cert none past = client.options.cert.getD none
  contentType : lastHeader order "content-type" past =
    callType (client.options.setMode.getD "raw") c

/-! ## What the module remembers -/

/-- `CONF` and the dictionaries hold what has been given last. -/
structure Follows (m : Memory) (past : List (Event ι)) : Prop where
  baseurl : m.conf.baseurl = lastGiven Options.baseurl "https://localhost:6500" past
  token : m.conf.token = lastGiven Options.token none past
  pathPrefix : m.conf.pathPrefix = lastGiven Options.pathPrefix "" past
  setMode : m.conf.setMode = lastGiven Options.setMode "raw" past
  headers : m.conf.headers = lastGiven Options.headers 0 past
  verify : m.conf.verify = lastGiven Options.verify (.bool true) past
  cert : m.conf.cert = lastGiven Options.cert none past
  lookup : ∀ dict name, (m.dicts dict).lookup name = lastPut dict name past

section

variable {m : Memory} {history : List (Event ι)} {o : Options} {c c' : Call}

theorem lookup_setHeader (name value : String) (dict : ℕ) (name' : String) :
    ((m.setHeader name value).dicts dict).lookup name' =
      if m.conf.headers = dict ∧ name = name' then some value else (m.dicts dict).lookup name' := by
  -- another dictionary object is not touched, nor another name in this one
  by_cases hdict : m.conf.headers = dict
  · subst hdict
    by_cases hname : name = name'
    · subst hname
      simp [Memory.setHeader]
    · rw [if_neg fun h => hname h.2]
      simp [Memory.setHeader, Memory.headers, AList.lookup_insert_ne (Ne.symm hname)]
  · rw [if_neg fun h => hdict h.1]
    simp [Memory.setHeader, Function.update_of_ne (Ne.symm hdict)]

theorem lookup_assign {dicts : ℕ → Dict} (dict : ℕ) (name : String) (value : Option String)
    (dict' : ℕ) (name' : String) : ((assign dicts dict name value) dict').lookup name' =
      if dict = dict' ∧ name = name' then value else (dicts dict').lookup name' := by
  by_cases hdict : dict = dict'
  · subst hdict
    rw [assign, Function.update_self]
    by_cases hname : name = name'
    · subst hname
      cases value <;> simp [Dict.put]
    · rw [if_neg fun h => hname h.2]
      cases value with
      | none => exact AList.lookup_erase_ne (Ne.symm hname)
      | some value => exact AList.lookup_insert_ne (Ne.symm hname)
  · rw [if_neg fun h => hdict h.1, assign, Function.update_of_ne (Ne.symm hdict)]

/-- A constructor changes the dictionaries, beyond the arguments given, only. -/
theorem conf_init : (m.init o).conf = m.conf.update o := by
  unfold Memory.init
  split <;> rfl

omit [DecidableEq ι] in
theorem getD_lastGiven {α : Type} {f : Options → Option α} {d x : α} (h : x = lastGiven f d history)
    (i : ι) (o : Options) (order : List String) (answered : Bool) :
    (f o).getD x = lastGiven f d (.construct i o order answered :: history) := by
  rw [h]
  rfl

omit [DecidableEq ι] in
theorem Follows.lookup_init (h : Follows m history) (i : ι) (o : Options) (order : List String)
    (answered : Bool) (dict : ℕ) (name : String) : ((m.init o).dicts dict).lookup name =
      lastPut dict name (.construct i o order answered :: history) := by
  have htoken : (m.update o).conf.token =
      lastGiven Options.token none (.construct i o order answered :: history) :=
    getD_lastGiven h.token i o order answered
  have hheaders : (m.update o).conf.headers =
      lastGiven Options.headers 0 (.construct i o order answered :: history) :=
    getD_lastGiven h.headers i o order answered
  -- the token in force, which may be that of another client, goes into the headers in force
  rw [Memory.init, lastPut, ← htoken, ← hheaders, ← h.lookup]
  split
  · exact lookup_setHeader ..
  · rfl

omit [DecidableEq ι] in
/-- A constructor. -/
theorem Follows.init (h : Follows m history) (i : ι) (o : Options) (order : List String)
    (answered : Bool) : Follows (m.init o) (.construct i o order answered :: history) where
  baseurl := conf_init ▸ getD_lastGiven h.baseurl i o order answered
  token := conf_init ▸ getD_lastGiven h.token i o order answered
  pathPrefix := conf_init ▸ getD_lastGiven h.pathPrefix i o order answered
  setMode := conf_init ▸ getD_lastGiven h.setMode i o order answered
  headers := conf_init ▸ getD_lastGiven h.headers i o order answered
  verify := conf_init ▸ getD_lastGiven h.verify i o order answered
  cert := conf_init ▸ getD_lastGiven h.cert i o order answered
  lookup := h.lookup_init i o order answered

theorem dispatch_congr (conf conf' : Conf) (h : conf.setMode = conf'.setMode) :
    conf.dispatch c = conf'.dispatch c := by
  cases c with
  | set straddr key data type => simp only [Conf.dispatch, h]
  | _ => rfl

theorem callType_eq (conf : Conf) : callType conf.setMode c = (conf.dispatch c).bind Call.type :=
  congrArg (Option.bind · Call.type) (dispatch_congr _ conf rfl)

/-- What a call leaves: what it would leave if it were dispatched. -/
theorem run_fst (order : List String) : (c.run m order).1 =
    match callType m.conf.setMode c with
    | some type => m.setHeader "Content-Type" type
    | none => m := by
  rw [callType_eq, Call.run]
  cases hc : m.conf.dispatch c with
  | none => rfl
  | some c' => rfl

omit [DecidableEq ι] in
/-- A call. -/
theorem Follows.call (h : Follows m history) (i : ι) (c : Call) (order : List String) :
    Follows (c.run m order).1 (.call i c order :: history) := by
  have hconf : (c.run m order).1.conf = m.conf := by
    rw [run_fst]
    split <;> rfl
  exact
    { baseurl := hconf ▸ h.baseurl
      token := hconf ▸ h.token
      pathPrefix := hconf ▸ h.pathPrefix
      setMode := hconf ▸ h.setMode
      headers := hconf ▸ h.headers
      verify := hconf ▸ h.verify
      cert := hconf ▸ h.cert
      lookup := fun dict name => by
        rw [run_fst, lastPut, ← h.setMode, ← h.headers, ← h.lookup]
        split
        · exact lookup_setHeader ..
        · rfl }

omit [DecidableEq ι] in
/-- A caller. -/
theorem Follows.assign (h : Follows m history) (dict : ℕ) (name : String) (value : Option String) :
    Follows { m with dicts := PythonClient.assign m.dicts dict name value }
      (.assign dict name value :: history) :=
  ⟨h.baseurl, h.token, h.pathPrefix, h.setMode, h.headers, h.verify, h.cert, fun dict' name' => by
    rw [lastPut, ← h.lookup]
    exact lookup_assign ..⟩

omit [DecidableEq ι] in
theorem Follows.nil : Follows ({} : Memory) ([] : List (Event ι)) :=
  ⟨rfl, rfl, rfl, rfl, rfl, rfl, rfl, fun _ _ => rfl⟩

variable {prepare : Request → Bool}

omit [DecidableEq ι] in
theorem past_snoc {tr : List (World ι × Event ι)} {w : World ι} {e : Event ι} :
    past (tr ++ [(w, e)]) = e :: past tr := by
  simp [past]

theorem Follows.step {w : World ι} (h : Follows w.memory history) (e : Event ι) :
    Follows (w.step prepare e).memory (e :: history) := by
  cases e with
  | construct i o order answered => exact h.init i o order answered
  | call i c order => exact h.call i c order
  | assign dict name value => exact h.assign dict name value

theorem follows {tr : List (World ι × Event ι)} {w : World ι}
    (hrun : (machine prepare).Run {} tr w) : Follows w.memory (past tr) :=
  hrun.inv (I := fun tr w => Follows w.memory (past tr)) Follows.nil
    fun _ _ e h _ => past_snoc ▸ h.step e

/-! ## The requests -/

/-- All requests are made by `kvdnReq`. -/
theorem request_eq (order : List String) : ∃ method path data,
    c.request m order = m.kvdnReq order method path data := by
  cases c <;> exact ⟨_, _, _, rfl⟩

omit [DecidableEq ι] in
theorem Follows.header (h : Follows m history) (order : List String) (name method path : String)
    (data : Option String) :
    (m.kvdnReq order method path data).header name = lastHeader order name history := by
  rw [Request.header, lastHeader, ← h.headers]
  congr 1
  rw [Memory.kvdnReq, Memory.items, List.filterMap_filterMap]
  congr 1
  funext name'
  rw [Memory.headers, h.lookup]
  cases lastPut m.conf.headers name' history <;> simp

omit [DecidableEq ι] in
/-- A request is made with the settings of its client exactly if nothing else has been
    given since. -/
theorem isolated_kvdnReq (h : Follows m history) (order : List String) (client : Client) (c : Call)
    (method path : String) (data : Option String) :
    (⟨client, c, m.kvdnReq order method path data⟩ : World.Sent).Isolated ↔
      Undisturbed history order client c := by
  have hbase : (m.kvdnReq order method path data).base =
      lastGiven Options.baseurl "https://localhost:6500" history ++
        lastGiven Options.pathPrefix "" history := by
    rw [← h.baseurl, ← h.pathPrefix]
    rfl
  -- the fields of the two structures say the same, one by one
  have hown : client.own.conf = ({} : Conf).update client.options := conf_init
  have hcalled : client.contentType c = callType (client.options.setMode.getD "raw") c := by
    rw [Client.contentType, ← callType_eq, hown]
    rfl
  constructor
  · intro his
    refine ⟨?_, ?_, ?_, ?_, ?_⟩
    · rw [← hbase, his.base, hown]
      rfl
    · rw [← h.header order]
      exact his.authorization
    · rw [← h.verify]
      exact his.verify.trans (by rw [hown]; rfl)
    · rw [← h.cert]
      exact his.cert.trans (by rw [hown]; rfl)
    · rw [← h.header order, ← hcalled]
      exact his.contentType
  · intro hun
    refine ⟨?_, ?_, ?_, ?_, ?_⟩
    · rw [hbase, hun.base, hown]
      rfl
    · rw [h.header]
      exact hun.authorization
    · exact h.verify.trans (hun.verify.trans (by rw [hown]; rfl))
    · exact h.cert.trans (hun.cert.trans (by rw [hown]; rfl))
    · rw [h.header, hcalled]
      exact hun.contentType

omit [DecidableEq ι] in
theorem send_eq {client : Client} {r : Request} {s : World.Sent}
    (hs : World.send prepare client c r = some s) : s = ⟨client, c, r⟩ := by
  rw [World.send] at hs
  split_ifs at hs
  exact (Option.some.inj hs).symm

omit [DecidableEq ι] in
theorem of_sends_construct {w : World ι} {i : ι} {order : List String} {answered : Bool}
    {s : World.Sent} (hs : w.sends prepare (.construct i o order answered) = some s) :
    s = ⟨w.client o, .version, Call.version.request (w.memory.init o) order⟩ :=
  send_eq hs

omit [DecidableEq ι] in
theorem of_sends_call {w : World ι} {i : ι} {order : List String} {s : World.Sent}
    (hs : w.sends prepare (.call i c order) = some s) : ∃ client r,
      w.clients i = some client ∧ (c.run w.memory order).2 = some r ∧ s = ⟨client, c, r⟩ := by
  obtain ⟨client, hi, hs⟩ := Option.bind_eq_some_iff.1 hs
  obtain ⟨r, hr, hs⟩ := Option.bind_eq_some_iff.1 hs
  exact ⟨client, r, hi, hr, send_eq hs⟩

/-- The request of an event is made with what the module remembers after it. -/
theorem exists_of_sends {w : World ι} {e : Event ι} {s : World.Sent}
    (hs : w.sends prepare e = some s) : ∃ method path data, s.request =
      (w.step prepare e).memory.kvdnReq e.order method path data := by
  cases e with
  | construct i o order answered =>
    obtain rfl := of_sends_construct hs
    exact @request_eq (w.memory.init o) .version order
  | call i c order =>
    obtain ⟨client, r, -, hr, rfl⟩ := of_sends_call hs
    have hmemory : (w.step prepare (.call i c order)).memory =
        (c.run w.memory order).1 := rfl
    rw [hmemory, Call.run]
    rw [Call.run] at hr
    cases hc : w.memory.conf.dispatch c with
    | none =>
      rw [hc] at hr
      cases hr
    | some c' =>
      rw [hc] at hr
      obtain rfl := Option.some.inj hr
      exact request_eq order
  | assign => cases hs

/-- In a run, all requests are made with the settings of their own clients, and the
    types of their own calls, if, and only if, the settings in force at each of them are
    those its client has asked for. -/
theorem isolated_iff {tr : List (World ι × Event ι)} {w : World ι}
    (hrun : (machine prepare).Run {} tr w) :
    (∀ tr₁ tr₂ w' e s, tr = tr₁ ++ (w', e) :: tr₂ → w'.sends prepare e = some s →
      s.Isolated) ↔
      ∀ tr₁ tr₂ w' e s, tr = tr₁ ++ (w', e) :: tr₂ → w'.sends prepare e = some s →
        Undisturbed (e :: past tr₁) e.order s.client s.call := by
  refine forall_congr' fun tr₁ => forall_congr' fun tr₂ => forall_congr' fun w' =>
    forall_congr' fun e => forall_congr' fun s => imp_congr_right fun htr =>
    imp_congr_right fun hs => ?_
  -- a request is made with the memory that its own event leaves
  have hfollows : Follows (w'.step prepare e).memory (e :: past tr₁) :=
    (follows (hrun.before htr).1).step e
  obtain ⟨client, c, r⟩ := s
  obtain ⟨method, path, data, rfl⟩ := exists_of_sends hs
  exact isolated_kvdnReq hfollows e.order client c method path data

end

/-- `^\S[^\r\n]*$|^$`. -/
def check_header_validity (h : String × String) : Bool :=
  h.2.toList.head?.all (!·.isWhitespace) && h.2.toList.all fun c => c ≠ '\r' ∧ c ≠ '\n'

/-- Requests with valid headers, to an address of the scheme `https`. -/
def prepareHttps (r : Request) : Bool :=
  r.headers.all check_header_validity && "https://".toList.isPrefixOf r.base.toList

instance {prepare : Request → Bool} (w : World ι) (e : Event ι) :
    Decidable ((machine prepare).can w e) :=
  inferInstanceAs (Decidable (w.Can e))

/-- Two clients which have asked for the same settings, and then fetch a value. -/
theorem isolated_get_get :
    let o : Options := { baseurl := some "https://kvdn:6500", token := some (some "t") }
    let order := ["Authorization"]
    let es : List (Event Bool) := [.construct false o order true, .construct true o order true,
      .call false (.get "a" "k") order, .call true (.get "a" "k") order]
    let tr := (machine prepareHttps).trace ({} : World Bool) es
    ∀ tr₁ tr₂ w' e s, tr = tr₁ ++ (w', e) :: tr₂ → w'.sends prepareHttps e = some s →
      s.Isolated := by
  intro o order es tr
  have hrun : (machine prepareHttps).Run {} tr (es.foldl (machine prepareHttps).step {}) :=
    Machine.run_of_canAll (by decide +kernel)
  have hun {past : List (Event Bool)} {client : Client} {c : Call}
      (hclient : client.options = o ∧ client.headers.entries = [])
      (hbase : lastGiven Options.baseurl "https://localhost:6500" past ++
        lastGiven Options.pathPrefix "" past = "https://kvdn:6500")
      (hauthorization : lastHeader order "authorization" past = some "Bearer t")
      (hverify : lastGiven Options.verify (.bool true) past = .bool true)
      (hcert : lastGiven Options.cert none past = none)
      (htype : lastHeader order "content-type" past = none) (hc : callType "raw" c = none) :
      Undisturbed past order client c := by
    obtain ⟨options, headers⟩ := client
    obtain ⟨rfl, hheaders⟩ := hclient
    obtain rfl : headers = ∅ := AList.ext hheaders
    refine ⟨hbase.trans (by decide +kernel), ?_, hverify, hcert, htype.trans hc.symm⟩
    rw [hauthorization]
    exact ⟨"Authorization", by decide +kernel, by decide +kernel⟩
  have hclient {w : World Bool} {i : Bool} {client : Client} (hi : w.clients i = some client)
      (hw : (w.clients i).all (fun client => decide
        (client.options = o ∧ client.headers.entries = [])) = true) :
      client.options = o ∧ client.headers.entries = [] := by
    rw [hi] at hw
    exact of_decide_eq_true hw
  have halong : (machine prepareHttps).Along (fun tr w e => ∀ s,
      w.sends prepareHttps e = some s → Undisturbed (e :: past tr) e.order s.client s.call)
      [] {} es := by
    refine ⟨fun s hs => ?_, fun s hs => ?_, fun s hs => ?_, fun s hs => ?_, trivial⟩
    · obtain rfl := of_sends_construct hs
      exact hun ⟨rfl, rfl⟩ (by decide +kernel) (by decide +kernel) rfl rfl (by decide +kernel) rfl
    · obtain rfl := of_sends_construct hs
      exact hun ⟨rfl, rfl⟩ (by decide +kernel) (by decide +kernel) rfl rfl (by decide +kernel) rfl
    · obtain ⟨client, r, hi, -, rfl⟩ := of_sends_call hs
      exact hun (hclient hi (by decide +kernel)) (by decide +kernel) (by decide +kernel) rfl rfl
        (by decide +kernel) rfl
    · obtain ⟨client, r, hi, -, rfl⟩ := of_sends_call hs
      exact hun (hclient hi (by decide +kernel)) (by decide +kernel) (by decide +kernel) rfl rfl
        (by decide +kernel) rfl
  exact (isolated_iff hrun).2 fun tr₁ tr₂ w' e s htr hs => halong.of_trace htr s hs

/-- A client without a token sends the token given to another one; to another server, if
    that one has given its address. -/
theorem token_sent :
    let o : Options := { baseurl := some "https://one:6500", token := some (some "secret") }
    let o' : Options := { baseurl := some "https://other:6500" }
    let order := ["Authorization"]
    let es : List (Event Bool) := [.construct false o order true, .construct true o' order true]
    let w := es.foldl (machine prepareHttps).step ({} : World Bool)
    (machine prepareHttps).Run {} ((machine prepareHttps).trace {} es) w ∧
      (machine prepareHttps).can w (.call true (.get "a" "k") order) ∧
      ∃ s, w.sends prepareHttps (.call true (.get "a" "k") order) = some s ∧
        s.request.base = "https://other:6500" ∧
        s.request.header "authorization" = some "Bearer secret" ∧ ¬ s.Isolated := by
  intro o o' order es w
  have hsent : (w.sends prepareHttps (.call true (.get "a" "k") order)).any (fun s => decide
      (s.client.options = o' ∧ s.client.headers.entries = [] ∧
        s.request.base = "https://other:6500" ∧
        s.request.header "authorization" = some "Bearer secret")) = true := by
    decide +kernel
  obtain ⟨⟨⟨options, headers⟩, c, r⟩, hs, hsent⟩ := (Option.any_eq_true _ _).1 hsent
  obtain ⟨rfl, hheaders, hbase, hauthorization⟩ := of_decide_eq_true hsent
  obtain rfl : headers = ∅ := AList.ext hheaders
  refine ⟨Machine.run_of_canAll (by decide +kernel), by decide +kernel, _, hs, hbase,
    hauthorization, fun h => ?_⟩
  have hasks := h.authorization
  rw [show (⟨⟨o', ∅⟩, c, r⟩ : World.Sent).request.header "authorization" = some "Bearer secret" from
    hauthorization] at hasks
  obtain ⟨name, -, hname⟩ := hasks
  cases hname

end Kvdn.PythonClient
