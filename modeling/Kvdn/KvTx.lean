import Kvdn.World

/-!
# The transactions

The code of the transactions, callback by callback: `KvTx` and what it inherits
from `KvdnTX` (`startTX`, `checkFlags`, `bailTx`), the hook chains and
`finishTx` of `KvdnSession`, the metadata hook `StoreMetaKVHook` and the commit
hook `MapdbPostTXHook`.

A hook, and an operation called on another transaction object, is an action of
its own (`Act.hook`, `Act.op`), defined by its program (`Act.body`): the metadata
hook opens transactions whose hook chains run the metadata hook again.

`sem` is the semantics of the code over the `World`.
-/

namespace Kvdn

open Callback AsyncResult

/-! ## Sessions -/

namespace KvdnSession

variable (s : KvdnSession)

/-- A new transaction on the address `sa`. -/
def newTx (sa : JString) : Prog KvTx :=
  if s.initalized then perform (.newTx s sa) else .throw .notInitalized

/-- The recursive traversal of the hooks: the metadata hooks are skipped on the
    metadata map, and the results of the others are dropped. -/
def hookCaller (tx : KvTx) : List TXNHook → Prog Unit
  | [] => pure ()
  | nxt :: hooks => do
    if nxt.getType = some .META_HOOK ∧ tx.strAddr = METADATA_MAP then
      hookCaller tx hooks
    else
      let _res ← perform (.hook nxt tx)
      hookCaller tx hooks

def sessionPreTxHooks (tx : KvTx) : Prog Unit := hookCaller tx s.preHooks

def sessionPostTxHooks (tx : KvTx) : Prog Unit := hookCaller tx s.postHooks

/-- The last action of a transaction, before its handler is called. -/
def finishTx (tx : KvTx) : Prog Unit := do
  perform (.untrack s.sessionid tx.txid)
  s.sessionPostTxHooks tx
  if s.tracking then perform (.accessPut tx.strAddr tx.txid)
  else perform (.accessPutIfAbsent tx.strAddr)

end KvdnSession

/-! ## Key providers -/

/-- The provider of a database needs the database of its data implementation. -/
def KeyProvider.getKeys (p : KeyProvider) (map : JString) : Prog (AsyncResult Obj) :=
  match p with
  | MapdbKeyProvider DataImpl =>
    if DataImpl.getdb.isNone then .throw .nullPointer else perform (.getKeys p map)
  | p => perform (.getKeys p map)

/-- A provider that can be asked for keys: that of a database, if there is one. -/
def KeyProvider.Usable (p : KeyProvider) : Prop :=
  match p with
  | MapdbKeyProvider DataImpl => DataImpl.getdb ≠ none
  | _ => True

/-! ## Transactions -/

namespace KvTx

variable (tx : KvTx)

/-- The caller's handler is called with the result of the transaction. -/
def handle (res : AsyncResult Obj) : Prog (AsyncResult Obj) := do
  perform (.handle tx.txid res)
  pure res

/-- A transaction gives up with the result `result` of one of its steps: its cause
    is logged, which has to be an exception (or `null`, unless its stack trace is
    logged too), then the transaction is finished as usual. -/
def bailTx (result : AsyncResult Obj) : Prog (AsyncResult Obj) :=
  match result with
  | failedFuture (.error _) => .throw .classCast
  | result =>
    if tx.session.isTraceEnabled ∧ result.cause = none then .throw .nullPointer
    else do
      tx.session.finishTx tx
      tx.handle result

/-- A transaction object can be invoked once; it then goes through the pre hooks. -/
def startTX (type : TXTYPE) : Prog KvTx := do
  if ← perform (.dirty tx.txid) then .throw .alreadyInvoked
  else
    let tx := { tx with type := some type }
    tx.session.sessionPreTxHooks tx
    pure tx

/-- What the operations on the map share: the map is looked up, then, if the flags
    do not exclude the mode, `call` is called on it. -/
def withMap (mode : TXMODE) (call : AsyncMap → Prog (AsyncResult Obj)) :
    Prog (AsyncResult Obj) := do
  match ← perform (.getMap tx.session.D tx.strAddr) with
  | failedFuture c => tx.bailTx (failedFuture c)
  | succeededFuture map =>
    if ← perform (.checkFlags tx.session.sessionid mode) then call map
    else tx.bailTx (succeededFuture (.asyncMap map))

/-- The channels of the events of an address. -/
def writeChannel (sa : JString) : JString := jstr "_KVDN_+" ++ sa
def deleteChannel (sa : JString) : JString := jstr "_KVDN_-" ++ sa
def clearChannel (sa : JString) : JString := jstr "_KVDN_X" ++ sa

def submit (content : JString) : Prog (AsyncResult Obj) := do
  let tx ← tx.startTX .KV_SUBMIT
  tx.withMap .MODE_WRITE fun map => do
    let key := encodeHex (← perform (.digest content.getBytes))
    match ← perform (.put map key (.str content)) with
    | succeededFuture _ =>
      let _res ← perform (.setKey tx.session.keyprov tx.strAddr key)
      tx.session.finishTx tx
      perform (.publish ⟨writeChannel tx.strAddr, some key⟩)
      tx.handle (succeededFuture (.str key))
    | failedFuture c => tx.bailTx (failedFuture c)

def set (key content : JString) : Prog (AsyncResult Obj) := do
  let tx ← tx.startTX .KV_SET
  tx.withMap .MODE_WRITE fun map => do
    match ← perform (.put map key (.str content)) with
    | succeededFuture _ =>
      let _res ← perform (.setKey tx.session.keyprov tx.strAddr key)
      tx.session.finishTx tx
      perform (.publish ⟨writeChannel tx.strAddr, some key⟩)
      tx.handle (succeededFuture (.str key))
    | failedFuture c => tx.bailTx (failedFuture c)

def get (key : JString) : Prog (AsyncResult Obj) := do
  let tx ← tx.startTX .KV_GET
  tx.withMap .MODE_READ fun map => do
    match ← perform (.get map key) with
    | succeededFuture x =>
      tx.session.finishTx tx
      tx.handle (succeededFuture x)
    | failedFuture c => tx.bailTx (failedFuture c)

/-- A `clear` is started as a deletion, and the key provider is not told. -/
def clear : Prog (AsyncResult Obj) := do
  let tx ← tx.startTX .KV_DEL
  tx.withMap .MODE_WRITE fun map => do
    match ← perform (.clear map) with
    | succeededFuture _ =>
      tx.session.finishTx tx
      perform (.publish ⟨clearChannel tx.strAddr, none⟩)
      tx.handle (succeededFuture .null)
    | failedFuture c => tx.bailTx (failedFuture c)

def del (key : JString) : Prog (AsyncResult Obj) := do
  let tx ← tx.startTX .KV_DEL
  tx.withMap .MODE_WRITE fun map => do
    match ← perform (.remove map key) with
    | succeededFuture _ =>
      let _res ← perform (.deleteKey tx.session.keyprov tx.strAddr key)
      tx.session.finishTx tx
      perform (.publish ⟨deleteChannel tx.strAddr, some key⟩)
      tx.handle (succeededFuture (.str key))
    | failedFuture c => tx.bailTx (failedFuture c)

/-- The keys are asked of the key provider: neither the map nor the flags are
    looked at. -/
def getKeys : Prog (AsyncResult Obj) := do
  let tx ← tx.startTX .KV_KEYS
  match ← tx.session.keyprov.getKeys tx.strAddr with
  | succeededFuture x =>
    tx.session.finishTx tx
    tx.handle (succeededFuture x)
  | failedFuture c => tx.bailTx (failedFuture c)

def size : Prog (AsyncResult Obj) := do
  let tx ← tx.startTX .KV_SIZE
  tx.withMap .MODE_READ fun map => do
    match ← perform (.size map) with
    | succeededFuture x =>
      tx.session.finishTx tx
      tx.handle (succeededFuture x)
    | failedFuture c => tx.bailTx (failedFuture c)

/-- The program of an operation. -/
def run : Op → Prog (AsyncResult Obj)
  | .submit content => tx.submit content
  | .set key content => tx.set key content
  | .get key => tx.get key
  | .clear => tx.clear
  | .del key => tx.del key
  | .getKeys => tx.getKeys
  | .size => tx.size

end KvTx

/-- An operation to be performed on an address, through a session. -/
structure Request where
  session : KvdnSession
  strAddr : JString
  op : Op
  deriving DecidableEq

/-- The transaction of a request, on a new transaction object. -/
def Request.transaction (c : Request) : Prog (AsyncResult Obj) := do
  let tx ← c.session.newTx c.strAddr
  tx.run c.op

theorem Request.transaction_eq {c : Request} (h : c.session.initalized = true) :
    c.transaction = .act (.newTx c.session c.strAddr) fun tx => tx.run c.op := by
  simp [transaction, KvdnSession.newTx, h]

/-! ## Hooks -/

namespace StoreMetaKVHook

variable (tx : KvTx)

/-- The address of the transaction enters the index, unless the cache says that it
    is there already. -/
def storeMeta : Prog (AsyncResult Obj) := do
  if ← perform (.cacheContains tx) then pure (succeededFuture .null)
  else
    let mtx ← tx.session.newTx METADATA_MAP
    match ← perform (.op mtx (.set tx.strAddr (jstr "1"))) with
    | succeededFuture _ =>
      perform (.cacheAdd tx)
      pure (succeededFuture .null)
    | failedFuture c => pure (failedFuture c)

/-- The address of the transaction leaves the index. -/
def remove : Prog (AsyncResult Obj) := do
  let mtx ← tx.session.newTx METADATA_MAP
  match ← perform (.op mtx (.del tx.strAddr)) with
  | succeededFuture _ =>
    perform (.cacheRemove tx)
    pure (succeededFuture .null)
  | failedFuture c => pure (failedFuture c)

/-- The address of the transaction leaves the index if its map has become empty,
    unless the cache says that it was not there. -/
def checkIfEmpty : Prog (AsyncResult Obj) := do
  if ← perform (.cacheContains tx) then
    let ktx ← tx.session.newTx tx.strAddr
    match ← perform (.op ktx .size) with
    | succeededFuture x =>
      if x = .int 0 then remove tx
      else pure (succeededFuture .null)
    | failedFuture c => pure (failedFuture c)
  else pure (succeededFuture .null)

def call : Prog (AsyncResult Obj) :=
  match tx.type with
  | some .KV_SET => storeMeta tx
  | some .KV_SUBMIT => storeMeta tx
  | some .KV_DEL => checkIfEmpty tx
  | _ => pure (succeededFuture .null)

end StoreMetaKVHook

/-- The commit hook of MapDB: it reports whether `db.commit` succeeded. -/
def MapdbPostTXHook.call : Prog (AsyncResult Obj) := perform .commit

/-! ## Semantics -/

/-- The programs of the hooks of the repository and of the operations. -/
def Act.body : (a : Act) → Option (Prog a.Res)
  | .hook .StoreMetaKVHook tx => some (StoreMetaKVHook.call tx)
  | .hook .MapdbPostTXHook _ => some MapdbPostTXHook.call
  | .op tx o => some (tx.run o)
  | _ => none

/-- The semantics of the code. -/
def sem : Sem Act.Res Exn World where
  ok := World.ok
  eff := World.eff
  body := Act.body

end Kvdn
