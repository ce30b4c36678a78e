import Kvdn.Value

/-!
# Sessions and transactions

The objects of the code: a session, with its data implementation, its key
provider and its hooks, as its constructor leaves them; the transactions it
hands out, and the operations they offer. What changes while transactions run
(the maps, the flags, the caches of the hooks) is not here but in the `World`.
-/

namespace Kvdn

/-- The name of the map of the metadata index. -/
def METADATA_MAP : JString := jstr "__METADATA_MAP"

/-- The name of the local map of the addresses accessed. -/
def ACCESS_CACHE_LOC : JString := jstr "__KVDN_ACCESS_CACHE"

theorem metadata_map_ne_access_cache : METADATA_MAP ≠ ACCESS_CACHE_LOC := by decide

/-- An address of the clients: none of the maps the session keeps for itself. -/
def UserAddr (sa : JString) : Prop := sa ≠ METADATA_MAP ∧ sa ≠ ACCESS_CACHE_LOC

instance (sa : JString) : Decidable (UserAddr sa) := inferInstanceAs (Decidable (_ ∧ _))

/-! ## Enumerations -/

inductive TXMODE
  | MODE_WRITE
  | MODE_READ
  | MODE_COMPLEX
  | MODE_ADMIN
  deriving DecidableEq

inductive TXTYPE
  | KV_SUBMIT
  | KV_GET
  | KV_SET
  | KV_KEYS
  | KV_SIZE
  | KV_DEL
  | KV_CLEAR
  deriving DecidableEq

inductive TXFLAGS
  | READ_ONLY
  deriving DecidableEq

inductive HookType
  | HOOK
  | META_HOOK
  | PLUGIN_HOOK
  deriving DecidableEq

/-- An element of `txflags`, which is a raw set: it may hold the constants of
    either enumeration. -/
abbrev Flag := TXFLAGS ⊕ TXMODE

/-! ## Components -/

/-- A data implementation (`KVData`). -/
inductive KVData
  | DefaultDataImpl (isClustered : Bool)
  | MapdbDataImpl
  | other (n : ℕ)
  deriving DecidableEq

namespace KVData

/-- Where `getMap` finds its maps. -/
def space : KVData → Space
  | DefaultDataImpl false => .localMap
  | DefaultDataImpl true => .clusterWideMap
  | MapdbDataImpl => .db
  | other n => .other n

/-- The database of the implementation, or `null`. -/
def getdb : KVData → Option Space
  | MapdbDataImpl => some .db
  | _ => none

end KVData

/-- A key provider. -/
inductive KeyProvider
  | LocalKeyProvider
  | MapdbKeyProvider (DataImpl : KVData)
  | IgKeyProvider (version : ℕ)
  /-- A provider outside the repository, which either keeps its own key sets from
      the notifications or ignores them. -/
  | other (n : ℕ) (keeps : Bool)
  deriving DecidableEq

/-- The provider keeps its own key sets, from the notifications it gets. -/
def KeyProvider.keeps : KeyProvider → Bool
  | LocalKeyProvider => false
  | MapdbKeyProvider _ => false
  | IgKeyProvider version => version < 8
  | other _ keeps => keeps

/-- A transaction hook. -/
inductive TXNHook
  | StoreMetaKVHook
  | MapdbPostTXHook
  /-- A hook outside the repository; its type may be `null`. -/
  | other (n : ℕ) (type : Option HookType)
  deriving DecidableEq

def TXNHook.getType : TXNHook → Option HookType
  | StoreMetaKVHook => some .META_HOOK
  | MapdbPostTXHook => some .PLUGIN_HOOK
  | other _ type => type

/-! ## Sessions -/

/-- A session. -/
structure KvdnSession where
  sessionid : ℕ
  D : KVData
  keyprov : KeyProvider
  preHooks : List TXNHook := []
  postHooks : List TXNHook := [.StoreMetaKVHook]
  tracking : Bool := false
  initalized : Bool := true
  /-- `logger.isTraceEnabled()` -/
  isTraceEnabled : Bool := false
  deriving DecidableEq

/-- A session in use, with the hooks its constructor gives it: the metadata hook is
    called once, after every transaction (the hooks that can be configured are loaded
    by a constructor that the metadata hook does not have). -/
structure KvdnSession.Ready (s : KvdnSession) : Prop where
  initalized : s.initalized = true
  preHooks : .StoreMetaKVHook ∉ s.preHooks
  postHooks : s.postHooks.count .StoreMetaKVHook = 1

namespace KvdnSession

/-- A session of a node that is not clustered, without any configuration. -/
def inMemory (sessionid : ℕ) : KvdnSession where
  sessionid := sessionid
  D := .DefaultDataImpl false
  keyprov := .LocalKeyProvider

/-- A session over a MapDB database, with the key provider made for it. -/
def mapdb (sessionid : ℕ) : KvdnSession where
  sessionid := sessionid
  D := .MapdbDataImpl
  keyprov := .MapdbKeyProvider .MapdbDataImpl
  postHooks := [.MapdbPostTXHook, .StoreMetaKVHook]

end KvdnSession

/-! ## Transactions -/

/-- A transaction object; its type is `null` until it is started. -/
structure KvTx where
  txid : ℕ
  session : KvdnSession
  strAddr : JString
  type : Option TXTYPE := none
  deriving DecidableEq

/-- The operations of a transaction object. -/
inductive Op
  | submit (content : JString)
  | set (key content : JString)
  | get (key : JString)
  | clear
  | del (key : JString)
  | getKeys
  | size
  deriving DecidableEq

/-- The type an operation starts its transaction with (a `clear` starts it as a
    deletion). -/
def Op.type : Op → TXTYPE
  | submit _ => .KV_SUBMIT
  | set _ _ => .KV_SET
  | get _ => .KV_GET
  | clear => .KV_DEL
  | del _ => .KV_DEL
  | getKeys => .KV_KEYS
  | size => .KV_SIZE

/-- The operations that change their map. -/
def Op.mutates : Op → Bool
  | submit _ | set _ _ | clear | del _ => true
  | get _ | getKeys | size => false

/-- An event published on the bus: its address and its body, a JSON object with a
    key or an empty one. -/
structure Event where
  address : JString
  key : Option JString
  deriving DecidableEq

end Kvdn
