import Kvdn.Session

/-!
# The constructor of the sessions

Which data implementation, which key provider and which hooks a session gets
(`KvdnSession.construct`), from the configuration of its node (`Config`) and the classes on
its class path (`ClassPath`). A data implementation or a hook that cannot be loaded is fatal;
a key provider is not, and its place is taken by `LocalKeyProvider`.

The key provider and the data implementation are configured independently of each other.
`source_iff`: the provider looks for the keys in the maps that the data implementation hands
out if, and only if, the configuration says so (`ClassPath.Agreeing`).
-/

namespace Kvdn

/-! ## Classes -/

/-- A class that a session may be told to load. -/
inductive JClass
  | DefaultDataImpl
  | MapdbDataImpl
  | IgniteDataImpl
  | LocalKeyProvider
  | MapdbKeyProvider
  | IgKeyProvider
  | HzKeyProvider
  | StoreMetaKVHook
  | MapdbPostTXHook
  | MapdbShutdownHook
  /-- A data implementation outside the repository, and the hooks it brings along. -/
  | data (n : ℕ) (preHooks postHooks : List TXNHook)
  /-- A key provider outside the repository. -/
  | provider (n : ℕ) (keeps : Bool)
  /-- A hook outside the repository. -/
  | hook (n : ℕ) (type : Option HookType)
  deriving DecidableEq

namespace JClass

/-- An instance made for a node and a session, as a data implementation. -/
def newData (isClustered : Bool) : JClass → Option KVData
  | DefaultDataImpl => some (.DefaultDataImpl isClustered)
  | MapdbDataImpl => some .MapdbDataImpl
  -- the constructor of `IgniteExtension` that it calls implicitly throws
  | IgniteDataImpl => none
  | data n _ _ => some (.other n)
  | _ => none

/-- The hooks that a data implementation brings along. -/
def getPreHooks : JClass → List TXNHook
  | data _ preHooks _ => preHooks
  | _ => []

def getPostHooks : JClass → List TXNHook
  | MapdbDataImpl => [.MapdbPostTXHook]
  | data _ _ postHooks => postHooks
  | _ => []

/-- An instance made for a node and a data implementation, as a key provider. -/
def newKeyProvider (D : KVData) : JClass → Option KeyProvider
  | LocalKeyProvider => some .LocalKeyProvider
  | MapdbKeyProvider => some (.MapdbKeyProvider D)
  -- the constructors of `IgniteExtension` and `HzExtension` that they call implicitly throw
  | IgKeyProvider | HzKeyProvider => none
  | provider n keeps => some (.other n keeps)
  | _ => none

/-- An instance made for a node and a session, as a hook. The hooks of the repository have no
    such constructor. (That a class is no hook at all the code finds out when it calls it.) -/
def newHook : JClass → Option TXNHook
  | hook n type => some (.other n type)
  | _ => none

end JClass

/-- The extensions of the repository that bring classes along. -/
inductive Extension
  | mapdb
  | ignite
  | hazelcast
  deriving DecidableEq

/-- The class path of a node. -/
structure ClassPath where
  extensions : Finset Extension := ∅
  /-- The classes from outside the repository. -/
  others : JString → Option JClass := fun _ => none

/-- The name of the data implementation if none is configured. -/
def DEFAULT_DATA : JString := jstr "net.iowntheinter.kvdn.storage.kv.data.DefaultDataImpl"

/-- The name of the key provider if none is configured. -/
def DEFAULT_PROVIDER : JString := jstr "net.iowntheinter.kvdn.storage.kv.key.impl.LocalKeyProvider"

/-- The classes of the repository, with the extensions they are part of. -/
def shipped : List (JString × Option Extension × JClass) :=
  [(DEFAULT_DATA, none, .DefaultDataImpl),
    (DEFAULT_PROVIDER, none, .LocalKeyProvider),
    (jstr "net.iowntheinter.kvdn.storage.meta.impl.StoreMetaKVHook", none, .StoreMetaKVHook),
    (jstr "net.iowntheinter.kvdn.mapdb.impl.MapdbDataImpl", some .mapdb, .MapdbDataImpl),
    (jstr "net.iowntheinter.kvdn.mapdb.impl.MapdbKeyProvider", some .mapdb, .MapdbKeyProvider),
    (jstr "net.iowntheinter.kvdn.mapdb.impl.MapdbPostTXHook", some .mapdb, .MapdbPostTXHook),
    (jstr "net.iowntheinter.kvdn.mapdb.impl.MapdbShutdownHook", some .mapdb, .MapdbShutdownHook),
    (jstr "net.iowntheinter.kvdn.ignite.impl.IgniteDataImpl", some .ignite, .IgniteDataImpl),
    (jstr "net.iowntheinter.kvdn.ignite.key.IgKeyProvider", some .ignite, .IgKeyProvider),
    (jstr "net.iowntheinter.kvdn.hazelcast.key.HzKeyProvider", some .hazelcast, .HzKeyProvider)]

/-- `classLoader.loadClass`, `none` if there is no such class. -/
def ClassPath.loadClass (cp : ClassPath) (name : JString) : Option JClass :=
  match shipped.find? fun entry => entry.1 = name with
  | some (_, none, c) => some c
  | some (_, some extension, c) => if extension ∈ cp.extensions then some c else none
  | none => cp.others name

/-! ## Configuration -/

/-- The value of a field of the configuration. -/
inductive Field
  | null
  | string (s : JString)
  /-- Anything but a string. -/
  | other
  deriving DecidableEq

/-- `getString`, which throws on anything but a string. -/
def Field.getString : Field → Option (Option JString)
  | null => some none
  | string s => some (some s)
  | other => none

/-- `?:`, of a string: the empty one counts as missing. -/
def elvis (name : Option JString) (default : JString) : JString :=
  match name with
  | some (u :: us) => u :: us
  | _ => default

/-- The object `kvdn` of the configuration of a node. -/
structure Config where
  data_implementation : Field := .null
  key_provider : Field := .null
  preHooks : List JString := []
  postHooks : List JString := []

namespace ClassPath

variable (cp : ClassPath) (config : Config)

/-- The class of the data implementation. -/
def dataClass : Option JClass := do
  let configured_data ← config.data_implementation.getString
  cp.loadClass (elvis configured_data DEFAULT_DATA)

/-- The class of the key provider, `none` if it cannot be loaded. -/
def providerClass : Option JClass := do
  let configured_provider ← config.key_provider.getString
  cp.loadClass (elvis configured_provider DEFAULT_PROVIDER)

def txHookLoader (name : JString) : Option TXNHook := (cp.loadClass name).bind JClass.newHook

end ClassPath

/-! ## Sessions -/

namespace KvdnSession

/-- The constructor, `none` if it throws. What the loading of the key provider throws is caught. -/
def construct (cp : ClassPath) (isClustered : Bool) (config : Config) (sessionid : ℕ)
    (isTraceEnabled : Bool) : Option KvdnSession := do
  let dataClass ← cp.dataClass config
  let D ← dataClass.newData isClustered
  let configuredPreHooks ← config.preHooks.mapM cp.txHookLoader
  let configuredPostHooks ← config.postHooks.mapM cp.txHookLoader
  let keyprov := (cp.providerClass config).bind (JClass.newKeyProvider D)
  pure {
    sessionid
    D
    keyprov := keyprov.getD .LocalKeyProvider
    preHooks := dataClass.getPreHooks ++ configuredPreHooks
    postHooks := dataClass.getPostHooks ++ [.StoreMetaKVHook] ++ configuredPostHooks
    initalized := false
    isTraceEnabled }

/-- `init`, given the number of the admin operations which are under way. -/
def init (s : KvdnSession) (operations : AsyncResult ℕ) : Option KvdnSession :=
  if operations = .succeededFuture 0 then some { s with initalized := true } else none

end KvdnSession

/-- The data implementation is one of the repository. -/
def KVData.Shipped (D : KVData) : Prop := ∀ n, D ≠ .other n

/-- The maps in which a key provider looks for the keys, if it looks into maps. -/
def KeyProvider.source : KeyProvider → Option Space
  | LocalKeyProvider => some .localMap
  | MapdbKeyProvider DataImpl => DataImpl.getdb
  | _ => none

/-- A key provider outside the repository. -/
def JClass.isProvider : JClass → Bool
  | provider _ _ => true
  | _ => false

/-- The key provider goes with the data implementation: that of MapDB with its database, and
    all the others of the repository, which are or are replaced by `LocalKeyProvider`, with the
    local maps. Of a provider outside the repository nothing is known. -/
def ClassPath.Agreeing (cp : ClassPath) (isClustered : Bool) (config : Config) : Prop :=
  if cp.providerClass config = some .MapdbKeyProvider then
    cp.dataClass config = some .MapdbDataImpl
  else
    (cp.providerClass config).any JClass.isProvider = false ∧
      cp.dataClass config = some .DefaultDataImpl ∧ isClustered = false

instance (cp : ClassPath) (isClustered : Bool) (config : Config) :
    Decidable (cp.Agreeing isClustered config) :=
  inferInstanceAs (Decidable (ite ..))

section

variable {cp : ClassPath} {isClustered isTraceEnabled : Bool} {config : Config} {sessionid : ℕ}
  {s₀ s : KvdnSession} {operations : AsyncResult ℕ}

/-- What a session is made of. -/
theorem KvdnSession.exists_of_construct
    (h : construct cp isClustered config sessionid isTraceEnabled = some s₀) :
    ∃ c, cp.dataClass config = some c ∧ c.newData isClustered = some s₀.D ∧
      s₀.keyprov = ((cp.providerClass config).bind (JClass.newKeyProvider s₀.D)).getD
        .LocalKeyProvider ∧
      ∃ preHooks postHooks, config.preHooks.mapM cp.txHookLoader = some preHooks ∧
        config.postHooks.mapM cp.txHookLoader = some postHooks ∧
        s₀.preHooks = c.getPreHooks ++ preHooks ∧
        s₀.postHooks = c.getPostHooks ++ [.StoreMetaKVHook] ++ postHooks := by
  simp only [construct, Option.bind_eq_bind, Option.bind_eq_some_iff] at h
  obtain ⟨c, hc, D, hD, preHooks, hpre, postHooks, hpost, hs⟩ := h
  obtain rfl := Option.some.inj hs
  exact ⟨c, hc, hD, rfl, preHooks, postHooks, hpre, hpost, rfl, rfl⟩

theorem KvdnSession.eq_of_init (h : s₀.init operations = some s) :
    s = { s₀ with initalized := true } := by
  rw [init] at h
  split_ifs at h
  exact (Option.some.inj h).symm

/-- The class of a data implementation of the repository. -/
theorem class_of_newData {c : JClass} {D : KVData} (h : c.newData isClustered = some D)
    (hD : D.Shipped) : (c = .DefaultDataImpl ∧ D = .DefaultDataImpl isClustered) ∨
      (c = .MapdbDataImpl ∧ D = .MapdbDataImpl) := by
  cases c with
  | DefaultDataImpl => exact .inl ⟨rfl, (Option.some.inj h).symm⟩
  | MapdbDataImpl => exact .inr ⟨rfl, (Option.some.inj h).symm⟩
  | data n => exact absurd (Option.some.inj h).symm (hD n)
  | _ => cases h

/-- The metadata hook cannot be configured. -/
theorem storeMetaKVHook_notMem_mapM {names : List JString} {hooks : List TXNHook}
    (h : names.mapM cp.txHookLoader = some hooks) : .StoreMetaKVHook ∉ hooks := by
  induction names generalizing hooks with
  | nil =>
    obtain rfl : [] = hooks := by simpa using h
    exact List.not_mem_nil
  | cons name names ih =>
    simp only [List.mapM_cons, Option.bind_eq_bind, Option.bind_eq_some_iff] at h
    obtain ⟨nxt, hnxt, hooks', hhooks', heq⟩ := h
    obtain rfl := Option.some.inj heq
    rw [List.mem_cons, not_or]
    refine ⟨?_, ih hhooks'⟩
    rintro rfl
    rw [ClassPath.txHookLoader, Option.bind_eq_some_iff] at hnxt
    obtain ⟨c, -, hc⟩ := hnxt
    cases c <;> cases hc

/-- A session over a data implementation of the repository is ready once it is initialized. -/
theorem KvdnSession.ready_of_construct
    (h : construct cp isClustered config sessionid isTraceEnabled = some s₀)
    (hinit : s₀.init operations = some s) (hD : s.D.Shipped) : s.Ready := by
  obtain rfl := eq_of_init hinit
  obtain ⟨c, -, hnew, -, preHooks, postHooks, hpre, hpost, hpreHooks, hpostHooks⟩ :=
    exists_of_construct h
  have hpre' := storeMetaKVHook_notMem_mapM hpre
  have hpost' := List.count_eq_zero.2 (storeMetaKVHook_notMem_mapM hpost)
  refine ⟨rfl, ?_, ?_⟩
  · show TXNHook.StoreMetaKVHook ∉ s₀.preHooks
    rcases class_of_newData hnew hD with ⟨rfl, -⟩ | ⟨rfl, -⟩ <;>
      simpa [hpreHooks, JClass.getPreHooks] using hpre'
  · show s₀.postHooks.count .StoreMetaKVHook = 1
    rcases class_of_newData hnew hD with ⟨rfl, -⟩ | ⟨rfl, -⟩ <;>
      simp [hpostHooks, JClass.getPostHooks, hpost']

/-- The key provider looks for the keys where the data are if, and only if, it is configured to
    do so. -/
theorem source_iff (h : KvdnSession.construct cp isClustered config sessionid isTraceEnabled = some s₀)
    (hinit : s₀.init operations = some s) (hD : s.D.Shipped) :
    s.keyprov.source = some s.D.space ↔ cp.Agreeing isClustered config := by
  obtain rfl := KvdnSession.eq_of_init hinit
  obtain ⟨c, hc, hnew, hkeyprov, -⟩ := KvdnSession.exists_of_construct h
  show s₀.keyprov.source = some s₀.D.space ↔ _
  -- all that is or becomes a `LocalKeyProvider`
  have hlocal (hprovider : s₀.keyprov = .LocalKeyProvider) :
      s₀.keyprov.source = some s₀.D.space ↔
        cp.dataClass config = some .DefaultDataImpl ∧ isClustered = false := by
    rw [hprovider, hc]
    rcases class_of_newData hnew hD with ⟨rfl, hD⟩ | ⟨rfl, hD⟩ <;> rw [hD]
    · cases isClustered <;> simp [KeyProvider.source, KVData.space]
    · simp [KeyProvider.source, KVData.space]
  rw [ClassPath.Agreeing]
  cases hp : cp.providerClass config with
  | none =>
    rw [hp] at hkeyprov
    simpa using hlocal hkeyprov
  | some p =>
    rw [hp] at hkeyprov
    cases p with
    | MapdbKeyProvider =>
      have hprovider : s₀.keyprov = .MapdbKeyProvider s₀.D := hkeyprov
      rw [if_pos rfl, hprovider, hc]
      rcases class_of_newData hnew hD with ⟨rfl, hD⟩ | ⟨rfl, hD⟩ <;>
        simp [KeyProvider.source, KVData.getdb, KVData.space, hD]
    | provider n keeps =>
      have hprovider : s₀.keyprov = .other n keeps := hkeyprov
      simp [hprovider, KeyProvider.source, JClass.isProvider]
    | _ => simpa [JClass.isProvider] using hlocal hkeyprov

end

end Kvdn
