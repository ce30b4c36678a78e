import Kvdn.Callback.Semantics
import Kvdn.Session

/-!
# The world of the transactions

The actions transactions are made of (`Act`), and what they do (`World.ok`,
`World.eff`) to what transactions share (`World`): the maps, the key sets of a
provider that keeps its own, the flags, caches and outstanding transactions of
the sessions, the events published.

Every call of a map or of a key provider takes effect at one instant, or fails
and changes nothing: which of the two is up to the environment. So is what a hook
from outside the repository reports.
-/

namespace Kvdn

open Callback AsyncResult

/-! ## Actions -/

/-- The steps of the code that touch what transactions share. -/
inductive Act
  /-- `startTX`: reading `dirty`, and setting it. -/
  | dirty (txid : ℕ)
  /-- `checkFlags` -/
  | checkFlags (sessionid : ℕ) (txtype : TXMODE)
  /-- `KVData.getMap` -/
  | getMap (D : KVData) (sa : JString)
  /-- `AsyncMap.put` -/
  | put (m : AsyncMap) (key : JString) (value : Obj)
  /-- `AsyncMap.get` -/
  | get (m : AsyncMap) (key : JString)
  /-- `AsyncMap.remove` -/
  | remove (m : AsyncMap) (key : JString)
  /-- `AsyncMap.clear` -/
  | clear (m : AsyncMap)
  /-- `AsyncMap.size` -/
  | size (m : AsyncMap)
  /-- `KeyProvider.setKey` -/
  | setKey (p : KeyProvider) (map key : JString)
  /-- `KeyProvider.deleteKey` -/
  | deleteKey (p : KeyProvider) (map key : JString)
  /-- `KeyProvider.getKeys` -/
  | getKeys (p : KeyProvider) (map : JString)
  /-- `EventBus.publish` -/
  | publish (e : Event)
  /-- `outstandingTX.remove`, the first statement of `finishTx` -/
  | untrack (sessionid txid : ℕ)
  /-- `accessCache.put(strAddr, txid)`, for a session that tracks: it is taken to succeed, while a
      `LocalMap` refuses a UUID; but nothing sets `tracking` -/
  | accessPut (sa : JString) (txid : ℕ)
  /-- `accessCache.putIfAbsent(strAddr, true)` -/
  | accessPutIfAbsent (sa : JString)
  /-- `straddrCache.contains(tx.strAddr)` -/
  | cacheContains (tx : KvTx)
  /-- `straddrCache.add(tx.strAddr)` -/
  | cacheAdd (tx : KvTx)
  /-- `straddrCache.remove(tx.strAddr)`: the first occurrence, if any -/
  | cacheRemove (tx : KvTx)
  /-- `db.commit` -/
  | commit
  /-- `MessageDigest.getInstance("MD5").digest` -/
  | digest (bytes : List UInt8)
  /-- `new KvTx`, under a new UUID which is outstanding from then on. -/
  | newTx (s : KvdnSession) (sa : JString)
  /-- `cb.handle` -/
  | handle (txid : ℕ) (res : AsyncResult Obj)
  /-- `TXNHook.call` -/
  | hook (h : TXNHook) (tx : KvTx)
  /-- An operation of a transaction object. -/
  | op (tx : KvTx) (o : Op)

/-- The answers of the actions. -/
@[reducible] def Act.Res : Act → Type
  | dirty _ | checkFlags _ _ | cacheContains _ => Bool
  | getMap _ _ => AsyncResult AsyncMap
  | put _ _ _ | get _ _ | remove _ _ | clear _ | size _ => AsyncResult Obj
  | setKey _ _ _ | deleteKey _ _ _ | getKeys _ _ => AsyncResult Obj
  | commit | hook _ _ | op _ _ => AsyncResult Obj
  | publish _ | untrack _ _ | accessPut _ _ | accessPutIfAbsent _ => Unit
  | cacheAdd _ | cacheRemove _ | handle _ _ => Unit
  | digest _ => List UInt8
  | newTx _ _ => KvTx

/-- A program of the code. -/
abbrev Prog := Callback.Prog Act.Res Exn

/-- A single step. -/
abbrev perform (a : Act) : Prog a.Res := Callback.Prog.perform a

/-! ## States -/

/-- What transactions share. -/
structure World where
  maps : Space → JString → KMap := fun _ _ => ∅
  /-- The key sets of a provider that keeps its own. -/
  keySets : JString → Finset JString := fun _ => ∅
  txflags : ℕ → Finset Flag := fun _ => ∅
  /-- The cache of the metadata hook of each session: a list, as in the code. -/
  straddrCache : ℕ → List JString := fun _ => []
  outstandingTX : ℕ → Finset ℕ := fun _ => ∅
  /-- The transactions already invoked. -/
  dirty : Finset ℕ := ∅
  /-- The transactions created so far: the next UUID. -/
  uuids : ℕ := 0
  /-- The events published, oldest first. -/
  published : List Event := []
  /-- The digest algorithm of the platform. -/
  md5 : List UInt8 → List UInt8 := id

namespace World

/-- The contents of a map. -/
def map (w : World) (m : AsyncMap) : KMap := w.maps m.space m.name

/-- The world with the contents of the map `m` replaced. -/
def setMap (w : World) (m : AsyncMap) (c : KMap) : World :=
  { w with maps := Function.update w.maps m.space (Function.update (w.maps m.space) m.name c) }

/-- The map `m` of the world, changed by `f` if the call `r` succeeded. -/
def modify {α : Type} (w : World) (m : AsyncMap) (r : AsyncResult α) (f : KMap → KMap) : World :=
  if r.succeeded then w.setMap m (f (w.map m)) else w

/-- The key set of the map `map`, changed by `f` if the provider keeps one and the
    call `r` succeeded. -/
def modifyKeys {α : Type} (w : World) (p : KeyProvider) (map : JString) (r : AsyncResult α)
    (f : Finset JString → Finset JString) : World :=
  if p.keeps && r.succeeded then
    { w with keySets := Function.update w.keySets map (f (w.keySets map)) }
  else w

/-- The access cache: a local map of the node. -/
def accessCache : AsyncMap := ⟨.localMap, ACCESS_CACHE_LOC⟩

/-! ## Answers and effects -/

/-- `r` is a failure, or a success with the result `x`. -/
def answers {α : Type} (x : α) : AsyncResult α → Prop
  | .succeededFuture y => y = x
  | .failedFuture _ => True

/-- The answers an action may get. -/
def ok (w : World) : (a : Act) → a.Res → Prop
  | .dirty txid, (b : Bool) => b = decide (txid ∈ w.dirty)
  | .checkFlags sessionid txtype, (b : Bool) =>
    b = !decide (Sum.inr txtype ∈ w.txflags sessionid)
  | .getMap D sa, r => answers ⟨D.space, sa⟩ r
  | .get m key, r => answers (((w.map m).lookup key).getD .null) r
  | .size m, r => answers (.int (w.map m).keys.card) r
  | .setKey p _ _, r | .deleteKey p _ _, r =>
    match p with
    | .LocalKeyProvider | .MapdbKeyProvider _ => r = .succeededFuture .null
    | _ => True
  | .getKeys p map, r =>
    match p with
    | .LocalKeyProvider => r = .succeededFuture (.keys (w.maps .localMap map).keys)
    | .MapdbKeyProvider _ => r = .succeededFuture (.keys (w.maps .db map).keys)
    | p => if p.keeps then answers (.keys (w.keySets map)) r else True
  | .cacheContains tx, (b : Bool) => b = decide (tx.strAddr ∈ w.straddrCache tx.session.sessionid)
  | .digest bytes, r => r = w.md5 bytes
  | .newTx s sa, r => r = { txid := w.uuids, session := s, strAddr := sa }
  | _, _ => True

/-- The answer of an action that succeeds. -/
def succeed (w : World) : (a : Act) → a.Res
  | .dirty txid => decide (txid ∈ w.dirty)
  | .checkFlags sessionid txtype => !decide (Sum.inr txtype ∈ w.txflags sessionid)
  | .getMap D sa => succeededFuture ⟨D.space, sa⟩
  | .get m key => succeededFuture (((w.map m).lookup key).getD .null)
  | .size m => succeededFuture (.int (w.map m).keys.card)
  | .getKeys p map =>
    match p with
    | .LocalKeyProvider => succeededFuture (.keys (w.maps .localMap map).keys)
    | .MapdbKeyProvider _ => succeededFuture (.keys (w.maps .db map).keys)
    | _ => succeededFuture (.keys (w.keySets map))
  | .cacheContains tx => decide (tx.strAddr ∈ w.straddrCache tx.session.sessionid)
  | .digest bytes => w.md5 bytes
  | .newTx s sa => { txid := w.uuids, session := s, strAddr := sa }
  | .put _ _ _ | .remove _ _ | .clear _ | .setKey _ _ _ | .deleteKey _ _ _ => succeededFuture .null
  | .commit | .hook _ _ | .op _ _ => succeededFuture .null
  | .publish _ | .untrack _ _ | .accessPut _ _ | .accessPutIfAbsent _ => ()
  | .cacheAdd _ | .cacheRemove _ | .handle _ _ => ()

theorem ok_succeed (w : World) (a : Act) : w.ok a (w.succeed a) := by
  cases a with
  | setKey p map key | deleteKey p map key => cases p <;> first | rfl | trivial
  | getKeys p map =>
    cases p with
    | IgKeyProvider | other => simp only [ok, succeed, answers]; split <;> trivial
    | _ => rfl
  | dirty | checkFlags | getMap | get | size | cacheContains | digest | newTx => rfl
  | _ => trivial

/-- The effect of an action, given its answer. -/
def eff (w : World) : (a : Act) → a.Res → World
  | .dirty txid, _ => { w with dirty := insert txid w.dirty }
  | .put m key value, (r : AsyncResult Obj) => w.modify m r (·.insert key value)
  | .remove m key, (r : AsyncResult Obj) => w.modify m r (·.erase key)
  | .clear m, (r : AsyncResult Obj) => w.modify m r fun _ => ∅
  | .setKey p map key, (r : AsyncResult Obj) => w.modifyKeys p map r (insert key)
  | .deleteKey p map key, (r : AsyncResult Obj) => w.modifyKeys p map r (·.erase key)
  | .publish e, _ => { w with published := w.published ++ [e] }
  | .untrack sessionid txid, _ => { w with
      outstandingTX := Function.update w.outstandingTX sessionid
        ((w.outstandingTX sessionid).erase txid) }
  | .accessPut sa txid, _ =>
    w.setMap accessCache ((w.map accessCache).insert sa (.uuid txid))
  | .accessPutIfAbsent sa, _ =>
    if sa ∈ w.map accessCache then w
    else w.setMap accessCache ((w.map accessCache).insert sa (.bool true))
  | .cacheAdd tx, _ => { w with
      straddrCache := Function.update w.straddrCache tx.session.sessionid
        (w.straddrCache tx.session.sessionid ++ [tx.strAddr]) }
  | .cacheRemove tx, _ => { w with
      straddrCache := Function.update w.straddrCache tx.session.sessionid
        ((w.straddrCache tx.session.sessionid).erase tx.strAddr) }
  | .newTx s _, (tx : KvTx) => { w with
      uuids := w.uuids + 1
      outstandingTX := Function.update w.outstandingTX s.sessionid
        (insert tx.txid (w.outstandingTX s.sessionid)) }
  | _, _ => w

end World

/-- The map an action may change. -/
def Act.target : Act → Option AsyncMap
  | put m _ _ | remove m _ | clear m => some m
  | accessPut _ _ | accessPutIfAbsent _ => some World.accessCache
  | _ => none

namespace World

variable {w : World} {m m' : AsyncMap} {a : Act} {r : a.Res}

@[simp] theorem map_setMap_self (c : KMap) : (w.setMap m c).map m = c := by
  simp [map, setMap]

theorem map_setMap_of_ne (h : m ≠ m') (c : KMap) : (w.setMap m c).map m' = w.map m' := by
  obtain ⟨space, name⟩ := m
  obtain ⟨space', name'⟩ := m'
  by_cases hs : space' = space
  · subst hs
    have hn : name' ≠ name := fun hn => h (by rw [hn])
    simp [map, setMap, hn]
  · simp [map, setMap, hs]

theorem map_modify_self {α : Type} (r : AsyncResult α) (f : KMap → KMap) :
    (w.modify m r f).map m = if r.succeeded then f (w.map m) else w.map m := by
  unfold modify
  split <;> simp

theorem map_modify_of_ne {α : Type} (h : m ≠ m') (r : AsyncResult α) (f : KMap → KMap) :
    (w.modify m r f).map m' = w.map m' := by
  unfold modify
  split
  · exact map_setMap_of_ne h _
  · rfl

/-- An action changes no map but its own. -/
theorem map_eff_of_ne (h : a.target ≠ some m) : (w.eff a r).map m = w.map m := by
  cases a with
  | put | remove | clear => exact map_modify_of_ne (fun hm => h (congrArg some hm)) ..
  | accessPut => exact map_setMap_of_ne (fun hm => h (congrArg some hm)) _
  | accessPutIfAbsent =>
    simp only [eff]
    split
    · rfl
    · exact map_setMap_of_ne (fun hm => h (congrArg some hm)) _
  | setKey | deleteKey => simp only [eff, modifyKeys]; split <;> rfl
  | _ => rfl

/-- No action changes the flags. -/
theorem txflags_eff : (w.eff a r).txflags = w.txflags := by
  cases a with
  | put | remove | clear => simp only [eff, modify]; split <;> rfl
  | setKey | deleteKey => simp only [eff, modifyKeys]; split <;> rfl
  | accessPutIfAbsent => simp only [eff]; split <;> rfl
  | _ => rfl

theorem md5_eff : (w.eff a r).md5 = w.md5 := by
  cases a with
  | put | remove | clear => simp only [eff, modify]; split <;> rfl
  | setKey | deleteKey => simp only [eff, modifyKeys]; split <;> rfl
  | accessPutIfAbsent => simp only [eff]; split <;> rfl
  | _ => rfl

/-- Only `publish` publishes. -/
theorem published_eff (h : ∀ e, a ≠ .publish e) : (w.eff a r).published = w.published := by
  cases a with
  | publish e => exact absurd rfl (h e)
  | put | remove | clear => simp only [eff, modify]; split <;> rfl
  | setKey | deleteKey => simp only [eff, modifyKeys]; split <;> rfl
  | accessPutIfAbsent => simp only [eff]; split <;> rfl
  | _ => rfl

theorem uuids_le_eff : w.uuids ≤ (w.eff a r).uuids := by
  cases a with
  | put | remove | clear => simp only [eff, modify]; split <;> exact le_rfl
  | setKey | deleteKey => simp only [eff, modifyKeys]; split <;> exact le_rfl
  | accessPutIfAbsent => simp only [eff]; split <;> exact le_rfl
  | newTx => exact Nat.le_succ _
  | _ => exact le_rfl

/-- Only `startTX` makes a transaction dirty. -/
theorem dirty_eff (h : ∀ txid, a ≠ .dirty txid) : (w.eff a r).dirty = w.dirty := by
  cases a with
  | dirty txid => exact absurd rfl (h txid)
  | put | remove | clear => simp only [eff, modify]; split <;> rfl
  | setKey | deleteKey => simp only [eff, modifyKeys]; split <;> rfl
  | accessPutIfAbsent => simp only [eff]; split <;> rfl
  | _ => rfl

/-- Only the metadata hook changes its cache. -/
theorem straddrCache_eff (hadd : ∀ tx, a ≠ .cacheAdd tx) (hremove : ∀ tx, a ≠ .cacheRemove tx) :
    (w.eff a r).straddrCache = w.straddrCache := by
  cases a with
  | cacheAdd tx => exact absurd rfl (hadd tx)
  | cacheRemove tx => exact absurd rfl (hremove tx)
  | put | remove | clear => simp only [eff, modify]; split <;> rfl
  | setKey | deleteKey => simp only [eff, modifyKeys]; split <;> rfl
  | accessPutIfAbsent => simp only [eff]; split <;> rfl
  | _ => rfl

end World

end Kvdn
