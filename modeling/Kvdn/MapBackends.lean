import Kvdn.Callback.Semantics
import Kvdn.Value

/-!
# Map backends

The adapters that make `AsyncMap`s of what a store has: `shimAsyncMap` for the
`LocalMap`s of the node, `ShimAsyncMapDB` for the maps of a MapDB database, and
`ShimAsyncIgniteMap` for the caches of Ignite.

A call of a store returns, or throws an exception. An operation of Ignite is started,
and completes its future later, with a value or a failure. `answers_once_iff` tells
when an operation of an adapter calls its handler exactly once, with what has come
of the call.
-/

namespace Kvdn

open Callback Callback.Prog AsyncResult

/-! ## Stores -/

/-- A call of a store. The arguments may be `null`. -/
inductive StoreCall (K V : Type)
  | get (o : Option K)
  | put (o : Option K) (o2 : Option V)
  | remove (o : Option K)
  | clear
  | size
  | keySet
  | values

/-- The contents of a store, which holds no `null`. -/
abbrev Contents (K V : Type) := Finmap fun _ : K => V

namespace StoreCall

variable {K V : Type}

/-- What a call returns. -/
@[reducible] def Res : StoreCall K V → Type
  | get _ | put _ _ | remove _ => Option V
  | clear => Unit
  | size => ℕ
  | keySet => Finset K
  | values => Multiset V

/-- Stores refuse `null`. -/
def accepts : StoreCall K V → Bool
  | get o | remove o => o.isSome
  | put o o2 => o.isSome && o2.isSome
  | _ => true

variable [DecidableEq K]

/-- What a call returns, from the contents: `put` and `remove` the value there was. -/
def result (m : Contents K V) : (c : StoreCall K V) → c.Res
  | get o | put o _ | remove o => o.bind m.lookup
  | clear => ()
  | size => m.keys.card
  | keySet => m.keys
  | values => m.entries.map Sigma.snd

/-- What a call makes of the contents. -/
def apply (m : Contents K V) : StoreCall K V → Contents K V
  | put (some k) (some v) => m.insert k v
  | remove (some k) => m.erase k
  | clear => ∅
  | _ => m

end StoreCall

/-- The exceptions are what a `catch` without a type catches. -/
def Throwable.isException : Throwable → Bool
  | exception _ => true
  | error _ => false

namespace MapBackend

/-- The results given to the handlers. -/
inductive Result (K V : Type)
  | null
  | value (v : V)
  | bool (b : Bool)
  | int (n : ℕ)
  | set (ks : Finset K)
  | collection (vs : Multiset V)

/-- A value, or `null`. -/
def Result.ofOption {K V : Type} : Option V → Result K V
  | some v => value v
  | none => null

/-- The steps of the adapters. -/
inductive Act (K V : Type)
  /-- A call of the store, which returns or throws. -/
  | call (c : StoreCall K V)
  /-- The start of an asynchronous call. -/
  | start (c : StoreCall K V)
  /-- The future of an asynchronous call is done, and is asked for its value. -/
  | done (c : StoreCall K V)
  /-- `handler.handle` -/
  | handle (res : AsyncResult (Result K V))

variable {K V α : Type}

/-- The answers of the steps: a value, or what is thrown. -/
@[reducible] def Act.Res : Act K V → Type
  | call c | done c => Except Throwable c.Res
  | start _ => Except Throwable Unit
  | handle _ => Unit

/-- A program of the adapters. -/
abbrev Prog (K V α : Type) := Callback.Prog (Act.Res (K := K) (V := V)) Throwable α

/-- A single step. -/
abbrev perform (a : Act K V) : Prog K V a.Res := Callback.Prog.perform a

/-- A step that may throw. -/
def ofExcept : Except Throwable α → Prog K V α
  | .ok x => .ret x
  | .error e => .throw e

/-- A call of the store. -/
def call (c : StoreCall K V) : Prog K V c.Res := do ofExcept (← perform (.call c))

/-- A call of the store, in a `try` block. -/
def tryCall (c : StoreCall K V) : Prog K V (Except Throwable c.Res) :=
  (call c).attempt Throwable.isException

/-- The handler is called. -/
def handle (res : AsyncResult (Result K V)) : Prog K V Unit := perform (.handle res)

/-! ## Local maps -/

namespace shimAsyncMap

/-- A call of the store; the handler is given its result, or what it throws. -/
def returning (c : StoreCall K V) (f : c.Res → Result K V) : Prog K V Unit := do
  match ← tryCall c with
  | .error e => handle (failedFuture e)
  | .ok result => handle (succeededFuture (f result))

/-- The same, where the `catch` block does not return: what comes after it is done in
    any case, with a result that is still `null`. -/
def falling (c : StoreCall K V) (f : c.Res → Result K V) : Prog K V Unit := do
  let result ← match ← tryCall c with
    | .error e => do
      handle (failedFuture e)
      pure .null
    | .ok result => pure (f result)
  handle (succeededFuture result)

def get (o : Option K) : Prog K V Unit := returning (.get o) .ofOption

/-- The time to live, if there is one, is not looked at. -/
def put (o : Option K) (o2 : Option V) (_ttl : Option ℤ) : Prog K V Unit :=
  returning (.put o o2) fun _ => .null

def remove (o : Option K) : Prog K V Unit := falling (.remove o) fun _ => .null

def clear : Prog K V Unit := returning .clear fun _ => .null

def size : Prog K V Unit := returning .size .int

def keys : Prog K V Unit := falling .keySet .set

def values : Prog K V Unit := falling .values .collection

end shimAsyncMap

/-! ## Maps of a database -/

/-- `Vertx.executeBlocking`, of Vert.x: the block is given a future to complete, here as
    its value, and the handler the result of that future. -/
structure Vertx (K V : Type) where
  executeBlocking : Prog K V (AsyncResult (Result K V)) →
    (AsyncResult (Result K V) → Prog K V Unit) → Prog K V Unit

/-- As documented: when the block has completed the future, or thrown something, which
    fails the future, the handler is called with its result. -/
def Vertx.Documented (vertx : Vertx K V) : Prop :=
  ∀ block handler, vertx.executeBlocking block handler = do
    match ← block.attempt fun _ => true with
    | .error e => handler (failedFuture e)
    | .ok res => handler res

/-- A Vert.x that does just this. -/
def Vertx.plain : Vertx K V where
  executeBlocking block handler := do
    match ← block.attempt fun _ => true with
    | .error e => handler (failedFuture e)
    | .ok res => handler res

theorem Vertx.documented_plain : (Vertx.plain : Vertx K V).Documented := fun _ _ => rfl

namespace ShimAsyncMapDB

/-- A call of the store, which completes the future or fails it. -/
def resolving (c : StoreCall K V) (f : c.Res → Result K V) :
    Prog K V (AsyncResult (Result K V)) := do
  match ← tryCall c with
  | .error e => pure (failedFuture e)
  | .ok result => pure (succeededFuture (f result))

variable (vertx : Vertx K V)

def get (o : Option K) : Prog K V Unit :=
  vertx.executeBlocking (resolving (.get o) .ofOption) handle

/-- The time to live, if there is one, is not looked at. -/
def put (o : Option K) (o2 : Option V) (_ttl : Option ℤ) : Prog K V Unit :=
  vertx.executeBlocking (resolving (.put o o2) fun _ => .null) handle

def remove (o : Option K) : Prog K V Unit :=
  vertx.executeBlocking (resolving (.remove o) fun _ => .null) handle

def clear : Prog K V Unit := vertx.executeBlocking (resolving .clear fun _ => .null) handle

def size : Prog K V Unit := vertx.executeBlocking (resolving .size .int) handle

def keys : Prog K V Unit := vertx.executeBlocking (resolving .keySet .set) handle

def values : Prog K V Unit := vertx.executeBlocking (resolving .values .collection) handle

end ShimAsyncMapDB

/-! ## Caches of Ignite -/

/-- The listener of a future: `f.get()` throws the failure of the future, and then
    nobody tells the handler. -/
def IgVxAsyncCoupler.couple (c : StoreCall K V) (f : c.Res → Result K V) : Prog K V Unit := do
  let x ← ofExcept (← perform (.done c))
  handle (succeededFuture (f x))

namespace ShimAsyncIgniteMap

/-- A call of the cache, and its future coupled to the handler. -/
def coupled (c : StoreCall K V) (f : c.Res → Result K V) : Prog K V Unit := do
  ofExcept (← perform (.start c))
  IgVxAsyncCoupler.couple c f

def get (o : Option K) : Prog K V Unit := coupled (.get o) .ofOption

/-- The time to live, if there is one, is not looked at. -/
def put (o : Option K) (o2 : Option V) (_ttl : Option ℤ) : Prog K V Unit :=
  coupled (.put o o2) fun _ => .null

/-- The cache tells whether there was an entry. -/
def remove (o : Option K) : Prog K V Unit := coupled (.remove o) fun x => .bool x.isSome

def clear : Prog K V Unit := coupled .clear fun _ => .null

def size : Prog K V Unit := coupled .size .int

/-- Nothing is done. -/
def keys : Prog K V Unit := pure ()

/-- Nothing is done. -/
def values : Prog K V Unit := pure ()

end ShimAsyncIgniteMap

/-! ## Operations -/

/-- The operations of an `AsyncMap` that a transaction uses, with `keys` and `values`. -/
inductive Op (K V : Type)
  | get (o : Option K)
  | put (o : Option K) (o2 : Option V) (ttl : Option ℤ)
  | remove (o : Option K)
  | clear
  | size
  | keys
  | values

/-- The adapters. -/
inductive Adapter
  | shimAsyncMap
  | ShimAsyncMapDB
  | ShimAsyncIgniteMap
  deriving DecidableEq

/-- The program of an operation. -/
def run (vertx : Vertx K V) : Adapter → Op K V → Prog K V Unit
  | .shimAsyncMap, .get o => shimAsyncMap.get o
  | .shimAsyncMap, .put o o2 ttl => shimAsyncMap.put o o2 ttl
  | .shimAsyncMap, .remove o => shimAsyncMap.remove o
  | .shimAsyncMap, .clear => shimAsyncMap.clear
  | .shimAsyncMap, .size => shimAsyncMap.size
  | .shimAsyncMap, .keys => shimAsyncMap.keys
  | .shimAsyncMap, .values => shimAsyncMap.values
  | .ShimAsyncMapDB, .get o => ShimAsyncMapDB.get vertx o
  | .ShimAsyncMapDB, .put o o2 ttl => ShimAsyncMapDB.put vertx o o2 ttl
  | .ShimAsyncMapDB, .remove o => ShimAsyncMapDB.remove vertx o
  | .ShimAsyncMapDB, .clear => ShimAsyncMapDB.clear vertx
  | .ShimAsyncMapDB, .size => ShimAsyncMapDB.size vertx
  | .ShimAsyncMapDB, .keys => ShimAsyncMapDB.keys vertx
  | .ShimAsyncMapDB, .values => ShimAsyncMapDB.values vertx
  | .ShimAsyncIgniteMap, .get o => ShimAsyncIgniteMap.get o
  | .ShimAsyncIgniteMap, .put o o2 ttl => ShimAsyncIgniteMap.put o o2 ttl
  | .ShimAsyncIgniteMap, .remove o => ShimAsyncIgniteMap.remove o
  | .ShimAsyncIgniteMap, .clear => ShimAsyncIgniteMap.clear
  | .ShimAsyncIgniteMap, .size => ShimAsyncIgniteMap.size
  | .ShimAsyncIgniteMap, .keys => ShimAsyncIgniteMap.keys
  | .ShimAsyncIgniteMap, .values => ShimAsyncIgniteMap.values

/-! ## Runs -/

/-- What a call may answer: what it returns, if it accepts its arguments, or an exception. -/
def answers [DecidableEq K] (m : Contents K V) (c : StoreCall K V) :
    Except Throwable c.Res → Prop
  | .ok x => c.accepts = true ∧ x = c.result m
  | .error e => e.isException = true

/-- The semantics of the steps: stores fail as they like, and then keep their contents. -/
def sem [DecidableEq K] : Sem (Act.Res (K := K) (V := V)) Throwable (Contents K V) where
  ok m
    | .call c, r | .done c, r => answers m c r
    | .start c, .ok _ => c.accepts = true
    | .start _, .error e => e.isException = true
    | .handle _, _ => True
  eff m
    | .call c, .ok _ | .done c, .ok _ => c.apply m
    | _, _ => m
  body _ := none

/-- The results given to the handler in a run. -/
def handled (tr : List (Label (Act.Res (K := K) (V := V)))) : List (AsyncResult (Result K V)) :=
  tr.filterMap fun
    | ⟨.handle res, _⟩ => some res
    | _ => none

/-- The step is a call of the store that has failed or thrown. -/
def fails : Label (Act.Res (K := K) (V := V)) → Bool
  | ⟨.call _, .error _⟩ | ⟨.start _, .error _⟩ | ⟨.done _, .error _⟩ => true
  | _ => false

/-- The handler has been called once, with a failure if a call has failed, and with a
    success otherwise. -/
def Once (tr : List (Label (Act.Res (K := K) (V := V)))) : Prop :=
  ∃ res, handled tr = [res] ∧ (res.succeeded = false ↔ ∃ l ∈ tr, fails l = true)

/-- The operations whose handler `shimAsyncMap` calls although it has called it with
    a failure. -/
def Op.falls : Op K V → Bool
  | remove _ | keys | values => true
  | _ => false

/-- The operations that `ShimAsyncIgniteMap` does not have. -/
def Op.isMissing : Op K V → Bool
  | keys | values => true
  | _ => false

/-- What an adapter needs of an operation and its calls to call the handler once. -/
def Needs (op : Op K V) (failed : Prop) : Adapter → Prop
  | .shimAsyncMap => op.falls = true → ¬ failed
  | .ShimAsyncMapDB => True
  | .ShimAsyncIgniteMap => op.isMissing = false ∧ ¬ failed

section

variable [DecidableEq K] {m m' : Contents K V} {c : StoreCall K V} {f : c.Res → Result K V}
  {tr : List (Label (Act.Res (K := K) (V := V)))} {p : Prog K V Unit}

/-- A call in a `try` block: an exception is caught. -/
theorem of_tryCall {k : Except Throwable c.Res → Prog K V α} {p : Prog K V α}
    (h : sem.Runs m (tryCall c >>= k) tr m' p) (hp : p.Finished) :
    ∃ r tr' m₁, tr = ⟨.call c, r⟩ :: tr' ∧ sem.Runs m₁ (k r) tr' m' p := by
  obtain ⟨r, tr', rfl, hok, h'⟩ := h.of_act rfl hp
  refine ⟨r, tr', sem.eff m (.call c) r, rfl, ?_⟩
  cases r with
  | ok x => exact h'
  | error e =>
    have hexception : e.isException = true := hok
    simpa [ofExcept, Prog.attempt, hexception] using h'

/-- The handler is called, and nothing else is done. -/
theorem of_handle {res : AsyncResult (Result K V)} (h : sem.Runs m (handle res) tr m' p)
    (hp : p.Finished) : tr = [⟨.handle res, ()⟩] := by
  obtain ⟨_, tr', rfl, -, h'⟩ := h.of_act rfl hp
  obtain ⟨rfl, -, -⟩ := h'.of_ret
  rfl

theorem once_returning (h : sem.Runs m (shimAsyncMap.returning c f) tr m' p) (hp : p.Finished) :
    Once tr := by
  obtain ⟨r, tr₁, m₁, rfl, h₁⟩ := of_tryCall h hp
  cases r with
  | ok x =>
    obtain rfl := of_handle h₁ hp
    exact ⟨succeededFuture (f x), rfl, by simp [fails]⟩
  | error e =>
    obtain rfl := of_handle h₁ hp
    exact ⟨failedFuture e, rfl, by simp [fails]⟩

/-- Without the `return`, a failure is followed by a success. -/
theorem once_falling_iff (h : sem.Runs m (shimAsyncMap.falling c f) tr m' p) (hp : p.Finished) :
    Once tr ↔ ¬∃ l ∈ tr, fails l = true := by
  obtain ⟨r, tr₁, m₁, rfl, h₁⟩ := of_tryCall h hp
  cases r with
  | ok x =>
    obtain rfl := of_handle h₁ hp
    exact iff_of_true ⟨succeededFuture (f x), rfl, by simp [fails]⟩ (by simp [fails])
  | error e =>
    obtain ⟨_, tr₂, rfl, -, h₂⟩ := h₁.of_act rfl hp
    obtain rfl := of_handle h₂ hp
    refine iff_of_false ?_ (by simp [fails])
    rintro ⟨res, hres, -⟩
    exact nomatch hres

theorem once_blocking {vertx : Vertx K V} (hvertx : vertx.Documented)
    (h : sem.Runs m (vertx.executeBlocking (ShimAsyncMapDB.resolving c f) handle) tr m' p)
    (hp : p.Finished) : Once tr := by
  rw [hvertx] at h
  obtain ⟨r, tr₁, rfl, hok, h₁⟩ := h.of_act rfl hp
  cases r with
  | ok x =>
    obtain rfl := of_handle h₁ hp
    exact ⟨succeededFuture (f x), rfl, by simp [fails]⟩
  | error e =>
    have hexception : e.isException = true := hok
    simp only [ofExcept, Prog.attempt, hexception, ret_bind, if_true] at h₁
    obtain rfl := of_handle h₁ hp
    exact ⟨failedFuture e, rfl, by simp [fails]⟩

theorem once_coupled_iff (h : sem.Runs m (ShimAsyncIgniteMap.coupled c f) tr m' p)
    (hp : p.Finished) : Once tr ↔ ¬∃ l ∈ tr, fails l = true := by
  obtain ⟨r, tr₁, rfl, -, h₁⟩ := h.of_act rfl hp
  cases r with
  | error e =>
    obtain ⟨rfl, -, -⟩ := Sem.Runs.of_finished (p := .throw e) trivial h₁
    refine iff_of_false ?_ (by simp [fails])
    rintro ⟨res, hres, -⟩
    exact nomatch hres
  | ok _ =>
    obtain ⟨r, tr₂, rfl, -, h₂⟩ := h₁.of_act rfl hp
    cases r with
    | error e =>
      obtain ⟨rfl, -, -⟩ := Sem.Runs.of_finished (p := .throw e) trivial h₂
      refine iff_of_false ?_ (by simp [fails])
      rintro ⟨res, hres, -⟩
      exact nomatch hres
    | ok x =>
      obtain rfl := of_handle h₂ hp
      exact iff_of_true ⟨succeededFuture (f x), rfl, by simp [fails]⟩ (by simp [fails])

/-- Nothing is done, and nobody is told. -/
theorem not_once_pure (h : sem.Runs m (pure () : Prog K V Unit) tr m' p) : ¬ Once tr := by
  obtain ⟨rfl, -, -⟩ := h.of_ret
  rintro ⟨res, hres, -⟩
  exact nomatch hres

/-- An operation calls its handler exactly once, with what has come of the call of the
    store, if, and only if, it has what its adapter needs. -/
theorem answers_once_iff {vertx : Vertx K V} (hvertx : vertx.Documented) (a : Adapter) (op : Op K V)
    (h : sem.Runs m (run vertx a op) tr m' p) (hp : p.Finished) :
    Once tr ↔ Needs op (∃ l ∈ tr, fails l = true) a := by
  cases a with
  | shimAsyncMap =>
    cases op with
    -- these fall through their `catch`
    | remove | keys | values => exact (once_falling_iff h hp).trans (imp_iff_right rfl).symm
    | get | put | clear | size => exact iff_of_true (once_returning h hp) nofun
  | ShimAsyncMapDB => cases op <;> exact iff_of_true (once_blocking hvertx h hp) trivial
  | ShimAsyncIgniteMap =>
    cases op with
    -- these call nobody
    | keys | values => exact iff_of_false (not_once_pure h) nofun
    | get | put | remove | clear | size =>
      exact (once_coupled_iff h hp).trans (and_iff_right rfl).symm

/-- A key is removed that there is not. -/
theorem answers_once_remove :
    Once [⟨.call (.remove (some (jstr "k"))), .ok none⟩,
      (⟨.handle (succeededFuture .null), ()⟩ : Label (Act.Res (K := JString) (V := JString)))] := by
  have hruns : sem.Runs (∅ : Contents JString JString)
      (run Vertx.plain .shimAsyncMap (.remove (some (jstr "k")))) [⟨.call (.remove _), .ok none⟩,
        ⟨.handle (succeededFuture .null), ()⟩] ∅ (.ret ()) :=
    .prim rfl ⟨rfl, rfl⟩ (.prim rfl trivial (.refl _ _))
  exact (answers_once_iff Vertx.documented_plain _ _ hruns trivial).2 fun _ => by simp [fails]

/-- A key that is `null` is removed: the handler is called with the exception, and again. -/
theorem not_answers_once :
    ¬∀ (vertx : Vertx JString JString) (a : Adapter) (op : Op JString JString)
      (m m' : Contents JString JString) (tr : List (Label Act.Res)) (p : Prog JString JString Unit),
      vertx.Documented → sem.Runs m (run vertx a op) tr m' p → p.Finished → Once tr := by
  intro h
  let e : Throwable := .exception (jstr "NullPointerException")
  have hruns : sem.Runs (∅ : Contents JString JString) (run Vertx.plain .shimAsyncMap (.remove none))
      [⟨.call (.remove none), .error e⟩, ⟨.handle (failedFuture e), ()⟩,
        ⟨.handle (succeededFuture .null), ()⟩] ∅ (.ret ()) :=
    .prim rfl rfl (.prim rfl trivial (.prim rfl trivial (.refl _ _)))
  obtain ⟨res, hres, -⟩ := h Vertx.plain .shimAsyncMap (.remove none) ∅ ∅ _ _
    Vertx.documented_plain hruns trivial
  exact nomatch hres

end

end MapBackend

end Kvdn
