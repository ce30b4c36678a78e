import Kvdn.MapBackends

/-!
# Conditional operations

The operations of `shimAsyncMap` and `ShimAsyncMapDB` that change their map on a
condition, and what they are for (`ConditionalOp.spec`). The code asks for the truth of a
value, as Groovy sees it, where it is to ask whether there is one, and does not look at
all of its arguments: `honours_iff` tells the sequences of operations in which the
conditions are honoured, and the two adapters leave the same map.
-/

namespace Kvdn

namespace MapBackend

open Callback Callback.Prog AsyncResult

/-- What Groovy makes of the values of a type: their truth, and their equality. -/
class Groovy (V : Type) where
  asBoolean : V → Bool
  /-- `==` -/
  equals : V → V → Bool

/-- A string is true if it is not empty. -/
instance : Groovy JString := ⟨fun s => !s.isEmpty, fun s s' => decide (s = s')⟩

variable {K V : Type} [DecidableEq K] [Groovy V]

/-- The truth of a value, or of `null`. -/
def asBoolean (o : Option V) : Bool := o.any Groovy.asBoolean

/-- `==`, where either side may be `null`. -/
def equals : Option V → Option V → Bool
  | some x, some y => Groovy.equals x y
  | none, none => true
  | _, _ => false

/-- `Future.failedFuture(false as String)` -/
def refused : AsyncResult (Result K V) := failedFuture (.error (jstr "false"))

/-! ## Local maps -/

namespace shimAsyncMap

/-- The time to live, if there is one, is not looked at. -/
def putIfAbsent (o : Option K) (o2 : Option V) (_ttl : Option ℤ) : Prog K V Unit := do
  let keys ← call .keySet
  if !o.any (· ∈ keys) then shimAsyncMap.returning (.put o o2) fun _ => .null
  else handle refused

/-- The value `o2` is not looked at. -/
def removeIfPresent (o : Option K) (_o2 : Option V) : Prog K V Unit := do
  if asBoolean (← call (.get o)) then
    handle (succeededFuture (.ofOption (← call (.remove o))))
  else handle refused

def replace (o : Option K) (o2 : Option V) : Prog K V Unit := do
  handle (succeededFuture (.ofOption (← call (.put o o2))))

def replaceIfPresent (o : Option K) (oldValue newValue : Option V) : Prog K V Unit := do
  if equals (← call (.get o)) oldValue then
    handle (succeededFuture (.ofOption (← call (.put o newValue))))
  else handle refused

end shimAsyncMap

/-! ## Maps of a database -/

namespace ShimAsyncMapDB

variable (vertx : Vertx K V)

/-- The time to live, if there is one, is not looked at. -/
def putIfAbsent (o : Option K) (o2 : Option V) (_ttl : Option ℤ) : Prog K V Unit :=
  vertx.executeBlocking (do
    if !asBoolean (← call (.get o)) then resolving (.put o o2) fun _ => .null
    else pure refused) handle

/-- The value `o2` is not looked at. -/
def removeIfPresent (o : Option K) (_o2 : Option V) : Prog K V Unit :=
  vertx.executeBlocking (do
    if asBoolean (← call (.get o)) then resolving (.remove o) fun _ => .null
    else pure refused) handle

def replace (o : Option K) (o2 : Option V) : Prog K V Unit :=
  vertx.executeBlocking (resolving (.put o o2) fun _ => .null) handle

def replaceIfPresent (o : Option K) (oldValue newValue : Option V) : Prog K V Unit :=
  vertx.executeBlocking (do
    if equals (← call (.get o)) oldValue then resolving (.put o newValue) fun _ => .null
    else pure refused) handle

end ShimAsyncMapDB

/-! ## Operations -/

/-- The conditional operations: the values compared may be `null`. -/
inductive ConditionalOp (K V : Type)
  | putIfAbsent (k : K) (v : V) (ttl : Option ℤ)
  | removeIfPresent (k : K) (v : Option V)
  | replace (k : K) (v : V)
  | replaceIfPresent (k : K) (oldValue : Option V) (newValue : V)

/-- The adapters that have them. -/
inductive Shim
  | shimAsyncMap
  | ShimAsyncMapDB
  deriving DecidableEq

/-- The program of an operation. -/
def Shim.run (vertx : Vertx K V) : Shim → ConditionalOp K V → Prog K V Unit
  | shimAsyncMap, .putIfAbsent k v ttl => shimAsyncMap.putIfAbsent (some k) (some v) ttl
  | shimAsyncMap, .removeIfPresent k v => shimAsyncMap.removeIfPresent (some k) v
  | shimAsyncMap, .replace k v => shimAsyncMap.replace (some k) (some v)
  | shimAsyncMap, .replaceIfPresent k old new => shimAsyncMap.replaceIfPresent (some k) old (some new)
  | ShimAsyncMapDB, .putIfAbsent k v ttl => ShimAsyncMapDB.putIfAbsent vertx (some k) (some v) ttl
  | ShimAsyncMapDB, .removeIfPresent k v => ShimAsyncMapDB.removeIfPresent vertx (some k) v
  | ShimAsyncMapDB, .replace k v => ShimAsyncMapDB.replace vertx (some k) (some v)
  | ShimAsyncMapDB, .replaceIfPresent k old new =>
    ShimAsyncMapDB.replaceIfPresent vertx (some k) old (some new)

/-- What an operation is to make of a map. -/
def ConditionalOp.spec (m : Contents K V) : ConditionalOp K V → Contents K V
  | putIfAbsent k v _ => if k ∈ m then m else m.insert k v
  | removeIfPresent k v => if (m.lookup k).any (fun x => equals (some x) v) then m.erase k else m
  | replace k v => if k ∈ m then m.insert k v else m
  | replaceIfPresent k old new => if (m.lookup k).any (fun x => equals (some x) old) then m.insert k new else m

/-- A store that only refuses `null`. -/
def answer (m : Contents K V) : (a : Act K V) → a.Res
  | .call c | .done c =>
    if c.accepts then .ok (c.result m) else .error (.exception (jstr "NullPointerException"))
  | .start c => if c.accepts then .ok () else .error (.exception (jstr "NullPointerException"))
  | .handle _ => ()

/-- What an operation makes of a map. -/
def Shim.apply (vertx : Vertx K V) (s : Shim) (m : Contents K V) (op : ConditionalOp K V) :
    Contents K V :=
  sem.exec answer (s.run vertx op) m

/-- What an operation needs of the map to honour its condition. -/
def ConditionalOp.Needs (s : Shim) (m : Contents K V) : ConditionalOp K V → Prop
  | putIfAbsent k v _ => s = .ShimAsyncMapDB → ∀ x ∈ m.lookup k, Groovy.asBoolean x = true ∨ x = v
  | removeIfPresent k v => ∀ x ∈ m.lookup k, Groovy.asBoolean x = equals (some x) v
  | replace k _ => k ∈ m
  | replaceIfPresent k old _ => old = none → k ∈ m

instance [DecidableEq V] (s : Shim) (m : Contents K V) (op : ConditionalOp K V) :
    Decidable (op.Needs s m) :=
  match op with
  | .putIfAbsent k v _ => inferInstanceAs (Decidable (_ → ∀ x ∈ m.lookup k, _ ∨ x = v))
  | .removeIfPresent k _ => inferInstanceAs (Decidable (∀ x ∈ m.lookup k, _))
  | .replace k _ => inferInstanceAs (Decidable (k ∈ m))
  | .replaceIfPresent k _ _ => inferInstanceAs (Decidable (_ → k ∈ m))

section

variable {vertx : Vertx K V} {s : Shim} {m : Contents K V} {k : K} {v new : V} {old : Option V}
  {ttl : Option ℤ}

omit [Groovy V] in
/-- The answers are possible ones. -/
theorem ok_answer (m : Contents K V) (a : Act K V) : sem.ok m a (answer m a) := by
  cases a with
  | call c | done c =>
    simp only [answer]
    split_ifs with hc
    · exact ⟨hc, rfl⟩
    · rfl
  | start c =>
    simp only [answer]
    split_ifs with hc
    · exact hc
    · rfl
  | handle res => trivial

omit [Groovy V] in
/-- A call that is not refused. -/
theorem exec_call {α : Type} (c : StoreCall K V) (hc : c.accepts = true) (f : c.Res → Prog K V α) :
    sem.exec answer ((call c).bind f) m = sem.exec answer (f (c.result m)) (c.apply m) := by
  have hanswer : answer m (.call c) = .ok (c.result m) := if_pos hc
  have hcall : (call c).bind f = .act (.call c) fun r => (ofExcept r).bind f := rfl
  rw [hcall, Sem.exec, hanswer]
  rfl

omit [Groovy V] in
theorem exec_tryCall {c : StoreCall K V} (hc : c.accepts = true) :
    sem.exec answer (tryCall c) m = c.apply m := by
  rw [tryCall, Sem.exec_attempt, ← bind_ret (call c), exec_call c hc]
  rfl

omit [Groovy V] in
theorem exec_returning {c : StoreCall K V} {f : c.Res → Result K V} (hc : c.accepts = true) :
    sem.exec answer (shimAsyncMap.returning c f) m = c.apply m := by
  rw [shimAsyncMap.returning, bind_eq, Sem.exec_bind, exec_tryCall hc]
  intro r m
  cases r <;> rfl

omit [Groovy V] in
theorem exec_resolving {c : StoreCall K V} {f : c.Res → Result K V} (hc : c.accepts = true) :
    sem.exec answer (ShimAsyncMapDB.resolving c f) m = c.apply m := by
  rw [ShimAsyncMapDB.resolving, bind_eq, Sem.exec_bind, exec_tryCall hc]
  intro r m
  cases r <;> rfl

omit [Groovy V] in
/-- The handler of a block does not touch the map. -/
theorem exec_executeBlocking (hvertx : vertx.Documented)
    (block : Prog K V (AsyncResult (Result K V))) :
    sem.exec answer (vertx.executeBlocking block handle) m = sem.exec answer block m := by
  rw [hvertx, bind_eq, Sem.exec_bind, Sem.exec_attempt]
  intro r m
  cases r <;> rfl

omit [Groovy V] in
/-- An operation on the condition `b` of the value there is. -/
theorem exec_get {α : Type} (b : Option V → Bool) {p q : Prog K V α}
    (hq : sem.exec answer q m = m) :
    sem.exec answer ((call (.get (some k))).bind fun x => if b x = true then p else q) m =
      if b (m.lookup k) = true then sem.exec answer p m else m := by
  rw [exec_call (.get (some k)) rfl]
  by_cases hb : b (m.lookup k) = true
  · rw [if_pos hb]
    exact congrArg (sem.exec answer · m) (if_pos hb)
  · rw [if_neg hb]
    exact (congrArg (sem.exec answer · m) (if_neg hb)).trans hq

/-- `putIfAbsent` of a local map looks for an entry. -/
theorem apply_putIfAbsent_shimAsyncMap :
    Shim.shimAsyncMap.apply vertx m (.putIfAbsent k v ttl) = if k ∈ m then m else m.insert k v := by
  rw [Shim.apply, Shim.run, shimAsyncMap.putIfAbsent, bind_eq, exec_call .keySet rfl]
  by_cases hk : k ∈ m
  · have hkeys : (!(some k).any (· ∈ m.keys)) = false := by simp [Finmap.mem_keys, hk]
    rw [if_pos hk]
    exact congrArg (sem.exec answer · m) (if_neg (Bool.not_eq_true _ ▸ hkeys))
  · have hkeys : (!(some k).any (· ∈ m.keys)) = true := by simp [Finmap.mem_keys, hk]
    rw [if_neg hk]
    exact (congrArg (sem.exec answer · m) (if_pos hkeys)).trans (exec_returning rfl)

/-- `putIfAbsent` of a database looks for a value that is true. -/
theorem apply_putIfAbsent_shimAsyncMapDB (hvertx : vertx.Documented) :
    Shim.ShimAsyncMapDB.apply vertx m (.putIfAbsent k v ttl) =
      if asBoolean (m.lookup k) = true then m else m.insert k v := by
  rw [Shim.apply, Shim.run, ShimAsyncMapDB.putIfAbsent, exec_executeBlocking hvertx, bind_eq,
    exec_get (fun x => !asBoolean x) rfl, exec_resolving rfl]
  cases asBoolean (m.lookup k) <;> rfl

/-- `removeIfPresent` looks for a value that is true. -/
theorem apply_removeIfPresent (hvertx : vertx.Documented) :
    s.apply vertx m (.removeIfPresent k old) =
      if asBoolean (m.lookup k) = true then m.erase k else m := by
  cases s with
  | shimAsyncMap =>
    rw [Shim.apply, Shim.run, shimAsyncMap.removeIfPresent, bind_eq, exec_get asBoolean rfl]
    rfl
  | ShimAsyncMapDB =>
    rw [Shim.apply, Shim.run, ShimAsyncMapDB.removeIfPresent, exec_executeBlocking hvertx, bind_eq,
      exec_get asBoolean rfl, exec_resolving rfl]
    rfl

/-- `replace` writes in any case. -/
theorem apply_replace (hvertx : vertx.Documented) :
    s.apply vertx m (.replace k v) = m.insert k v := by
  cases s with
  | shimAsyncMap => exact exec_call (.put (some k) (some v)) rfl _
  | ShimAsyncMapDB =>
    rw [Shim.apply, Shim.run, ShimAsyncMapDB.replace, exec_executeBlocking hvertx, exec_resolving rfl]
    rfl

/-- `replaceIfPresent` takes `null` for a value. -/
theorem apply_replaceIfPresent (hvertx : vertx.Documented) :
    s.apply vertx m (.replaceIfPresent k old new) =
      if equals (m.lookup k) old = true then m.insert k new else m := by
  cases s with
  | shimAsyncMap =>
    rw [Shim.apply, Shim.run, shimAsyncMap.replaceIfPresent, bind_eq,
      exec_get (fun x => equals x old) rfl]
    rfl
  | ShimAsyncMapDB =>
    rw [Shim.apply, Shim.run, ShimAsyncMapDB.replaceIfPresent, exec_executeBlocking hvertx, bind_eq,
      exec_get (fun x => equals x old) rfl, exec_resolving rfl]
    rfl

/-- The runs of an operation end with the map told. -/
theorem apply_iff {op : ConditionalOp K V} {m' : Contents K V} : (∃ tr p, p.Finished ∧
    (sem.restrict fun m a r => r = answer m a).Runs m (s.run vertx op) tr m' p) ↔
      m' = s.apply vertx m op := by
  constructor
  · rintro ⟨tr, p, hp, h⟩
    have hexec := h.exec_eq fun _ => rfl
    cases p with
    | act => exact hp.elim
    | _ => exact hexec.symm
  · rintro rfl
    exact Sem.exists_runs_exec (fun _ => rfl) ok_answer (s.run vertx op) m

/-! ## Conditions -/

omit [Groovy V] in
theorem insert_eq_self_iff : m.insert k v = m ↔ m.lookup k = some v := by
  refine ⟨fun h => h ▸ Finmap.lookup_insert m, fun h => Finmap.ext_lookup fun k' => ?_⟩
  by_cases hk : k' = k
  · rw [hk, Finmap.lookup_insert, h]
  · rw [Finmap.lookup_insert_of_ne m hk]

omit [Groovy V] in
theorem erase_ne_self (hk : k ∈ m) : m.erase k ≠ m := fun h =>
  Finmap.notMem_erase_self (h ▸ hk)

omit [Groovy V] in
theorem mem_of_lookup {x : V} (h : m.lookup k = some x) : k ∈ m :=
  Finmap.mem_of_lookup_eq_some h

/-- An operation honours its condition if, and only if, it has what it needs. -/
theorem apply_eq_spec_iff (hvertx : vertx.Documented) (op : ConditionalOp K V) :
    s.apply vertx m op = op.spec m ↔ op.Needs s m := by
  cases op with
  | putIfAbsent k v ttl =>
    cases s with
    | shimAsyncMap => exact iff_of_true apply_putIfAbsent_shimAsyncMap nofun
    | ShimAsyncMapDB =>
      rw [apply_putIfAbsent_shimAsyncMapDB hvertx, ConditionalOp.spec, ConditionalOp.Needs,
        imp_iff_right rfl]
      rcases hx : m.lookup k with _ | x
      · exact iff_of_true (if_neg (Finmap.lookup_eq_none.1 hx)).symm nofun
      · rw [if_pos (mem_of_lookup hx), asBoolean, Option.any_some]
        -- a value that is false is overwritten, which makes no difference if it is `v`
        by_cases htrue : Groovy.asBoolean x = true
        · exact iff_of_true (if_pos htrue) fun y hy => .inl (Option.some.inj hy ▸ htrue)
        · rw [if_neg htrue, insert_eq_self_iff, hx]
          refine ⟨fun h y hy => .inr ?_, fun h => ?_⟩
          · exact (Option.some.inj hy).symm.trans (Option.some.inj h)
          · exact congrArg some ((h x rfl).resolve_left htrue)
  | removeIfPresent k v =>
    rw [apply_removeIfPresent hvertx, ConditionalOp.spec, ConditionalOp.Needs]
    rcases hx : m.lookup k with _ | x
    · exact iff_of_true rfl nofun
    · have herase := erase_ne_self (mem_of_lookup hx)
      have hall : (∀ y ∈ some x, Groovy.asBoolean y = equals (some y) v) ↔
          Groovy.asBoolean x = equals (some x) v :=
        ⟨fun h => h x rfl, fun h y hy => Option.some.inj hy ▸ h⟩
      rw [hall, asBoolean, Option.any_some, Option.any_some]
      cases Groovy.asBoolean x <;> cases equals (some x) v <;> simp [herase, herase.symm]
  | replace k v =>
    rw [apply_replace hvertx, ConditionalOp.spec, ConditionalOp.Needs]
    by_cases hk : k ∈ m
    · exact iff_of_true (if_pos hk).symm hk
    · rw [if_neg hk, insert_eq_self_iff]
      exact iff_of_false (fun h => hk (mem_of_lookup h)) hk
  | replaceIfPresent k old new =>
    rw [apply_replaceIfPresent hvertx, ConditionalOp.spec, ConditionalOp.Needs]
    rcases hx : m.lookup k with _ | x
    · have hk : k ∉ m := Finmap.lookup_eq_none.1 hx
      cases old with
      | none =>
        refine iff_of_false (fun h => hk ?_) fun h => hk (h rfl)
        exact mem_of_lookup (insert_eq_self_iff.1 h)
      | some y => exact iff_of_true rfl nofun
    · exact iff_of_true rfl fun _ => mem_of_lookup hx

variable (vertx) in
/-- `P` holds of each operation, and of the map it finds. -/
def Along (s : Shim) (P : Contents K V → ConditionalOp K V → Prop) :
    Contents K V → List (ConditionalOp K V) → Prop
  | _, [] => True
  | m, op :: ops => P m op ∧ Along s P (s.apply vertx m op) ops

instance decidableAlong {P : Contents K V → ConditionalOp K V → Prop} [∀ m op, Decidable (P m op)] :
    ∀ (m : Contents K V) (ops : List (ConditionalOp K V)), Decidable (Along vertx s P m ops)
  | _, [] => .isTrue trivial
  | m, op :: ops =>
    have : Decidable (Along vertx s P (s.apply vertx m op) ops) := decidableAlong _ ops
    inferInstanceAs (Decidable (P m op ∧ Along vertx s P (s.apply vertx m op) ops))

theorem Along.congr {P Q : Contents K V → ConditionalOp K V → Prop} (h : ∀ m op, P m op ↔ Q m op)
    (m : Contents K V) (ops : List (ConditionalOp K V)) :
    Along vertx s P m ops ↔ Along vertx s Q m ops := by
  induction ops generalizing m with
  | nil => exact Iff.rfl
  | cons op ops ih => exact and_congr (h m op) (ih _)

/-- The map left by operations that honour their conditions. -/
theorem foldl_apply {ops : List (ConditionalOp K V)}
    (h : Along vertx s (fun m op => s.apply vertx m op = op.spec m) m ops) :
    ops.foldl (s.apply vertx) m = ops.foldl ConditionalOp.spec m := by
  induction ops generalizing m with
  | nil => rfl
  | cons op ops ih =>
    rw [List.foldl_cons, List.foldl_cons, ih h.2, h.1]

/-- In a sequence of operations, on either adapter, all of them honour their conditions,
    and the adapters leave the same map, if, and only if, all of them have what they need. -/
theorem honours_iff (hvertx : vertx.Documented) (m : Contents K V) (ops : List (ConditionalOp K V)) :
    ((∀ s, Along vertx s (fun m op => s.apply vertx m op = op.spec m) m ops) ∧
      ops.foldl (Shim.shimAsyncMap.apply vertx) m = ops.foldl (Shim.ShimAsyncMapDB.apply vertx) m) ↔
    ∀ s, Along vertx s (fun m op => op.Needs s m) m ops := by
  have hneeds (s : Shim) : Along vertx s (fun m op => s.apply vertx m op = op.spec m) m ops ↔
      Along vertx s (fun m op => op.Needs s m) m ops :=
    Along.congr (fun m op => apply_eq_spec_iff hvertx op) m ops
  rw [← forall_congr' hneeds]
  exact and_iff_left_of_imp fun h => (foldl_apply (h _)).trans (foldl_apply (h _)).symm

end

/-- A value is written, replaced and removed. -/
theorem honours_replaced :
    let ops : List (ConditionalOp JString JString) := [.putIfAbsent (jstr "k") (jstr "v") none,
      .replace (jstr "k") (jstr "w"), .replaceIfPresent (jstr "k") (some (jstr "w")) (jstr "x"),
      .removeIfPresent (jstr "k") (some (jstr "x"))]
    ops.foldl (Shim.shimAsyncMap.apply Vertx.plain) ∅ =
      ops.foldl (Shim.ShimAsyncMapDB.apply Vertx.plain) ∅ := by
  intro ops
  refine ((honours_iff Vertx.documented_plain ∅ ops).2 fun s => ?_).2
  cases s <;> decide +kernel

/-- An empty string is overwritten in a database only. -/
theorem not_honours :
    ¬∀ (vertx : Vertx JString JString) (m : Contents JString JString)
      (ops : List (ConditionalOp JString JString)), vertx.Documented →
        (∀ s, Along vertx s (fun m op => s.apply vertx m op = op.spec m) m ops) ∧
          ops.foldl (Shim.shimAsyncMap.apply vertx) m =
            ops.foldl (Shim.ShimAsyncMapDB.apply vertx) m := by
  intro h
  have hsame := (h Vertx.plain (Finmap.singleton (jstr "k") (jstr ""))
    [.putIfAbsent (jstr "k") (jstr "v") none] Vertx.documented_plain).2
  exact absurd hsame (by decide +kernel)

end MapBackend

end Kvdn
