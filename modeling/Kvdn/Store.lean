import Kvdn.Setting

/-!
# The abstract store

What the operations are meant to do: the store is a finite map for every address,
and an operation acts on one of them (`Op.apply`, `kvStep`). The call of an operation
does this to the map it is made on (`Op.apply_of_call`), if it succeeds.
-/

namespace Kvdn

open AsyncResult

namespace Op

/-- What an operation does to a finite map, and its result. -/
def apply (md5 : List UInt8 → List UInt8) (c : KMap) : Op → KMap × Obj
  | submit content =>
    let key := encodeHex (md5 content.getBytes)
    (c.insert key (.str content), .str key)
  | set key content => (c.insert key (.str content), .str key)
  | get key => (c, (c.lookup key).getD .null)
  | clear => (∅, .null)
  | del key => (c.erase key, .str key)
  | getKeys => (c, .keys c.keys)
  | size => (c, .int c.keys.card)

end Op

/-- An operation on an address: it acts on the map of the address only. -/
def kvStep (md5 : List UInt8 → List UInt8) (s : JString → KMap) (call : JString × Op) :
    (JString → KMap) × Obj :=
  (Function.update s call.1 (call.2.apply md5 (s call.1)).1, (call.2.apply md5 (s call.1)).2)

/-- The call of an operation does what the operation does to the abstract map. -/
theorem Op.apply_of_call {op : Op} {w : World} {m : AsyncMap} {a : Act} {r : a.Res} {x : Obj}
    (ha : op.call (op.digestOf w.md5) m = some a) (hok : w.ok a r)
    (hr : a.answer r = some (succeededFuture x)) :
    (w.eff a r).map m = (op.apply w.md5 (w.map m)).1 ∧
      op.result (op.digestOf w.md5) x = some (op.apply w.md5 (w.map m)).2 := by
  cases op with
  | getKeys => exact nomatch ha
  | get key =>
    obtain rfl := Option.some.inj ha
    obtain rfl : r = succeededFuture x := Option.some.inj hr
    obtain rfl : x = ((w.map m).lookup key).getD .null := hok
    exact ⟨rfl, rfl⟩
  | size =>
    obtain rfl := Option.some.inj ha
    obtain rfl : r = succeededFuture x := Option.some.inj hr
    obtain rfl : x = .int (w.map m).keys.card := hok
    exact ⟨rfl, rfl⟩
  | clear =>
    obtain rfl := Option.some.inj ha
    obtain rfl : r = succeededFuture x := Option.some.inj hr
    exact ⟨World.map_modify_self _ fun _ => ∅, rfl⟩
  | submit content | set key content | del key =>
    obtain rfl := Option.some.inj ha
    obtain rfl : r = succeededFuture x := Option.some.inj hr
    exact ⟨World.map_modify_self _ _, rfl⟩

/-- A call that fails changes nothing. -/
theorem World.eff_of_failed {w : World} {a : Act} {r : a.Res} {c : Throwable}
    (hr : a.answer r = some (failedFuture c)) : w.eff a r = w := by
  cases a with
  | put | get | remove | clear | size | getKeys =>
    obtain rfl : r = failedFuture c := Option.some.inj hr
    rfl
  | _ => exact nomatch hr

theorem Op.target_of_call {op : Op} {digest : Option JString} {m : AsyncMap} {a : Act}
    (ha : op.call digest m = some a) : a.target = none ∨ a.target = some m := by
  cases op with
  | getKeys => exact nomatch ha
  | submit content =>
    obtain ⟨key, -, rfl⟩ := Option.map_eq_some_iff.1 ha
    exact .inr rfl
  | set key content | clear | del key =>
    obtain rfl := Option.some.inj ha
    exact .inr rfl
  | get key | size =>
    obtain rfl := Option.some.inj ha
    exact .inl rfl

end Kvdn
