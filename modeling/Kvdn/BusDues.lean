import Kvdn.Callback.Debts
import Kvdn.VertxBus
import Mathlib.Data.Finset.Basic

/-!
# What the calls of the event bus owe

A call of the bus of the C++ client owes what it has taken on (`dues`): to store the
handlers of the reply address it has made, to call the handlers of the reply it has taken,
to tell the server of the address which has got its first handler, or lost its last one.
All calls pay, in any interleaving, unless the reply address of the message that has taken
the handlers cannot be read (`holds_run`).

* `answered_once`: the handlers of a request are called once at most, whatever is received;
  unless the connection is closed, they are pending until a message takes them, which calls
  them exactly if it can (`VertxReplyHandlers.calledFor`);
* `mirrored`: on a connection that is not closed, the server is told of the addresses that have
  handlers, as long as what concerns an address is sent in the order in which it is decided;
* `overtaken_register`: nothing keeps that order.
-/

namespace Kvdn.VertxBus

open Callback Callback.Sem

/-! ## What the calls owe -/

/-- What a call has taken on. -/
inductive Due
  /-- To store the handlers of the reply address it has made. -/
  | store (uuid : CppString)
  /-- To call the handlers of the reply that it has taken. -/
  | call (address : CppString) (rh : VertxReplyHandlers)
  /-- To tell the server that an address has handlers now, or has none any more. -/
  | tell (address : CppString) (registered : Bool)
  deriving DecidableEq

def dues : Debts Act.Res Due where
  incur
    | .makeUUID, uuid => some (.store uuid)
    | .takeReply address, (rh : Option VertxReplyHandlers) => rh.map (.call address)
    | .pushHandler address _, (first : Bool) => if first then some (.tell address true) else none
    | .eraseHandlers address _, (last : Bool) => if last then some (.tell address false) else none
    | _, _ => none
  pay
    | .putReply uuid _ => some (.store uuid)
    | .answer address rh _ => some (.call address rh)
    | .send (.register address _) => some (.tell address true)
    | .send (.unregister address _) => some (.tell address false)
    | _ => none

theorem incur_eq_none_of_pay (a : Act) (r : a.Res) (h : dues.pay a ≠ none) :
    dues.incur a r = none := by
  cases a with
  | putReply | answer | send => rfl
  | _ => exact absurd rfl h

/-- A message received is for the address. -/
def AddressedTo (json : JsonValue) (address : CppString) : Prop :=
  json.hasMembers = true ∧ JsonValue.toStr (json.get (cstr "address") .null) = some address

/-- The message calls the handlers with this, if they are there for its type. -/
def VertxReplyHandlers.CalledWith (rh : VertxReplyHandlers) (json : JsonValue)
    (invocation : Option Invocation) : Prop :=
  ∃ s, invocation = rh.call json s ∧ (isErr json = false → replyAddress json = some s)

/-- The message calls the handlers that it takes: there is one for its type, and the address to
    reply to can be read. -/
def VertxReplyHandlers.calledFor (rh : VertxReplyHandlers) (json : JsonValue) : Bool :=
  if isErr json then rh.failure_handler.isSome else (replyAddress json).isSome

/-- What a call may do: pending replies are taken and answered for a message that is addressed
    to them, and nothing is cleared but by `OnClose`. -/
def Permits (c : Call) : Act → Prop
  | .takeReply address => ∃ json, c = .OnMessage (some json) ∧ AddressedTo json address
  | .answer address rh invocation => ∃ json, c = .OnMessage (some json) ∧
      AddressedTo json address ∧ rh.CalledWith json invocation
  | .clearReplies | .clearHandlers => c = .OnClose
  | _ => True

/-- What a call owes at its end: nothing, or to call the handlers of the reply it has taken, if
    the address to reply to cannot be read. -/
def Leaves (c : Call) (owed : List Due) : Prop :=
  owed = [] ∨ ∃ address rh json, owed = [.call address rh] ∧ c = .OnMessage (some json) ∧
    isErr json = false ∧ replyAddress json = none

/-- The outline of a call. -/
abbrev outline (c : Call) : Outline Act.Res Exn (List Due) :=
  dues.outline (Permits c) (fun _ _ => True) fun owed _ => Leaves c owed

section

variable {c : Call}

/-- An action that is nothing to the dues. -/
theorem holds_act {α : Type} {a : Act} {k : a.Res → Prog α} {Q : List Due → α → Prop}
    {owed : List Due} (hpermits : Permits c a) (hi : ∀ r, dues.incur a r = none)
    (hp : dues.pay a = none) (hk : ∀ r, (k r).Holds (outline c) Q owed) :
    (Callback.Prog.act a k).Holds (outline c) Q owed := by
  refine ⟨⟨hpermits, fun d hd => ?_⟩, fun r owed' h => ?_⟩
  · exact nomatch hp.symm.trans hd
  · rw [h.2, Debts.step_of_none (hi r) hp]
    exact hk r

/-- An action that pays what is owed. -/
theorem holds_pay {α : Type} {a : Act} {k : a.Res → Prog α} {Q : List Due → α → Prop} {d : Due}
    {owed : List Due} (hpermits : Permits c a) (hp : dues.pay a = some d)
    (hk : ∀ r, (k r).Holds (outline c) Q owed) :
    (Callback.Prog.act a k).Holds (outline c) Q (d :: owed) := by
  refine ⟨⟨hpermits, fun d' hd' => ?_⟩, fun r owed' h => ?_⟩
  · rw [Option.some.inj (hp.symm.trans hd')]
    rfl
  · rw [h.2, Debts.step_of_pay (incur_eq_none_of_pay a r (by simp [hp])) hp]
    exact hk r

/-- An action that may incur a due. -/
theorem holds_incur {α : Type} {a : Act} {k : a.Res → Prog α} {Q : List Due → α → Prop}
    {owed : List Due} (hpermits : Permits c a) (hp : dues.pay a = none)
    (hnone : ∀ r, dues.incur a r = none → (k r).Holds (outline c) Q owed)
    (hsome : ∀ r d, dues.incur a r = some d → (k r).Holds (outline c) Q (d :: owed)) :
    (Callback.Prog.act a k).Holds (outline c) Q owed := by
  refine ⟨⟨hpermits, fun d hd => ?_⟩, fun r owed' h => ?_⟩
  · exact nomatch hp.symm.trans hd
  · cases hi : dues.incur a r with
    | none =>
      rw [h.2, Debts.step_of_none hi hp]
      exact hnone r hi
    | some d =>
      rw [h.2, Debts.step_of_incur hi]
      exact hsome r d hi

/-- Nothing is owed at the end. -/
abbrev Settled : List Due → Bool → Prop := fun owed _ => owed = []

/-- What is done on an open connection only. -/
theorem holds_open {p : Prog Bool} (hp : p.Holds (outline c) Settled []) :
    (do if (← perform .readyState) ≠ .kOpen then return false else p : Prog Bool).Holds (outline c)
      Settled [] := by
  refine holds_act trivial (fun _ => rfl) rfl fun s => ?_
  rw [Callback.Prog.ret_bind]
  split_ifs
  · rfl
  · exact hp

theorem holds_callBack (json : Option JsonValue) (f : Option ℕ) :
    (callBack json f).Holds (outline c) Settled [] := by
  cases f with
  | none => rfl
  | some f => exact holds_act trivial (fun _ => rfl) rfl fun _ => rfl

theorem holds_registerHandler (address : CppString) (headers : JsonValue) (rh : VertxReplyHandlers) :
    (RegisterHandler address headers rh).Holds (outline c) Settled [] := by
  refine holds_open (holds_incur trivial rfl (fun first hi => ?_) fun first d hi => ?_)
  · cases first
    · rfl
    · cases hi
  · cases first
    · cases hi
    · -- the first handler: the server is told
      obtain rfl := Option.some.inj hi
      exact holds_act trivial (fun _ => rfl) rfl fun _ => holds_pay trivial rfl fun _ => rfl

theorem holds_unregisterHandler (address : CppString) (headers : JsonValue)
    (reply_handler : Option ReplyHandler) :
    (UnregisterHandler address headers reply_handler).Holds (outline c) Settled [] := by
  refine holds_open (holds_incur trivial rfl (fun last hi => ?_) fun last d hi => ?_)
  · cases last
    · rfl
    · cases hi
  · cases last
    · cases hi
    · -- the last handler: the server is told
      obtain rfl := Option.some.inj hi
      exact holds_act trivial (fun _ => rfl) rfl fun _ => holds_pay trivial rfl fun _ => rfl

theorem holds_sendOrPub (send_or_pub address : CppString) (message headers : JsonValue)
    (rh : Option VertxReplyHandlers) :
    (SendOrPub send_or_pub address message headers rh).Holds (outline c) Settled [] := by
  refine holds_open (holds_act trivial (fun _ => rfl) rfl fun _ => ?_)
  cases rh with
  | none => exact holds_act trivial (fun _ => rfl) rfl fun _ => rfl
  | some rh =>
    refine holds_incur trivial rfl (fun uuid hi => nomatch hi) fun uuid d hi => ?_
    obtain rfl := Option.some.inj hi
    exact holds_pay trivial rfl fun _ => holds_act trivial (fun _ => rfl) rfl fun _ => rfl

theorem holds_sendPing {Q : List Due → Bool → Prop} (hQ : ∀ b, Q [] b) :
    SendPing.Holds (outline c) Q [] := by
  refine holds_act trivial (fun _ => rfl) rfl fun s => ?_
  rw [Callback.Prog.ret_bind]
  split_ifs
  · exact hQ false
  · exact holds_act trivial (fun _ => rfl) rfl hQ

theorem holds_deliverAll (json : JsonValue) (replyAddress : CppString) (copy : List VertxReplyHandlers) :
    (deliverAll json replyAddress copy).Holds (outline c) Settled [] := by
  induction copy with
  | nil => rfl
  | cons rh copy ih =>
    rw [deliverAll]
    cases rh.call json replyAddress with
    | none => exact ih
    | some invocation => exact holds_act trivial (fun _ => rfl) rfl fun _ => ih

theorem holds_replyAddressOf {α : Type} (json : JsonValue) {f : CppString → Prog α}
    {owed : List Due} {Q : List Due → α → Prop}
    (hthrows : isErr json = false → replyAddress json = none → Leaves c owed)
    (hf : ∀ s, (isErr json = false → replyAddress json = some s) →
      (f s).Holds (outline c) Q owed) :
    ((replyAddressOf json).bind f).Holds (outline c) Q owed := by
  rw [replyAddressOf]
  split_ifs with herr
  · exact hf [] fun h => by cases herr.symm.trans h
  · rw [Bool.not_eq_true] at herr
    split
    · rename_i s hs
      exact hf s fun _ => hs
    · rename_i hnone
      exact hthrows herr hnone

end

theorem holds_onMessage (payload : Option JsonValue) :
    (OnMessage payload).Holds (outline (.OnMessage payload)) Settled [] := by
  cases payload with
  | none => rfl
  | some json =>
    rw [OnMessage]
    split_ifs with hjson
    · cases haddress : JsonValue.toStr (json.get (cstr "address") .null) with
      | none =>
        -- the lock is kept, but nothing is owed
        rw [addressOf, haddress]
        exact holds_act trivial (fun _ => rfl) rfl fun _ => .inl rfl
      | some address =>
        simp only [addressOf, haddress]
        refine holds_act trivial (fun _ => rfl) rfl fun handlers => ?_
        rw [Callback.Prog.ret_bind]
        split_ifs
        · refine holds_incur ⟨json, rfl, hjson, haddress⟩ rfl (fun rh hi => ?_) fun rh d hi => ?_
          · obtain rfl : rh = none := Option.map_eq_none_iff.1 hi
            refine holds_act trivial (fun _ => rfl) rfl fun callbacks => ?_
            rw [Callback.Prog.ret_bind]
            split_ifs
            · exact holds_callBack _ _
            · rfl
          · obtain ⟨rh, rfl, rfl⟩ := Option.map_eq_some_iff.1 hi
            refine holds_replyAddressOf json (fun herr hnone => ?_) fun s hs => ?_
            · -- the handlers are erased, and are not called any more
              exact .inr ⟨address, rh, json, rfl, rfl, herr, hnone⟩
            · exact holds_pay ⟨json, rfl, ⟨hjson, haddress⟩, s, rfl, hs⟩ rfl fun _ => rfl
        · exact holds_replyAddressOf json (fun _ _ => .inl rfl) fun s _ => holds_deliverAll _ _ _
    · exact .inl rfl

/-- A call pays what it has taken on. -/
theorem holds_run (c : Call) : c.run.Holds (outline c) Settled [] := by
  cases c with
  | Connect url callbacks =>
    refine holds_act trivial (fun _ => rfl) rfl fun s => ?_
    rw [Callback.Prog.ret_bind]
    split_ifs
    · rfl
    · refine holds_act trivial (fun _ => rfl) rfl fun _ =>
        holds_act trivial (fun _ => rfl) rfl fun b => ?_
      rw [Callback.Prog.ret_bind]
      split_ifs
      · exact holds_act trivial (fun _ => rfl) rfl fun _ => rfl
      · rfl
  | RegisterHandler address headers rh => exact holds_registerHandler address headers rh
  | UnregisterHandler address headers reply_handler =>
    exact holds_unregisterHandler address headers reply_handler
  | Send address message headers rh => exact holds_sendOrPub _ _ _ _ _
  | Publish address message headers => exact holds_sendOrPub (cstr "publish") _ _ _ none
  | VertxBusReplier address_ reply rh =>
    rw [Call.run, VertxBusReplier]
    split_ifs
    · rfl
    · exact holds_sendOrPub _ _ _ _ _
  | Close =>
    refine holds_open (holds_act trivial (fun _ => rfl) rfl fun b => ?_)
    rw [Callback.Prog.ret_bind]
    split_ifs
    · exact holds_act trivial (fun _ => rfl) rfl fun _ => rfl
    · rfl
  | SetDefaultHeaders headers => exact holds_act trivial (fun _ => rfl) rfl fun _ => rfl
  | OnOpen =>
    refine Callback.Prog.holds_bind.2 (holds_sendPing fun _ => ?_)
    exact holds_act trivial (fun _ => rfl) rfl fun _ => holds_act trivial (fun _ => rfl) rfl fun _ =>
      holds_act trivial (fun _ => rfl) rfl fun _ => holds_callBack _ _
  | OnClose =>
    exact holds_act trivial (fun _ => rfl) rfl fun _ => holds_act trivial (fun _ => rfl) rfl fun _ =>
      holds_act rfl (fun _ => rfl) rfl fun _ => holds_act rfl (fun _ => rfl) rfl fun _ =>
        holds_act trivial (fun _ => rfl) rfl fun _ => holds_callBack _ _
  | OnFail =>
    exact holds_act trivial (fun _ => rfl) rfl fun _ => holds_act trivial (fun _ => rfl) rfl fun _ =>
      holds_callBack _ _
  | OnMessage payload => exact holds_onMessage payload
  | pingInterval =>
    refine holds_act trivial (fun _ => rfl) rfl fun b => ?_
    rw [Callback.Prog.ret_bind]
    split_ifs
    · exact holds_sendPing fun _ => rfl
    · rfl

/-! ## Pools of calls -/

section

variable {ι : Type} [DecidableEq ι] {calls : ι → Call} {w₀ w : Bus}
  {tr : List (ι × Label Act.Res)} {ps : ι → Prog Bool}

/-- In all interleavings, every call honours its dues, does what it is permitted, and owes
    nothing at its end. -/
theorem follows_of_pool (h : sem.Pool w₀ (fun i => (calls i).run) tr w ps) (i : ι) :
    dues.Follows (Permits (calls i)) (fun _ _ => True) (Sem.own i tr) ∧
      (ps i).Holds (outline (calls i)) Settled (dues.owed (Sem.own i tr)) :=
  Debts.follows_of_pool (fun _ => Outline.verified_of_body fun _ => rfl)
    (fun _ _ _ _ _ => trivial) h (fun i => holds_run (calls i)) i

omit [DecidableEq ι] in
theorem mem_own {i : ι} {l : Label Act.Res} [DecidableEq ι] (h : (i, l) ∈ tr) : l ∈ Sem.own i tr :=
  List.mem_filterMap.2 ⟨(i, l), h, if_pos rfl⟩

omit [DecidableEq ι] in
theorem mem_of_mem_own [DecidableEq ι] {i : ι} {l : Label Act.Res} (h : l ∈ Sem.own i tr) :
    (i, l) ∈ tr := by
  obtain ⟨⟨j, l'⟩, hl, heq⟩ := List.mem_filterMap.1 h
  split_ifs at heq with hj
  obtain rfl := Option.some.inj heq
  exact hj ▸ hl

theorem permits_of_mem (h : sem.Pool w₀ (fun i => (calls i).run) tr w ps) {i : ι} {a : Act}
    {r : a.Res} (hl : (i, ⟨a, r⟩) ∈ tr) : Permits (calls i) a :=
  (follows_of_pool h i).1.permits _ (mem_own hl)

/-- No call is in progress: it has not been made, or has come to its end, with a value or an
    exception. -/
def Quiescent (tr : List (ι × Label Act.Res)) (ps : ι → Prog Bool) : Prop :=
  ∀ i, Sem.own i tr = [] ∨ (ps i).Finished

theorem leaves_of_quiescent (h : sem.Pool w₀ (fun i => (calls i).run) tr w ps)
    (hquiet : Quiescent tr ps) (i : ι) : Leaves (calls i) (dues.owed (Sem.own i tr)) := by
  rcases hquiet i with hnil | hfinished
  · rw [hnil]
    exact .inl rfl
  · have hdone := (follows_of_pool h i).2
    cases hp : ps i with
    | ret b =>
      rw [hp] at hdone
      exact .inl hdone
    | throw e =>
      rw [hp] at hdone
      exact hdone
    | act a k =>
      rw [hp] at hfinished
      exact hfinished.elim

theorem mem_owed_of_mem_outstanding (h : sem.Pool w₀ (fun i => (calls i).run) tr w ps) {i : ι}
    {d : Due} : (i, d) ∈ dues.outstanding tr ↔ d ∈ dues.owed (Sem.own i tr) := by
  rw [← List.count_pos_iff, ← List.count_pos_iff,
    Debts.count_outstanding fun i => (follows_of_pool h i).1.honours]

/-- What is taken on has been done, or is outstanding. -/
theorem incurred_perm (h : sem.Pool w₀ (fun i => (calls i).run) tr w ps) :
    (dues.incurred tr).Perm (dues.paid tr ++ (dues.outstanding tr).map Prod.snd) :=
  Debts.incurred_perm (fun i => (follows_of_pool h i).1.honours) incur_eq_none_of_pay

/-! ## Replies -/

/-- The handlers stored for the replies to an address. -/
def stored (u : CppString) (tr : List (ι × Label Act.Res)) : List VertxReplyHandlers :=
  tr.filterMap fun l =>
    match l.2.1 with
    | .putReply uuid rh => if uuid = u then some rh else none
    | _ => none

/-- The handlers to be called for an address. -/
def Due.handlers (u : CppString) : Due → Option VertxReplyHandlers
  | .call address rh => if address = u then some rh else none
  | _ => none

/-- The handlers taken for the replies to an address. -/
def taken (u : CppString) (tr : List (ι × Label Act.Res)) : List VertxReplyHandlers :=
  (dues.incurred tr).filterMap (Due.handlers u)

/-- What has been done with the handlers taken for the replies to an address. -/
def answers (u : CppString) (tr : List (ι × Label Act.Res)) :
    List (VertxReplyHandlers × Option Invocation) :=
  tr.filterMap fun l =>
    match l.2.1 with
    | .answer address rh invocation => if address = u then some (rh, invocation) else none
    | _ => none

/-- The handlers called for the replies to an address. -/
def called (u : CppString) (tr : List (ι × Label Act.Res)) : List VertxReplyHandlers :=
  (answers u tr).filterMap fun a => a.2.map fun _ => a.1

variable {u : CppString}

omit [DecidableEq ι] in
theorem stored_snoc (l : ι × Label Act.Res) : stored u (tr ++ [l]) = stored u tr ++ stored u [l] :=
  List.filterMap_append ..

omit [DecidableEq ι] in
theorem taken_snoc (l : ι × Label Act.Res) : taken u (tr ++ [l]) =
    taken u tr ++ ((dues.incur l.2.1 l.2.2).bind (Due.handlers u)).toList := by
  rw [taken, Debts.incurred_snoc, List.filterMap_append]
  cases dues.incur l.2.1 l.2.2 with
  | none => rfl
  | some d => cases hd : Due.handlers u d <;> simp [taken, hd]

omit [DecidableEq ι] in
theorem answers_eq : (answers u tr).map Prod.fst = (dues.paid tr).filterMap (Due.handlers u) := by
  rw [answers, Debts.paid, List.filterMap_filterMap, List.map_filterMap]
  refine List.filterMap_congr fun l _ => ?_
  obtain ⟨i, a, r⟩ := l
  cases a with
  | send frame => cases frame <;> rfl
  | answer address rh invocation => by_cases ha : address = u <;> simp [dues, Due.handlers, ha]
  | _ => rfl

omit [DecidableEq ι] in
/-- What is stored, is stored for an address that has been made. -/
theorem length_stored : (stored u tr).length = (dues.paid tr).count (.store u) := by
  induction tr using List.reverseRecOn with
  | nil => rfl
  | append_singleton tr l ih =>
    rw [stored_snoc, Debts.paid_snoc, List.length_append, List.count_append, ih]
    obtain ⟨i, a, r⟩ := l
    cases a with
    | putReply uuid rh =>
      by_cases hu : uuid = u
      · subst hu
        simp [stored, dues]
      · simp [stored, dues, hu]
    | answer => simp [stored, dues]
    | send frame => cases frame <;> simp [stored, dues]
    | _ => rfl

/-- An address is made once. -/
theorem count_made_le (h : sem.Pool w₀ (fun i => (calls i).run) tr w ps) :
    (dues.incurred tr).count (.store u) ≤ 1 ∧
      (0 < (dues.incurred tr).count (.store u) → u ∈ w.uuids) := by
  induction h with
  | init => exact ⟨Nat.zero_le 1, fun h => absurd h (Nat.lt_irrefl 0)⟩
  | @prim tr w ps i a r k _ _ _ hok ih =>
    rw [Debts.incurred_snoc, List.count_append]
    by_cases hmake : a = .makeUUID
    · subst hmake
      by_cases hu : (r : CppString) = u
      · -- it is a new one
        subst hu
        have hzero : (dues.incurred tr).count (.store r) = 0 :=
          Nat.eq_zero_of_not_pos fun hpos => hok.1 (ih.2 hpos)
        rw [hzero]
        exact ⟨by simp [dues], fun _ => List.mem_cons_self⟩
      · have hne : Due.store r ≠ .store u := fun heq => hu (Due.store.inj heq)
        simp only [dues, Option.toList_some, List.count_singleton, beq_iff_eq, if_neg hne, Nat.add_zero]
        exact ⟨ih.1, fun hpos => List.mem_cons_of_mem _ (ih.2 hpos)⟩
    · have huuids : (w.eff a r).uuids = w.uuids := by
        cases a with
        | makeUUID => exact absurd rfl hmake
        | _ => rfl
      have hzero : (dues.incur a r).toList.count (.store u) = 0 := by
        cases a with
        | makeUUID => exact absurd rfl hmake
        | takeReply address =>
          cases (r : Option VertxReplyHandlers) <;> simp [dues]
        | pushHandler | eraseHandlers =>
          cases (r : Bool) <;> simp [dues]
        | _ => rfl
      rw [hzero, Nat.add_zero]
      exact ⟨ih.1, fun hpos => huuids ▸ ih.2 hpos⟩
  | body i _ _ hb _ => cases hb

theorem length_stored_le (h : sem.Pool w₀ (fun i => (calls i).run) tr w ps) :
    (stored u tr).length ≤ 1 :=
  calc (stored u tr).length
    _ = (dues.paid tr).count (.store u) := length_stored
    _ ≤ (dues.incurred tr).count (.store u) := by
      rw [(incurred_perm h).count_eq, List.count_append]
      exact Nat.le_add_right _ _
    _ ≤ 1 := (count_made_le h).1

omit [DecidableEq ι] in
/-- What an action stores, takes and leaves for the replies to an address. -/
theorem stored_step {u : CppString} {w : Bus} {i : ι} {a : Act} {r : a.Res} (hok : sem.ok w a r)
    (hclear : a ≠ .clearReplies) : (∃ rh, a = .putReply u rh ∧ stored u [(i, ⟨a, r⟩)] = [rh] ∧
        (dues.incur a r).bind (Due.handlers u) = none ∧
        (sem.eff w a r).reply_handlers_ u = some rh) ∨
      (stored u [(i, ⟨a, r⟩)] = [] ∧ (w.reply_handlers_ u).toList =
        ((dues.incur a r).bind (Due.handlers u)).toList ++
          ((sem.eff w a r).reply_handlers_ u).toList) := by
  cases a with
  | putReply uuid rh =>
    by_cases hu : uuid = u
    · subst hu
      exact .inl ⟨rh, rfl, by simp [stored], rfl, Function.update_self ..⟩
    · refine .inr ⟨by simp [stored, hu], ?_⟩
      -- the handlers of another address
      show _ = [] ++ (Function.update w.reply_handlers_ uuid (some rh) u).toList
      rw [Function.update_of_ne (Ne.symm hu), List.nil_append]
  | takeReply address =>
    obtain rfl : r = w.reply_handlers_ address := hok.1
    refine .inr ⟨rfl, ?_⟩
    show _ = _ ++ (Function.update w.reply_handlers_ address none u).toList
    by_cases hu : address = u
    · subst hu
      rw [Function.update_self]
      cases w.reply_handlers_ address <;> simp [dues, Due.handlers]
    · rw [Function.update_of_ne (Ne.symm hu)]
      cases w.reply_handlers_ address <;> simp [dues, Due.handlers, hu]
  | pushHandler | eraseHandlers => exact .inr ⟨rfl, by cases (r : Bool) <;> rfl⟩
  | clearReplies => exact absurd rfl hclear
  | _ => exact .inr ⟨rfl, rfl⟩

omit [DecidableEq ι] in
/-- The handlers that are taken, and those that are pending, have been stored: these are
    all, unless others have been stored or all are cleared. -/
theorem taken_sublist [DecidableEq ι] {ps₀ : ι → Prog Bool} (h : sem.Pool w₀ ps₀ tr w ps)
    (h₀ : w₀.reply_handlers_ u = none) :
    (taken u tr ++ (w.reply_handlers_ u).toList).Sublist (stored u tr) ∧
      ((stored u tr).length ≤ 1 → (∀ i r, (i, ⟨.clearReplies, r⟩) ∉ tr) →
        taken u tr ++ (w.reply_handlers_ u).toList = stored u tr) := by
  induction h with
  | init =>
    rw [h₀]
    exact ⟨.refl [], fun _ _ => rfl⟩
  | @prim tr w ps i a r k _ _ _ hok ih =>
    rw [taken_snoc, stored_snoc]
    by_cases hclear : a = .clearReplies
    · subst hclear
      refine ⟨?_, fun _ hnot => absurd (List.mem_append_right _ (List.mem_singleton_self _)) (hnot i r)⟩
      show (taken u tr ++ [] ++ []).Sublist (stored u tr ++ [])
      simpa using (List.sublist_append_left _ _).trans ih.1
    · rcases stored_step (i := i) (u := u) hok hclear with ⟨rh, -, hs, ht, heff⟩ | ⟨hs, ht⟩
      · dsimp only
        rw [hs, ht, heff]
        have hsub : (taken u tr).Sublist (stored u tr) := (List.sublist_append_left _ _).trans ih.1
        refine ⟨by simpa using hsub.append_right [rh], fun hle _ => ?_⟩
        -- it is the first one, so that nothing has been taken
        obtain hnil : stored u tr = [] := by simpa using hle
        rw [hnil, List.sublist_nil] at hsub
        rw [hnil, hsub]
        rfl
      · dsimp only
        rw [hs, List.append_assoc, ← ht, List.append_nil]
        exact ⟨ih.1, fun hle hnot =>
          ih.2 hle fun j r' hmem => hnot j r' (List.mem_append_left _ hmem)⟩
  | body i _ _ hb _ => cases hb

/-- What becomes of the handlers stored for the reply to a request. -/
structure Answered (calls : ι → Call) (tr : List (ι × Label Act.Res)) (w : Bus)
    (ps : ι → Prog Bool) (u : CppString) : Prop where
  /-- They are called once at most, ... -/
  once : (called u tr).length ≤ 1
  /-- ... for a message that is addressed to them, and as it asks. -/
  asked : ∀ i rh invocation r, (i, ⟨.answer u rh (some invocation), r⟩) ∈ tr →
    rh ∈ stored u tr ∧ ∃ json, calls i = .OnMessage (some json) ∧ AddressedTo json u ∧
      rh.CalledWith json (some invocation)
  /-- Unless the connection is closed, when no call is in progress, they are pending, or a
      message that is addressed to them has taken them, and called them exactly if it could. -/
  settled : Quiescent tr ps → (∀ i, calls i ≠ .OnClose) → ∀ rh ∈ stored u tr,
    (w.reply_handlers_ u = some rh ∧ called u tr = []) ∨
      (w.reply_handlers_ u = none ∧ ∃ i json, calls i = .OnMessage (some json) ∧
        AddressedTo json u ∧ (i, ⟨.takeReply u, some rh⟩) ∈ tr ∧
          called u tr = if rh.calledFor json then [rh] else [])

/-- What has been taken has been answered, or is outstanding. -/
theorem taken_perm (h : sem.Pool w₀ (fun i => (calls i).run) tr w ps) :
    (taken u tr).Perm ((answers u tr).map Prod.fst ++
      ((dues.outstanding tr).map Prod.snd).filterMap (Due.handlers u)) := by
  have hperm := (incurred_perm h).filterMap (Due.handlers u)
  rwa [List.filterMap_append, ← answers_eq] at hperm

omit [DecidableEq ι] in
theorem exists_takeReply {rh : VertxReplyHandlers} (h : rh ∈ taken u tr) :
    ∃ i, (i, ⟨.takeReply u, some rh⟩) ∈ tr := by
  obtain ⟨d, hd, hrh⟩ := List.mem_filterMap.1 h
  obtain ⟨⟨i, a, r⟩, hl, hincur⟩ := List.mem_filterMap.1 hd
  cases a with
  | takeReply address =>
    obtain ⟨rh', hr, rfl⟩ := Option.map_eq_some_iff.1 hincur
    obtain rfl : r = some rh' := hr
    by_cases ha : address = u
    · subst ha
      obtain rfl := Option.some.inj ((if_pos rfl).symm.trans hrh)
      exact ⟨i, hl⟩
    · exact absurd ((if_neg ha).symm.trans hrh) (by simp)
  | makeUUID =>
    obtain rfl := Option.some.inj hincur
    cases hrh
  | pushHandler | eraseHandlers =>
    cases (r : Bool)
    · cases hincur
    · obtain rfl := Option.some.inj hincur
      cases hrh
  | _ => cases hincur

omit [DecidableEq ι] in
theorem mem_answers {i : ι} {rh : VertxReplyHandlers} {invocation : Option Invocation} {r : Unit}
    (h : (i, ⟨.answer u rh invocation, r⟩) ∈ tr) : (rh, invocation) ∈ answers u tr :=
  List.mem_filterMap.2 ⟨_, h, if_pos rfl⟩

theorem VertxReplyHandlers.CalledWith.isSome_eq {rh : VertxReplyHandlers} {json : JsonValue}
    {invocation : Option Invocation} (h : rh.CalledWith json invocation) :
    invocation.isSome = rh.calledFor json := by
  obtain ⟨s, rfl, hs⟩ := h
  rw [VertxReplyHandlers.call, VertxReplyHandlers.calledFor]
  split_ifs with herr
  · exact Option.isSome_map
  · rw [hs (Bool.not_eq_true _ ▸ herr)]
    rfl

/-- The handlers that a message has taken are called exactly if it can. -/
theorem called_of_takeReply (h : sem.Pool w₀ (fun i => (calls i).run) tr w ps)
    (hquiet : Quiescent tr ps) {i : ι} {rh : VertxReplyHandlers} {json : JsonValue}
    (hi : calls i = .OnMessage (some json)) (htake : (i, ⟨.takeReply u, some rh⟩) ∈ tr)
    (htaken : taken u tr = [rh]) : called u tr = if rh.calledFor json then [rh] else [] := by
  have hperm := taken_perm h (u := u)
  rw [htaken] at hperm
  rcases Debts.mem_owed_or_paid (D := dues) (d := .call u rh) (follows_of_pool h i).1.honours
    (mem_own htake) rfl with howed | ⟨⟨a, r⟩, hl, hpay⟩
  · -- the call has ended with an exception
    rcases leaves_of_quiescent h hquiet i with hnil | ⟨address, rh', json', howed', hi', herr, hnone⟩
    · rw [hnil] at howed
      cases howed
    · obtain rfl : json' = json := by
        rw [hi] at hi'
        exact (Option.some.inj (Call.OnMessage.inj hi')).symm
      have hnot : rh.calledFor json' = false := by
        rw [VertxReplyHandlers.calledFor, herr, hnone]
        rfl
      have hout : rh ∈ ((dues.outstanding tr).map Prod.snd).filterMap (Due.handlers u) :=
        List.mem_filterMap.2 ⟨.call u rh,
          List.mem_map.2 ⟨(i, .call u rh), (mem_owed_of_mem_outstanding h).2 howed, rfl⟩, if_pos rfl⟩
      have hnil : (answers u tr).map Prod.fst = [] := by
        have hlength := hperm.length_eq
        rw [List.length_append, List.length_singleton] at hlength
        have hpos := List.length_pos_of_mem hout
        exact List.length_eq_zero_iff.1 (by omega)
      rw [called, List.map_eq_nil_iff.1 hnil, hnot]
      rfl
  · obtain ⟨invocation, rfl⟩ : ∃ invocation, a = .answer u rh invocation := by
      cases a with
      | answer address rh' invocation =>
        obtain ⟨rfl, rfl⟩ := Due.call.inj (Option.some.inj hpay)
        exact ⟨invocation, rfl⟩
      | putReply => cases Option.some.inj hpay
      | send frame =>
        cases frame with
        | register | unregister => cases Option.some.inj hpay
        | envelope | ping => cases hpay
      | _ => cases hpay
    have hmem := mem_of_mem_own hl
    obtain ⟨json', hi', -, hwith⟩ := permits_of_mem h hmem
    obtain rfl : json' = json := by
      rw [hi] at hi'
      exact (Option.some.inj (Call.OnMessage.inj hi')).symm
    -- it is the only one, as nothing else has been taken
    have hone : (answers u tr).length = 1 := by
      have hlength := hperm.length_eq
      rw [List.length_append, List.length_singleton, List.length_map] at hlength
      have hpos := List.length_pos_of_mem (mem_answers hmem)
      omega
    obtain ⟨a, ha⟩ := List.length_eq_one_iff.1 hone
    obtain rfl : (rh, invocation) = a := List.mem_singleton.1 (ha ▸ mem_answers hmem)
    rw [called, ha, ← hwith.isSome_eq]
    cases invocation <;> rfl

theorem answered_once (h : sem.Pool w₀ (fun i => (calls i).run) tr w ps)
    (h₀ : w₀.reply_handlers_ u = none) : Answered calls tr w ps u := by
  obtain ⟨hsub, hall⟩ := taken_sublist h h₀
  have hperm := taken_perm h (u := u)
  have hstored := length_stored_le h (u := u)
  have htaken : (taken u tr).length ≤ (stored u tr).length :=
    ((List.sublist_append_left _ _).trans hsub).length_le
  refine ⟨?_, fun i rh invocation r hmem => ⟨?_, permits_of_mem h hmem⟩,
    fun hquiet hopen rh hrh => ?_⟩
  · calc (called u tr).length
      _ ≤ (answers u tr).length := List.length_filterMap_le ..
      _ ≤ (taken u tr).length := by
        rw [hperm.length_eq, List.length_append, List.length_map]
        exact Nat.le_add_right _ _
      _ ≤ (stored u tr).length := htaken
      _ ≤ 1 := hstored
  · have hrh : rh ∈ taken u tr :=
      hperm.mem_iff.2 (List.mem_append_left _ (List.mem_map_of_mem (mem_answers hmem)))
    exact hsub.subset (List.mem_append_left _ hrh)
  · -- nothing has been cleared: what is stored has been taken, or is pending
    have heq := hall hstored fun i r hmem => hopen i (permits_of_mem h hmem)
    obtain ⟨rh', hone⟩ : ∃ rh', stored u tr = [rh'] :=
      List.length_eq_one_iff.1 (le_antisymm hstored (List.length_pos_of_mem hrh))
    obtain rfl : rh = rh' := List.mem_singleton.1 (hone ▸ hrh)
    rw [hone] at heq
    cases hw : w.reply_handlers_ u with
    | some rh' =>
      -- nothing has taken them
      rw [hw, Option.toList_some, List.append_eq_singleton_iff] at heq
      obtain ⟨hnil, hpending⟩ := heq.resolve_right fun h => by cases h.2
      rw [hnil, List.nil_perm, List.append_eq_nil_iff, List.map_eq_nil_iff] at hperm
      refine .inl ⟨congrArg some (List.singleton_inj.1 hpending), ?_⟩
      rw [called, hperm.1]
      rfl
    | none =>
      rw [hw, Option.toList_none, List.append_nil] at heq
      obtain ⟨i, htake⟩ := exists_takeReply (heq ▸ List.mem_singleton_self rh)
      obtain ⟨json, hi, haddressed⟩ := permits_of_mem h htake
      exact .inr ⟨rfl, i, json, hi, haddressed, htake, called_of_takeReply h hquiet hi htake heq⟩

end

/-- An address that was never made. -/
def Bus.freshUUID (w : Bus) : CppString := .replicate (w.uuids.flatten.length + 1) 0x61

theorem Bus.freshUUID_not_mem (w : Bus) : w.freshUUID ∉ w.uuids := by
  intro hmem
  have hle : w.freshUUID.length ≤ w.uuids.flatten.length :=
    (List.sublist_flatten_of_mem hmem).length_le
  rw [Bus.freshUUID, List.length_replicate] at hle
  exact Nat.not_succ_le_self _ hle

/-- The answers without errors. -/
def Bus.succeed (w : Bus) : (a : Act) → a.Res
  | .readyState => w.state_
  | .getConnection _ | .send _ | .close => true
  | .pushHandler address _ => (w.handler_map_ address).isEmpty
  | .eraseHandlers address reply_handler => !(w.handler_map_ address).isEmpty &&
      (removed reply_handler (w.handler_map_ address)).isEmpty
  | .copyHandlers address => w.handler_map_ address
  | .getDefaultHeaders => w.default_headers_
  | .makeUUID => w.freshUUID
  | .takeReply address => w.reply_handlers_ address
  | .getCallbacks => w.callbacks
  | .startPing => !w.do_ping_
  | .readPing => w.do_ping_
  | .setState _ | .configure _ | .connect | .setDefaultHeaders _ | .putReply .. | .clearReplies
  | .clearHandlers | .deliver _ | .answer .. | .callback .. | .stopPing | .lock => ()

theorem Bus.ok_succeed (w : Bus) (a : Act) : lockless.ok w a (w.succeed a) := by
  cases a with
  | makeUUID => exact w.freshUUID_not_mem
  | readyState | pushHandler | eraseHandlers | copyHandlers | getDefaultHeaders | takeReply
  | getCallbacks | startPing | readPing => rfl
  | _ => trivial

/-- The interleavings on an open connection in which nobody waits for the lock in vain. -/
theorem pool_of_succeed {ι : Type} [DecidableEq ι] (ps₀ : ι → Prog Bool) (is : List ι)
    (hlock : lockless.meets Bus.succeed (fun w a _ => w.Unlocked a) is
      ([], { state_ := .kOpen }, ps₀) = true) :
    sem.Pool { state_ := .kOpen } ps₀
      (lockless.schedule Bus.succeed is ([], { state_ := .kOpen }, ps₀)).1
      (lockless.schedule Bus.succeed is ([], { state_ := .kOpen }, ps₀)).2.1
      (lockless.schedule Bus.succeed is ([], { state_ := .kOpen }, ps₀)).2.2 :=
  pool_schedule_of_meets Bus.ok_succeed (fun _ _ _ h => h) is hlock .init

/-- A request, and the reply to it. -/
theorem answered_send :
    let rh : VertxReplyHandlers := { reply_handler := .object 0, failure_handler := none }
    let calls (b : Bool) : Call :=
      if b then .OnMessage (some (.object [(cstr "address", .string (cstr "a"))]))
      else .Send (cstr "kvdnsvc") .null .null (some rh)
    ∃ tr w ps, sem.Pool { state_ := .kOpen } (fun i => (calls i).run) tr w ps ∧
      Answered calls tr w ps (cstr "a") ∧ called (cstr "a") tr = [rh] := by
  intro rh calls
  have hpool := pool_of_succeed (fun i => (calls i).run)
    (.replicate 5 false ++ .replicate 5 true) (by decide +kernel)
  exact ⟨_, _, _, hpool, answered_once hpool rfl, by decide +kernel⟩

/-! ## Registrations -/

/-- The addresses the server delivers from, after what it has been told. -/
def registered (S : Finset CppString) (t : CppString × Bool) : Finset CppString :=
  if t.2 then insert t.1 S else S.erase t.1

/-- What the server is to be told. -/
def Due.registration : Due → Option (CppString × Bool)
  | tell address b => some (address, b)
  | _ => none

/-- Two dues are about the registration of the same address. -/
def Due.Conflicts : Due → Due → Prop
  | tell address _, tell address' _ => address = address'
  | _, _ => False

instance Due.decidableConflicts : DecidableRel Due.Conflicts
  | tell address _, tell address' _ => inferInstanceAs (Decidable (address = address'))
  | tell .., store _ | tell .., call .. | store _, _ | call .., _ => .isFalse nofun

/-- The addresses registered after a due is paid. -/
def Due.register (S : Finset CppString) (d : Due) : Finset CppString :=
  d.registration.elim S (registered S)

theorem Due.register_comm (d d' : Due) (h : ¬ d.Conflicts d') (S : Finset CppString) :
    Due.register (Due.register S d) d' = Due.register (Due.register S d') d := by
  cases d with
  | tell address b =>
    cases d' with
    | tell address' b' =>
      have hne : address ≠ address' := h
      cases b <;> cases b'
      · exact Finset.erase_right_comm
      · exact (Finset.erase_insert_of_ne hne.symm).symm
      · exact Finset.erase_insert_of_ne hne
      · exact Finset.insert_comm _ _ _
    | _ => rfl
  | _ => rfl

/-- What a due tells of the registration of an address. -/
def Due.about (address : CppString) : Due → Option Bool
  | tell address' b => if address' = address then some b else none
  | _ => none

theorem Due.mem_register (d : Due) (S : Finset CppString) (address : CppString) :
    address ∈ Due.register S d ↔ (d.about address).elim (address ∈ S) (· = true) := by
  cases d with
  | tell address' b =>
    by_cases ha : address' = address
    · subst ha
      cases b <;> simp [Due.register, Due.registration, registered, Due.about]
    · have hne : address ≠ address' := Ne.symm ha
      cases b <;> simp [Due.register, Due.registration, registered, Due.about, ha, hne]
  | _ => exact Iff.rfl

theorem Due.count_tell (d : Due) (address : CppString) (b : Bool) :
    [d].count (.tell address b) = if d.about address = some b then 1 else 0 := by
  cases d with
  | tell address' b' => by_cases ha : address' = address <;> simp [Due.about, ha, List.count_singleton]
  | _ => simp [Due.about]

/-- The address has handlers. -/
def Bus.hasHandlers (w : Bus) (address : CppString) : Bool := !(w.handler_map_ address).isEmpty

theorem removed_nil (reply_handler : Option ReplyHandler) : removed reply_handler [] = [] := by
  rcases reply_handler with _ | _ | _ <;> rfl

/-- When an address gets its first handler, or its last one is taken away, the server is to
    be told. -/
theorem about_incur {w : Bus} {a : Act} {r : a.Res} (hok : sem.ok w a r)
    (hclear : a ≠ .clearHandlers) (address : CppString) :
    (dues.incur a r).bind (Due.about address) =
      if (sem.eff w a r).hasHandlers address = w.hasHandlers address then none
      else some ((sem.eff w a r).hasHandlers address) := by
  cases a with
  | pushHandler address' rh =>
    obtain rfl : r = (w.handler_map_ address').isEmpty := hok.1
    by_cases ha : address' = address
    · subst ha
      have hnew : (sem.eff w (.pushHandler address' rh) (w.handler_map_ address').isEmpty).hasHandlers
          address' = true := by simp [eff_eq, Bus.eff, Bus.hasHandlers]
      rw [hnew, Bus.hasHandlers]
      cases (w.handler_map_ address').isEmpty <;> simp [dues, Due.about]
    · have hnew : (sem.eff w (.pushHandler address' rh) (w.handler_map_ address').isEmpty).hasHandlers
          address = w.hasHandlers address := by
        simp [eff_eq, Bus.eff, Bus.hasHandlers, Function.update_of_ne (Ne.symm ha)]
      rw [hnew, if_pos rfl]
      cases (w.handler_map_ address').isEmpty <;> simp [dues, Due.about, ha]
  | eraseHandlers address' reply_handler =>
    obtain rfl : r = (!(w.handler_map_ address').isEmpty &&
      (removed reply_handler (w.handler_map_ address')).isEmpty) := hok.1
    generalize hr : (!(w.handler_map_ address').isEmpty &&
      (removed reply_handler (w.handler_map_ address')).isEmpty) = r
    by_cases ha : address' = address
    · subst ha
      have hnew : (sem.eff w (.eraseHandlers address' reply_handler) r).hasHandlers address' =
          !(removed reply_handler (w.handler_map_ address')).isEmpty := by
        simp [eff_eq, Bus.eff, Bus.hasHandlers]
      rw [hnew, Bus.hasHandlers, ← hr]
      cases w.handler_map_ address' with
      | nil =>
        rw [removed_nil]
        rfl
      | cons rh rest =>
        cases (removed reply_handler (rh :: rest)).isEmpty <;> simp [dues, Due.about]
    · have hnew : (sem.eff w (.eraseHandlers address' reply_handler) r).hasHandlers address =
          w.hasHandlers address := by
        simp [eff_eq, Bus.eff, Bus.hasHandlers, Function.update_of_ne (Ne.symm ha)]
      rw [hnew, if_pos rfl]
      cases r <;> simp [dues, Due.about, ha]
  | clearHandlers => exact absurd rfl hclear
  | takeReply address' =>
    refine Eq.trans ?_ (if_pos rfl).symm
    cases (r : Option VertxReplyHandlers) <;> rfl
  | _ => exact (if_pos rfl).symm

section

variable {ι : Type} [DecidableEq ι] {calls : ι → Call} {w₀ w : Bus}
  {tr : List (ι × Label Act.Res)} {ps : ι → Prog Bool} {address : CppString}

omit [DecidableEq ι] in
/-- The dues tell, in the order in which they are incurred, which addresses have handlers. -/
theorem hasHandlers_of_pool [DecidableEq ι] {ps₀ : ι → Prog Bool} (h : sem.Pool w₀ ps₀ tr w ps)
    (h₀ : w₀.handler_map_ address = []) (hclear : ∀ i r, (i, ⟨.clearHandlers, r⟩) ∉ tr) :
    (address ∈ (dues.incurred tr).foldl Due.register ∅ ↔ w.hasHandlers address = true) ∧
      (dues.incurred tr).count (.tell address true) =
        (dues.incurred tr).count (.tell address false) + (w.hasHandlers address).toNat := by
  induction h with
  | init => simp [Bus.hasHandlers, h₀, Debts.incurred]
  | @prim tr w ps i a r k _ _ _ hok ih =>
    obtain ⟨hmem, hcount⟩ := ih fun j r' hj => hclear j r' (List.mem_append_left _ hj)
    have hact : a ≠ .clearHandlers := by
      rintro rfl
      exact hclear i r (List.mem_append_right _ (List.mem_singleton_self _))
    have habout := about_incur hok hact address
    rw [Debts.incurred_snoc]
    dsimp only
    cases hd : dues.incur a r with
    | none =>
      rw [hd] at habout
      have hsame : (sem.eff w a r).hasHandlers address = w.hasHandlers address := by
        by_contra hne
        cases habout.trans (if_neg hne)
      rw [hsame]
      simpa using ⟨hmem, hcount⟩
    | some d =>
      rw [hd, Option.bind_some] at habout
      rw [Option.toList_some, List.foldl_append, List.foldl_cons, List.foldl_nil, Due.mem_register,
        List.count_append, List.count_append, Due.count_tell, Due.count_tell, habout]
      by_cases hsame : (sem.eff w a r).hasHandlers address = w.hasHandlers address
      · rw [if_pos hsame, hsame]
        simpa using ⟨hmem, hcount⟩
      · -- the first handler, or the last one
        rw [if_neg hsame]
        cases hnew : (sem.eff w a r).hasHandlers address <;>
          cases hold : w.hasHandlers address <;> simp_all
  | body i _ _ hb _ => cases hb

omit [DecidableEq ι] in
/-- What the server has been told: the frames sent without an error, in their order. -/
def told (tr : List (ι × Label Act.Res)) : List (CppString × Bool) :=
  tr.filterMap fun l =>
    match l.2 with
    | ⟨.send (.register address _), (sent : Bool)⟩ => if sent then some (address, true) else none
    | ⟨.send (.unregister address _), (sent : Bool)⟩ => if sent then some (address, false) else none
    | _ => none

omit [DecidableEq ι] in
/-- Nothing that is sent fails. -/
def allSent (tr : List (ι × Label Act.Res)) : Bool :=
  tr.all fun l =>
    match l.2 with
    | ⟨.send _, (sent : Bool)⟩ => sent
    | _ => true

omit [DecidableEq ι] in
theorem told_eq (hsent : allSent tr = true) :
    told tr = (dues.paid tr).filterMap Due.registration := by
  rw [told, Debts.paid, List.filterMap_filterMap]
  refine List.filterMap_congr fun l hl => ?_
  obtain ⟨i, a, r⟩ := l
  cases a with
  | send frame =>
    obtain rfl : r = true := List.all_eq_true.1 hsent _ hl
    cases frame <;> rfl
  | _ => rfl

theorem count_registration (ds : List Due) (address : CppString) (b : Bool) :
    (ds.filterMap Due.registration).count (address, b) = ds.count (.tell address b) := by
  induction ds with
  | nil => rfl
  | cons d ds ih =>
    rw [List.filterMap_cons, List.count_cons, ← ih]
    cases d with
    | tell address' b' => simp [Due.registration, List.count_cons]
    | _ => simp [Due.registration]

theorem foldl_registration (ds : List Due) (S : Finset CppString) :
    (ds.filterMap Due.registration).foldl registered S = ds.foldl Due.register S := by
  induction ds generalizing S with
  | nil => rfl
  | cons d ds ih =>
    rw [List.filterMap_cons, List.foldl_cons, ← ih]
    cases d <;> rfl

/-- What the server knows of the handlers. -/
structure Mirrored (tr : List (ι × Label Act.Res)) (w : Bus) : Prop where
  /-- It has been told of an address as often as that is not so any more, and once more if
      the address has handlers. -/
  count : ∀ address, (told tr).count (address, true) =
    (told tr).count (address, false) + (w.hasHandlers address).toNat
  /-- If what concerns an address is sent in the order in which it is decided, the server
      delivers from the addresses that have handlers. -/
  registered : dues.InOrder Due.Conflicts tr → ∀ address,
    address ∈ (told tr).foldl registered ∅ ↔ w.hasHandlers address = true

/-- What is still owed when no call is in progress is nothing to the server. -/
theorem registration_of_quiescent (h : sem.Pool w₀ (fun i => (calls i).run) tr w ps)
    (hquiet : Quiescent tr ps) {d : Due} (hd : d ∈ (dues.outstanding tr).map Prod.snd) :
    d.registration = none := by
  obtain ⟨⟨i, d⟩, hmem, rfl⟩ := List.mem_map.1 hd
  have howed := (mem_owed_of_mem_outstanding h).1 hmem
  rcases leaves_of_quiescent h hquiet i with hnil | ⟨address, rh, json, heq, -⟩
  · rw [hnil] at howed
    cases howed
  · rw [heq] at howed
    obtain rfl := List.mem_singleton.1 howed
    rfl

theorem foldl_register_of_registration {ds : List Due} (hds : ∀ d ∈ ds, d.registration = none)
    (S : Finset CppString) : ds.foldl Due.register S = S := by
  induction ds with
  | nil => rfl
  | cons d ds ih =>
    obtain ⟨hd, hds⟩ := List.forall_mem_cons.1 hds
    rw [List.foldl_cons, Due.register, hd]
    exact ih hds

/-- On a connection that is not closed, and on which sending does not fail, the server knows of
    the handlers when no call is in progress. -/
theorem mirrored (h : sem.Pool w₀ (fun i => (calls i).run) tr w ps) (hquiet : Quiescent tr ps)
    (h₀ : ∀ address, w₀.handler_map_ address = []) (hopen : ∀ i, calls i ≠ .OnClose)
    (hsent : allSent tr = true) : Mirrored tr w := by
  have hclear : ∀ i r, (i, ⟨.clearHandlers, r⟩) ∉ tr := fun i r hmem =>
    hopen i (permits_of_mem h hmem)
  have hout : ∀ d ∈ (dues.outstanding tr).map Prod.snd, d.registration = none :=
    fun _ => registration_of_quiescent h hquiet
  -- nothing is outstanding that the server is to be told
  have hcount (address : CppString) (b : Bool) :
      (dues.incurred tr).count (.tell address b) = (dues.paid tr).count (.tell address b) := by
    have hzero : ((dues.outstanding tr).map Prod.snd).count (.tell address b) = 0 :=
      List.count_eq_zero.2 fun hmem => by cases hout _ hmem
    rw [(incurred_perm h).count_eq, List.count_append, hzero, Nat.add_zero]
  refine ⟨fun address => ?_, fun horder address => ?_⟩
  · rw [told_eq hsent, count_registration, count_registration, ← hcount, ← hcount]
    exact (hasHandlers_of_pool h (h₀ address) hclear).2
  · have hfold := Debts.foldl_incurred Due.register_comm
      (fun i => (follows_of_pool h i).1.honours) incur_eq_none_of_pay horder ∅
    rw [foldl_register_of_registration hout] at hfold
    rw [told_eq hsent, foldl_registration, hfold]
    exact (hasHandlers_of_pool h (h₀ address) hclear).1

end

/-- A handler registered and removed, another one registered. -/
theorem mirrored_register :
    let rh (n : ℕ) : VertxReplyHandlers := { reply_handler := .pointer n, failure_handler := none }
    let calls (n : Fin 3) : Call :=
      if n = 1 then .UnregisterHandler (cstr "a") .null (some (.pointer 0))
      else .RegisterHandler (cstr "a") .null (rh n)
    ∃ tr w ps, sem.Pool { state_ := .kOpen } (fun i => (calls i).run) tr w ps ∧ Mirrored tr w ∧
      dues.InOrder Due.Conflicts tr ∧ w.hasHandlers (cstr "a") = true := by
  intro rh calls
  have hpool := pool_of_succeed (fun i => (calls i).run)
    (.replicate 4 0 ++ .replicate 4 1 ++ .replicate 4 2) (by decide +kernel)
  refine ⟨_, _, _, hpool, ?_, by decide +kernel, by decide +kernel⟩
  refine mirrored hpool (fun i => .inr ?_) (fun _ => rfl) (fun i => ?_) (by decide +kernel)
  · exact Callback.Prog.finished_of_value (by revert i; decide +kernel)
  · by_cases hi : i = 1 <;> simp [calls, hi]

/-- The frame of a registration is overtaken by that of the removal of the handler: the
    server delivers from an address that has no handlers. -/
theorem overtaken_register :
    let rh (n : ℕ) : VertxReplyHandlers := { reply_handler := .pointer n, failure_handler := none }
    let calls (n : Fin 2) : Call :=
      if n = 1 then .UnregisterHandler (cstr "a") .null none
      else .RegisterHandler (cstr "a") .null (rh n)
    ∃ tr w ps, sem.Pool { state_ := .kOpen } (fun i => (calls i).run) tr w ps ∧
      (∀ i, ps i = .ret true) ∧ w.hasHandlers (cstr "a") = false ∧
      (told tr).foldl registered ∅ = {cstr "a"} := by
  intro rh calls
  have hpool := pool_of_succeed (fun i => (calls i).run)
    (.replicate 2 0 ++ .replicate 4 1 ++ .replicate 4 0) (by decide +kernel)
  refine ⟨_, _, _, hpool, fun i => ?_, by decide +kernel, by decide +kernel⟩
  exact Callback.Prog.eq_ret_of_value (by revert i; decide +kernel)

end Kvdn.VertxBus
