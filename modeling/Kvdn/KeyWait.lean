import Kvdn.Subscriptions
import Kvdn.WaitGroup
import Mathlib.Data.List.TakeWhile

/-!
# Waiting for keys

A wait group without a timeout, attached to the writes on an address (`onKeys`), while
any transactions run on the node: their steps, the attachment and the deliveries of
what is published come in any order (`Joint`).

* `waits`: `triggercb` is called once at most. When it has been called, every key has been put
  successfully, and this has been published after the attachment. It has been called when
  transactions begun after the attachment have put every key, and all that has been
  published is delivered;
* `put_before_attachment`: a put itself may come before the attachment.
-/

namespace Kvdn.KeyWait

open Callback Callback.Sem AsyncResult

/-- What happens on the node: a step of a transaction, the attachment of the group, or
    the delivery of an event to it. -/
inductive Happening (ι : Type)
  | step (i : ι) (l : Step)
  | attach
  | deliver (e : Event)

namespace Happening

variable {ι : Type}

def isAttach : Happening ι → Bool
  | attach => true
  | _ => false

/-- The step of a transaction. -/
def toStep : Happening ι → Option (ι × Step)
  | step i l => some (i, l)
  | _ => none

/-- The event published. -/
def published : Happening ι → Option Event
  | step _ ⟨.publish e, _⟩ => some e
  | _ => none

/-- The event delivered. -/
def delivered : Happening ι → Option Event
  | deliver e => some e
  | _ => none

end Happening

section

variable {ι : Type} [DecidableEq ι]

/-- The steps of the transactions. -/
def steps (tr : List (Happening ι)) : List (ι × Step) := tr.filterMap Happening.toStep

/-- What has happened before the attachment. -/
def before (tr : List (Happening ι)) : List (Happening ι) := tr.takeWhile fun h => !h.isAttach

/-- What has happened since the attachment. -/
def since (tr : List (Happening ι)) : List (Happening ι) := tr.dropWhile fun h => !h.isAttach

/-- The events published since the attachment. -/
def publishedSince (tr : List (Happening ι)) : List Event := (since tr).filterMap Happening.published

/-- The events delivered. -/
def delivered (tr : List (Happening ι)) : List Event := tr.filterMap Happening.delivered

/-- The group, with its calls. -/
abbrev Group := DistributedWaitGroup.World JsonObject (Option JString)

/-- The consumer of the group: that of the writes on the address. -/
abbrev onKeys (strAddr : JString) : MessageConsumer JsonObject := KvdnSession.onWrite strAddr none

/-- A new group for the keys `T`, without a timeout. -/
def newGroup (T : List JString) : Group := { group := .new (T.map some) 0 }

/-- What may happen, from the state `w₀`: the steps of the transactions `ps₀`, the
    attachment of the group for the keys `T`, once, and, once each, the deliveries of
    what has been published on the address since. -/
inductive Joint (w₀ : World) (ps₀ : ι → Prog (AsyncResult Obj)) (strAddr : JString)
    (T : List JString) :
    List (Happening ι) → World → (ι → Prog (AsyncResult Obj)) → Group → Prop
  | init : Joint w₀ ps₀ strAddr T [] w₀ ps₀ (newGroup T)
  | prim {tr : List (Happening ι)} {w : World} {ps : ι → Prog (AsyncResult Obj)} {d : Group} (i : ι)
      {a : Act} {r : a.Res} {k : a.Res → Prog (AsyncResult Obj)} :
      Joint w₀ ps₀ strAddr T tr w ps d → ps i = .act a k → sem.body a = none → sem.ok w a r →
      Joint w₀ ps₀ strAddr T (tr ++ [.step i ⟨a, r⟩]) (sem.eff w a r) (Function.update ps i (k r)) d
  | body {tr : List (Happening ι)} {w : World} {ps : ι → Prog (AsyncResult Obj)} {d : Group} (i : ι)
      {a : Act} {q : Prog a.Res} {k : a.Res → Prog (AsyncResult Obj)} :
      Joint w₀ ps₀ strAddr T tr w ps d → ps i = .act a k → sem.body a = some q →
      Joint w₀ ps₀ strAddr T tr w (Function.update ps i (q.bind k)) d
  | attach {tr : List (Happening ι)} {w : World} {ps : ι → Prog (AsyncResult Obj)} {d : Group} :
      Joint w₀ ps₀ strAddr T tr w ps d → tr.any Happening.isAttach = false →
      Joint w₀ ps₀ strAddr T (tr ++ [.attach]) w ps (d.step (.attach JsonObject.key))
  | deliver {tr : List (Happening ι)} {w : World} {ps : ι → Prog (AsyncResult Obj)} {d : Group}
      {e : Event} {body : JsonObject} :
      Joint w₀ ps₀ strAddr T tr w ps d → e.address = (onKeys strAddr).address →
      (onKeys strAddr).handle e.body = some body →
      (delivered tr).count e < (publishedSince tr).count e →
      Joint w₀ ps₀ strAddr T (tr ++ [.deliver e]) w ps (d.step (.deliver 0 body))

variable {w₀ w : World} {ps₀ ps : ι → Prog (AsyncResult Obj)} {strAddr : JString}
  {T : List JString} {tr : List (Happening ι)} {d : Group}

/-! ## The parts of a run -/

omit [DecidableEq ι] in
theorem steps_snoc {h : Happening ι} : steps (tr ++ [h]) = steps tr ++ h.toStep.toList := by
  rw [steps, List.filterMap_append]
  rfl

omit [DecidableEq ι] in
theorem delivered_snoc {h : Happening ι} :
    delivered (tr ++ [h]) = delivered tr ++ h.delivered.toList := by
  rw [delivered, List.filterMap_append]
  rfl

omit [DecidableEq ι] in
theorem since_of_not_any (htr : tr.any Happening.isAttach = false) : since tr = [] := by
  refine List.dropWhile_eq_nil_iff.2 fun h hmem => ?_
  rw [Bool.eq_false_iff.2 (List.any_eq_false.1 htr h hmem)]
  rfl

omit [DecidableEq ι] in
theorem publishedSince_snoc {h : Happening ι} : publishedSince (tr ++ [h]) =
    publishedSince tr ++ if tr.any Happening.isAttach then h.published.toList else [] := by
  rw [publishedSince, publishedSince, since, List.dropWhile_append]
  cases htr : tr.any Happening.isAttach with
  | true =>
    obtain ⟨h', hmem, hattach⟩ := List.any_eq_true.1 htr
    have hne : (since tr).isEmpty = false := by
      rw [List.isEmpty_eq_false_iff]
      intro hnil
      have := List.dropWhile_eq_nil_iff.1 hnil h' hmem
      simp [hattach] at this
    rw [since] at hne
    rw [hne, if_neg Bool.false_ne_true, if_pos rfl, List.filterMap_append]
    rfl
  | false =>
    have hnil := since_of_not_any htr
    rw [since] at hnil
    rw [since, hnil]
    cases h <;> rfl

/-- The transactions run as they would without the group. -/
theorem Joint.pool (h : Joint w₀ ps₀ strAddr T tr w ps d) : sem.Pool w₀ ps₀ (steps tr) w ps := by
  induction h with
  | init => exact .init
  | prim i _ hi hb hok ih =>
    rw [steps_snoc]
    exact .prim i ih hi hb hok
  | body i _ hi hb ih => exact .body i ih hi hb
  | attach _ _ ih =>
    rw [steps_snoc]
    exact (List.append_nil _).symm ▸ ih
  | deliver _ _ _ _ ih =>
    rw [steps_snoc]
    exact (List.append_nil _).symm ▸ ih

/-- A run goes on with the steps of the transactions. -/
theorem Joint.of_pool {w' : World} {ps' : ι → Prog (AsyncResult Obj)} {tr' : List (ι × Step)}
    (h : Joint w₀ ps₀ strAddr T tr w ps d) (hpool : sem.Pool w ps tr' w' ps') :
    Joint w₀ ps₀ strAddr T (tr ++ tr'.map fun l => .step l.1 l.2) w' ps' d := by
  induction hpool with
  | init => rwa [List.map_nil, List.append_nil]
  | prim i _ hi hb hok ih =>
    rw [List.map_append, ← List.append_assoc]
    exact .prim i ih hi hb hok
  | body i _ hi hb ih => exact .body i ih hi hb

/-- What is known of the group in a run: it has been told of the events delivered, all of
    which have been published since its attachment. -/
structure Told (strAddr : JString) (T : List JString) (tr : List (Happening ι)) (d : Group) :
    Prop where
  run : ∃ dtr, DistributedWaitGroup.machine.Run (newGroup T) dtr d ∧
    DistributedWaitGroup.acked dtr = (delivered tr).map Event.key ∧
    DistributedWaitGroup.unregistrations dtr = 0
  attachments : d.attachments = if tr.any Happening.isAttach
    then [{ evaluator := JsonObject.key, timer := false }] else []
  calls : ∀ c ∈ d.calls, c = .triggercb
  delivered_le : ∀ e, (delivered tr).count e ≤ (publishedSince tr).count e
  address : ∀ e ∈ delivered tr, e.address = KvTx.writeChannel strAddr

omit [DecidableEq ι] in
theorem Told.init : Told strAddr T ([] : List (Happening ι)) (newGroup T) where
  run := ⟨[], .nil, rfl, rfl⟩
  attachments := rfl
  calls := nofun
  delivered_le _ := le_rfl
  address := nofun

omit [DecidableEq ι] in
/-- A step of a transaction: the group does not move. -/
theorem Told.step (h : Told strAddr T tr d) (i : ι) (l : Step) :
    Told strAddr T (tr ++ [.step i l]) d := by
  have hdelivered : delivered (tr ++ [.step i l]) = delivered tr := by
    rw [delivered_snoc]
    exact List.append_nil _
  refine ⟨?_, ?_, h.calls, fun e => ?_, ?_⟩
  · rw [hdelivered]
    exact h.run
  · simpa [Happening.isAttach] using h.attachments
  · rw [hdelivered, publishedSince_snoc, List.count_append]
    exact (h.delivered_le e).trans (Nat.le_add_right _ _)
  · rw [hdelivered]
    exact h.address

omit [DecidableEq ι] in
theorem Told.attach (h : Told strAddr T tr d) (htr : tr.any Happening.isAttach = false) :
    Told strAddr T (tr ++ [.attach]) (d.step (.attach JsonObject.key)) := by
  have hdelivered : delivered (tr ++ [.attach]) = delivered tr := by
    rw [delivered_snoc]
    exact List.append_nil _
  obtain ⟨dtr, hrun, hacked, hun⟩ := h.run
  have htimeout : d.group.timeout = 0 := DistributedWaitGroup.timeout_of_run hrun
  refine ⟨⟨dtr ++ [(d, .attach JsonObject.key)], hrun.snoc ?_, ?_, ?_⟩, ?_, h.calls,
    fun e => ?_, ?_⟩
  · exact trivial
  · rw [DistributedWaitGroup.acked_snoc, hacked, hdelivered]
    exact List.append_nil _
  · rw [DistributedWaitGroup.unregistrations_snoc (e := .attach JsonObject.key) nofun, hun]
  · have hnone := h.attachments
    rw [htr] at hnone
    simp [DistributedWaitGroup.World.step, DistributedWaitGroup.World.attach, hnone, htimeout,
      Happening.isAttach]
  · rw [hdelivered, publishedSince_snoc, List.count_append]
    exact (h.delivered_le e).trans (Nat.le_add_right _ _)
  · rw [hdelivered]
    exact h.address

omit [DecidableEq ι] in
/-- A delivery: the group is told of the key. -/
theorem Told.deliver (h : Told strAddr T tr d) {e : Event}
    (haddress : e.address = KvTx.writeChannel strAddr)
    (hcount : (delivered tr).count e < (publishedSince tr).count e) :
    Told strAddr T (tr ++ [.deliver e]) (d.step (.deliver 0 e.body)) := by
  have hdelivered : delivered (tr ++ [.deliver e]) = delivered tr ++ [e] := delivered_snoc
  -- something has been published since the attachment
  have hattached : tr.any Happening.isAttach = true := by
    by_contra hne
    rw [publishedSince, since_of_not_any (Bool.eq_false_iff.2 hne)] at hcount
    exact Nat.not_lt_zero _ hcount
  have hd := h.attachments
  rw [hattached, if_pos rfl] at hd
  have hstep : d.step (.deliver 0 e.body) = d.ack e.key := by
    simp [DistributedWaitGroup.World.step, hd, Event.body]
  obtain ⟨dtr, hrun, hacked, hun⟩ := h.run
  refine ⟨⟨dtr ++ [(d, .deliver 0 e.body)], hrun.snoc ?_, ?_, ?_⟩, ?_, ?_, fun e' => ?_, ?_⟩
  · show 0 < d.attachments.length
    rw [hd]
    exact Nat.one_pos
  · rw [DistributedWaitGroup.acked_snoc, hacked, hdelivered, List.map_append]
    simp [DistributedWaitGroup.World.acks, hd, Event.body]
  · rw [DistributedWaitGroup.unregistrations_snoc (fun n heq => by cases heq), hun]
  · rw [hstep]
    simpa [DistributedWaitGroup.World.ack, Happening.isAttach] using h.attachments
  · rw [hstep]
    intro c hc
    simp only [DistributedWaitGroup.World.ack] at hc
    split_ifs at hc
    · rcases List.mem_append.1 hc with hc | hc
      · exact h.calls c hc
      · exact List.mem_singleton.1 hc
    · exact h.calls c hc
  · have hsnoc : publishedSince (tr ++ [.deliver e]) = publishedSince tr := by
      rw [publishedSince_snoc, hattached]
      exact List.append_nil _
    rw [hdelivered, hsnoc, List.count_append, List.count_singleton]
    have hle := h.delivered_le e'
    split_ifs with heq
    · obtain rfl : e = e' := eq_of_beq heq
      exact hcount
    · exact hle
  · rw [hdelivered]
    intro e' he'
    rcases List.mem_append.1 he' with he' | he'
    · exact h.address e' he'
    · exact List.mem_singleton.1 he' ▸ haddress

theorem Joint.told (h : Joint w₀ ps₀ strAddr T tr w ps d) : Told strAddr T tr d := by
  induction h with
  | init => exact .init
  | prim i _ _ _ _ ih => exact ih.step i _
  | body _ _ _ _ ih => exact ih
  | attach _ htr ih => exact ih.attach htr
  | @deliver tr w ps d e body _ haddress hbody hcount ih =>
    obtain rfl : e.body = body := Option.some.inj hbody
    exact ih.deliver haddress hcount

/-! ## What triggers the group -/

omit [DecidableEq ι] in
theorem Told.calls_length (h : Told strAddr T tr d) : d.calls.length ≤ 1 := by
  obtain ⟨dtr, hrun, -, hun⟩ := h.run
  rw [(DistributedWaitGroup.inv hrun).calls, hun]
  exact Bool.toNat_le _

omit [DecidableEq ι] in
/-- The group has been triggered once all its keys are among the events delivered. -/
theorem Told.triggered_iff (h : Told strAddr T tr d) : .triggercb ∈ d.calls ↔
    delivered tr ≠ [] ∧ ∀ k ∈ T, some k ∈ (delivered tr).map Event.key := by
  obtain ⟨dtr, hrun, hacked, hun⟩ := h.run
  have hinv := DistributedWaitGroup.inv hrun
  have hran : .triggercb ∈ d.calls ↔ d.group.ran = true := by
    have hlength := hinv.calls
    rw [hun, Nat.add_zero] at hlength
    rw [← Bool.toNat_eq_one, ← hlength]
    constructor
    · intro hmem
      exact le_antisymm h.calls_length (List.length_pos_of_mem hmem)
    · intro hone
      obtain ⟨c, hc⟩ := List.length_eq_one_iff.1 hone
      have hmem : c ∈ d.calls := by simp [hc]
      exact h.calls c hmem ▸ hmem
  rw [hran, hinv.ran, DistributedWaitGroup.AllAcked, hacked, List.forall_mem_map]
  exact and_congr_left' (not_congr List.map_eq_nil_iff)

omit [DecidableEq ι] in
/-- What has been published since the attachment, comes after it. -/
theorem exists_published {e : Event} (he : e ∈ publishedSince tr) : ∃ tr₁ tr₂ i,
    tr = tr₁ ++ .step i ⟨.publish e, ()⟩ :: tr₂ ∧ tr₁.any Happening.isAttach = true := by
  induction tr using List.reverseRecOn with
  | nil => exact nomatch he
  | append_singleton tr h ih =>
    rw [publishedSince_snoc] at he
    rcases List.mem_append.1 he with he | he
    · obtain ⟨tr₁, tr₂, i, rfl, hattach⟩ := ih he
      exact ⟨tr₁, tr₂ ++ [h], i, by simp, hattach⟩
    · split_ifs at he with hattach
      · rcases h with ⟨i, a, r⟩ | _ | _
        · cases a with
          | publish e' =>
            obtain rfl : e = e' := List.mem_singleton.1 he
            exact ⟨tr, [], i, rfl, hattach⟩
          | _ => exact nomatch he
        · exact nomatch he
        · exact nomatch he
      · exact nomatch he

/-- A transaction begun after the attachment publishes after it. -/
theorem mem_publishedSince {i : ι} {e : Event} {r : Unit} (hbegun : own i (steps (before tr)) = [])
    (he : (⟨.publish e, r⟩ : Step) ∈ own i (steps tr)) : e ∈ publishedSince tr := by
  have hsplit : steps tr = steps (before tr) ++ steps (since tr) := by
    rw [steps, steps, steps, ← List.filterMap_append, before, since, List.takeWhile_append_dropWhile]
  rw [hsplit, own_append, hbegun, List.nil_append] at he
  obtain ⟨⟨j, l⟩, hl, hown⟩ := List.mem_filterMap.1 he
  obtain ⟨h, hh, hstep⟩ := List.mem_filterMap.1 hl
  split_ifs at hown
  obtain rfl := Option.some.inj hown
  rcases h with ⟨j', l'⟩ | _ | _
  · obtain ⟨rfl, rfl⟩ := Prod.mk.inj (Option.some.inj hstep)
    exact List.mem_filterMap.2 ⟨_, hh, rfl⟩
  · exact nomatch hstep
  · exact nomatch hstep

/-! ## Soundness -/

/-- A step has put the key `k` on the address. -/
abbrev Puts (strAddr k : JString) (l : Step) : Prop := Method.onWrite.changed strAddr l = some k

omit [DecidableEq ι] in
theorem puts_iff {k : JString} {l : Step} : Puts strAddr k l ↔
    eventDebts.incur l.1 l.2 = some ⟨KvTx.writeChannel strAddr, some k⟩ := by
  rw [Puts, Method.changed_eq, Option.bind_eq_some_iff]
  constructor
  · rintro ⟨⟨address, key⟩, he, hkey⟩
    split_ifs at hkey with haddress
    obtain rfl : address = KvTx.writeChannel strAddr := haddress
    obtain rfl : key = some k := hkey
    exact he
  · intro he
    exact ⟨_, he, if_pos rfl⟩

/-- The group waits for its keys. -/
structure Waits (strAddr : JString) (T : List JString) (tr : List (Happening ι))
    (ps : ι → Prog (AsyncResult Obj)) (d : Group) : Prop where
  /-- It is triggered once at most. -/
  once : d.calls.count .triggercb ≤ 1
  /-- When it has been triggered, every key has been put, and this has been published
      after the attachment. -/
  sound : .triggercb ∈ d.calls → ∀ k ∈ T, ∃ tr₁ tr₂ i,
    tr = tr₁ ++ .step i ⟨.publish ⟨KvTx.writeChannel strAddr, some k⟩, ()⟩ :: tr₂ ∧
      tr₁.any Happening.isAttach = true ∧ ∃ l ∈ own i (steps tr₁), Puts strAddr k l
  /-- It has been triggered when every key has been put by a transaction that has been
      begun after the attachment and has succeeded, and everything is delivered. -/
  complete : (∀ k ∈ T, ∃ i x, own i (steps (before tr)) = [] ∧ ps i = .ret (succeededFuture x) ∧
      ∃ l ∈ own i (steps tr), Puts strAddr k l) →
    (∀ e, e.address = KvTx.writeChannel strAddr →
      (delivered tr).count e = (publishedSince tr).count e) → .triggercb ∈ d.calls

/-- In all interleavings, the group waits for its keys. -/
theorem waits {txs : ι → KvTx} {ops : ι → Op}
    (h : Joint w₀ (fun i => (txs i).run (ops i)) strAddr T tr w ps d) (hT : T ≠ []) :
    Waits strAddr T tr ps d := by
  have htold := h.told
  have hfollows (i : ι) := follows_of_pool h.pool i
  refine ⟨List.count_le_length.trans htold.calls_length, fun htriggered k hk => ?_,
    fun hput hdelivered => ?_⟩
  · -- from the acknowledgement back to its delivery, its publication, and the put that owed it
    obtain ⟨e, he, hkey⟩ := List.mem_map.1 ((htold.triggered_iff.1 htriggered).2 k hk)
    have hpub : e ∈ publishedSince tr :=
      List.count_pos_iff.1 ((List.count_pos_iff.2 he).trans_le (htold.delivered_le e))
    obtain rfl : e = ⟨KvTx.writeChannel strAddr, some k⟩ := by
      rw [← htold.address e he, ← hkey]
    obtain ⟨tr₁, tr₂, i, rfl, hattach⟩ := exists_published hpub
    refine ⟨tr₁, tr₂, i, rfl, hattach, ?_⟩
    have hown : own i (steps (tr₁ ++ .step i ⟨.publish ⟨KvTx.writeChannel strAddr, some k⟩, ()⟩ :: tr₂)) =
        own i (steps tr₁) ++ ⟨.publish ⟨KvTx.writeChannel strAddr, some k⟩, ()⟩ :: own i (steps tr₂) := by
      simp [steps, own, Happening.toStep]
    obtain ⟨l, hl, hincur⟩ := (hfollows i).1.honours.exists_incur hown rfl
    exact ⟨l, hl, puts_iff.2 hincur⟩
  · refine htold.triggered_iff.2 ?_
    have hall : ∀ k ∈ T, some k ∈ (delivered tr).map Event.key := by
      intro k hk
      obtain ⟨i, x, hbegun, hret, l, hl, hputs⟩ := hput k hk
      obtain ⟨hf, hdone⟩ := hfollows i
      rw [hret] at hdone
      -- a transaction at its end owes nothing, so that the event of the put has been published
      rcases Debts.mem_owed_or_paid hf.honours hl (puts_iff.1 hputs) with howed | ⟨⟨a, r⟩, hpaid, hpay⟩
      · have hnil : eventDebts.owed (own i (steps tr)) = [] := hdone
        cases hnil ▸ howed
      · cases a with
        | publish e =>
          obtain rfl := Option.some.inj hpay
          have hmem := mem_publishedSince hbegun hpaid
          rw [← List.count_pos_iff, ← hdelivered _ rfl, List.count_pos_iff] at hmem
          exact List.mem_map.2 ⟨_, hmem, rfl⟩
        | _ => cases hpay
    obtain ⟨k, hk⟩ := List.exists_mem_of_ne_nil T hT
    obtain ⟨e, he, -⟩ := List.mem_map.1 (hall k hk)
    exact ⟨List.ne_nil_of_mem he, hall⟩

end

/-- A `set` of which the group is told. -/
theorem waits_set :
    let tx : KvTx := { txid := 0, session := .inMemory 0, strAddr := jstr "a" }
    let ps₀ (_ : Unit) := tx.run (.set (jstr "k") (jstr "v"))
    ∃ tr w ps d, Joint { uuids := 1 } ps₀ (jstr "a") [jstr "k"] tr w ps d ∧
      Waits (jstr "a") [jstr "k"] tr ps d ∧ .triggercb ∈ d.calls := by
  intro tx ps₀
  have hpool := pool_schedule_init (S := sem) World.ok_succeed { uuids := 1 } ps₀
    (List.replicate 40 ())
  have hinit : Joint { uuids := 1 } ps₀ (jstr "a") [jstr "k"] [] { uuids := 1 } ps₀ _ := .init
  have hjoint := (hinit.attach rfl).of_pool hpool
  have hdeliver := hjoint.deliver (e := ⟨KvTx.writeChannel (jstr "a"), some (jstr "k")⟩) rfl rfl
    (by decide +kernel)
  exact ⟨_, _, _, _, hdeliver, waits hdeliver (by decide), by decide +kernel⟩

/-- The group is attached when the key has been put, and the event has not yet been
    published: it is triggered. -/
theorem put_before_attachment :
    let tx : KvTx := { txid := 0, session := .inMemory 0, strAddr := jstr "a" }
    let ps₀ (_ : Unit) := tx.run (.set (jstr "k") (jstr "v"))
    ∃ tr w ps d, Joint { uuids := 1 } ps₀ (jstr "a") [jstr "k"] tr w ps d ∧
      .triggercb ∈ d.calls ∧ ∀ l ∈ steps (since tr), ¬ Puts (jstr "a") (jstr "k") l.2 := by
  intro tx ps₀
  have hput := pool_schedule_init (S := sem) World.ok_succeed { uuids := 1 } ps₀
    (List.replicate 4 ())
  have hrest := pool_schedule_init (S := sem) World.ok_succeed
    (sem.schedule World.succeed (List.replicate 4 ()) ([], { uuids := 1 }, ps₀)).2.1
    (sem.schedule World.succeed (List.replicate 4 ()) ([], { uuids := 1 }, ps₀)).2.2
    (List.replicate 40 ())
  have hinit : Joint { uuids := 1 } ps₀ (jstr "a") [jstr "k"] [] { uuids := 1 } ps₀ _ := .init
  have hjoint := ((hinit.of_pool hput).attach (by decide +kernel)).of_pool hrest
  have hdeliver := hjoint.deliver (e := ⟨KvTx.writeChannel (jstr "a"), some (jstr "k")⟩)
    rfl rfl (by decide +kernel)
  exact ⟨_, _, _, _, hdeliver, by decide +kernel, by decide +kernel⟩

end Kvdn.KeyWait
