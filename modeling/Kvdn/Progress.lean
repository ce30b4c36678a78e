import Kvdn.Callback.Outline
import Kvdn.KvTx

/-!
# The progress of a transaction

What a transaction can do, said once: `Progress` is how far it has come, `allow`
the steps its code may take from there, `step` where their answers lead, `throws`
the exceptions it may be cut by. All the operations follow this outline, whatever
their steps answer (`holds_run`): here the code of the operations is looked into,
and nowhere else. What is proved of transactions relates its own annotations to
their progress (`Prog.Holds.refine`), step by step.

The phases of a transaction:

* `idle`, until it is invoked, or `denied` if it had been already;
* `starting`, with the pre hooks still to be called;
* `found`, with its map, and `cleared` once the flags allow it;
* `notifying`, if its call has succeeded and the key provider is to be told;
* `decided`: its outcome is known;
* `finishing`, with the post hooks still to be called, and `finished`;
* `handled`, once its handler has been called.
-/

namespace Kvdn

open Callback Callback.Prog AsyncResult

/-! ## Operations -/

namespace Op

/-- The mode of an operation, which the flags may exclude. -/
def mode : Op → TXMODE
  | submit _ | set _ _ | clear | del _ => .MODE_WRITE
  | get _ | getKeys | size => .MODE_READ

/-- The call of an operation on its map. -/
def call (digest : Option JString) (map : AsyncMap) : Op → Option Act
  | submit content => digest.map fun key => .put map key (.str content)
  | set key content => some (.put map key (.str content))
  | get key => some (.get map key)
  | clear => some (.clear map)
  | del key => some (.remove map key)
  | getKeys => none
  | size => some (.size map)

/-- What the key provider is told when the call has succeeded. -/
def notice (p : KeyProvider) (sa : JString) (digest : Option JString) : Op → Option Act
  | submit _ => digest.map fun key => .setKey p sa key
  | set key _ => some (.setKey p sa key)
  | del key => some (.deleteKey p sa key)
  | get _ | clear | getKeys | size => none

/-- The key provider is told of the operation. -/
def notifies : Op → Bool
  | submit _ | set _ _ | del _ => true
  | get _ | clear | getKeys | size => false

/-- The event of an operation. -/
def event (sa : JString) (digest : Option JString) : Op → Option Event
  | submit _ => digest.map fun key => ⟨KvTx.writeChannel sa, some key⟩
  | set key _ => some ⟨KvTx.writeChannel sa, some key⟩
  | del key => some ⟨KvTx.deleteChannel sa, some key⟩
  | clear => some ⟨KvTx.clearChannel sa, none⟩
  | get _ | getKeys | size => none

/-- What the handler of an operation is given if its call answers `x`. -/
def result (digest : Option JString) (x : Obj) : Op → Option Obj
  | submit _ => digest.map .str
  | set key _ | del key => some (.str key)
  | clear => some .null
  | get _ | getKeys | size => some x

end Op

/-- The answer of a call of a map, or of a key provider for its keys. -/
def Act.answer : (a : Act) → a.Res → Option (AsyncResult Obj)
  | .put _ _ _, r | .get _ _, r | .remove _ _, r | .clear _, r | .size _, r | .getKeys _ _, r => some r
  | _, _ => none

/-- A hook that is skipped: a metadata hook, on the metadata map. -/
def TXNHook.Skipped (sa : JString) (h : TXNHook) : Prop :=
  h.getType = some .META_HOOK ∧ sa = METADATA_MAP

instance (sa : JString) (h : TXNHook) : Decidable (h.Skipped sa) :=
  inferInstanceAs (Decidable (_ ∧ _))

namespace KvTx

/-- The hooks of a list that are called for a transaction. -/
def called (tx : KvTx) (hooks : List TXNHook) : List TXNHook :=
  hooks.filter fun h => !decide (h.Skipped tx.strAddr)

/-- The transaction object, once the operation has started. -/
def started (tx : KvTx) (op : Op) : KvTx := { tx with type := some op.type }

end KvTx

/-! ## Progress -/

/-- What has become of the call of a transaction. -/
inductive Outcome
  | open
  /-- The flags have refused the operation, whose map had been found. -/
  | refused (map : AsyncMap)
  | failed (cause : Throwable)
  | called (answer : Obj)
  deriving DecidableEq

/-- The phases of a transaction. -/
inductive Phase
  | idle
  | denied
  | starting (hooks : List TXNHook)
  | found (map : AsyncMap)
  | cleared (map : AsyncMap)
  | notifying
  | decided
  | finishing (hooks : List TXNHook)
  | finished
  | handled (res : AsyncResult Obj)

/-- The map found, until it has been called. -/
def Phase.map : Phase → Option AsyncMap
  | found map | cleared map => some map
  | _ => none

/-- How far a transaction has come. -/
structure Progress where
  phase : Phase := .idle
  outcome : Outcome := .open
  /-- The key of a `submit`, once it has been computed. -/
  digest : Option JString := none
  published : Bool := false

namespace Progress

/-- What the handler is given. -/
def result (op : Op) (g : Progress) : Option (AsyncResult Obj) :=
  match g.outcome with
  | .open => none
  | .refused map => some (succeededFuture (.asyncMap map))
  | .failed cause => some (failedFuture cause)
  | .called x => (op.result g.digest x).map succeededFuture

/-- The call has succeeded. -/
def Called (g : Progress) : Prop := ∃ x, g.outcome = .called x

/-- The progress the answer of the call makes. -/
def answered (op : Op) (g : Progress) : AsyncResult Obj → Progress
  | succeededFuture x =>
    { g with phase := if op.notifies then .notifying else .decided, outcome := .called x }
  | failedFuture c => { g with phase := .decided, outcome := .failed c }

/-- One hook less is to be called. -/
def popHook (g : Progress) : Progress :=
  match g.phase with
  | .starting (_ :: hooks) => { g with phase := .starting hooks }
  | .finishing (_ :: hooks) => { g with phase := .finishing hooks }
  | _ => g

/-- The progress a step makes. -/
def step (tx : KvTx) (op : Op) (g : Progress) (a : Act) (r : a.Res) : Progress :=
  match a, r with
  | .dirty _, (b : Bool) =>
    { g with phase := if b then .denied else .starting (tx.called tx.session.preHooks) }
  | .hook _ _, _ => g.popHook
  | .getMap _ _, (r : AsyncResult AsyncMap) =>
    match r with
    | succeededFuture map => { g with phase := .found map }
    | failedFuture c => { g with phase := .decided, outcome := .failed c }
  | .checkFlags _ _, (b : Bool) =>
    match g.phase with
    | .found map =>
      if b then { g with phase := .cleared map }
      else { g with phase := .decided, outcome := .refused map }
    | _ => g
  | .digest _, (bytes : List UInt8) => { g with digest := some (encodeHex bytes) }
  | .put _ _ _, (r : AsyncResult Obj) | .get _ _, (r : AsyncResult Obj)
  | .remove _ _, (r : AsyncResult Obj) | .clear _, (r : AsyncResult Obj)
  | .size _, (r : AsyncResult Obj) | .getKeys _ _, (r : AsyncResult Obj) => g.answered op r
  | .setKey _ _ _, _ | .deleteKey _ _ _, _ => { g with phase := .decided }
  | .untrack _ _, _ => { g with phase := .finishing (tx.called tx.session.postHooks) }
  | .accessPut _ _, _ | .accessPutIfAbsent _, _ => { g with phase := .finished }
  | .publish _, _ => { g with published := true }
  | .handle _ res, _ => { g with phase := .handled res }
  | _, _ => g

section

variable {tx tx' : KvTx} {op : Op} {g : Progress} {h : TXNHook} {hooks : List TXNHook}

theorem step_hook_starting (hg : g.phase = .starting (h :: hooks)) (res : AsyncResult Obj) :
    g.step tx op (.hook h tx') res = { g with phase := .starting hooks } := by
  simp [step, popHook, hg]

theorem step_hook_finishing (hg : g.phase = .finishing (h :: hooks)) (res : AsyncResult Obj) :
    g.step tx op (.hook h tx') res = { g with phase := .finishing hooks } := by
  simp [step, popHook, hg]

theorem step_answer {a : Act} {r : a.Res} {res : AsyncResult Obj} (h : a.answer r = some res) :
    g.step tx op a r = g.answered op res := by
  cases a with
  | put | get | remove | clear | size | getKeys =>
    obtain rfl := Option.some.inj h
    rfl
  | _ => exact nomatch h

theorem step_checkFlags {map : AsyncMap} (hg : g.phase = .found map) (sessionid : ℕ)
    (mode : TXMODE) (b : Bool) : g.step tx op (.checkFlags sessionid mode) b =
      if b then { g with phase := .cleared map }
      else { g with phase := .decided, outcome := .refused map } := by
  simp [step, hg]

end

/-- The operation may make the call `a` on its map. -/
def Calls (op : Op) (g : Progress) (a : Act) : Prop :=
  ∃ map, g.phase = .cleared map ∧ g.outcome = .open ∧ op.call g.digest map = some a

/-- The steps a transaction may take. -/
def allow (tx : KvTx) (op : Op) (g : Progress) : Act → Prop
  | .dirty txid => g.phase = .idle ∧ txid = tx.txid
  | .hook h tx' => (∃ hooks, g.phase = .starting (h :: hooks) ∨ g.phase = .finishing (h :: hooks)) ∧
    tx' = tx.started op
  | .getMap D sa => g.phase = .starting [] ∧ g.outcome = .open ∧ op ≠ .getKeys ∧
    D = tx.session.D ∧ sa = tx.strAddr
  | .checkFlags sessionid mode =>
    (∃ map, g.phase = .found map) ∧ g.outcome = .open ∧ sessionid = tx.session.sessionid ∧ mode = op.mode
  | .digest bytes => (∃ map, g.phase = .cleared map) ∧ g.digest = none ∧
    ∃ content, op = .submit content ∧ bytes = content.getBytes
  | .getKeys p sa => g.phase = .starting [] ∧ g.outcome = .open ∧ op = .getKeys ∧
    p = tx.session.keyprov ∧ sa = tx.strAddr
  | .put m key value => g.Calls op (.put m key value)
  | .get m key => g.Calls op (.get m key)
  | .remove m key => g.Calls op (.remove m key)
  | .clear m => g.Calls op (.clear m)
  | .size m => g.Calls op (.size m)
  | .setKey p sa key =>
    g.phase = .notifying ∧ op.notice tx.session.keyprov tx.strAddr g.digest = some (.setKey p sa key)
  | .deleteKey p sa key =>
    g.phase = .notifying ∧
      op.notice tx.session.keyprov tx.strAddr g.digest = some (.deleteKey p sa key)
  | .untrack sessionid txid =>
    g.phase = .decided ∧ sessionid = tx.session.sessionid ∧ txid = tx.txid
  | .accessPut sa txid => g.phase = .finishing [] ∧ tx.session.tracking = true ∧ sa = tx.strAddr ∧
    txid = tx.txid
  | .accessPutIfAbsent sa => g.phase = .finishing [] ∧ tx.session.tracking = false ∧ sa = tx.strAddr
  | .publish e => g.phase = .finished ∧ g.Called ∧ g.published = false ∧
    op.event tx.strAddr g.digest = some e
  | .handle txid res => g.phase = .finished ∧ txid = tx.txid ∧ g.result op = some res ∧
    (g.published = true ↔ g.Called ∧ op.mutates = true)
  | .cacheContains _ | .cacheAdd _ | .cacheRemove _ | .commit | .newTx _ _ | .op _ _ => False

/-- The exceptions that may cut a transaction. -/
def throws (tx : KvTx) (op : Op) (g : Progress) (e : Exn) : Prop :=
  match g.phase with
  | .denied => e = .alreadyInvoked
  | .starting _ => e = .nullPointer ∧ op = .getKeys ∧ ¬tx.session.keyprov.Usable
  | .decided => (∃ msg, g.outcome = .failed (.error msg)) ∧ e = .classCast ∨
    (∃ map, g.outcome = .refused map) ∧ tx.session.isTraceEnabled = true ∧ e = .nullPointer
  | _ => False

/-- The outline of an operation. -/
def outline (tx : KvTx) (op : Op) : Outline Act.Res Exn Progress where
  allow := allow tx op
  next g a r g' := g' = g.step tx op a r
  throws := throws tx op

/-- An operation ends with the result its handler was given. -/
def Done (g : Progress) (res : AsyncResult Obj) : Prop := g.phase = .handled res

variable {tx : KvTx} {op : Op} {g : Progress}

@[simp] theorem outline_allow : (outline tx op).allow = allow tx op := rfl

@[simp] theorem outline_next {a : Act} {r : a.Res} {g' : Progress} :
    (outline tx op).next g a r g' ↔ g' = g.step tx op a r := Iff.rfl

/-- What the phase says of the outcome, and of the hooks still to be called. -/
def Sound (tx : KvTx) (op : Op) (g : Progress) : Prop :=
  match g.phase with
  | .idle | .denied | .found _ | .cleared _ => g.outcome = .open
  | .starting hooks => g.outcome = .open ∧ hooks <:+ tx.called tx.session.preHooks
  | .notifying => g.Called ∧ op.notifies = true
  | .finishing hooks => g.outcome ≠ .open ∧ hooks <:+ tx.called tx.session.postHooks
  | .decided | .finished => g.outcome ≠ .open
  | .handled res => g.result op = some res

theorem sound_init : Sound tx op {} := rfl

theorem sound_answered {res : AsyncResult Obj} : Sound tx op (g.answered op res) := by
  cases res with
  | succeededFuture x => cases hn : op.notifies <;> simp [Sound, answered, hn, Called]
  | failedFuture c => simp [Sound, answered]

theorem Sound.step (h : Sound tx op g) {a : Act} {r : a.Res} (ha : allow tx op g a) :
    Sound tx op (g.step tx op a r) := by
  unfold Sound at h
  cases a with
  | dirty txid =>
    rw [ha.1] at h
    cases (r : Bool) with
    | false => exact ⟨h, List.suffix_refl _⟩
    | true => exact h
  | hook nxt tx' =>
    obtain ⟨⟨hooks, hg | hg⟩, -⟩ := ha
    · rw [hg] at h
      rw [step_hook_starting hg]
      exact ⟨h.1, (List.suffix_cons ..).trans h.2⟩
    · rw [hg] at h
      rw [step_hook_finishing hg]
      exact ⟨h.1, (List.suffix_cons ..).trans h.2⟩
  | getMap D sa =>
    cases (r : AsyncResult AsyncMap) with
    | succeededFuture map => exact ha.2.1
    | failedFuture c => exact nofun
  | checkFlags sessionid mode =>
    obtain ⟨⟨map, hg⟩, hopen, -⟩ := ha
    rw [step_checkFlags hg]
    split
    · exact hopen
    · exact nofun
  | digest bytes =>
    obtain ⟨⟨map, hg⟩, -⟩ := ha
    simpa [Sound, Progress.step, hg] using h
  | put | get | remove | clear | size | getKeys => exact sound_answered
  | setKey | deleteKey =>
    rw [ha.1] at h
    obtain ⟨⟨x, hx⟩, -⟩ := h
    exact fun ho => nomatch hx.symm.trans ho
  | untrack =>
    rw [ha.1] at h
    exact ⟨h, List.suffix_refl _⟩
  | accessPut | accessPutIfAbsent =>
    rw [ha.1] at h
    exact h.1
  | publish e =>
    obtain ⟨hg, -⟩ := ha
    simpa [Sound, Progress.step, hg] using h
  | handle txid res => exact ha.2.2.1
  | commit | newTx | op | cacheContains | cacheAdd | cacheRemove => exact ha.elim

/-- What a handler is given, by what has become of the call. -/
inductive Gives (op : Op) (g : Progress) : AsyncResult Obj → Prop
  | refused (map : AsyncMap) : g.outcome = .refused map → Gives op g (succeededFuture (.asyncMap map))
  | failed (c : Throwable) : g.outcome = .failed c → Gives op g (failedFuture c)
  | called (x v : Obj) : g.outcome = .called x → op.result g.digest x = some v →
      Gives op g (succeededFuture v)

theorem gives_of_result {res : AsyncResult Obj} (h : g.result op = some res) : g.Gives op res := by
  rw [result] at h
  cases ho : g.outcome with
  | «open» =>
    rw [ho] at h
    cases h
  | refused map =>
    rw [ho] at h
    exact Option.some.inj h ▸ .refused map ho
  | failed c =>
    rw [ho] at h
    exact Option.some.inj h ▸ .failed c ho
  | called x =>
    rw [ho] at h
    obtain ⟨v, hv, rfl⟩ := Option.map_eq_some_iff.1 h
    exact .called x v ho hv

/-- A transaction whose handler has been called. -/
theorem Sound.gives (h : Sound tx op g) {res : AsyncResult Obj} (hg : g.phase = .handled res) :
    g.Gives op res := by
  rw [Sound, hg] at h
  exact gives_of_result h

/-! ## The operations -/

theorem holds_hookCaller {hooks : List TXNHook} {phase : List TXNHook → Phase}
    (hphase : phase = .starting ∨ phase = .finishing)
    (hg : g.phase = phase (tx.called hooks)) :
    (KvdnSession.hookCaller (tx.started op) hooks).Holds (outline tx op)
      (fun g' _ => g' = { g with phase := phase [] }) g := by
  induction hooks generalizing g with
  | nil =>
    obtain ⟨_, _, _, _⟩ := g
    cases hg
    rfl
  | cons h hooks ih =>
    rw [KvdnSession.hookCaller]
    split_ifs with hskip
    · have hskip' : h.Skipped tx.strAddr := hskip
      have hcalled : tx.called (h :: hooks) = tx.called hooks :=
        List.filter_cons_of_neg (by simpa using hskip')
      exact ih (by rw [hg, hcalled])
    · have hskip' : ¬h.Skipped tx.strAddr := hskip
      have hcalled : tx.called (h :: hooks) = h :: tx.called hooks :=
        List.filter_cons_of_pos (by simpa using hskip')
      rw [hcalled] at hg
      refine ⟨⟨⟨tx.called hooks, ?_⟩, rfl⟩, fun _ g' hg' => ?_⟩
      · rcases hphase with rfl | rfl
        · exact .inl hg
        · exact .inr hg
      · obtain rfl : g' = { g with phase := phase (tx.called hooks) } := by
          rcases hphase with rfl | rfl
          · exact hg'.trans (step_hook_starting hg _)
          · exact hg'.trans (step_hook_finishing hg _)
        exact ih (g := { g with phase := phase (tx.called hooks) }) rfl

/-- The start of an operation, which then works on the transaction started. -/
theorem holds_startTX {call : KvTx → Prog (AsyncResult Obj)} {type : TXTYPE}
    (htype : type = op.type)
    (hcall : (call (tx.started op)).Holds (outline tx op) Done { phase := .starting [] }) :
    (tx.startTX type >>= call).Holds (outline tx op) Done {} := by
  subst htype
  simp only [KvTx.startTX, bind_eq, perform_bind, act_bind, holds_act, outline_allow]
  refine ⟨⟨rfl, rfl⟩, fun dirty g hg => ?_⟩
  subst hg
  cases (dirty : Bool) with
  | true => exact rfl
  | false =>
    refine holds_bind.2 (holds_bind.2 ((holds_hookCaller (.inl rfl) rfl).mono fun g' _ hg' => ?_))
    exact hg' ▸ hcall

theorem holds_finishTx (hg : g.phase = .decided) :
    (tx.session.finishTx (tx.started op)).Holds (outline tx op)
      (fun g' _ => g' = { g with phase := .finished }) g := by
  simp only [KvdnSession.finishTx, bind_eq, perform_bind, holds_act, holds_bind, outline_allow]
  refine ⟨⟨hg, rfl, rfl⟩, fun _ g' hg' => ?_⟩
  subst hg'
  refine (holds_hookCaller (.inr rfl) rfl).mono fun g' _ hg' => ?_
  subst hg'
  split_ifs with htracking
  · exact ⟨⟨rfl, htracking, rfl, rfl⟩, fun _ _ hg' => hg'⟩
  · exact ⟨⟨rfl, by simpa using htracking, rfl⟩, fun _ _ hg' => hg'⟩

theorem holds_handle {res : AsyncResult Obj} (hg : g.phase = .finished)
    (hres : g.result op = some res)
    (hpublished : g.published = true ↔ g.Called ∧ op.mutates = true) :
    ((tx.started op).handle res).Holds (outline tx op) Done g :=
  ⟨⟨hg, rfl, hres, hpublished⟩, fun _ _ hg' => hg' ▸ rfl⟩

/-- Giving up, when the call has failed or the flags have refused. -/
theorem holds_bailTx {res : AsyncResult Obj} (hg : g.phase = .decided)
    (hcalled : ∀ x, g.outcome ≠ .called x)
    (hpublished : g.published = false) (hres : g.result op = some res) :
    ((tx.started op).bailTx res).Holds (outline tx op) Done g := by
  unfold KvTx.bailTx
  split
  · rename_i msg
    have herror : g.outcome = .failed (.error msg) := by
      cases ho : g.outcome <;> simp_all [result]
    exact (show throws tx op g .classCast by
      rw [throws, hg]; exact .inl ⟨⟨msg, herror⟩, rfl⟩)
  · split_ifs with htrace
    · have hrefused : ∃ map, g.outcome = .refused map := by
        cases ho : g.outcome with
        | refused map => exact ⟨map, rfl⟩
        | failed c =>
          rw [result, ho, Option.some.injEq] at hres
          exact nomatch hres ▸ htrace.2
        | _ => simp_all [result]
      exact (show throws tx op g .nullPointer by
        rw [throws, hg]; exact .inr ⟨hrefused, htrace.1, rfl⟩)
    · refine holds_bind.2 ((holds_finishTx hg).mono fun g' _ hg' => ?_)
      subst hg'
      refine holds_handle rfl hres ?_
      simpa [hpublished] using fun ⟨x, hx⟩ => absurd hx (hcalled x)

theorem holds_bailTx_failed {c : Throwable} {digest : Option JString} :
    ((tx.started op).bailTx (failedFuture c)).Holds (outline tx op) Done
      { phase := .decided, outcome := .failed c, digest := digest } :=
  holds_bailTx rfl (fun _ => nofun) rfl rfl

theorem holds_bailTx_refused {map : AsyncMap} :
    ((tx.started op).bailTx (succeededFuture (.asyncMap map))).Holds (outline tx op) Done
      { phase := .decided, outcome := .refused map } :=
  holds_bailTx rfl (fun _ => nofun) rfl rfl

theorem holds_withMap {mode : TXMODE} {call : AsyncMap → Prog (AsyncResult Obj)}
    (hmode : mode = op.mode) (hop : op ≠ .getKeys)
    (hcall : ∀ map, (call map).Holds (outline tx op) Done { phase := .cleared map }) :
    ((tx.started op).withMap mode call).Holds (outline tx op) Done { phase := .starting [] } := by
  simp only [KvTx.withMap, bind_eq, perform_bind, holds_act, outline_allow]
  refine ⟨⟨rfl, rfl, hop, rfl, rfl⟩, fun res g hg => ?_⟩
  subst hg
  cases res with
  | failedFuture c => exact holds_bailTx_failed
  | succeededFuture map =>
    refine ⟨⟨⟨map, rfl⟩, rfl, rfl, hmode⟩, fun allowed g hg => ?_⟩
    subst hg
    cases (allowed : Bool) with
    | false => exact holds_bailTx_refused
    | true => exact hcall map

/-- The end of a successful operation which publishes an event. -/
theorem holds_publish {e : Event} {x answer : Obj} {digest : Option JString}
    (he : op.event tx.strAddr digest = some e) (hx : op.result digest answer = some x)
    (hop : op.mutates = true) :
    (do tx.session.finishTx (tx.started op); perform (.publish e)
        (tx.started op).handle (succeededFuture x) : Prog (AsyncResult Obj)).Holds
      (outline tx op) Done { phase := .decided, outcome := .called answer, digest := digest } := by
  refine holds_bind.2 ((holds_finishTx rfl).mono fun g _ hg => ?_)
  subst hg
  refine ⟨⟨rfl, ⟨answer, rfl⟩, rfl, he⟩, fun _ g hg => ?_⟩
  subst hg
  exact holds_handle rfl (by simp [result, step, hx]) (by simp [step, Called, hop])

/-- The end of a successful operation which does not. -/
theorem holds_reply {x : Obj} {digest : Option JString} (hx : op.result digest x = some x)
    (hop : op.mutates = false) :
    (do tx.session.finishTx (tx.started op)
        (tx.started op).handle (succeededFuture x) : Prog (AsyncResult Obj)).Holds
      (outline tx op) Done { phase := .decided, outcome := .called x, digest := digest } := by
  refine holds_bind.2 ((holds_finishTx rfl).mono fun g _ hg => ?_)
  subst hg
  exact holds_handle rfl (by simp [result, hx]) (by simp [hop])

theorem holds_getKeys (hop : op = .getKeys) {p : KeyProvider} (hp : p = tx.session.keyprov) :
    (p.getKeys tx.strAddr).Holds (outline tx op)
      (fun g res => g = answered op { phase := .starting [] } res) { phase := .starting [] } := by
  have hask : (perform (.getKeys p tx.strAddr)).Holds (outline tx op)
      (fun g res => g = answered op { phase := .starting [] } res) { phase := .starting [] } :=
    ⟨⟨rfl, rfl, hop, hp, rfl⟩, fun _ _ hg => hg⟩
  cases p with
  | MapdbKeyProvider D =>
    simp only [KeyProvider.getKeys]
    split_ifs with hD
    · exact ⟨rfl, hop, by simpa [KeyProvider.Usable, ← hp] using hD⟩
    · exact hask
  | _ => exact hask

/-- Every operation follows the outline, whatever its steps answer. -/
theorem holds_run (tx : KvTx) (op : Op) : (tx.run op).Holds (outline tx op) Done {} := by
  cases op with
  | submit content =>
    refine holds_startTX rfl (holds_withMap rfl nofun fun map => ?_)
    refine ⟨⟨⟨map, rfl⟩, rfl, content, rfl, rfl⟩, fun bytes g hg => ?_⟩
    subst hg
    refine ⟨⟨map, rfl, rfl, rfl⟩, fun res g hg => ?_⟩
    subst hg
    cases res with
    | failedFuture c => exact holds_bailTx_failed
    | succeededFuture x =>
      refine ⟨⟨rfl, rfl⟩, fun _ g hg => ?_⟩
      subst hg
      exact holds_publish rfl rfl rfl
  | set key content =>
    refine holds_startTX rfl (holds_withMap rfl nofun fun map => ?_)
    refine ⟨⟨map, rfl, rfl, rfl⟩, fun res g hg => ?_⟩
    subst hg
    cases res with
    | failedFuture c => exact holds_bailTx_failed
    | succeededFuture x =>
      refine ⟨⟨rfl, rfl⟩, fun _ g hg => ?_⟩
      subst hg
      exact holds_publish rfl rfl rfl
  | get key =>
    refine holds_startTX rfl (holds_withMap rfl nofun fun map => ?_)
    refine ⟨⟨map, rfl, rfl, rfl⟩, fun res g hg => ?_⟩
    subst hg
    cases res with
    | failedFuture c => exact holds_bailTx_failed
    | succeededFuture x => exact holds_reply rfl rfl
  | clear =>
    refine holds_startTX rfl (holds_withMap rfl nofun fun map => ?_)
    refine ⟨⟨map, rfl, rfl, rfl⟩, fun res g hg => ?_⟩
    subst hg
    cases res with
    | failedFuture c => exact holds_bailTx_failed
    | succeededFuture x => exact holds_publish rfl rfl rfl
  | del key =>
    refine holds_startTX rfl (holds_withMap rfl nofun fun map => ?_)
    refine ⟨⟨map, rfl, rfl, rfl⟩, fun res g hg => ?_⟩
    subst hg
    cases res with
    | failedFuture c => exact holds_bailTx_failed
    | succeededFuture x =>
      refine ⟨⟨rfl, rfl⟩, fun _ g hg => ?_⟩
      subst hg
      exact holds_publish rfl rfl rfl
  | getKeys =>
    refine holds_startTX rfl (holds_bind.2 ?_)
    refine (holds_getKeys rfl rfl).mono fun g res hg => ?_
    subst hg
    cases res with
    | failedFuture c => exact holds_bailTx_failed
    | succeededFuture x => exact holds_reply rfl rfl
  | size =>
    refine holds_startTX rfl (holds_withMap rfl nofun fun map => ?_)
    refine ⟨⟨map, rfl, rfl, rfl⟩, fun res g hg => ?_⟩
    subst hg
    cases res with
    | failedFuture c => exact holds_bailTx_failed
    | succeededFuture x => exact holds_reply rfl rfl

end Progress

end Kvdn
