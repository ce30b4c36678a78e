import Kvdn.Callback.Serial
import Kvdn.Completion

/-!
# Read-only sessions

A transaction asks whether its mode (`TXMODE`) is among the flags of its session, which
`TXFLAGS.READ_ONLY` is not: no operation is refused because of it.

* `not_read_only`: with the flag or without it, a transaction may write; if the flags hold
  no mode at all, all operations go through, on all addresses.
-/

namespace Kvdn

open Callback Callback.Prog Callback.Sem AsyncResult Progress

/-- What the flag `READ_ONLY` promises, from the world `w` on: after any transactions of the
    session, an operation that mutates changes no map, publishes nothing, and its handler
    is given a failure. -/
def ReadOnly (s : KvdnSession) (w : World) : Prop :=
  ∀ (ts : List (Turn Request World (AsyncResult Obj))) (w₁ w₂ : World) (c : Request)
    (tr : List Step) (p : Prog (AsyncResult Obj)), (∀ t ∈ ts, t.call.session = s) →
    sem.Serial Request.transaction w ts w₁ → c.session = s → c.op.mutates = true →
    sem.Runs w₁ c.transaction tr w₂ p →
      (∀ m ≠ World.accessCache, w₂.map m = w.map m) ∧ w₂.published = w.published ∧
        (p.Finished → ∃ cause, p = .ret (failedFuture cause))

section

variable {s : KvdnSession} {tx : KvTx} {op : Op} {w w' : World} {g : Progress}

/-- The call has not failed. -/
def Progress.NotFailed (g : Progress) : Prop := ∀ c, g.outcome ≠ .failed c

theorem notFailed_init : ({} : Progress).NotFailed := fun _ h => by cases h

/-- Nothing fails when all steps succeed. -/
theorem notFailed_step (h : g.NotFailed) {a : Act} (ha : allow tx op g a) :
    (g.step tx op a (w.succeed a)).NotFailed := by
  cases a with
  | put | get | remove | clear | size => exact nofun
  | getKeys p map => cases p <;> exact nofun
  | getMap D sa => exact h
  | checkFlags sessionid mode =>
    obtain ⟨⟨map, hg⟩, -⟩ := ha
    rw [step_checkFlags hg]
    split
    · exact h
    · exact nofun
  | hook nxt tx' =>
    intro c
    rw [Progress.step, popHook_outcome]
    exact h c
  | _ => exact h

/-- Only the call of the handler ends a transaction. -/
theorem not_handled_step {a : Act} {r : a.Res} (ha : allow tx op g a)
    (hne : ∀ txid res, a ≠ .handle txid res) (res : AsyncResult Obj) :
    (g.step tx op a r).phase ≠ .handled res := by
  cases a with
  | dirty txid => cases (r : Bool) <;> rintro ⟨⟩
  | hook nxt tx' =>
    obtain ⟨⟨hooks, hg | hg⟩, -⟩ := ha
    · rw [step_hook_starting hg]
      rintro ⟨⟩
    · rw [step_hook_finishing hg]
      rintro ⟨⟩
  | getMap D sa => cases (r : AsyncResult AsyncMap) <;> rintro ⟨⟩
  | checkFlags sessionid mode =>
    obtain ⟨⟨map, hg⟩, -⟩ := ha
    rw [step_checkFlags hg]
    split <;> rintro ⟨⟩
  | digest bytes =>
    obtain ⟨⟨map, hg⟩, -⟩ := ha
    show g.phase ≠ _
    rw [hg]
    rintro ⟨⟩
  | publish e =>
    show g.phase ≠ _
    rw [ha.1]
    rintro ⟨⟩
  | put | get | remove | clear | size | getKeys =>
    cases (r : AsyncResult Obj) with
    | succeededFuture x => cases hn : op.notifies <;> simp [Progress.step, answered, hn]
    | failedFuture c => rintro ⟨⟩
  | handle txid res' => exact absurd rfl (hne txid res')
  | setKey | deleteKey | untrack | accessPut | accessPutIfAbsent => rintro ⟨⟩
  | commit | newTx | op | cacheContains | cacheAdd | cacheRemove => exact ha.elim

/-- The events published stay. -/
theorem published_of_runs {α : Type} {p p' : Prog α} {tr : List Step} (h : sem.Runs w p tr w' p') :
    w.published <+: w'.published := by
  induction h with
  | refl => exact List.prefix_refl _
  | @prim w _ a r _ _ _ _ _ _ ih =>
    refine List.IsPrefix.trans ?_ ih
    by_cases ha : ∃ e, a = .publish e
    · obtain ⟨e, rfl⟩ := ha
      exact List.prefix_append _ _
    · exact (World.published_eff (w := w) (r := r) fun e he => ha ⟨e, he⟩).symm ▸ List.prefix_refl _
  | body _ _ ih => exact ih

/-- A transaction on the metadata map comes to its end without a failure, whatever the
    flags of its session are. -/
theorem exists_not_failed (hinit : s.initalized = true) (w : World) (key content : JString) :
    ∃ tr w' p, sem.Runs w (⟨s, METADATA_MAP, .set key content⟩ : Request).transaction tr w' p ∧
      p.Finished ∧ ∀ cause, p ≠ .ret (failedFuture cause) := by
  rw [Request.transaction_eq hinit]
  let tx : KvTx := { txid := w.uuids, session := s, strAddr := METADATA_MAP }
  have hstep : ∀ (w : World) (g : Progress) (a : Act),
      g.Sound tx (.set key content) ∧ g.NotFailed → (outline tx (.set key content)).allow g a →
        sem.Completes w (perform a) fun w' r => ∃ g', (outline tx (.set key content)).next g a r g' ∧
          g'.Sound tx (.set key content) ∧ g'.NotFailed := by
    rintro w g a ⟨hsound, hg⟩ ha
    have hprim (hb : a.body = none) : sem.Completes w (perform a) fun w' r =>
        ∃ g', (outline tx (.set key content)).next g a r g' ∧ g'.Sound tx (.set key content) ∧
          g'.NotFailed :=
      .perform hb (World.ok_succeed w a) ⟨_, rfl, hsound.step ha, notFailed_step hg ha⟩
    cases a with
    | hook nxt tx' =>
      have hmeta := (session_of_hook hsound ha).2
      -- no transaction is nested in it: a chain of hooks answers at once
      cases nxt with
      | StoreMetaKVHook => exact absurd rfl (hmeta rfl)
      | MapdbPostTXHook =>
        refine .call rfl (.perform (r := succeededFuture .null) rfl trivial
          ⟨_, rfl, hsound.step ha, fun c => ?_⟩)
        rw [Progress.step, popHook_outcome]
        exact hg c
      | other n type => exact hprim rfl
    | op => exact ha.elim
    | _ => exact hprim rfl
  obtain ⟨tr, w', p, hruns, hfinished, g, ⟨hsound, hg⟩, hp⟩ :=
    (holds_run tx (.set key content)).finishes hstep ⟨sound_init, notFailed_init⟩
  refine ⟨_, w', p, .prim rfl (World.ok_succeed w (.newTx s METADATA_MAP)) hruns, hfinished, ?_⟩
  rintro cause rfl
  cases hsound.gives hp with
  | failed _ ho => exact hg _ ho

theorem published_step {a : Act} {r : a.Res} (hne : ∀ e, a ≠ .publish e) :
    (g.step tx op a r).published = g.published := by
  cases a with
  | publish e => exact absurd rfl (hne e)
  | hook nxt tx' =>
    simp only [Progress.step, popHook]
    split <;> rfl
  | put | get | remove | clear | size | getKeys => cases (r : AsyncResult Obj) <;> rfl
  | getMap D sa => cases (r : AsyncResult AsyncMap) <;> rfl
  | checkFlags sessionid mode =>
    simp only [Progress.step]
    split
    · split <;> rfl
    · rfl
  | _ => rfl

/-- How a transaction goes that does not fail: at its end its event has been published. -/
structure Publishes (w₀ w : World) (g : Progress) : Prop where
  notFailed : g.NotFailed
  before : w₀.published <+: w.published
  published : g.published = true → w₀.published.length < w.published.length
  handled : ∀ res, g.phase = .handled res → g.published = true

theorem Publishes.step {w₀ : World} (h : Publishes w₀ w g) (hop : op.mutates = true)
    (hsound : g.Sound tx op) (hassumed : g.Assumed) {a : Act} (ha : allow tx op g a) :
    Publishes w₀ (w.eff a (w.succeed a)) (g.step tx op a (w.succeed a)) := by
  have hnotFailed := notFailed_step (w := w) h.notFailed ha
  have hsame (hpublish : ∀ e, a ≠ .publish e)
      (hpublished : (g.step tx op a (w.succeed a)).published = g.published)
      (hhandled : ∀ res, (g.step tx op a (w.succeed a)).phase = .handled res → g.published = true) :
      Publishes w₀ (w.eff a (w.succeed a)) (g.step tx op a (w.succeed a)) := by
    refine ⟨hnotFailed, ?_, fun hpub => ?_, fun res hres => ?_⟩
    · rw [World.published_eff hpublish]
      exact h.before
    · rw [World.published_eff hpublish]
      exact h.published (hpublished.symm.trans hpub)
    · exact hpublished.trans (hhandled res hres)
  cases a with
  | publish e =>
    refine ⟨hnotFailed, h.before.trans (List.prefix_append _ _), fun _ => ?_, fun _ _ => rfl⟩
    show w₀.published.length < (w.published ++ [e]).length
    have hle := h.before.length_le
    rw [List.length_append, List.length_singleton]
    omega
  -- the handler is called after the publication, as nothing has failed or been refused
  | handle txid res =>
    refine hsame (fun _ heq => by cases heq) rfl fun _ _ => ?_
    obtain ⟨hphase, -, -, hpub⟩ := ha
    rw [Progress.Sound, hphase] at hsound
    refine hpub.2 ⟨?_, hop⟩
    cases ho : g.outcome with
    | «open» => exact absurd ho hsound
    | refused map => exact absurd ho (hassumed.1 map)
    | failed c => exact absurd ho (h.notFailed c)
    | called x => exact ⟨x, ho⟩
  | _ =>
    refine hsame (fun _ h => by cases h) (published_step fun _ h => by cases h) fun res hres => ?_
    exact absurd hres (not_handled_step ha (fun _ _ h => by cases h) res)

/-- If the flags hold no mode, an operation that mutates goes through, whatever the other
    flags are. -/
theorem exists_succeeded (hinit : s.initalized = true)
    (hflags : ∀ mode, Sum.inr mode ∉ w.txflags s.sessionid) (hfresh : ∀ txid ∈ w.dirty, txid < w.uuids)
    (sa : JString) (hop : op.mutates = true) :
    ∃ tr w' v, sem.Runs w (⟨s, sa, op⟩ : Request).transaction tr w' (.ret (succeededFuture v)) ∧
      (∀ map, v ≠ .asyncMap map) ∧ w.published <+: w'.published ∧
        w.published.length < w'.published.length := by
  rw [Request.transaction_eq hinit]
  let tx : KvTx := { txid := w.uuids, session := s, strAddr := sa }
  have hcalm : Calm s 0 w := ⟨hflags, hfresh, Nat.zero_le _⟩
  have hcalm' : Calm s (tx.txid + 1) (w.eff (.newTx s sa) tx) := hcalm.newTx tx
  have hnew : tx.txid ∉ (w.eff (.newTx s sa) tx).dirty := fun hdirty =>
    lt_irrefl _ (hfresh _ hdirty)
  have hinitial : Publishes w (w.eff (.newTx s sa) tx) {} :=
    ⟨notFailed_init, List.prefix_refl _, (fun hpub => by cases hpub), fun _ hres => by cases hres⟩
  have hhooks (w' : World) (g : Progress) (h : TXNHook) (hw' : Calm s (tx.txid + 1) w') :
      Answers.succeeding.sem.Completes w' (perform (.hook h (tx.started op)))
        fun w'' _ => Calm s (tx.txid + 1) w'' :=
    completes_hook rfl hinit hw' h
  -- a hook publishes events of its own: those there were are still there
  have hkeep (w₁ : World) (g : Progress) (h : TXNHook) (tr : List Step) (w₂ : World)
      (r : AsyncResult Obj) (hX : Publishes w w₁ g) (ha : allow tx op g (.hook h (tx.started op)))
      (hruns : Answers.succeeding.sem.Runs w₁ (perform (.hook h (tx.started op))) tr w₂ (.ret r)) :
      Publishes w w₂ (g.step tx op (.hook h (tx.started op)) r) := by
    have hprefix := published_of_runs hruns.of_restrict
    refine ⟨fun c => ?_, hX.before.trans hprefix, fun hpub => ?_, fun res hres => ?_⟩
    · rw [Progress.step, popHook_outcome]
      exact hX.notFailed c
    · have hsame : (g.step tx op (.hook h (tx.started op)) r).published = g.published :=
        published_step (a := .hook h (tx.started op)) fun _ heq => by cases heq
      exact (hX.published (hsame.symm.trans hpub)).trans_le hprefix.length_le
    · exact absurd hres (not_handled_step ha (fun _ _ heq => by cases heq) res)
  obtain ⟨tr, w', res, hruns, -, g, hpub, hsound, hassumed, hphase⟩ :=
    completes_run (A := .succeeding) (X := Publishes w) (s := s) rfl
      (fun h => by rw [h] at hop; cases hop)
      (fun _ _ _ _ hsound hassumed hX ha _ => hX.step hop hsound hassumed ha) hkeep
      (fun w' g h hw' _ _ => hhooks w' g h hw') hcalm' hnew hinitial
  cases hsound.gives hphase with
  | refused map ho => exact absurd ho (hassumed.1 map)
  | failed c ho => exact absurd ho (hpub.notFailed c)
  | called x v ho hv =>
    refine ⟨_, w', v, .prim rfl (World.ok_succeed w (.newTx s sa)) hruns.of_restrict,
      fun map => ?_, hpub.before, hpub.published (hpub.handled _ hphase)⟩
    rintro rfl
    cases op with
    | submit content =>
      obtain ⟨key, -, hkey⟩ := Option.map_eq_some_iff.1 hv
      cases hkey
    | set | del | clear => cases hv
    | _ => cases hop

/-- Whatever the flags of a session are, `READ_ONLY` among them or not, they do not keep it
    from writing. If there is no mode among them, every operation that mutates may go
    through, on every address: its map is changed, its event published, and its handler
    given a success. -/
theorem not_read_only (hinit : s.initalized = true) (w : World) :
    ¬ReadOnly s w ∧ ((∀ mode, Sum.inr mode ∉ w.txflags s.sessionid) →
      (∀ txid ∈ w.dirty, txid < w.uuids) → ∀ (sa : JString) (op : Op), op.mutates = true →
        ∃ tr w' v, sem.Runs w (⟨s, sa, op⟩ : Request).transaction tr w' (.ret (succeededFuture v)) ∧
          w.published.length < w'.published.length ∧
            (⟨s.D.space, sa⟩ ≠ World.accessCache →
              w'.map ⟨s.D.space, sa⟩ = (op.apply w.md5 (w.map ⟨s.D.space, sa⟩)).1)) := by
  refine ⟨fun hro => ?_, fun hflags hfresh sa op hop => ?_⟩
  · -- a write to the metadata map, for which its own hook is skipped, is enough
    obtain ⟨tr, w', p, hruns, hfinished, hp⟩ := exists_not_failed hinit w [] []
    obtain ⟨-, -, hfailed⟩ := hro [] w w' ⟨s, METADATA_MAP, .set [] []⟩ tr p
      (fun _ h => by cases h) (.nil w) rfl rfl hruns
    obtain ⟨cause, hcause⟩ := hfailed hfinished
    exact hp cause hcause
  · obtain ⟨tr, w', v, hruns, hv, -, hpub⟩ := exists_succeeded hinit hflags hfresh sa hop
    refine ⟨tr, w', v, hruns, hpub, fun haccess => ?_⟩
    have hcall : op.callOn w.md5 ⟨s.D.space, sa⟩ ≠ none := by
      cases op with
      | get | getKeys | size => cases hop
      | _ => simp [Op.callOn, Op.call, Op.digestOf, Act.on]
    rcases Request.apply_of_runs hruns rfl haccess hcall with ⟨hmap, -⟩ | ⟨-, ⟨c, hc⟩ | ⟨map, hmap⟩⟩
    · exact hmap
    · cases hc
    · exact absurd (AsyncResult.succeededFuture.inj hmap) (hv map)

end

/-- A world in which the session 0 is read-only. -/
def readOnlyWorld : World where
  txflags sessionid := if sessionid = 0 then {.inl .READ_ONLY} else ∅

/-- A read-only session of a node that is not clustered: it is not, and clears a map. -/
theorem not_read_only_clear :
    ¬ReadOnly (.inMemory 0) readOnlyWorld ∧
      ∃ tr w' v, sem.Runs readOnlyWorld (⟨.inMemory 0, jstr "a", .clear⟩ : Request).transaction tr w'
        (.ret (succeededFuture v)) ∧ w'.published ≠ [] := by
  obtain ⟨hnot, hall⟩ := not_read_only (s := .inMemory 0) rfl readOnlyWorld
  obtain ⟨tr, w', v, hruns, hpub, -⟩ := hall (by simp [readOnlyWorld, KvdnSession.inMemory])
    (by simp [readOnlyWorld]) (jstr "a") .clear rfl
  exact ⟨hnot, tr, w', v, hruns, List.ne_nil_of_length_pos hpub⟩

/-- A `set` of a read-only session succeeds, and its event is published. -/
theorem written_read_only :
    ∃ ts w, sem.Serial Request.transaction readOnlyWorld ts w ∧
      ts.map Turn.call = [⟨.inMemory 0, jstr "a", .set (jstr "k") (jstr "v")⟩] ∧
      ts.map Turn.value = [succeededFuture (.str (jstr "k"))] ∧
      .inl .READ_ONLY ∈ w.txflags 0 ∧
      (w.map ⟨.localMap, jstr "a"⟩).lookup (jstr "k") = some (.str (jstr "v")) ∧
      ⟨KvTx.writeChannel (jstr "a"), some (jstr "k")⟩ ∈ w.published := by
  obtain ⟨ts, w, h, hcalls, hend⟩ := exists_serial (S := sem) (P := fun _ a r => a.Succeeds r)
    (p := Request.transaction) (w := readOnlyWorld)
    (l := [⟨.inMemory 0, jstr "a", .set (jstr "k") (jstr "v")⟩])
    (Q := fun ts w => ts.map Turn.value = [succeededFuture (.str (jstr "k"))] ∧
      .inl .READ_ONLY ∈ w.txflags 0 ∧
      (w.map ⟨.localMap, jstr "a"⟩).lookup (jstr "k") = some (.str (jstr "v")) ∧
      ⟨KvTx.writeChannel (jstr "a"), some (jstr "k")⟩ ∈ w.published)
    World.ok_succeed 60 (by decide +kernel)
  exact ⟨ts, w, h.of_restrict, hcalls, hend⟩

end Kvdn
