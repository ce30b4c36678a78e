import Mathlib.Data.Fintype.EquivFin
import Kvdn.Configuration
import Kvdn.Reachable
import Kvdn.ReadOnly

/-!
# The keys and the data

Whether `getKeys` answers the keys of the data (`KeysAgree`). The keys are asked of the key
provider, and the data are where the data implementation puts them; the two agree if the
provider looks into the maps that the data implementation hands out, and then they do so in
all reachable worlds (`yields_getKeys`). Otherwise one successful `set` is enough to see the
difference, or `getKeys` may not succeed at all.

* `asking`, `holds_getKeys`: what `getKeys` does on a transaction object which is new;
* `exists_getKeys_fails`, `not_yields_of_unusable`: a provider that does not look into maps;
* `keys_agree_iff`: `getKeys` agrees with the data, in all runs, if and only if it is
  configured to.
-/

namespace Kvdn

open Callback Callback.Prog Callback.Sem AsyncResult Progress

/-- A request comes to its end, and always with the result `res`. -/
def Request.Yields (c : Request) (w : World) (res : AsyncResult Obj) : Prop :=
  (∃ tr w', sem.Runs w c.transaction tr w' (.ret res)) ∧
    ∀ tr w' p, sem.Runs w c.transaction tr w' p → p.Finished → p = .ret res

/-- `getKeys` succeeds on all addresses, with the keys for which the map that the data
    implementation hands out has a value. -/
def KeysAgree (s : KvdnSession) (w : World) : Prop :=
  ∀ sa, Request.Yields ⟨s, sa, .getKeys⟩ w
    (succeededFuture (.keys (w.map ⟨s.D.space, sa⟩).keys))

/-- It does so after all serial runs of operations of the session which write and succeed. -/
def KeysAgreeThroughout (s : KvdnSession) (w₀ : World) : Prop :=
  ∀ (ts : List (Turn Request World (AsyncResult Obj))) (w : World),
    sem.Serial Request.transaction w₀ ts w →
    (∀ t ∈ ts, t.call.session = s ∧ t.call.op.mutates = true ∧ t.value.succeeded = true) →
    KeysAgree s w

theorem Request.Yields.unique {c : Request} {w : World} {res res' : AsyncResult Obj}
    (h : c.Yields w res) (h' : c.Yields w res') : res = res' := by
  obtain ⟨tr, w', hruns⟩ := h.1
  exact Prog.ret.inj (h'.2 tr w' _ hruns trivial)

/-! ## A transaction that asks for the keys -/

/-- How far a `getKeys` has come. -/
inductive Asking
  | new
  | invoked
  | asked
  deriving DecidableEq

/-- The outline of a `getKeys`, on a transaction object that has not been invoked: it asks
    the key provider, whose answer is `keys`, and changes no map before. -/
def asking (tx : KvTx) (keys : Finset JString) : Outline Act.Res Exn Asking where
  allow st
    | .dirty txid => st = .new ∧ txid = tx.txid
    | .getKeys p sa => st = .invoked ∧ p = tx.session.keyprov ∧ sa = tx.strAddr
    | .hook _ tx' => tx'.type = some .KV_KEYS
    | .op _ _ => False
    | a => a.target = none ∨ st = .asked
  next st a r st' := match a, r with
    | .dirty _, (b : Bool) => b = false ∧ st' = .invoked
    | .getKeys _ _, (r : AsyncResult Obj) => r = succeededFuture (.keys keys) ∧ st' = .asked
    | _, _ => st' = st
  throws _ _ := False

section

variable {tx : KvTx} {op : Op} {g : Progress} {keys : Finset JString} {st st' : Asking}

/-- Only looking a map up finds one. -/
theorem Progress.map_step (h : g.phase.map = none) {a : Act} {r : a.Res} (ha : allow tx op g a)
    (hne : ∀ D sa, a ≠ .getMap D sa) : (g.step tx op a r).phase.map = none := by
  cases a with
  | dirty txid => cases (r : Bool) <;> rfl
  | hook nxt tx' =>
    obtain ⟨⟨hooks, hg | hg⟩, -⟩ := ha
    · rw [step_hook_starting hg]
      rfl
    · rw [step_hook_finishing hg]
      rfl
  | getMap D sa => exact absurd rfl (hne D sa)
  | checkFlags sessionid mode =>
    obtain ⟨⟨map, hg⟩, -⟩ := ha
    rw [hg] at h
    cases h
  | put | get | remove | clear | size | getKeys =>
    cases (r : AsyncResult Obj) <;> cases hn : op.notifies <;>
      simp [Progress.step, answered, hn, Phase.map]
  | digest | publish => exact h
  | commit | newTx | op | cacheContains | cacheAdd | cacheRemove => exact ha.elim
  | _ => rfl

/-- What is known of a `getKeys`. -/
structure Asks (keys : Finset JString) (g : Progress) (st : Asking) : Prop where
  idle : st = .new ↔ g.phase = .idle
  not_denied : g.phase ≠ .denied
  map : g.phase.map = none
  outcome : g.outcome = if st = .asked then .called (.keys keys) else .open

theorem asks_init : Asks keys {} .new := ⟨by simp, (fun h => by cases h), rfl, rfl⟩

theorem Asks.step (h : Asks keys g st) {a : Act} {r : a.Res} (ha : allow tx .getKeys g a)
    (hnext : (asking tx keys).next st a r st') : Asks keys (g.step tx .getKeys a r) st' := by
  have hnoCall (hcalls : g.Calls .getKeys a) : Asks keys (g.step tx .getKeys a r) st' := by
    obtain ⟨map, -, -, hcall⟩ := hcalls
    cases hcall
  -- the steps that do not move the outline: no call among them
  have hstay (hst : st' = st) (hdirty : ∀ txid, a ≠ .dirty txid) (hd : a.decides = false)
      (hflags : ∀ sessionid mode, a ≠ .checkFlags sessionid mode)
      (hmap : ∀ D sa, a ≠ .getMap D sa) : Asks keys (g.step tx .getKeys a r) st' := by
    subst hst
    have hbefore := started_of_allow ha hdirty
    have hafter : (g.step tx .getKeys a r).Started := started_step ha hdirty
    refine ⟨iff_of_false (fun hnew => hbefore.1 (h.idle.1 hnew)) hafter.1, hafter.2,
      map_step h.map ha hmap, ?_⟩
    rw [Progress.outcome_step hd hflags]
    exact h.outcome
  cases a with
  | dirty txid =>
    obtain ⟨rfl, rfl⟩ := hnext
    have hnew : st = .new := h.idle.2 ha.1
    have hout := h.outcome
    rw [hnew] at hout
    exact ⟨by simp [Progress.step], (fun hg => by cases hg), rfl, hout⟩
  | getKeys p sa =>
    obtain ⟨rfl, rfl⟩ := hnext
    exact ⟨by simp [Progress.step, answered, Op.notifies], (fun hg => by cases hg), rfl, rfl⟩
  | put | get | remove | clear | size => exact hnoCall ha
  | getMap D sa => exact absurd rfl ha.2.2.1
  | checkFlags sessionid mode =>
    obtain ⟨⟨map, hg⟩, -⟩ := ha
    have hmap := h.map
    rw [hg] at hmap
    cases hmap
  | commit | newTx | op | cacheContains | cacheAdd | cacheRemove => exact ha.elim
  | _ =>
    exact hstay hnext (fun _ heq => by cases heq) rfl (fun _ _ heq => by cases heq)
      fun _ _ heq => by cases heq

/-- What `getKeys` may do. -/
theorem Asks.allow (h : Asks keys g st) (hsound : g.Sound tx .getKeys) {a : Act}
    (ha : Progress.allow tx .getKeys g a) : (asking tx keys).allow st a := by
  cases a with
  | dirty txid => exact ⟨h.idle.2 ha.1, ha.2⟩
  | hook nxt tx' =>
    obtain ⟨-, rfl⟩ := ha
    exact rfl
  | getKeys p sa =>
    obtain ⟨hphase, hopen, -, hp, hsa⟩ := ha
    have hout := h.outcome
    have hnew : st ≠ .new := fun hst => by cases hphase.symm.trans (h.idle.1 hst)
    refine ⟨?_, hp, hsa⟩
    cases st with
    | new => exact absurd rfl hnew
    | invoked => rfl
    | asked => cases hopen.symm.trans hout
  | put | get | remove | clear | size =>
    obtain ⟨map, -, -, hcall⟩ := ha
    cases hcall
  | accessPut | accessPutIfAbsent =>
    rw [Progress.Sound, ha.1] at hsound
    refine .inr ?_
    by_contra hst
    exact hsound.1 (h.outcome.trans (if_neg hst))
  | op => exact ha.elim
  | _ => exact .inl rfl

/-- On a new transaction object, `getKeys` gives its handler the answer of the provider. -/
theorem holds_getKeys (hp : tx.session.keyprov.Usable) :
    (tx.run .getKeys).Holds (asking tx keys)
      (fun _ res => res = succeededFuture (.keys keys)) .new := by
  refine (Progress.holds_run tx .getKeys).refine
    (fun g st => g.Sound tx .getKeys ∧ Asks keys g st) ?_ ?_ ?_ ?_ ⟨sound_init, asks_init⟩
  · rintro g st a ⟨hsound, hasks⟩ ha
    exact hasks.allow hsound ha
  · rintro g st a r st' ⟨hsound, hasks⟩ ha hnext
    exact ⟨_, rfl, hsound.step ha, hasks.step ha hnext⟩
  · rintro g st e ⟨-, hasks⟩ hthrows
    refine not_throws (fun _ => hp) hasks.not_denied ?_ hthrows
    rw [Progress.Assumed, hasks.outcome]
    split <;> exact ⟨(fun _ h => by cases h), fun _ h => by cases h⟩
  · rintro g st res ⟨hsound, hasks⟩ hdone
    have hphase : g.phase = .handled res := hdone
    rw [Progress.Sound, hphase, Progress.result, hasks.outcome] at hsound
    split_ifs at hsound with hst
    · cases hsound
      rfl
    · cases hsound

theorem verified_asking : (asking tx keys).Verified sem := by
  intro a q hb st ha
  cases a with
  | hook nxt tx' =>
    have htype : tx'.type = some .KV_KEYS := ha
    cases nxt with
    | StoreMetaKVHook =>
      obtain rfl : StoreMetaKVHook.call tx' = q := Option.some.inj hb
      rw [StoreMetaKVHook.call, htype]
      exact rfl
    | MapdbPostTXHook =>
      obtain rfl : MapdbPostTXHook.call = q := Option.some.inj hb
      exact ⟨.inl rfl, fun _ _ h => h⟩
    | other n type => cases hb
  | op => exact ha.elim
  | _ => cases hb

end

/-! ## Where the provider looks for the keys -/

section

variable {s : KvdnSession} {tx : KvTx} {p : KeyProvider} {space : Space} {w w₀ w' : World}
  {sa : JString}

theorem KeyProvider.usable_of_source (h : p.source = some space) : p.Usable := by
  cases p with
  | MapdbKeyProvider DataImpl => exact fun hnone => by cases h.symm.trans hnone
  | _ => trivial

/-- A provider that looks into maps answers the keys of the map. -/
theorem World.ok_getKeys (h : p.source = some space) {r : AsyncResult Obj}
    (hok : w.ok (.getKeys p sa) r) : r = succeededFuture (.keys (w.map ⟨space, sa⟩).keys) := by
  cases p with
  | LocalKeyProvider =>
    obtain rfl := Option.some.inj h
    exact hok
  | MapdbKeyProvider DataImpl =>
    cases DataImpl with
    | MapdbDataImpl =>
      obtain rfl := Option.some.inj h
      exact hok
    | _ => cases h
  | _ => cases h

/-- Until it has asked, the keys are what they were when it started. -/
def Unasked (w₀ : World) (tx : KvTx) (space : Space) (w : World) (st : Asking) : Prop :=
  (st = .new → tx.txid ∉ w.dirty) ∧
    (st ≠ .asked → w.map ⟨space, tx.strAddr⟩ = w₀.map ⟨space, tx.strAddr⟩)

theorem keeps_asking (h : tx.session.keyprov.source = some space) :
    (asking tx (w₀.map ⟨space, tx.strAddr⟩).keys).Keeps sem
      fun _ w st => Unasked w₀ tx space w st := by
  rintro _ w st a r ⟨hnew, hmap⟩ hb ha hok
  have hstay (hdirty : ∀ txid, a ≠ .dirty txid) (htarget : a.target = none ∨ st = .asked) :
      Unasked w₀ tx space (w.eff a r) st := by
    refine ⟨fun hst => ?_, fun hst => ?_⟩
    · rw [World.dirty_eff hdirty]
      exact hnew hst
    · rw [World.map_eff_of_ne, hmap hst]
      rw [htarget.resolve_right hst]
      exact (Option.some_ne_none _).symm
  cases a with
  | dirty txid =>
    obtain ⟨hst, rfl⟩ := ha
    have hfalse : r = false := (show r = _ from hok).trans (decide_eq_false (hnew hst))
    refine ⟨.invoked, ⟨hfalse, rfl⟩, ⟨(fun hinvoked => by cases hinvoked), fun _ => hmap ?_⟩⟩
    rw [hst]
    rintro ⟨⟩
  | getKeys p sa =>
    obtain ⟨rfl, rfl, rfl⟩ := ha
    refine ⟨.asked, ⟨?_, rfl⟩, ⟨(fun hst => by cases hst), fun hst => absurd rfl hst⟩⟩
    rw [World.ok_getKeys h hok, hmap fun hst => by cases hst]
  | op => exact ha.elim
  | hook => exact ⟨st, rfl, hstay (fun _ heq => by cases heq) (.inl rfl)⟩
  | _ => exact ⟨st, rfl, hstay (fun _ heq => by cases heq) ha⟩

/-- In a reachable world, `getKeys` answers the keys of the map that the provider looks
    into. -/
theorem yields_getKeys (hinit : s.initalized = true) (hsource : s.keyprov.source = some space)
    (hw : w.Reachable) (sa : JString) : Request.Yields ⟨s, sa, .getKeys⟩ w
      (succeededFuture (.keys (w.map ⟨space, sa⟩).keys)) := by
  have hcalm := hw.calm s
  have hall : ∀ tr w' p, sem.Runs w (⟨s, sa, .getKeys⟩ : Request).transaction tr w' p →
      p.Finished → p = .ret (succeededFuture (.keys (w.map ⟨space, sa⟩).keys)) := by
    intro tr w' p hruns hp
    rw [Request.transaction_eq hinit] at hruns
    obtain ⟨tx, tr', -, hok, hruns'⟩ := hruns.of_act rfl hp
    obtain rfl : tx = { txid := w.uuids, session := s, strAddr := sa } := hok
    let tx : KvTx := { txid := w.uuids, session := s, strAddr := sa }
    let w₁ := w.eff (.newTx s sa) tx
    have hunasked : Unasked w₁ tx space w₁ .new :=
      ⟨fun _ hdirty => lt_irrefl _ (hcalm.fresh _ hdirty), fun _ => rfl⟩
    obtain ⟨st, -, hres⟩ := Runs.holds (O := asking tx (w₁.map ⟨space, sa⟩).keys) verified_asking
      (keeps_asking hsource) hruns' (t := []) hunasked
      (holds_getKeys (KeyProvider.usable_of_source hsource))
    cases p with
    | ret res =>
      obtain rfl : res = succeededFuture (.keys (w₁.map ⟨space, sa⟩).keys) := hres
      rfl
    | throw e => exact hres.elim
    | act a k => exact hp.elim
  refine ⟨?_, hall⟩
  have hcompletes : Answers.succeeding.sem.Completes w
      (⟨s, sa, .getKeys⟩ : Request).transaction fun _ _ => True := by
    refine (completes_newTx hinit hcalm sa).bind ?_
    rintro w' tx ⟨hs, -, hcalm', hnew, -⟩
    refine (completes_op_reads hs rfl (fun _ => ?_) hcalm' hnew).mono fun _ _ _ => trivial
    rw [hs]
    exact KeyProvider.usable_of_source hsource
  obtain ⟨tr, w', res, hruns, -⟩ := hcompletes
  have hres := hall tr w' _ hruns.of_restrict trivial
  exact ⟨tr, w', hres ▸ hruns.of_restrict⟩

/-! ## A provider that does not look into maps -/

/-- Without its database, the provider throws. -/
theorem not_yields_of_unusable (hp : ¬s.keyprov.Usable) (res : AsyncResult Obj) :
    ¬Request.Yields ⟨s, sa, .getKeys⟩ w res := by
  rintro ⟨⟨tr, w', hruns⟩, -⟩
  obtain ⟨tr', tx, hs, -, hrun⟩ := Request.exists_runs hruns
  have hthrow : s.keyprov.getKeys tx.strAddr = .throw .nullPointer := by
    cases hkeyprov : s.keyprov with
    | MapdbKeyProvider DataImpl =>
      rw [hkeyprov, KeyProvider.Usable, not_not] at hp
      simp [KeyProvider.getKeys, hp]
    | _ =>
      rw [hkeyprov] at hp
      exact absurd trivial hp
  simp only [KvTx.run, KvTx.getKeys, KvTx.startTX, bind_eq, perform_bind, act_bind] at hrun
  obtain ⟨dirty, tr₁, -, -, hrest⟩ := hrun.of_act rfl trivial
  cases (dirty : Bool) with
  | true =>
    have hcut : sem.Runs _ (Prog.throw Exn.alreadyInvoked) tr₁ w' (.ret res) := hrest
    cases hcut.of_throw.2.2
  | false =>
    obtain ⟨tr₂, w₁, tx', tr₃, -, hstart, hasked⟩ := hrest.of_bind
    obtain ⟨tr₄, w₂, -, tr₅, -, -, hstarted⟩ := Runs.of_bind hstart
    obtain rfl := Prog.ret.inj hstarted.of_ret.2.2
    have hcut : sem.Runs w₁ (Prog.throw Exn.nullPointer) tr₃ w' (.ret res) := by
      simpa only [show tx.session = s from hs, hthrow, throw_bind] using hasked
    cases hcut.of_throw.2.2

namespace Answers

/-- The environment in which the key providers fail that do not look into maps. -/
def keysFail : Answers where
  pick w
    | .getKeys p map =>
      match p with
      | .LocalKeyProvider | .MapdbKeyProvider _ => w.succeed (.getKeys p map)
      | _ => failedFuture (.exception [])
    | a => w.succeed a
  ok w a := by
    cases a with
    | getKeys p map =>
      cases p with
      | LocalKeyProvider | MapdbKeyProvider => rfl
      | IgKeyProvider | other =>
        simp only [World.ok, World.answers]
        split <;> trivial
    | _ => exact World.ok_succeed w _
  noError w a msg := by
    cases a with
    | getKeys p map => cases p <;> rintro ⟨⟩
    | _ => exact succeeding.noError w _ msg

end Answers

/-- The answer of such a provider is a failure. -/
theorem keysFail_fails {g : Progress} {a : Act} (hp : tx.session.keyprov.Usable)
    (hsource : tx.session.keyprov.source = none) (w : World) (ha : allow tx .getKeys g a) :
    ∀ p sa, a = .getKeys p sa →
      ∃ c, a.answer (Answers.keysFail.pick w a) = some (failedFuture c) := by
  rintro p sa rfl
  obtain ⟨-, -, -, rfl, -⟩ := ha
  cases hkeyprov : tx.session.keyprov with
  | LocalKeyProvider =>
    rw [hkeyprov] at hsource
    cases hsource
  | MapdbKeyProvider DataImpl =>
    rw [hkeyprov] at hsource hp
    exact absurd hsource hp
  | _ => exact ⟨_, rfl⟩

/-- If the provider fails, a `getKeys` does not succeed. -/
theorem not_called_step {g : Progress} {a : Act} {r : a.Res} (hmap : g.phase.map = none)
    (hg : ¬g.Called) (ha : allow tx .getKeys g a)
    (hr : ∀ p sa, a = .getKeys p sa → ∃ c, a.answer r = some (failedFuture c)) :
    (g.step tx .getKeys a r).phase.map = none ∧ ¬(g.step tx .getKeys a r).Called := by
  have hne (D : KVData) (sa : JString) : a ≠ .getMap D sa := by
    rintro rfl
    exact ha.2.2.1 rfl
  refine ⟨map_step hmap ha hne, ?_⟩
  have hsame (hd : a.decides = false) (hflags : ∀ sessionid mode, a ≠ .checkFlags sessionid mode) :
      ¬(g.step tx .getKeys a r).Called := by
    rw [Progress.Called, Progress.outcome_step hd hflags]
    exact hg
  cases a with
  | put | get | remove | clear | size =>
    obtain ⟨map, -, -, hcall⟩ := ha
    cases hcall
  | getKeys p sa =>
    obtain ⟨c, hc⟩ := hr p sa rfl
    rw [step_answer hc]
    rintro ⟨x, ⟨⟩⟩
  | getMap D sa => exact absurd rfl (hne D sa)
  | checkFlags sessionid mode =>
    obtain ⟨⟨map, hphase⟩, -⟩ := ha
    rw [hphase] at hmap
    cases hmap
  | _ => exact hsame rfl fun _ _ heq => by cases heq

/-- A provider that does not look into maps may fail. -/
theorem exists_getKeys_fails (hinit : s.initalized = true) (hp : s.keyprov.Usable)
    (hsource : s.keyprov.source = none) (hcalm : Calm s 0 w) (sa : JString) :
    ∃ tr w' cause, sem.Runs w (⟨s, sa, .getKeys⟩ : Request).transaction tr w'
      (.ret (failedFuture cause)) := by
  let tx : KvTx := { txid := w.uuids, session := s, strAddr := sa }
  have hnew : tx.txid ∉ (w.eff (.newTx s sa) tx).dirty := fun hdirty =>
    lt_irrefl _ (hcalm.fresh _ hdirty)
  obtain ⟨tr, w', res, hruns, -, g, ⟨-, hnot⟩, hsound, hassumed, hphase⟩ :=
    completes_run (A := .keysFail) (X := fun _ g => g.phase.map = none ∧ ¬g.Called)
      (show tx.session = s from rfl) (fun _ : Op.getKeys = .getKeys => hp)
      (fun w _ _ _ _ _ hg ha _ =>
        not_called_step hg.1 hg.2 ha (keysFail_fails hp hsource w ha))
      (fun _ _ _ _ _ _ hg ha _ => not_called_step hg.1 hg.2 ha fun _ _ heq => by cases heq)
      (fun _ _ h hcalm _ _ => completes_hook rfl hinit hcalm h) (hcalm.newTx tx) hnew
      ⟨rfl, by rintro ⟨x, ⟨⟩⟩⟩
  cases hsound.gives hphase with
  | refused map ho => exact absurd ho (hassumed.1 map)
  | called x v ho => exact absurd ⟨x, ho⟩ hnot
  | failed c ho =>
    rw [Request.transaction_eq hinit]
    exact ⟨_, w', c, .prim rfl (World.ok_succeed w (.newTx s sa)) hruns.of_restrict⟩

/-! ## Throughout -/

/-- A successful `set` shows the difference: the key is in the map of the data, and not in
    the one that the provider looks into. -/
theorem exists_set (hinit : s.initalized = true) (hw : w.Reachable) (hspace : space ≠ s.D.space) :
    ∃ (c : Request) (tr : List Step) (w' : World) (v : Obj) (sa : JString), c.session = s ∧ c.op.mutates = true ∧
      sem.Runs w c.transaction tr w' (.ret (succeededFuture v)) ∧
        (w'.map ⟨s.D.space, sa⟩).keys ≠ (w'.map ⟨space, sa⟩).keys := by
  let sa : JString := []
  have hmeta : sa ≠ METADATA_MAP := by decide
  have haccess : sa ≠ ACCESS_CACHE_LOC := by decide
  have hne {space : Space} : (⟨space, sa⟩ : AsyncMap) ≠ World.accessCache := fun heq =>
    haccess (congrArg AsyncMap.name heq)
  -- a key that is new to the map the provider looks into
  obtain ⟨k, hk⟩ := Infinite.exists_notMem_finset (w.map ⟨space, sa⟩).keys
  have hcalm := hw.calm s
  obtain ⟨tr, w', v, hruns, hv, -⟩ :=
    exists_succeeded hinit hcalm.flags hcalm.fresh sa (show (Op.set k []).mutates = true from rfl)
  refine ⟨_, tr, w', v, sa, rfl, rfl, hruns, fun heq => ?_⟩
  have hset : k ∈ (w'.map ⟨s.D.space, sa⟩).keys := by
    rcases Request.apply_of_runs hruns rfl hne (by simp [Op.callOn, Op.call, Act.on])
      with ⟨hmap, -⟩ | ⟨-, ⟨c, hc⟩ | ⟨map, hmap⟩⟩
    · rw [hmap, Op.apply, KMap.keys_insert]
      exact Finset.mem_insert_self ..
    · cases hc
    · exact absurd (AsyncResult.succeededFuture.inj hmap) (hv map)
  -- the provider looks into another map, which the transaction has not changed
  obtain ⟨tr', tx, hs, hsa, hrun⟩ := Request.exists_runs hruns
  have hother : w'.map ⟨space, sa⟩ = w.map ⟨space, sa⟩ := by
    have hnot : (⟨space, sa⟩ : AsyncMap) ≠ ⟨tx.session.D.space, tx.strAddr⟩ := by
      rw [hs]
      exact fun heq => hspace (congrArg AsyncMap.space heq)
    have hindex : (⟨space, sa⟩ : AsyncMap) ≠ ⟨tx.session.D.space, METADATA_MAP⟩ := fun heq =>
      hmeta (congrArg AsyncMap.name heq)
    rw [map_of_runs hrun hne hindex hnot, World.map_eff_of_ne]
    exact (Option.some_ne_none _).symm
  rw [heq, hother] at hset
  exact hk hset

/-- The keys agree with the data, in all runs, if and only if the provider looks for them
    where the data are. -/
theorem keysAgreeThroughout_iff (hinit : s.initalized = true) (hw₀ : w₀.Initial) :
    KeysAgreeThroughout s w₀ ↔ s.keyprov.source = some s.D.space := by
  refine ⟨fun hagree => ?_, fun hsource ts w hserial _ sa =>
    yields_getKeys hinit hsource (hw₀.reachable.of_serial hserial) sa⟩
  have hnow : KeysAgree s w₀ := hagree [] w₀ (.nil w₀) fun _ ht => by cases ht
  cases hsource : s.keyprov.source with
  | none =>
    by_cases hp : s.keyprov.Usable
    · obtain ⟨tr, w', cause, hruns⟩ :=
        exists_getKeys_fails hinit hp hsource (hw₀.reachable.calm s) []
      cases (hnow []).2 tr w' _ hruns trivial
    · exact absurd (hnow []) (not_yields_of_unusable hp _)
  | some space =>
    by_contra hne
    obtain ⟨c, tr, w, v, sa, hc, hop, hruns, hkeys⟩ :=
      exists_set hinit hw₀.reachable fun heq => hne (congrArg some heq)
    have hagree' : KeysAgree s w := by
      refine hagree [⟨w₀, c, succeededFuture v, w⟩] w (.cons hruns (.nil w)) fun t ht => ?_
      obtain rfl := List.mem_singleton.1 ht
      exact ⟨hc, hop, rfl⟩
    have hyields := yields_getKeys hinit hsource (hw₀.reachable.of_runs hruns) sa
    have heq := (hagree' sa).unique hyields
    exact hkeys (Obj.keys.inj (AsyncResult.succeededFuture.inj heq))

end

section

variable {cp : ClassPath} {isClustered isTraceEnabled : Bool} {config : Config} {sessionid : ℕ}
  {s₀ s : KvdnSession} {operations : AsyncResult ℕ} {w₀ : World}

/-- A session over a data implementation of the repository answers the keys of its data, in
    all runs, if and only if its key provider is configured to go with them. -/
theorem keys_agree_iff
    (h : KvdnSession.construct cp isClustered config sessionid isTraceEnabled = some s₀)
    (hinit : s₀.init operations = some s) (hD : s.D.Shipped) (hw₀ : w₀.Initial) :
    KeysAgreeThroughout s w₀ ↔ cp.Agreeing isClustered config := by
  rw [← source_iff h hinit hD]
  exact keysAgreeThroughout_iff (KvdnSession.ready_of_construct h hinit hD).initalized hw₀

end

/-- A node with the extension for MapDB. -/
def mapdbPath : ClassPath where
  extensions := {.mapdb}

/-- The configuration of a node that stores its data in a local database. -/
def mapDBLocalPersistance : Config where
  data_implementation := .string (jstr "net.iowntheinter.kvdn.mapdb.impl.MapdbDataImpl")
  key_provider := .string (jstr "net.iowntheinter.kvdn.mapdb.impl.MapdbKeyProvider")

/-- Its sessions answer the keys of the data, as they are configured to. -/
theorem keys_agree_mapdb :
    KeysAgreeThroughout (.mapdb 0) {} ↔ mapdbPath.Agreeing false mapDBLocalPersistance := by
  have hconstruct : KvdnSession.construct mapdbPath false mapDBLocalPersistance 0 false =
      some { KvdnSession.mapdb 0 with initalized := false } := by decide +kernel
  have hinit : { KvdnSession.mapdb 0 with initalized := false }.init (.succeededFuture 0) =
      some (.mapdb 0) := rfl
  exact keys_agree_iff hconstruct hinit (fun n h => by cases h) ⟨fun _ => rfl, fun _ => rfl, rfl⟩

example : mapdbPath.Agreeing false mapDBLocalPersistance := by decide +kernel

/-- A session of a node of a cluster, without any configuration. -/
def clusterSession : KvdnSession where
  sessionid := 0
  D := .DefaultDataImpl true
  keyprov := .LocalKeyProvider

/-- It answers that there are no keys, after a successful `set`. -/
theorem not_keys_agree :
    (KvdnSession.construct {} true {} 0 false).bind (·.init (.succeededFuture 0)) =
        some clusterSession ∧
      ∃ ts w, sem.Serial Request.transaction {} ts w ∧
        ts.map Turn.call = [⟨clusterSession, jstr "a", .set (jstr "k") (jstr "v")⟩] ∧
        ts.map Turn.value = [succeededFuture (.str (jstr "k"))] ∧
        (w.map ⟨clusterSession.D.space, jstr "a"⟩).keys = {jstr "k"} ∧
        (∃ tr w', sem.Runs w (⟨clusterSession, jstr "a", .getKeys⟩ : Request).transaction tr w'
          (.ret (succeededFuture (.keys ∅)))) ∧
        ¬KeysAgree clusterSession w := by
  refine ⟨by decide +kernel, ?_⟩
  obtain ⟨ts, w, h, hcalls, hvalues, hkeys, hask⟩ := exists_serial (S := sem)
    (P := fun _ _ _ => True) (p := Request.transaction) (w := {})
    (l := [⟨clusterSession, jstr "a", .set (jstr "k") (jstr "v")⟩])
    (Q := fun ts w => ts.map Turn.value = [succeededFuture (.str (jstr "k"))] ∧
      (w.map ⟨clusterSession.D.space, jstr "a"⟩).keys = {jstr "k"} ∧
      (sem.eval World.succeed 60 w
        (⟨clusterSession, jstr "a", .getKeys⟩ : Request).transaction).any
          (fun x => decide (x.2.2 = succeededFuture (.keys ∅))) = true)
    World.ok_succeed 60 (by decide +kernel)
  obtain ⟨⟨tr, w', res⟩, heval, hres⟩ := (Option.any_eq_true _ _).1 hask
  obtain rfl : res = succeededFuture (.keys ∅) := of_decide_eq_true hres
  have hruns := runs_of_eval World.ok_succeed heval
  refine ⟨ts, w, h.of_restrict, hcalls, hvalues, hkeys, ⟨tr, w', hruns⟩, fun hagree => ?_⟩
  have hsame := Prog.ret.inj ((hagree (jstr "a")).2 tr w' _ hruns trivial)
  rw [hkeys] at hsame
  have hempty := Obj.keys.inj (AsyncResult.succeededFuture.inj hsame)
  exact Finset.singleton_ne_empty _ hempty.symm

end Kvdn
