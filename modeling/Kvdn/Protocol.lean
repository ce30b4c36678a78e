import Kvdn.Callback.Complete
import Kvdn.Frame

/-!
# The protocol of a transaction object

Any number of operations called on one transaction object, at any times, with any
interleaving of their callbacks, when the calls they make are answered once, and
failures of the map and of the key provider have exceptions as causes
(`assumedSem`).

* `first_call_only`: one call gets past `startTX`, all others are refused and have
  no effect; the one call finishes its transaction once, then publishes its event,
  if it has one, then calls its handler, once and last;
* `two_calls`: it applies, for instance, to two calls whose callbacks alternate.
-/

namespace Kvdn

open Callback Callback.Prog Callback.Sem AsyncResult

/-- The frame of the operations on a transaction object whose session has no flags
    set, when calls fail with exceptions. -/
def assumedSem : Sem Act.Res Exn Bool :=
  (frameSem ∅).restrict fun _ a r => a.decides = true → ∀ msg, a.cause r ≠ some (.error msg)

/-- The answer neither refuses the operation, nor fails its call with an error. -/
def Act.Assumed (a : Act) (r : a.Res) : Prop :=
  (a.decides = true → ∀ msg, a.cause r ≠ some (.error msg)) ∧
    (a.gates = true → a.decides = false → a.fails r = false)

theorem assumed_of_ok {dirty : Bool} {a : Act} {r : a.Res} (h : assumedSem.ok dirty a r) :
    a.Assumed r := by
  refine ⟨h.2, fun hgates hdecides => ?_⟩
  cases a with
  | checkFlags sessionid mode =>
    obtain rfl : r = true := h.1
    rfl
  | _ => exact absurd (hdecides.symm.trans hgates) nofun

/-- The answer of a step that succeeds, the object being `dirty` or not. -/
def frameSucceed (dirty : Bool) : (a : Act) → a.Res
  | .dirty _ => dirty
  | a => ({} : World).succeed a

theorem assumedSem_ok_frameSucceed (dirty : Bool) (a : Act) :
    assumedSem.ok dirty a (frameSucceed dirty a) := by
  cases a with
  | dirty txid => exact ⟨rfl, nofun⟩
  | checkFlags sessionid txtype => exact ⟨rfl, nofun⟩
  | getKeys p map => cases p <;> exact ⟨trivial, fun _ msg => nofun⟩
  | getMap | put | get | remove | clear | size => exact ⟨trivial, fun _ msg => nofun⟩
  | _ => exact ⟨trivial, nofun⟩

/-- What the trace of a call that got past `startTX` is, once it has come to its
    end with the result `res`. -/
structure Completed (tx : KvTx) (op : Op) (tr : List Step) (res : AsyncResult Obj) : Prop where
  /-- The handler is called last, and only then. -/
  handle : ∃ tr', tr = tr' ++ [⟨.handle tx.txid res, ()⟩] ∧ tr'.countP Step.isHandle = 0
  finishTx : tr.countP Step.isFinishTx = 1
  finishedTx : tr.countP Step.isFinishedTx = 1
  publish_le : tr.countP Step.isPublish ≤ 1
  publish_iff : (∃ l ∈ tr, l.isPublish) ↔ op.mutates = true ∧ ∃ l ∈ tr, Step.CallSucceeds l
  succeeded_iff : res.succeeded = true ↔ ∃ l ∈ tr, Step.CallSucceeds l

namespace Progress

variable {tx : KvTx} {op : Op} {g : Progress} {tr : List Step} {a : Act} {r : a.Res}

/-- A transaction past `startTX`. -/
def Started (g : Progress) : Prop := g.phase ≠ .idle ∧ g.phase ≠ .denied

/-- A transaction in which the flags have not refused the operation, and no error has
    been the cause of a failure. -/
def Assumed (g : Progress) : Prop :=
  (∀ map, g.outcome ≠ .refused map) ∧ ∀ msg, g.outcome ≠ .failed (.error msg)

theorem started_of_allow (h : allow tx op g a) (ha : ∀ txid, a ≠ .dirty txid) : g.Started := by
  constructor <;> intro hg
  all_goals cases a with
  | dirty txid => exact ha txid rfl
  | _ => simp [allow, hg, Calls] at h

theorem popHook_outcome : g.popHook.outcome = g.outcome := by
  unfold popHook
  split <;> rfl

theorem started_popHook (h : g.Started) : g.popHook.Started := by
  unfold popHook
  split
  · exact ⟨fun hg => (nomatch hg), fun hg => (nomatch hg)⟩
  · exact ⟨fun hg => (nomatch hg), fun hg => (nomatch hg)⟩
  · exact h

theorem started_answered {res : AsyncResult Obj} : (g.answered op res).Started := by
  cases res with
  | succeededFuture x => cases hn : op.notifies <;> simp [answered, hn, Started]
  | failedFuture c => exact ⟨(fun h => by cases h), fun h => by cases h⟩

theorem started_step (h : allow tx op g a) (ha : ∀ txid, a ≠ .dirty txid) :
    (g.step tx op a r).Started := by
  have hg := started_of_allow h ha
  cases a with
  | dirty txid => exact absurd rfl (ha txid)
  | hook => exact started_popHook hg
  | put | get | remove | clear | size | getKeys => exact started_answered
  | getMap D sa => cases (r : AsyncResult AsyncMap) <;> exact ⟨nofun, nofun⟩
  | checkFlags sessionid mode =>
    obtain ⟨⟨map, hfound⟩, -⟩ := h
    rw [step_checkFlags hfound]
    split <;> exact ⟨nofun, nofun⟩
  | publish | digest | commit | newTx | op | cacheContains | cacheAdd | cacheRemove => exact hg
  | _ => exact ⟨nofun, nofun⟩

theorem assumed_answered {res : AsyncResult Obj}
    (hres : ∀ msg, res.cause ≠ some (.error msg)) : (g.answered op res).Assumed := by
  cases res with
  | succeededFuture x => exact ⟨nofun, nofun⟩
  | failedFuture c => exact ⟨nofun, fun msg hc => hres msg (congrArg some (Outcome.failed.inj hc))⟩

theorem Assumed.step (h : g.Assumed) (ha : allow tx op g a) (hr : a.Assumed r) :
    (g.step tx op a r).Assumed := by
  cases a with
  | put | get | remove | clear | size | getKeys => exact assumed_answered (hr.1 rfl)
  | getMap D sa =>
    cases (r : AsyncResult AsyncMap) with
    | succeededFuture map => exact h
    | failedFuture c =>
      exact ⟨nofun, fun msg hc => hr.1 rfl msg (congrArg some (Outcome.failed.inj hc))⟩
  | checkFlags sessionid mode =>
    obtain ⟨⟨map, hfound⟩, -⟩ := ha
    obtain rfl : r = true := Bool.not_eq_false' .. ▸ hr.2 rfl rfl
    rw [step_checkFlags hfound]
    exact h
  | hook => rw [Assumed, Progress.step, popHook_outcome]; exact h
  | _ => exact h

theorem Tells.completed {res : AsyncResult Obj} (ht : Tells tx op tr g) (hg : g.phase = .handled res)
    (h : g.Assumed) : Completed tx op tr res := by
  obtain ⟨hres, hpub⟩ := ht.handled res hg
  have hp := ht.phase
  rw [hg] at hp
  obtain ⟨tr', rfl, h₁, h₂, h₃, h₄⟩ := hp
  have hpublish : (tr' ++ [(⟨.handle tx.txid res, ()⟩ : Step)]).countP Step.isPublish =
      g.published.toNat := by simp [h₃, Step.isPublish]
  have hcalled : res.succeeded = true ↔ g.Called := by
    cases ho : g.outcome with
    | «open» => simp [result, ho] at hres
    | refused map => exact absurd ho (h.1 map)
    | failed c =>
      rw [result, ho] at hres
      simp [← Option.some.inj hres, Called, ho]
    | called x =>
      rw [result, ho] at hres
      obtain ⟨y, -, rfl⟩ := Option.map_eq_some_iff.1 hres
      simp [Called, ho]
  exact
    { handle := ⟨tr', rfl, h₄⟩
      finishTx := by simp [h₁, Step.isFinishTx]
      finishedTx := by simp [h₂, Step.isFinishedTx]
      publish_le := by rw [hpublish]; exact Bool.toNat_le _
      publish_iff := by
        rw [← ht.called, and_comm, ← hpub, ← List.countP_pos_iff, hpublish]
        cases g.published <;> simp
      succeeded_iff := by rw [hcalled, ht.called] }

end Progress

/-! ## Calls on one object -/

section

variable {ι : Type} [DecidableEq ι]

open Progress

/-- The call `i` came first: the object was not dirty before, and has been since. -/
def Invoked (tx : KvTx) (tr : List (ι × Step)) (g : ι → Progress) (i : ι) : Prop :=
  tr.head? = some (i, ⟨.dirty tx.txid, false⟩) ∧ (g i).Started ∧
    ∀ j, j ≠ i → (g j).phase = .idle ∨ (g j).phase = .denied

/-- What is known of the calls on one object: their traces, and that one at most
    came first. -/
structure Calls (tx : KvTx) (ops : ι → Op) (tr : List (ι × Step)) (dirty : Bool)
    (g : ι → Progress) : Prop where
  tells : ∀ i, Tells tx (ops i) (own i tr) (g i)
  assumed : ∀ i, (g i).Assumed
  first : if dirty then ∃ i, Invoked tx tr g i else tr = [] ∧ ∀ i, (g i).phase = .idle

variable {tx : KvTx} {ops : ι → Op} {tr : List (ι × Step)} {dirty : Bool} {g : ι → Progress}

theorem Calls.tells_step (h : Calls tx ops tr dirty g) {i : ι} {a : Act} {r : a.Res}
    (ha : allow tx (ops i) (g i) a) (j : ι) :
    Tells tx (ops j) (own j (tr ++ [(i, ⟨a, r⟩)]))
      (Function.update g i ((g i).step tx (ops i) a r) j) := by
  by_cases hj : j = i
  · subst hj
    simpa using (h.tells j).step ha
  · simpa [own_of_ne (Ne.symm hj), hj] using h.tells j

theorem Calls.assumed_step (h : Calls tx ops tr dirty g) {i : ι} {a : Act} {r : a.Res}
    (ha : allow tx (ops i) (g i) a) (hok : assumedSem.ok dirty a r) (j : ι) :
    (Function.update g i ((g i).step tx (ops i) a r) j).Assumed := by
  by_cases hj : j = i
  · subst hj
    simpa using (h.assumed j).step ha (assumed_of_ok hok)
  · simpa [hj] using h.assumed j

/-- A call is the first one if the object was not dirty, and is denied otherwise. -/
theorem Calls.invoke (h : Calls tx ops tr dirty g) {i : ι}
    (ha : allow tx (ops i) (g i) (.dirty tx.txid))
    (hok : assumedSem.ok dirty (.dirty tx.txid) dirty) :
    Calls tx ops (tr ++ [(i, ⟨.dirty tx.txid, dirty⟩)]) true
      (Function.update g i ((g i).step tx (ops i) (.dirty tx.txid) dirty)) := by
  refine ⟨h.tells_step ha, h.assumed_step ha hok, ?_⟩
  have hfirst := h.first
  cases dirty with
  | false =>
    obtain ⟨rfl, hidle⟩ := hfirst
    refine ⟨i, rfl, by simp [step, Started], fun j hj => .inl ?_⟩
    simpa [hj] using hidle j
  | true =>
    obtain ⟨i₀, hhead, hstarted, hothers⟩ := hfirst
    have hi : i ≠ i₀ := by
      rintro rfl
      exact hstarted.1 ha.1
    refine ⟨i₀, by simp [hhead], by simpa [hi.symm] using hstarted, fun j hj => ?_⟩
    by_cases hji : j = i
    · subst hji
      exact .inr (by simp [step])
    · simpa [hji] using hothers j hj

/-- Only the call that came first takes a further step. -/
theorem Calls.step (h : Calls tx ops tr dirty g) {i : ι} {a : Act} {r : a.Res}
    (ha : allow tx (ops i) (g i) a) (hok : assumedSem.ok dirty a r)
    (hdirty : ∀ txid, a ≠ .dirty txid) :
    Calls tx ops (tr ++ [(i, ⟨a, r⟩)]) dirty
      (Function.update g i ((g i).step tx (ops i) a r)) := by
  refine ⟨h.tells_step ha, h.assumed_step ha hok, ?_⟩
  have hfirst := h.first
  have hi := started_of_allow ha hdirty
  cases dirty with
  | false => exact absurd (hfirst.2 i) hi.1
  | true =>
    obtain ⟨i₀, hhead, hstarted, hothers⟩ := hfirst
    obtain rfl : i = i₀ := by
      by_contra hne
      rcases hothers i hne with hp | hp
      · exact hi.1 hp
      · exact hi.2 hp
    refine ⟨i, by simp [hhead], by simpa using started_step ha hdirty, fun j hj => ?_⟩
    simpa [hj] using hothers j hj

theorem calls_of_pool {ps : ι → Prog (AsyncResult Obj)}
    (h : assumedSem.Pool false (fun i => tx.run (ops i)) tr dirty ps) :
    ∃ g, Calls tx ops tr dirty g ∧ ∀ i, (ps i).Holds (outline tx (ops i)) Done (g i) := by
  have hinit : Calls tx ops [] false fun _ : ι => {} :=
    ⟨fun i => tells_nil, fun i => ⟨nofun, nofun⟩, rfl, fun i => rfl⟩
  refine h.holds (fun i => Outline.verified_of_body fun _ => rfl) ?_ hinit
    fun i => holds_run tx (ops i)
  intro tr dirty g i a r hInv _ ha hok
  have ha' : allow tx (ops i) (g i) a := ha
  cases a with
  | dirty txid =>
    obtain ⟨-, rfl⟩ := id ha'
    obtain rfl : r = dirty := hok.1
    exact ⟨_, rfl, hInv.invoke ha' hok⟩
  | _ => exact ⟨_, rfl, hInv.step ha' hok nofun⟩

/-- A call that was denied has thrown. -/
theorem throw_of_holds {p : Prog (AsyncResult Obj)} {op : Op} {g : Progress}
    (h : p.Holds (outline tx op) Done g) (hg : g.phase = .denied) :
    p = .throw .alreadyInvoked := by
  cases p with
  | ret res => cases hg.symm.trans h
  | throw e =>
    have hthrows : throws tx op g e := h
    rw [throws, hg] at hthrows
    rw [hthrows]
  | act a k =>
    have hallow : allow tx op g a := h.1
    cases a with
    | dirty txid => cases hg.symm.trans hallow.1
    | _ => exact absurd hg (started_of_allow hallow fun _ h => by cases h).2

/-- Past `startTX`, nothing is thrown. -/
theorem not_throws {op : Op} {g : Progress} {e : Exn}
    (hp : op = .getKeys → tx.session.keyprov.Usable) (hg : g.phase ≠ .denied) (ha : g.Assumed) :
    ¬throws tx op g e := by
  unfold throws
  split
  · rename_i hphase
    exact absurd hphase hg
  · exact fun h => h.2.2 (hp h.2.1)
  · rintro (⟨⟨msg, ho⟩, -⟩ | ⟨⟨map, ho⟩, -⟩)
    · exact ha.2 msg ho
    · exact ha.1 map ho
  · exact id

/-- A call past `startTX` comes to its end. -/
theorem exists_completed {p : Prog (AsyncResult Obj)} {op : Op} {g : Progress}
    (h : p.Holds (outline tx op) Done g) (hp : tx.session.keyprov.Usable) (hg : g.Started)
    (ha : g.Assumed) : ∃ tr dirty res, assumedSem.Runs true p tr dirty (.ret res) := by
  have hstep : ∀ (dirty : Bool) (g : Progress) (a : Act), dirty = true ∧ g.Started ∧ g.Assumed →
      allow tx op g a → assumedSem.Completes dirty (perform a) fun dirty' r =>
        ∃ g', (outline tx op).next g a r g' ∧ dirty' = true ∧ g'.Started ∧ g'.Assumed := by
    rintro _ g a ⟨rfl, hg, ha⟩ hallow
    have hok := assumedSem_ok_frameSucceed true a
    have hassumed := ha.step hallow (assumed_of_ok hok)
    refine .perform rfl hok ?_
    cases a with
    | dirty txid => exact absurd hallow.1 hg.1
    | _ => exact ⟨_, rfl, rfl, started_step hallow nofun, hassumed⟩
  obtain ⟨tr, dirty, res, hruns, -⟩ := Prog.Holds.completes hstep
    (fun _ g e hInv => not_throws (fun _ => hp) hInv.2.1.2 hInv.2.2) ⟨rfl, hg, ha⟩ h
  exact ⟨tr, dirty, res, hruns⟩

/-- What is true of the calls on one object when the call `i` came first. -/
structure FirstCall (tx : KvTx) (ops : ι → Op) (tr : List (ι × Step)) (dirty : Bool)
    (ps : ι → Prog (AsyncResult Obj)) (i : ι) : Prop where
  head : tr.head? = some (i, ⟨.dirty tx.txid, false⟩)
  /-- Every other call is refused: its one step changes nothing, and it throws. -/
  others : ∀ j, j ≠ i → own j tr = [] ∨
    own j tr = [⟨.dirty tx.txid, true⟩] ∧ ps j = .throw .alreadyInvoked
  not_throw : ∀ e, ps i ≠ .throw e
  completed : ∀ res, ps i = .ret res → Completed tx (ops i) (own i tr) res
  /-- It can always come to its end, and cannot but come to it. -/
  completes : ∃ tr' dirty' res, assumedSem.Runs dirty (ps i) tr' dirty' (.ret res)
  finite : ∀ f : ℕ → Prog (AsyncResult Obj), f 0 = ps i → ¬∀ n, (f n).Next (f (n + 1))

/-- Of the calls on one object, whatever their interleaving, the first one only gets
    past `startTX`; it finishes its transaction, publishes its event and calls its
    handler as it should. -/
theorem first_call_only (hp : tx.session.keyprov.Usable) {ps : ι → Prog (AsyncResult Obj)}
    (h : assumedSem.Pool false (fun i => tx.run (ops i)) tr dirty ps) :
    tr = [] ∨ ∃ i, FirstCall tx ops tr dirty ps i := by
  -- while `dirty` is not set nobody has got beyond `startTX`; then somebody was the first
  obtain ⟨g, hcalls, hps⟩ := calls_of_pool h
  have hfirst := hcalls.first
  cases dirty with
  | false => exact .inl hfirst.1
  | true =>
    obtain ⟨i, hhead, hstarted, hothers⟩ := hfirst
    refine .inr ⟨i, hhead, fun j hj => ?_, fun e he => ?_, fun res hres => ?_,
      exists_completed (hps i) hp hstarted (hcalls.assumed i), fun f _ => not_forall_next f⟩
    · have htells := (hcalls.tells j).phase
      rcases hothers j hj with hg | hg
      · rw [hg] at htells
        exact .inl htells.1
      · rw [hg] at htells
        exact .inr ⟨htells, throw_of_holds (hps j) hg⟩
    · have hthrow := hps i
      rw [he] at hthrow
      exact not_throws (fun _ => hp) hstarted.2 (hcalls.assumed i) hthrow
    · have hdone := hps i
      rw [hres] at hdone
      exact (hcalls.tells i).completed hdone (hcalls.assumed i)

end

/-- Two calls on one object, whose callbacks alternate. -/
theorem two_calls :
    let tx : KvTx := { txid := 0, session := .mapdb 0, strAddr := jstr "a" }
    let ops : Bool → Op := fun i => if i then .set (jstr "k") (jstr "v") else .get (jstr "k")
    ∃ tr dirty ps, assumedSem.Pool false (fun i => tx.run (ops i)) tr dirty ps ∧
      tr.length = 12 ∧ ∃ i, FirstCall tx ops tr dirty ps i := by
  intro tx ops
  have hpool := pool_schedule_init assumedSem_ok_frameSucceed false (fun i => tx.run (ops i))
    (List.replicate 11 [true, false]).flatten
  refine ⟨_, _, _, hpool, rfl, (first_call_only ?_ hpool).resolve_left ?_⟩
  · exact nofun
  · exact List.ne_nil_of_length_pos (by decide)

end Kvdn
