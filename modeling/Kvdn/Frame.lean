import Kvdn.Progress

/-!
# The frame of a transaction

A transaction seen from its own code: every call it makes, of a map, of the key
provider or of a hook, is answered once by the environment, with any result
(`frameSem`). What a hook does before it answers, the nested transactions
included, is in frames of its own.

The steps of a frame are classified by what the transaction makes of their
answers: the *deciding* ones (`Act.decides`), looking up the map and the one call
on it, or on the key provider, and the others, whose answers it drops. From the
progress of a transaction, `Tells` reads off what is known of its trace.
-/

namespace Kvdn

open Callback Callback.Prog AsyncResult

/-! ## Frames -/

/-- The frame of the operations called on one transaction object. The state is its
    `dirty` flag; the flags of its session are `txflags`. -/
def frameSem (txflags : Finset Flag) : Sem Act.Res Exn Bool where
  ok dirty a r :=
    match a, r with
    | .dirty _, (b : Bool) => b = dirty
    | .checkFlags _ txtype, (b : Bool) => b = !decide (Sum.inr txtype ∈ txflags)
    | _, _ => True
  eff dirty a _ :=
    match a with
    | .dirty _ => true
    | _ => dirty
  body _ := none

/-- A step of a frame, with its answer. -/
abbrev Step := Label Act.Res

namespace Act

/-- The call an operation is about: of its map, or of the key provider for the keys. -/
def isCall : Act → Bool
  | put _ _ _ | get _ _ | remove _ _ | clear _ | size _ | getKeys _ _ => true
  | _ => false

/-- The steps whose failure makes an operation give up. -/
def decides : Act → Bool
  | getMap _ _ => true
  | a => a.isCall

/-- The cause of the failure an action answers, if it does. -/
def cause : (a : Act) → a.Res → Option Throwable
  | getMap _ _, (r : AsyncResult AsyncMap) => r.cause
  | put _ _ _, (r : AsyncResult Obj) | get _ _, (r : AsyncResult Obj)
  | remove _ _, (r : AsyncResult Obj) | clear _, (r : AsyncResult Obj)
  | size _, (r : AsyncResult Obj) | getKeys _ _, (r : AsyncResult Obj)
  | setKey _ _ _, (r : AsyncResult Obj) | deleteKey _ _ _, (r : AsyncResult Obj)
  | commit, (r : AsyncResult Obj) | hook _ _, (r : AsyncResult Obj)
  | op _ _, (r : AsyncResult Obj) => r.cause
  | _, _ => none

/-- The answer is a failure, or a refusal of the flags. -/
def fails : (a : Act) → a.Res → Bool
  | checkFlags _ _, (b : Bool) => !b
  | a, r => (a.cause r).isSome

end Act

/-- The steps at which a transaction gives up, if they fail or are refused. -/
def Act.gates : Act → Bool
  | checkFlags _ _ => true
  | a => a.decides

/-- The transaction need not give up. -/
def Act.Succeeds (a : Act) (r : a.Res) : Prop := a.gates = true → a.fails r = false

instance (a : Act) (r : a.Res) : Decidable (a.Succeeds r) := inferInstanceAs (Decidable (_ → _))

theorem Act.cause_succeed (w : World) (a : Act) : a.cause (w.succeed a) = none := by
  cases a with
  | getKeys p map => cases p <;> rfl
  | _ => rfl

/-- The step reports a failure, or a refusal. -/
def Step.Fails (l : Step) : Prop := l.1.fails l.2 = true

/-- A deciding step that failed. -/
def Step.DecidesFailure (l : Step) : Prop := l.1.decides = true ∧ l.Fails

/-- The call of the operation succeeded. -/
def Step.CallSucceeds (l : Step) : Prop := l.1.isCall = true ∧ ¬l.Fails

/-- The beginning of `finishTx`. -/
def Step.isFinishTx (l : Step) : Bool :=
  match l.1 with
  | .untrack _ _ => true
  | _ => false

/-- The completion of `finishTx`. -/
def Step.isFinishedTx (l : Step) : Bool :=
  match l.1 with
  | .accessPut _ _ | .accessPutIfAbsent _ => true
  | _ => false

/-- The publication of an event. -/
def Step.isPublish (l : Step) : Bool :=
  match l.1 with
  | .publish _ => true
  | _ => false

/-- The call of the caller's handler. -/
def Step.isHandle (l : Step) : Bool :=
  match l.1 with
  | .handle _ _ => true
  | _ => false

/-- The outcome is decided by the deciding steps, and by the flags. -/
theorem Progress.outcome_step {tx : KvTx} {op : Op} {g : Progress} {a : Act} {r : a.Res}
    (hd : a.decides = false) (hflags : ∀ sessionid mode, a ≠ .checkFlags sessionid mode) :
    (g.step tx op a r).outcome = g.outcome := by
  cases a with
  | checkFlags sessionid mode => exact absurd rfl (hflags sessionid mode)
  | getMap | put | get | remove | clear | size | getKeys => exact nomatch hd
  | hook =>
    simp only [step, popHook]
    split <;> rfl
  | _ => rfl

/-- The digest is what it is asked for. -/
theorem Progress.digest_step {tx : KvTx} {op : Op} {g : Progress} {a : Act} {r : a.Res}
    (hd : ∀ bytes, a ≠ .digest bytes) : (g.step tx op a r).digest = g.digest := by
  cases a with
  | digest bytes => exact absurd rfl (hd bytes)
  | getMap => cases (r : AsyncResult AsyncMap) <;> rfl
  | put | get | remove | clear | size | getKeys => cases (r : AsyncResult Obj) <;> rfl
  | hook | checkFlags =>
    simp only [step, popHook]
    split <;> (try split) <;> rfl
  | _ => rfl

/-! ## Traces -/

/-- How often a trace begins and completes `finishTx` and publishes an event, the
    handler being not called. -/
structure Counts (tr : List Step) (begun ended published : ℕ) : Prop where
  finishTx : tr.countP Step.isFinishTx = begun
  finishedTx : tr.countP Step.isFinishedTx = ended
  publish : tr.countP Step.isPublish = published
  handle : tr.countP Step.isHandle = 0

/-- The step is no part of the end of a transaction. -/
def Step.Inner (l : Step) : Prop :=
  l.isFinishTx = false ∧ l.isFinishedTx = false ∧ l.isPublish = false ∧ l.isHandle = false

theorem Counts.inner {tr : List Step} {b e p : ℕ} (h : Counts tr b e p) {l : Step}
    (hl : l.Inner) : Counts (tr ++ [l]) b e p := by
  obtain ⟨h₁, h₂, h₃, h₄⟩ := h
  obtain ⟨hl₁, hl₂, hl₃, hl₄⟩ := hl
  exact ⟨by simp [h₁, hl₁], by simp [h₂, hl₂], by simp [h₃, hl₃], by simp [h₄, hl₄]⟩

namespace Progress

/-- What the trace of a transaction is in each phase. -/
def TellsPhase (tx : KvTx) (tr : List Step) (published : Bool) : Phase → Prop
  | .idle => tr = [] ∧ published = false
  | .denied => tr = [⟨.dirty tx.txid, true⟩]
  | .starting _ | .found _ | .cleared _ | .notifying | .decided => Counts tr 0 0 published.toNat
  | .finishing _ => Counts tr 1 0 published.toNat
  | .finished => Counts tr 1 1 published.toNat
  | .handled res => ∃ tr', tr = tr' ++ [⟨.handle tx.txid res, ()⟩] ∧
      Counts tr' 1 1 published.toNat

/-- What is known of the trace of a transaction from its progress. -/
structure Tells (tx : KvTx) (op : Op) (tr : List Step) (g : Progress) : Prop where
  failed : (∃ c, g.outcome = .failed c) ↔ ∃ l ∈ tr, Step.DecidesFailure l
  called : g.Called ↔ ∃ l ∈ tr, Step.CallSucceeds l
  phase : TellsPhase tx tr g.published g.phase
  handled : ∀ res, g.phase = .handled res →
    g.result op = some res ∧ (g.published = true ↔ g.Called ∧ op.mutates = true)

variable {tx : KvTx} {op : Op} {g : Progress} {tr : List Step}

theorem tells_nil : Tells tx op [] {} :=
  ⟨by simp, by simp [Called], ⟨rfl, rfl⟩, nofun⟩

theorem exists_mem_snoc {l : Step} {P : Step → Prop} :
    (∃ l' ∈ tr ++ [l], P l') ↔ (∃ l' ∈ tr, P l') ∨ P l := by
  simp only [List.mem_append, List.mem_singleton, or_and_right, exists_or, exists_eq_left]

/-- A step that decides nothing. -/
theorem Tells.undecided (h : Tells tx op tr g) {a : Act} {r : a.Res} (hd : a.decides = false)
    {g' : Progress} (ho : g'.outcome = g.outcome)
    (hp : TellsPhase tx (tr ++ [⟨a, r⟩]) g'.published g'.phase)
    (hres : ∀ res, g'.phase = .handled res →
      g'.result op = some res ∧ (g'.published = true ↔ g'.Called ∧ op.mutates = true)) :
    Tells tx op (tr ++ [⟨a, r⟩]) g' := by
  have hc : a.isCall = false := by cases a <;> first | rfl | exact hd
  refine ⟨?_, ?_, hp, hres⟩
  · rw [exists_mem_snoc, ← h.failed, ho]
    simp [Step.DecidesFailure, hd]
  · rw [exists_mem_snoc, ← h.called, Called, ho]
    simp [Step.CallSucceeds, hc, Called]

/-- A deciding step. -/
theorem Tells.decides (h : Tells tx op tr g) (hopen : g.outcome = .open) {a : Act} {r : a.Res}
    {g' : Progress} (hf : (∃ c, g'.outcome = .failed c) ↔ Step.DecidesFailure ⟨a, r⟩)
    (hc : g'.Called ↔ Step.CallSucceeds ⟨a, r⟩)
    (hp : TellsPhase tx (tr ++ [⟨a, r⟩]) g'.published g'.phase)
    (hres : ∀ res, g'.phase ≠ .handled res) : Tells tx op (tr ++ [⟨a, r⟩]) g' := by
  have hfailed : ¬∃ l ∈ tr, Step.DecidesFailure l := by rw [← h.failed, hopen]; simp
  have hcalled : ¬∃ l ∈ tr, Step.CallSucceeds l := by rw [← h.called, Called, hopen]; simp
  refine ⟨?_, ?_, hp, fun res hg => absurd hg (hres res)⟩
  · rw [exists_mem_snoc, or_iff_right hfailed, hf]
  · rw [exists_mem_snoc, or_iff_right hcalled, hc]

/-- The answer of the call. -/
theorem Tells.answered (h : Tells tx op tr g) (hopen : g.outcome = .open)
    (hcounts : Counts tr 0 0 g.published.toNat) {a : Act} {r : a.Res} (hl : Step.Inner ⟨a, r⟩)
    (hcall : a.isCall = true) {res : AsyncResult Obj} (hr : a.fails r = res.cause.isSome) :
    Tells tx op (tr ++ [⟨a, r⟩]) (g.answered op res) := by
  have hd : a.decides = true := by cases a <;> first | rfl | exact hcall
  cases res with
  | succeededFuture x =>
    have hfails : ¬Step.Fails ⟨a, r⟩ := by simp [Step.Fails, hr, AsyncResult.cause]
    refine h.decides hopen (by simp [Progress.answered, Step.DecidesFailure, hfails])
      (by simp [Progress.answered, Called, Step.CallSucceeds, hfails, hcall]) ?_ ?_
    · cases hn : op.notifies <;> simp only [Progress.answered, hn] <;> exact hcounts.inner hl
    · cases hn : op.notifies <;> simp [Progress.answered, hn]
  | failedFuture c =>
    have hfails : Step.Fails ⟨a, r⟩ := by simp [Step.Fails, hr, AsyncResult.cause]
    exact h.decides hopen (by simp [Progress.answered, Step.DecidesFailure, hfails, hd])
      (by simp [Progress.answered, Called, Step.CallSucceeds, hfails]) (hcounts.inner hl)
      fun _ h => by cases h

/-- The answer of the lookup of the map. -/
theorem Tells.getMap (h : Tells tx op tr g) (hopen : g.outcome = .open)
    (hcounts : Counts tr 0 0 g.published.toNat) {D : KVData} {sa : JString}
    (r : AsyncResult AsyncMap) :
    Tells tx op (tr ++ [⟨.getMap D sa, r⟩]) (g.step tx op (.getMap D sa) r) := by
  have hcounts' := hcounts.inner (l := ⟨.getMap D sa, r⟩) ⟨rfl, rfl, rfl, rfl⟩
  have hcall : ¬Step.CallSucceeds ⟨.getMap D sa, r⟩ := fun hcall => by cases hcall.1
  cases r with
  | succeededFuture map =>
    have hdecides : ¬Step.DecidesFailure ⟨.getMap D sa, .succeededFuture map⟩ :=
      fun hdecides => by cases hdecides.2
    exact h.decides hopen (by simp [Progress.step, hopen, hdecides])
      (by simp [Progress.step, Called, hopen, hcall]) hcounts' fun _ h => by cases h
  | failedFuture c =>
    have hdecides : Step.DecidesFailure ⟨.getMap D sa, .failedFuture c⟩ := ⟨rfl, rfl⟩
    exact h.decides hopen (by simp [Progress.step, hdecides])
      (by simp [Progress.step, Called, hcall]) hcounts' fun _ h => by cases h

theorem Tells.step (h : Tells tx op tr g) {a : Act} {r : a.Res} (ha : allow tx op g a) :
    Tells tx op (tr ++ [⟨a, r⟩]) (g.step tx op a r) := by
  have hphase := h.phase
  have hinner {b e p : ℕ} (hc : Counts tr b e p) (hl : Step.Inner ⟨a, r⟩) := hc.inner hl
  cases a with
  | dirty txid =>
    obtain ⟨hg, rfl⟩ := ha
    rw [hg] at hphase
    obtain ⟨rfl, hp⟩ := hphase
    cases (r : Bool) with
    | false =>
      have hcounts : Counts [⟨.dirty tx.txid, false⟩] 0 0 g.published.toNat := by
        rw [hp]
        exact ⟨rfl, rfl, rfl, rfl⟩
      exact h.undecided rfl rfl hcounts fun _ h => by cases h
    | true => exact h.undecided rfl rfl rfl fun _ h => by cases h
  | hook nxt tx' =>
    obtain ⟨⟨hooks, hg | hg⟩, -⟩ := ha
    · rw [hg] at hphase
      rw [step_hook_starting hg]
      exact h.undecided rfl rfl (hinner hphase ⟨rfl, rfl, rfl, rfl⟩) fun _ h => by cases h
    · rw [hg] at hphase
      rw [step_hook_finishing hg]
      exact h.undecided rfl rfl (hinner hphase ⟨rfl, rfl, rfl, rfl⟩) fun _ h => by cases h
  | getMap D sa =>
    rw [ha.1] at hphase
    exact h.getMap ha.2.1 hphase r
  | checkFlags sessionid mode =>
    obtain ⟨⟨map, hg⟩, hopen, -⟩ := ha
    rw [hg] at hphase
    have hcounts := hinner hphase ⟨rfl, rfl, rfl, rfl⟩
    rw [step_checkFlags hg]
    have hcall : ¬Step.CallSucceeds ⟨.checkFlags sessionid mode, r⟩ := fun hcall => by cases hcall.1
    have hdecides : ¬Step.DecidesFailure ⟨.checkFlags sessionid mode, r⟩ :=
      fun hdecides => by cases hdecides.1
    split
    · exact h.undecided rfl rfl hcounts fun _ h => by cases h
    · exact h.decides hopen (by simp [hdecides]) (by simp [Called, hcall]) hcounts fun _ h => by cases h
  | digest bytes =>
    obtain ⟨⟨map, hg⟩, -⟩ := ha
    have hcounts : Counts tr 0 0 g.published.toNat := by simpa [hg, TellsPhase] using hphase
    refine h.undecided rfl rfl ?_ fun res hres => by cases hg.symm.trans hres
    simpa [Progress.step, hg, TellsPhase] using hinner hcounts ⟨rfl, rfl, rfl, rfl⟩
  | setKey p sa key | deleteKey p sa key =>
    rw [ha.1] at hphase
    exact h.undecided rfl rfl (hinner hphase ⟨rfl, rfl, rfl, rfl⟩) fun _ h => by cases h
  | put m key value | get m key | remove m key | clear m | size m =>
    obtain ⟨map, hg, hopen, -⟩ := ha
    rw [hg] at hphase
    exact h.answered hopen hphase ⟨rfl, rfl, rfl, rfl⟩ rfl rfl
  | getKeys p sa =>
    rw [ha.1] at hphase
    exact h.answered ha.2.1 hphase ⟨rfl, rfl, rfl, rfl⟩ rfl rfl
  | untrack sessionid txid =>
    rw [ha.1] at hphase
    obtain ⟨h₁, h₂, h₃, h₄⟩ := hphase
    exact h.undecided rfl rfl ⟨by simp [h₁, Step.isFinishTx], by simp [h₂, Step.isFinishedTx],
      by simpa [Step.isPublish, Progress.step] using h₃, by simp [h₄, Step.isHandle]⟩ fun _ h => by cases h
  | accessPut sa txid | accessPutIfAbsent sa =>
    rw [ha.1] at hphase
    obtain ⟨h₁, h₂, h₃, h₄⟩ := hphase
    exact h.undecided rfl rfl ⟨by simp [h₁, Step.isFinishTx], by simp [h₂, Step.isFinishedTx],
      by simpa [Step.isPublish, Progress.step] using h₃, by simp [h₄, Step.isHandle]⟩ fun _ h => by cases h
  | publish e =>
    obtain ⟨hg, -, hp, -⟩ := ha
    rw [hg, hp] at hphase
    obtain ⟨h₁, h₂, h₃, h₄⟩ := hphase
    have hcounts : Counts (tr ++ [⟨.publish e, r⟩]) 1 1 1 :=
      ⟨by simp [h₁, Step.isFinishTx], by simp [h₂, Step.isFinishedTx],
        by simp [h₃, Step.isPublish], by simp [h₄, Step.isHandle]⟩
    refine h.undecided rfl rfl ?_ fun res hres => by cases hg.symm.trans hres
    simpa [Progress.step, hg, TellsPhase] using hcounts
  | handle txid res =>
    obtain ⟨hg, rfl, hres, hpublished⟩ := ha
    rw [hg] at hphase
    refine h.undecided rfl rfl ⟨tr, rfl, hphase⟩ fun res' hres' => ?_
    obtain rfl : res = res' := Phase.handled.inj hres'
    exact ⟨hres, hpublished⟩
  | commit | newTx s sa | op tx o | cacheContains tx | cacheAdd tx | cacheRemove tx =>
    exact ha.elim

/-- The handler has been called with the result `res` only if the transaction has
    come to that point. -/
theorem Tells.phase_eq (h : Tells tx op tr g) {txid : ℕ} {res : AsyncResult Obj}
    (hmem : (⟨.handle txid res, ()⟩ : Step) ∈ tr) : g.phase = .handled res := by
  have hphase := h.phase
  have hcount {tr' : List Step} {b e p : ℕ} (hc : Counts tr' b e p) :
      (⟨.handle txid res, ()⟩ : Step) ∉ tr' :=
    fun hmem => List.countP_eq_zero.1 hc.handle _ hmem rfl
  match hg : g.phase with
  | .idle => rw [hg] at hphase; exact absurd hmem (by simp [hphase.1])
  | .denied =>
    rw [hg] at hphase
    rw [show tr = [⟨.dirty tx.txid, true⟩] from hphase] at hmem
    exact nomatch List.mem_singleton.1 hmem
  | .starting _ | .found _ | .cleared _ | .notifying | .decided | .finishing _ | .finished =>
    rw [hg] at hphase
    exact absurd hmem (hcount hphase)
  | .handled res' =>
    rw [hg] at hphase
    obtain ⟨tr', rfl, hc⟩ := hphase
    rcases List.mem_append.1 hmem with hmem | hmem
    · exact absurd hmem (hcount hc)
    · cases List.mem_singleton.1 hmem
      rfl

/-- The handler is given a success if, and only if, no deciding step has failed. -/
theorem Tells.succeeded_iff (h : Tells tx op tr g) {res : AsyncResult Obj}
    (hg : g.phase = .handled res) : res.succeeded = true ↔ ¬∃ l ∈ tr, Step.DecidesFailure l := by
  rw [← h.failed]
  have hres := (h.handled res hg).1
  unfold result at hres
  split at hres
  · exact nomatch hres
  · simp [← Option.some.inj hres, *]
  · simp [← Option.some.inj hres, *]
  · obtain ⟨x, -, rfl⟩ := Option.map_eq_some_iff.1 hres
    simp [*]

/-- How far the transaction of a frame has come, whatever its steps answered. -/
theorem exists_of_runs {txflags : Finset Flag} {dirty dirty' : Bool} {p : Prog (AsyncResult Obj)}
    (h : (frameSem txflags).Runs dirty (tx.run op) tr dirty' p) :
    ∃ g, Tells tx op tr g ∧ p.Holds (outline tx op) Done g := by
  have hkeeps : (outline tx op).Keeps (frameSem txflags) fun tr _ g => Tells tx op tr g :=
    fun _ _ g a r hInv _ ha _ => ⟨g.step tx op a r, rfl, hInv.step ha⟩
  exact h.holds (Outline.verified_of_body fun _ => rfl) hkeeps tells_nil (holds_run tx op)

end Progress

end Kvdn
