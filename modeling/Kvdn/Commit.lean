import Kvdn.Callback.Barrier
import Kvdn.Hooks

/-!
# Commit before acknowledge

A session over MapDB has the commit hook of its data implementation: at its end, every
transaction commits the database, before its handler is called. This is so for the
transactions opened by the metadata hook too, on its behalf: their writes are
committed before they are acknowledged to the hook.

* `committed_before_handle`: whenever a handler is called, everything that has been written
  on behalf of the transaction has been committed.
-/

namespace Kvdn

open Callback Callback.Sem AsyncResult

/-- A session over MapDB, with the hooks its constructor gives it: that of the data
    implementation comes first, then the metadata hook, then those configured. -/
structure KvdnSession.OverMapdb (s : KvdnSession) : Prop where
  D : s.D = .MapdbDataImpl
  postHooks : ∃ hooks, s.postHooks = .MapdbPostTXHook :: .StoreMetaKVHook :: hooks

/-- The calls that write to the database, whatever they answer, are to be followed by a
    commit before a handler is called. A transaction commits at its end. -/
def commitBarrier : Barrier Act where
  writes
    | .put _ _ _ | .remove _ _ | .clear _ => true
    | _ => false
  flushes
    | .commit | .op _ _ | .hook .MapdbPostTXHook _ => true
    | _ => false
  acks
    | .handle _ _ => true
    | _ => false

/-- The transactions that hooks are called for, or open, are of the session `s`. -/
def OfSession (s : KvdnSession) : Act → Prop
  | .hook _ tx | .op tx _ => tx.session = s
  | _ => True

/-- Every write of a trace has been followed by a commit. -/
def Committed (tr : List Step) : Prop :=
  ∀ tr₁ l tr₂, tr = tr₁ ++ l :: tr₂ → commitBarrier.writes l.1 = true → ∃ l' ∈ tr₂, l'.1 = .commit

/-- The outline of the transactions of a session over MapDB. -/
abbrev commitOutline (s : KvdnSession) : Outline Act.Res Exn Bool :=
  commitBarrier.outline (OfSession s) Located

theorem transparent_commit (s : KvdnSession) : Transparent (commitOutline s) s
    fun committed committed' => committed = true → committed' = true where
  refl _ := id
  trans _ _ _ h₁ h₂ h := h₂ (h₁ h)
  allow committed a ha hn := by
    cases a with
    | handle => exact nomatch ha
    | hook => exact hn.elim
    | op => exact ⟨hn.1, nofun⟩
    | _ => exact ⟨trivial, nofun⟩
  next committed a r committed' ha h := by
    refine ⟨h.1, fun hc => h.2 (Barrier.step_of_not_writes ?_ hc)⟩
    cases a with
    | put | remove | clear => exact nomatch ha
    | _ => rfl
  throws _ _ := trivial

namespace Progress

variable {tx : KvTx} {op : Op} {g : Progress} {committed : Bool}

/-- A transaction that is finishing has committed, or is still to call the commit hook. -/
def Commits (g : Progress) (committed : Bool) : Prop :=
  match g.phase with
  | .finishing hooks => committed = true ∨ .MapdbPostTXHook ∈ hooks
  | .finished | .handled _ => committed = true
  | _ => True

theorem mapdbPostTXHook_mem_called (tx : KvTx) (h : .MapdbPostTXHook ∈ tx.session.postHooks) :
    .MapdbPostTXHook ∈ tx.called tx.session.postHooks :=
  List.mem_filter.2 ⟨h, by simp [TXNHook.Skipped, TXNHook.getType]⟩

theorem Commits.step (h : Commits g committed) {a : Act} {r : a.Res} (ha : allow tx op g a)
    (hpost : .MapdbPostTXHook ∈ tx.session.postHooks) {committed' : Bool}
    (hstep : commitBarrier.step committed a = true → committed' = true) :
    Commits (g.step tx op a r) committed' := by
  have hkeep (hw : commitBarrier.writes a = false) (hc : committed = true) : committed' = true :=
    hstep (Barrier.step_of_not_writes hw hc)
  have hanswered (res : AsyncResult Obj) : Commits (g.answered op res) committed' := by
    cases res with
    | succeededFuture x => cases hn : op.notifies <;> simp [Commits, answered, hn]
    | failedFuture c => trivial
  cases a with
  | dirty txid => cases (r : Bool) <;> trivial
  | hook nxt tx' =>
    obtain ⟨⟨hooks, hg | hg⟩, -⟩ := ha
    · rw [step_hook_starting hg]
      trivial
    · rw [step_hook_finishing hg]
      rw [Commits, hg] at h
      by_cases hnxt : nxt = .MapdbPostTXHook
      · subst hnxt
        exact .inl (hstep (Barrier.step_of_flushes rfl rfl))
      · rcases h with hc | hmem
        · exact .inl (hkeep rfl hc)
        · exact .inr ((List.mem_cons.1 hmem).resolve_left (Ne.symm hnxt))
  | getMap D sa => cases (r : AsyncResult AsyncMap) <;> trivial
  | checkFlags sessionid mode =>
    obtain ⟨⟨map, hg⟩, -⟩ := ha
    rw [step_checkFlags hg]
    split <;> trivial
  | digest bytes =>
    obtain ⟨⟨map, hg⟩, -⟩ := ha
    simp [Commits, Progress.step, hg]
  | put | remove | clear | get | size | getKeys => exact hanswered r
  | setKey | deleteKey => trivial
  | untrack sessionid txid => exact .inr (mapdbPostTXHook_mem_called tx hpost)
  | accessPut sa txid | accessPutIfAbsent sa =>
    rw [Commits, ha.1] at h
    exact hkeep rfl (h.resolve_right List.not_mem_nil)
  | publish e =>
    rw [Commits, ha.1] at h
    simp [Commits, Progress.step, ha.1, hkeep rfl h]
  | handle txid res =>
    rw [Commits, ha.1] at h
    exact hkeep rfl h
  | commit | newTx | op | cacheContains | cacheAdd | cacheRemove => exact ha.elim

/-- A transaction acknowledges when it has committed. -/
theorem Commits.allow (h : Commits g committed) {a : Act} (ha : allow tx op g a) :
    (commitOutline tx.session).allow committed a := by
  cases a with
  | handle txid res =>
    rw [Commits, ha.1] at h
    exact ⟨trivial, fun _ => h⟩
  | hook nxt tx' =>
    obtain ⟨-, rfl⟩ := ha
    exact ⟨rfl, nofun⟩
  | op => exact ha.elim
  | _ => exact ⟨trivial, nofun⟩

end Progress

section

variable {tx : KvTx} {s : KvdnSession}

/-- A transaction that has ended has committed. -/
theorem holds_run_commit (hpost : .MapdbPostTXHook ∈ tx.session.postHooks) (op : Op)
    (committed : Bool) : (tx.run op).Holds (commitOutline tx.session)
      (fun committed' _ => committed' = true) committed := by
  refine (Progress.holds_run tx op).refine Progress.Commits (fun g c a h ha => h.allow ha)
    (fun g c a r c' h ha hnext => ⟨_, rfl, h.step ha hpost hnext.2⟩) (fun _ _ _ _ _ => trivial)
    (fun g c res h hdone => ?_) trivial
  rw [Progress.Commits, hdone] at h
  exact h

theorem verified_commit (hpost : .MapdbPostTXHook ∈ s.postHooks) :
    (commitOutline s).Verified sem := by
  intro a q hb committed ha
  cases a with
  | hook h tx =>
    cases h with
    | StoreMetaKVHook =>
      obtain rfl : StoreMetaKVHook.call tx = q := Option.some.inj hb
      refine ((transparent_commit s).holds_call ha.1 committed).mono fun committed' _ hkeeps =>
        ⟨trivial, fun hstep => hkeeps ?_⟩
      simpa [Barrier.step, commitBarrier] using hstep
    | MapdbPostTXHook =>
      obtain rfl : MapdbPostTXHook.call = q := Option.some.inj hb
      refine ⟨⟨trivial, fun h => by cases h⟩, fun r committed' hnext => ⟨trivial, fun _ => hnext.2 ?_⟩⟩
      exact Barrier.step_of_flushes rfl rfl
    | other n type => cases hb
  | op tx o =>
    obtain rfl : tx.run o = q := Option.some.inj hb
    obtain rfl : tx.session = s := ha.1
    exact (holds_run_commit hpost o committed).mono fun committed' _ hc => ⟨trivial, fun _ => hc⟩
  | _ => cases hb

variable {ι : Type} [DecidableEq ι] {txs : ι → KvTx} {ops : ι → Op} {w₀ w : World}
  {tr : List (ι × Step)} {ps : ι → Prog (AsyncResult Obj)}

/-- In all interleavings of transactions over MapDB, whatever fails: when a handler is
    called, everything that has been written on behalf of the transaction has been
    committed. -/
theorem committed_before_handle
    (h : sem.Pool w₀ (fun i => (txs i).run (ops i)) tr w ps)
    (hmapdb : ∀ i, (txs i).session.OverMapdb) (i : ι) {tr₁ tr₂ : List Step} {txid : ℕ}
    {res : AsyncResult Obj} {r : Unit} (htr : own i tr = tr₁ ++ ⟨.handle txid res, r⟩ :: tr₂) :
    Committed tr₁ := by
  have hpost (i : ι) : .MapdbPostTXHook ∈ (txs i).session.postHooks := by
    obtain ⟨hooks, hhooks⟩ := (hmapdb i).postHooks
    rw [hhooks]
    exact List.mem_cons_self
  have hacks := Barrier.acks_of_pool (fun i => verified_commit (hpost i))
    (fun _ _ _ _ hok => located_of_ok hok) h (fun i => holds_run_commit (hpost i) (ops i) true) i
  intro t₁ l t₂ ht hw
  obtain ⟨⟨a, r'⟩, hl', hflush⟩ := hacks tr₁ _ tr₂ htr rfl t₁ l t₂ ht hw
  -- of the steps that flush, the others are programs of their own
  have hprimitive : Act.body a = none := by
    have hown : (⟨a, r'⟩ : Step) ∈ own i tr := by rw [htr, ht]; simp [hl']
    obtain ⟨⟨j, l''⟩, hmem, heq⟩ := List.mem_filterMap.1 hown
    split_ifs at heq
    obtain rfl := Option.some.inj heq
    exact h.body_eq_none hmem
  refine ⟨_, hl', ?_⟩
  cases a with
  | commit => rfl
  | op => exact nomatch hprimitive
  | hook nxt tx =>
    cases nxt with
    | MapdbPostTXHook => exact nomatch hprimitive
    | _ => exact nomatch hflush
  | _ => exact nomatch hflush

/-- A `set`, which stores metadata, and then returns. -/
theorem committed_before_handle_set :
    let tx : KvTx := { txid := 0, session := .mapdb 0, strAddr := jstr "a" }
    ∃ tr w ps tr₁ txid res r,
      sem.Pool { uuids := 1 } (fun _ : Unit => tx.run (.set (jstr "k") (jstr "v"))) tr w ps ∧
      own () tr = tr₁ ++ [⟨.handle txid res, r⟩] ∧ Committed tr₁ ∧ tr.countP (commitBarrier.writes ·.2.1) = 2 := by
  intro tx
  have hpool := pool_schedule_init (S := sem) World.ok_succeed { uuids := 1 }
    (fun _ : Unit => tx.run (.set (jstr "k") (jstr "v"))) (List.replicate 50 ())
  have hlast : ((own () (sem.schedule World.succeed (List.replicate 50 ()) ([], { uuids := 1 },
      fun _ : Unit => tx.run (.set (jstr "k") (jstr "v")))).1).getLast?.any
        (commitBarrier.acks ·.1)) = true := by
    decide +kernel
  obtain ⟨⟨a, r⟩, hlast, hack⟩ := (Option.any_eq_true _ _).1 hlast
  obtain ⟨tr₁, htr⟩ := List.getLast?_eq_some_iff.1 hlast
  cases a with
  | handle txid res =>
    exact ⟨_, _, _, _, _, _, _, hpool, htr,
      committed_before_handle hpool (fun _ => ⟨rfl, [], rfl⟩) () htr, by decide +kernel⟩
  | _ => exact nomatch hack

end

end Kvdn
