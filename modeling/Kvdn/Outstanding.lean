import Kvdn.Reachable

/-!
# Outstanding transactions

A session remembers the transactions it has handed out (`outstandingTX`), until they are
finished. So do the hooks: the transactions that the metadata hook opens are outstanding
too, until they are finished in turn. But no program has more than one open at a time,
since a transaction is finished before its post hooks are called, and the metadata hook is
none of the pre hooks (`verified_opening`).

* `outstandingTX_iff`: in all interleavings, the outstanding transactions are those that the
  programs have open, and a program that has returned has none;
* `card_outstandingTX_le`: so there are no more of them than programs in progress, and what
  stays outstanding for good is what an exception has cut.
-/

namespace Kvdn

open Callback Callback.Prog Callback.Sem AsyncResult

/-- The transaction that a program has open after a step. An operation finishes its
    transaction. -/
def openStep (txid : Option ℕ) : Step → Option ℕ
  | ⟨.newTx _ _, (tx : KvTx)⟩ => some tx.txid
  | ⟨.untrack _ _, _⟩ | ⟨.op _ _, _⟩ => none
  | _ => txid

/-- The transaction that a program has open: it has been created, and not finished. -/
def openTx (tr : List Step) : Option ℕ := tr.foldl openStep none

theorem openTx_snoc (tr : List Step) (l : Step) : openTx (tr ++ [l]) = openStep (openTx tr) l := by
  simp [openTx]

/-- The outline of the transactions of the session `s`, and of their hooks: one is open at a
    time, and those opened are finished. -/
def opening (s : KvdnSession) : Outline Act.Res Exn (Option ℕ) where
  allow txid
    | .newTx s' _ => txid = none ∧ s' = s
    | .untrack sessionid txid' => sessionid = s.sessionid ∧ txid = some txid'
    | .op tx _ => tx.session = s ∧ txid = some tx.txid
    | .hook h tx => tx.session = s ∧ (h = .StoreMetaKVHook → txid = none)
    | _ => True
  next txid a r txid' := Located a r ∧ txid' = openStep txid ⟨a, r⟩
  throws _ _ := True

section

variable {s : KvdnSession} {tx : KvTx} {txid : Option ℕ}

theorem holds_newTx_opening (sa : JString) :
    (s.newTx sa).Holds (opening s) (fun txid mtx => mtx.session = s ∧ txid = some mtx.txid) none := by
  unfold KvdnSession.newTx
  split_ifs
  · exact ⟨⟨rfl, rfl⟩, fun mtx txid h => ⟨h.1.1, h.2⟩⟩
  · trivial

/-! ## Operations -/

/-- A transaction is open until it is finished. -/
def Progress.Opened (tx : KvTx) (op : Op) (g : Progress) (txid : Option ℕ) : Prop :=
  g.Sound tx op ∧ txid = match g.phase with
    | .finishing _ | .finished | .handled _ => none
    | _ => some tx.txid

theorem Progress.Opened.step {op : Op} {g : Progress} (h : g.Opened tx op txid) {a : Act} {r : a.Res}
    (ha : allow tx op g a) : (g.step tx op a r).Opened tx op (openStep txid ⟨a, r⟩) := by
  have hsound := h.1.step (r := r) ha
  refine ⟨hsound, ?_⟩
  obtain ⟨-, rfl⟩ := h
  cases a with
  | dirty id =>
    rw [ha.1]
    cases (r : Bool) <;> rfl
  | hook nxt tx' =>
    obtain ⟨⟨hooks, hg | hg⟩, -⟩ := ha
    · rw [step_hook_starting hg, hg]
      rfl
    · rw [step_hook_finishing hg, hg]
      rfl
  | getMap D sa =>
    rw [ha.1]
    cases (r : AsyncResult AsyncMap) <;> rfl
  | checkFlags sessionid mode =>
    obtain ⟨⟨map, hg⟩, -⟩ := ha
    rw [step_checkFlags hg, hg]
    cases (r : Bool) <;> rfl
  | digest bytes =>
    obtain ⟨⟨map, hg⟩, -⟩ := ha
    simp only [Progress.step, hg, openStep]
  | put | get | remove | clear | size =>
    obtain ⟨map, hg, -⟩ := ha
    rw [hg]
    cases (r : AsyncResult Obj) with
    | succeededFuture x => cases hn : op.notifies <;> simp [Progress.step, answered, hn, openStep]
    | failedFuture c => rfl
  | getKeys p sa =>
    rw [ha.1]
    cases (r : AsyncResult Obj) with
    | succeededFuture x => cases hn : op.notifies <;> simp [Progress.step, answered, hn, openStep]
    | failedFuture c => rfl
  | setKey | deleteKey =>
    rw [ha.1]
    rfl
  | untrack => rfl
  | accessPut | accessPutIfAbsent =>
    rw [ha.1]
    rfl
  | publish e => simp only [Progress.step, ha.1, openStep]
  | handle id res =>
    rw [ha.1]
    rfl
  | commit | newTx | op | cacheContains | cacheAdd | cacheRemove => exact ha.elim

/-- The metadata hook is called when the transaction has been finished. -/
theorem Progress.Opened.allow {op : Op} {g : Progress} (h : g.Opened tx op txid)
    (hpre : .StoreMetaKVHook ∉ tx.session.preHooks) {a : Act} (ha : Progress.allow tx op g a) :
    (opening tx.session).allow txid a := by
  obtain ⟨hsound, rfl⟩ := h
  cases a with
  | untrack sessionid id =>
    obtain ⟨hg, rfl, rfl⟩ := ha
    rw [hg]
    exact ⟨rfl, rfl⟩
  | hook nxt tx' =>
    obtain ⟨⟨hooks, hg | hg⟩, rfl⟩ := ha
    · refine ⟨rfl, ?_⟩
      rintro rfl
      rw [Progress.Sound, hg] at hsound
      have hmem : .StoreMetaKVHook ∈ tx.called tx.session.preHooks :=
        hsound.2.subset List.mem_cons_self
      exact absurd (List.mem_filter.1 hmem).1 hpre
    · rw [hg]
      exact ⟨rfl, fun _ => rfl⟩
  | newTx | op => exact ha.elim
  | _ => trivial

/-- An operation finishes its transaction, and leaves none open. -/
theorem holds_run_opening (hpre : .StoreMetaKVHook ∉ tx.session.preHooks) (op : Op) :
    (tx.run op).Holds (opening tx.session) (fun txid _ => txid = none) (some tx.txid) := by
  refine (Progress.holds_run tx op).refine (Progress.Opened tx op) (fun g txid a h ha => h.allow hpre ha)
    (fun g txid a r txid' h ha hnext => ⟨_, rfl, hnext.2 ▸ h.step ha⟩) (fun _ _ _ _ _ => trivial)
    (fun g txid res h hdone => ?_) ⟨Progress.sound_init, rfl⟩
  obtain ⟨-, rfl⟩ := h
  rw [hdone]

/-! ## Hooks -/

theorem holds_storeMeta_opening :
    (StoreMetaKVHook.storeMeta tx).Holds (opening tx.session) (fun txid _ => txid = none) none := by
  simp only [StoreMetaKVHook.storeMeta, bind_eq, perform_bind]
  refine ⟨trivial, ?_⟩
  rintro cached _ ⟨-, rfl⟩
  cases (cached : Bool) with
  | true => rfl
  | false =>
    refine holds_bind.2 ((holds_newTx_opening METADATA_MAP).mono ?_)
    rintro _ mtx ⟨hmtx, rfl⟩
    refine ⟨⟨hmtx, rfl⟩, ?_⟩
    rintro res _ ⟨-, rfl⟩
    cases (res : AsyncResult Obj) with
    | failedFuture c => rfl
    | succeededFuture x => exact ⟨trivial, fun _ _ h => h.2⟩

theorem holds_remove_opening :
    (StoreMetaKVHook.remove tx).Holds (opening tx.session) (fun txid _ => txid = none) none := by
  simp only [StoreMetaKVHook.remove, bind_eq]
  refine holds_bind.2 ((holds_newTx_opening METADATA_MAP).mono ?_)
  rintro _ mtx ⟨hmtx, rfl⟩
  refine ⟨⟨hmtx, rfl⟩, ?_⟩
  rintro res _ ⟨-, rfl⟩
  cases (res : AsyncResult Obj) with
  | failedFuture c => rfl
  | succeededFuture x => exact ⟨trivial, fun _ _ h => h.2⟩

theorem holds_checkIfEmpty_opening :
    (StoreMetaKVHook.checkIfEmpty tx).Holds (opening tx.session) (fun txid _ => txid = none)
      none := by
  simp only [StoreMetaKVHook.checkIfEmpty, bind_eq, perform_bind]
  refine ⟨trivial, ?_⟩
  rintro cached _ ⟨-, rfl⟩
  cases (cached : Bool) with
  | false => rfl
  | true =>
    -- the transaction asking for the size is finished before another one is opened
    refine holds_bind.2 ((holds_newTx_opening tx.strAddr).mono ?_)
    rintro _ ktx ⟨hktx, rfl⟩
    refine ⟨⟨hktx, rfl⟩, ?_⟩
    rintro res _ ⟨-, rfl⟩
    cases (res : AsyncResult Obj) with
    | failedFuture c => rfl
    | succeededFuture x =>
      by_cases hx : x = .int 0
      · simp only [hx, if_true]
        exact holds_remove_opening
      · simp only [hx, if_false]
        rfl

theorem verified_opening (hpre : .StoreMetaKVHook ∉ s.preHooks) : (opening s).Verified sem := by
  intro a q hb txid ha
  cases a with
  | hook h tx =>
    cases h with
    | StoreMetaKVHook =>
      obtain rfl : StoreMetaKVHook.call tx = q := Option.some.inj hb
      obtain ⟨rfl, hnone⟩ := ha
      obtain rfl := hnone rfl
      refine Holds.mono (Q := fun txid _ => txid = none) ?_ fun _ _ h => ⟨trivial, h⟩
      unfold StoreMetaKVHook.call
      split
      · exact holds_storeMeta_opening
      · exact holds_storeMeta_opening
      · exact holds_checkIfEmpty_opening
      · rfl
    | MapdbPostTXHook =>
      obtain rfl : MapdbPostTXHook.call = q := Option.some.inj hb
      exact ⟨trivial, fun _ _ h => h⟩
    | other n type => cases hb
  | op tx o =>
    obtain rfl : tx.run o = q := Option.some.inj hb
    obtain ⟨rfl, rfl⟩ := ha
    exact (holds_run_opening hpre o).mono fun _ _ h => ⟨trivial, h⟩
  | _ => cases hb

end

theorem holds_transaction_opening {c : Request} (hpre : .StoreMetaKVHook ∉ c.session.preHooks) :
    c.transaction.Holds (opening c.session) (fun txid _ => txid = none) none := by
  refine holds_bind.2 ((holds_newTx_opening c.strAddr).mono ?_)
  rintro _ tx ⟨hs, rfl⟩
  rw [← hs] at hpre ⊢
  exact holds_run_opening hpre c.op

/-! ## Interleavings -/

/-- Only the session changes what is outstanding. -/
theorem World.outstandingTX_eff {w : World} {a : Act} {r : a.Res} (hnew : ∀ s sa, a ≠ .newTx s sa)
    (huntrack : ∀ sessionid txid, a ≠ .untrack sessionid txid) :
    (w.eff a r).outstandingTX = w.outstandingTX := by
  cases a with
  | newTx s sa => exact absurd rfl (hnew s sa)
  | untrack sessionid txid => exact absurd rfl (huntrack sessionid txid)
  | put | remove | clear =>
    simp only [eff, modify]
    split <;> rfl
  | setKey | deleteKey =>
    simp only [eff, modifyKeys]
    split <;> rfl
  | accessPutIfAbsent =>
    simp only [eff]
    split <;> rfl
  | _ => rfl

section

variable {ι : Type} [DecidableEq ι] {c : ι → Request} {w₀ w : World} {tr : List (ι × Step)}
  {ps : ι → Prog (AsyncResult Obj)}

/-- What is outstanding in a world is what the programs have open. -/
structure TracksOpen (c : ι → Request) (w : World) (txids : ι → Option ℕ) : Prop where
  mem : ∀ sessionid txid, txid ∈ w.outstandingTX sessionid ↔
    ∃ i, (c i).session.sessionid = sessionid ∧ txids i = some txid
  lt : ∀ i txid, txids i = some txid → txid < w.uuids
  inj : ∀ i j txid, txids i = some txid → txids j = some txid → i = j

variable {txids : ι → Option ℕ} {i : ι}

/-- A new transaction is open, and outstanding. -/
theorem TracksOpen.newTx (h : TracksOpen c w txids) (hi : txids i = none) (sa : JString) {tx : KvTx}
    (htx : tx.txid = w.uuids) :
    TracksOpen c (w.eff (.newTx (c i).session sa) tx) (Function.update txids i (some tx.txid)) where
  mem sessionid txid := by
    have hupdate : txid ∈ (w.eff (.newTx (c i).session sa) tx).outstandingTX sessionid ↔
        (c i).session.sessionid = sessionid ∧ tx.txid = txid ∨ txid ∈ w.outstandingTX sessionid := by
      simp only [World.eff, Function.update_apply]
      split_ifs with hs
      · rw [Finset.mem_insert, hs, eq_self, true_and, eq_comm]
      · rw [or_iff_right]
        exact fun h => hs h.1.symm
    rw [hupdate, h.mem]
    constructor
    · rintro (⟨hs, rfl⟩ | ⟨j, hs, hj⟩)
      · exact ⟨i, hs, Function.update_self ..⟩
      · refine ⟨j, hs, ?_⟩
        rw [Function.update_of_ne, hj]
        rintro rfl
        rw [hi] at hj
        cases hj
    · rintro ⟨j, hs, hj⟩
      by_cases hji : j = i
      · subst hji
        rw [Function.update_self, Option.some.injEq] at hj
        exact .inl ⟨hs, hj⟩
      · rw [Function.update_of_ne hji] at hj
        exact .inr ⟨j, hs, hj⟩
  lt j txid hj := by
    show txid < w.uuids + 1
    by_cases hji : j = i
    · subst hji
      rw [Function.update_self, Option.some.injEq] at hj
      omega
    · rw [Function.update_of_ne hji] at hj
      exact Nat.lt_succ_of_lt (h.lt j txid hj)
  inj j k txid hj hk := by
    -- the identifier has not been given before
    have hnew (l : ι) (hl : l ≠ i) : txids l ≠ some tx.txid := by
      intro hl
      have hlt := h.lt l _ hl
      omega
    by_cases hji : j = i <;> by_cases hki : k = i
    · rw [hji, hki]
    · subst hji
      rw [Function.update_self] at hj
      rw [Function.update_of_ne hki, ← hj] at hk
      exact absurd hk (hnew k hki)
    · subst hki
      rw [Function.update_self] at hk
      rw [Function.update_of_ne hji, ← hk] at hj
      exact absurd hj (hnew j hji)
    · rw [Function.update_of_ne hji] at hj
      rw [Function.update_of_ne hki] at hk
      exact h.inj j k txid hj hk

/-- A transaction finished is open no more, nor outstanding. -/
theorem TracksOpen.untrack (h : TracksOpen c w txids) {txid : ℕ} (hi : txids i = some txid) (r : Unit) :
    TracksOpen c (w.eff (.untrack (c i).session.sessionid txid) r) (Function.update txids i none) where
  mem sessionid txid' := by
    have hupdate : txid' ∈ (w.eff (.untrack (c i).session.sessionid txid) r).outstandingTX sessionid ↔
        txid' ∈ w.outstandingTX sessionid ∧
          ((c i).session.sessionid = sessionid → txid' ≠ txid) := by
      simp only [World.eff, Function.update_apply]
      split_ifs with hs
      · rw [Finset.mem_erase, hs, eq_self, true_imp_iff, and_comm]
      · exact (and_iff_left fun h => absurd h.symm hs).symm
    rw [hupdate, h.mem]
    -- the ids of the open transactions differ: only `i` has this one
    constructor
    · rintro ⟨⟨j, hs, hj⟩, hne⟩
      refine ⟨j, hs, ?_⟩
      rw [Function.update_of_ne, hj]
      rintro rfl
      exact hne hs (Option.some.inj (hj.symm.trans hi))
    · rintro ⟨j, hs, hj⟩
      have hji : j ≠ i := by
        rintro rfl
        rw [Function.update_self] at hj
        cases hj
      rw [Function.update_of_ne hji] at hj
      refine ⟨⟨j, hs, hj⟩, ?_⟩
      rintro - rfl
      exact hji (h.inj j i _ hj hi)
  lt j txid' hj := by
    by_cases hji : j = i
    · subst hji
      rw [Function.update_self] at hj
      cases hj
    · rw [Function.update_of_ne hji] at hj
      exact h.lt j txid' hj
  inj j k txid' hj hk := by
    have hne {l : ι} (hl : Function.update txids i none l = some txid') : txids l = some txid' := by
      by_cases hli : l = i
      · subst hli
        rw [Function.update_self] at hl
        cases hl
      · rwa [Function.update_of_ne hli] at hl
    exact h.inj j k txid' (hne hj) (hne hk)

theorem TracksOpen.step (h : TracksOpen c w txids) {a : Act} {r : a.Res} (hb : sem.body a = none)
    (ha : (opening (c i).session).allow (txids i) a) (hok : w.ok a r) :
    TracksOpen c (w.eff a r) (Function.update txids i (openStep (txids i) ⟨a, r⟩)) := by
  cases a with
  | newTx s sa =>
    obtain ⟨hi, rfl⟩ := ha
    obtain rfl : r = { txid := w.uuids, session := (c i).session, strAddr := sa } := hok
    exact h.newTx hi sa rfl
  | untrack sessionid txid =>
    obtain ⟨rfl, hi⟩ := ha
    exact h.untrack hi r
  | op tx o => cases hb
  | _ =>
    refine ⟨?_, ?_, ?_⟩
    all_goals
      try rw [World.outstandingTX_eff (fun _ _ heq => by cases heq) fun _ _ heq => by cases heq]
      simp only [openStep, Function.update_eq_self]
    · exact h.mem
    · exact fun j txid hj => (h.lt j txid hj).trans_le World.uuids_le_eff
    · exact h.inj

/-- In all interleavings of transactions, the outstanding ones are those that the programs
    have open; a program that has returned has none. -/
theorem outstandingTX_iff (h : sem.Pool w₀ (fun i => (c i).transaction) tr w ps)
    (hpre : ∀ i, .StoreMetaKVHook ∉ (c i).session.preHooks)
    (hw₀ : ∀ sessionid, w₀.outstandingTX sessionid = ∅) :
    (∀ sessionid txid, txid ∈ w.outstandingTX sessionid ↔
      ∃ i, (c i).session.sessionid = sessionid ∧ openTx (own i tr) = some txid) ∧
      ∀ i res, ps i = .ret res → openTx (own i tr) = none := by
  have hkeeps : Outline.KeepsPool (fun i => opening (c i).session) sem fun tr w txids =>
      TracksOpen c w txids ∧ ∀ i, txids i = openTx (own i tr) := by
    rintro tr w txids i a r ⟨htracks, htxids⟩ hb ha hok
    -- the annotation of a transaction is read off its own trace, which others do not change
    refine ⟨_, ⟨located_of_ok hok, rfl⟩, htracks.step hb ha hok, fun j => ?_⟩
    by_cases hj : j = i
    · subst hj
      rw [Function.update_self, own_append, own_self, openTx_snoc, htxids]
    · rw [Function.update_of_ne hj, own_append, own_of_ne (Ne.symm hj), List.append_nil, htxids]
  have hinit : TracksOpen c w₀ fun _ => none := by
    refine ⟨fun sessionid txid => ?_, ?_, ?_⟩
    · rw [hw₀]
      exact iff_of_false (Finset.notMem_empty txid) (by rintro ⟨_, -, ⟨⟩⟩)
    · rintro _ _ ⟨⟩
    · rintro _ _ _ ⟨⟩
  obtain ⟨txids, ⟨htracks, htxids⟩, hps⟩ := h.holds (fun i => verified_opening (hpre i)) hkeeps
    ⟨hinit, fun _ => rfl⟩ fun i => holds_transaction_opening (hpre i)
  refine ⟨fun sessionid txid => ?_, fun i res hres => ?_⟩
  · rw [htracks.mem]
    exact exists_congr fun i => by rw [htxids]
  · have hdone := hps i
    rw [hres] at hdone
    exact (htxids i).symm.trans hdone

/-- Of two transactions, one has its nested transaction open, and the other is open itself. -/
theorem outstandingTX_nested :
    let c : Bool → Request := fun i =>
      { session := .inMemory 0, strAddr := jstr "a", op := if i then .set (jstr "k") [] else .size }
    ∃ tr w ps, sem.Pool {} (fun i => (c i).transaction) tr w ps ∧
      w.outstandingTX 0 = {1, 2} ∧ ∀ sessionid txid, txid ∈ w.outstandingTX sessionid ↔
        ∃ i, (c i).session.sessionid = sessionid ∧ openTx (own i tr) = some txid := by
  intro c
  have hpool := pool_schedule_init (S := sem) World.ok_succeed {} (fun i => (c i).transaction)
    ([true, false] ++ List.replicate 9 true)
  refine ⟨_, _, _, hpool, by decide +kernel, (outstandingTX_iff hpool (fun i => ?_) fun _ => rfl).1⟩
  exact List.not_mem_nil

/-- There are no more outstanding transactions of a session than programs that have not
    returned. -/
theorem card_outstandingTX_le [Fintype ι] (h : sem.Pool w₀ (fun i => (c i).transaction) tr w ps)
    (hpre : ∀ i, .StoreMetaKVHook ∉ (c i).session.preHooks)
    (hw₀ : ∀ sessionid, w₀.outstandingTX sessionid = ∅) (sessionid : ℕ) :
    (w.outstandingTX sessionid).card ≤ (Finset.univ.filter fun i => (ps i).value = none).card := by
  obtain ⟨hmem, hdone⟩ := outstandingTX_iff h hpre hw₀
  -- every outstanding transaction is that of a program
  have hsub : w.outstandingTX sessionid ⊆
      ((Finset.univ.filter fun i => (ps i).value = none).image fun i =>
        (openTx (own i tr)).getD 0) := by
    intro txid htxid
    obtain ⟨i, -, hi⟩ := (hmem sessionid txid).1 htxid
    refine Finset.mem_image.2 ⟨i, Finset.mem_filter.2 ⟨Finset.mem_univ i, ?_⟩, ?_⟩
    · by_contra hvalue
      obtain ⟨res, hres⟩ := Option.ne_none_iff_exists'.1 hvalue
      rw [hdone i res (eq_ret_of_value hres)] at hi
      cases hi
    · rw [hi]
      rfl
  exact (Finset.card_le_card hsub).trans Finset.card_image_le

end

end Kvdn
