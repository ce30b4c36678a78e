import Kvdn.Footprint
import Kvdn.Protocol

/-!
# Completion of the transactions

That transactions come to their end, their hooks and nested transactions included,
when the environment answers as it is told (`Answers`), without errors: in a calm
world (`Calm`), in which the flags refuse nothing and new transactions are new, all
hooks complete (`completes_hook`), and so do all operations (`completes_run`).
-/

namespace Kvdn

open Callback Callback.Prog Callback.Sem AsyncResult Progress

/-- What the environment answers, never failing with an error. -/
structure Answers where
  pick : World → (a : Act) → a.Res
  ok : ∀ (w : World) (a : Act), w.ok a (pick w a)
  noError : ∀ (w : World) (a : Act) (msg : JString), a.cause (pick w a) ≠ some (.error msg)

namespace Answers

/-- The environment in which all steps succeed. -/
def succeeding : Answers where
  pick := World.succeed
  ok := World.ok_succeed
  noError w a msg := by rw [Act.cause_succeed]; exact nofun

/-- The runs with these answers. -/
def sem (A : Answers) : Sem Act.Res Exn World := Kvdn.sem.restrict fun w a r => r = A.pick w a

variable {A : Answers} {w : World} {a : Act}

theorem sem_ok (A : Answers) (w : World) (a : Act) : A.sem.ok w a (A.pick w a) := ⟨A.ok w a, rfl⟩

end Answers

/-- A world in which transactions of the session are not refused, and new ones are
    new: `n` UUIDs have been given away. -/
structure Calm (s : KvdnSession) (n : ℕ) (w : World) : Prop where
  flags : ∀ mode, Sum.inr mode ∉ w.txflags s.sessionid
  fresh : ∀ txid ∈ w.dirty, txid < w.uuids
  le : n ≤ w.uuids

namespace Calm

variable {s : KvdnSession} {n : ℕ} {w : World}

theorem mono {m : ℕ} (h : Calm s n w) (hm : m ≤ n) : Calm s m w :=
  ⟨h.flags, h.fresh, hm.trans h.le⟩

theorem eff (h : Calm s n w) {a : Act} {r : a.Res} (ha : ∀ txid, a = .dirty txid → txid < w.uuids) :
    Calm s n (w.eff a r) := by
  refine ⟨by rw [World.txflags_eff]; exact h.flags, fun txid hdirty => ?_,
    h.le.trans World.uuids_le_eff⟩
  by_cases hd : ∃ txid', a = .dirty txid'
  · obtain ⟨txid', rfl⟩ := hd
    rcases Finset.mem_insert.1 hdirty with rfl | hdirty
    · exact ha _ rfl
    · exact h.fresh txid hdirty
  · rw [World.dirty_eff fun txid' heq => hd ⟨txid', heq⟩] at hdirty
    exact (h.fresh txid hdirty).trans_le World.uuids_le_eff

/-- After a new transaction has been created. -/
theorem newTx (h : Calm s n w) {sa : JString} (tx : KvTx) :
    Calm s (w.uuids + 1) (w.eff (.newTx s sa) tx) :=
  ⟨h.flags, fun txid hdirty => (h.fresh txid hdirty).trans (Nat.lt_succ_self _), le_rfl⟩

end Calm

section

variable {A : Answers} {s : KvdnSession} {tx : KvTx} {op : Op} {w : World} {n : ℕ}

/-- The answers of the environment neither refuse nor fail with an error. -/
theorem Answers.assumed (hcalm : Calm s n w) {a : Act} {g : Progress} (hs : tx.session = s)
    (ha : allow tx op g a) : a.Assumed (A.pick w a) := by
  refine ⟨fun _ msg => A.noError w a msg, fun hgates hdecides => ?_⟩
  cases a with
  | checkFlags sessionid mode =>
    obtain ⟨-, -, rfl, -⟩ := ha
    have hok : A.pick w (.checkFlags tx.session.sessionid mode) =
      !decide (Sum.inr mode ∈ w.txflags tx.session.sessionid) := A.ok w (.checkFlags _ mode)
    rw [Act.fails, hok, hs]
    simpa using hcalm.flags mode
  | _ => exact absurd (hdecides.symm.trans hgates) nofun

/-- An operation completes if its hooks do. What is known of the world from its
    progress, `X`, has to be kept by its own steps, and by its hooks. -/
theorem completes_run {X : World → Progress → Prop} (hs : tx.session = s)
    (hp : op = .getKeys → tx.session.keyprov.Usable)
    (hprim : ∀ w g a, Calm s (tx.txid + 1) w → g.Sound tx op → g.Assumed → X w g →
      allow tx op g a → sem.body a = none → X (w.eff a (A.pick w a)) (g.step tx op a (A.pick w a)))
    (hkeep : ∀ w g h tr w' r, X w g → allow tx op g (.hook h (tx.started op)) →
      A.sem.Runs w (perform (.hook h (tx.started op))) tr w' (.ret r) →
      X w' (g.step tx op (.hook h (tx.started op)) r))
    (hhook : ∀ w g h, Calm s (tx.txid + 1) w → g.Sound tx op →
      allow tx op g (.hook h (tx.started op)) →
      A.sem.Completes w (perform (.hook h (tx.started op))) fun w' _ => Calm s (tx.txid + 1) w')
    (hcalm : Calm s (tx.txid + 1) w) (hnew : tx.txid ∉ w.dirty) (hX : X w {}) :
    A.sem.Completes w (tx.run op) fun w' res => Calm s (tx.txid + 1) w' ∧
      ∃ g, X w' g ∧ g.Sound tx op ∧ g.Assumed ∧ g.phase = .handled res := by
  let P (w : World) (g : Progress) : Prop := Calm s (tx.txid + 1) w ∧ X w g ∧ g.Sound tx op ∧
    g.Assumed ∧ (g.phase = .idle → tx.txid ∉ w.dirty) ∧ g.phase ≠ .denied
  have hstep : ∀ w g a, P w g → allow tx op g a → A.sem.Completes w (perform a) fun w' r =>
      ∃ g', (outline tx op).next g a r g' ∧ P w' g' := by
    rintro w g a ⟨hcalm, hX, hsound, hassumed, hidle, hdenied⟩ ha
    have hassumed' := hassumed.step ha (Answers.assumed (A := A) hcalm hs ha)
    have hcalm' (hdirty : ∀ txid, a = .dirty txid → txid < w.uuids) :
        Calm s (tx.txid + 1) (w.eff a (A.pick w a)) := hcalm.eff hdirty
    cases a with
    | hook h tx' =>
      obtain rfl := ha.2
      obtain ⟨tr, w', r, hruns, hcalm'⟩ := hhook w g h hcalm hsound ha
      have hstarted := started_step (r := r) ha nofun
      refine ⟨tr, w', r, hruns, _, rfl, hcalm', hkeep w g h tr w' r hX ha hruns, hsound.step ha,
        ?_, fun hg => absurd hg hstarted.1, hstarted.2⟩
      exact hassumed.step ha ⟨nofun, nofun⟩
    | dirty txid =>
      obtain ⟨hg, rfl⟩ := id ha
      have hpick : A.pick w (.dirty tx.txid) = false :=
        (A.ok w (.dirty tx.txid)).trans (decide_eq_false (hidle hg))
      have hX' := hprim w g _ hcalm hsound hassumed hX ha rfl
      refine .perform rfl (A.sem_ok w _) ⟨_, rfl, ?_, hX', hsound.step ha, hassumed', ?_⟩
      · refine hcalm' fun txid htxid => ?_
        rw [← Act.dirty.inj htxid]
        exact hcalm.le
      · rw [hpick]
        exact ⟨nofun, nofun⟩
    | commit | newTx | op | cacheContains | cacheAdd | cacheRemove => exact ha.elim
    | _ =>
      have hstarted := started_step (r := A.pick w _) ha nofun
      refine .perform rfl (A.sem_ok w _) ⟨_, rfl, hcalm' nofun,
        hprim w g _ hcalm hsound hassumed hX ha rfl,
        hsound.step ha, hassumed', fun hg => absurd hg hstarted.1, hstarted.2⟩
  have hthrow : ∀ w g e, P w g → ¬throws tx op g e :=
    fun w g e hP => not_throws hp hP.2.2.2.2.2 hP.2.2.2.1
  have hinit : P w {} := ⟨hcalm, hX, sound_init, ⟨nofun, nofun⟩, fun _ => hnew, nofun⟩
  exact (Prog.Holds.completes hstep hthrow hinit (holds_run tx op)).mono
    fun w' res ⟨g, hP, hdone⟩ => ⟨hP.1, g, hP.2.1, hP.2.2.1, hP.2.2.2.1, hdone⟩

/-- An operation completes if its hooks do. -/
theorem completes_op (hs : tx.session = s) (hp : op = .getKeys → tx.session.keyprov.Usable)
    (hhook : ∀ w g h, Calm s (tx.txid + 1) w → g.Sound tx op →
      allow tx op g (.hook h (tx.started op)) →
      A.sem.Completes w (perform (.hook h (tx.started op))) fun w' _ => Calm s (tx.txid + 1) w')
    (hcalm : Calm s (tx.txid + 1) w) (hnew : tx.txid ∉ w.dirty) :
    A.sem.Completes w (tx.run op) fun w' _ => Calm s (tx.txid + 1) w' :=
  (completes_run (X := fun _ _ => True) hs hp (fun _ _ _ _ _ _ _ _ _ => trivial)
    (fun _ _ _ _ _ _ _ _ _ => trivial) hhook hcalm hnew trivial).mono fun _ _ h => h.1

/-! ## Hooks -/

/-- The other hooks are single steps. -/
theorem completes_hook_other {h : TXNHook} (hh : h ≠ .StoreMetaKVHook) (hcalm : Calm s n w) :
    A.sem.Completes w (perform (.hook h tx)) fun w' _ => Calm s n w' := by
  cases h with
  | StoreMetaKVHook => exact absurd rfl hh
  | MapdbPostTXHook => exact .call rfl (.perform rfl (A.sem_ok w _) hcalm)
  | other m type => exact .perform rfl (A.sem_ok w _) hcalm

/-- The metadata hook does nothing after a transaction that reads. -/
theorem completes_hook_reads (htype : ∀ type, tx.type = some type →
    type ≠ .KV_SET ∧ type ≠ .KV_SUBMIT ∧ type ≠ .KV_DEL) (hcalm : Calm s n w) (h : TXNHook) :
    A.sem.Completes w (perform (.hook h tx)) fun w' _ => Calm s n w' := by
  by_cases hh : h = .StoreMetaKVHook
  · subst hh
    refine .call (q := StoreMetaKVHook.call tx) rfl ?_
    unfold StoreMetaKVHook.call
    split
    · rename_i ht
      exact absurd rfl (htype _ ht).1
    · rename_i ht
      exact absurd rfl (htype _ ht).2.1
    · rename_i ht
      exact absurd rfl (htype _ ht).2.2
    · exact .ret hcalm
  · exact completes_hook_other hh hcalm

/-- The hooks of a transaction on the metadata map are single steps. -/
theorem completes_op_metadata (hs : tx.session = s) (hsa : tx.strAddr = METADATA_MAP)
    (hop : op ≠ .getKeys) (hcalm : Calm s (tx.txid + 1) w) (hnew : tx.txid ∉ w.dirty) :
    A.sem.Completes w (tx.run op) fun w' _ => Calm s (tx.txid + 1) w' := by
  refine completes_op hs (fun h => absurd h hop) (fun w g h hcalm hsound ha => ?_) hcalm hnew
  refine completes_hook_other ?_ hcalm
  rintro rfl
  exact (session_of_hook hsound ha).2 rfl hsa

/-- Asking for the size, the metadata hook does nothing. -/
theorem completes_op_reads (hs : tx.session = s) (hop : op.mutates = false)
    (hp : op = .getKeys → tx.session.keyprov.Usable) (hcalm : Calm s (tx.txid + 1) w)
    (hnew : tx.txid ∉ w.dirty) :
    A.sem.Completes w (tx.run op) fun w' _ => Calm s (tx.txid + 1) w' := by
  refine completes_op hs hp (fun w g h hcalm hsound ha => ?_) hcalm hnew
  refine completes_hook_reads (fun type htype => ?_) hcalm h
  obtain rfl : op.type = type := Option.some.inj htype
  cases op with
  | get | getKeys | size => exact ⟨nofun, nofun, nofun⟩
  | _ => exact nomatch hop

/-- A new transaction is new. -/
theorem completes_newTx (hinit : s.initalized = true) (hcalm : Calm s n w) (sa : JString) :
    A.sem.Completes w (s.newTx sa) fun w' mtx => mtx.session = s ∧ mtx.strAddr = sa ∧
      Calm s (mtx.txid + 1) w' ∧ mtx.txid ∉ w'.dirty ∧ n ≤ mtx.txid + 1 := by
  have hpick : A.pick w (.newTx s sa) = { txid := w.uuids, session := s, strAddr := sa } :=
    A.ok w (.newTx s sa)
  rw [KvdnSession.newTx, if_pos hinit]
  refine .perform rfl (A.sem_ok w _) ?_
  rw [hpick]
  have hcalm' := @Calm.newTx s n w hcalm sa { txid := w.uuids, session := s, strAddr := sa }
  refine ⟨rfl, rfl, hcalm', fun hdirty => ?_, hcalm.le.trans (Nat.le_succ _)⟩
  exact lt_irrefl _ (hcalm.fresh _ hdirty)

theorem completes_cacheContains (hcalm : Calm s n w) :
    A.sem.Completes w (perform (.cacheContains tx)) fun w' _ => Calm s n w' :=
  .perform rfl (A.sem_ok w _) hcalm

theorem completes_storeMeta (hs : tx.session = s) (hinit : s.initalized = true)
    (hcalm : Calm s n w) :
    A.sem.Completes w (StoreMetaKVHook.storeMeta tx) fun w' _ => Calm s n w' := by
  subst hs
  simp only [StoreMetaKVHook.storeMeta, bind_eq, perform_bind]
  refine (completes_cacheContains hcalm).act fun w' cached hcalm' => ?_
  cases (cached : Bool) with
  | true => exact .ret hcalm'
  | false =>
    refine (completes_newTx hinit hcalm' METADATA_MAP).bind ?_
    rintro w'' mtx ⟨hmtx, hsa, hcalm'', hnew, hle⟩
    refine .act (.call rfl (completes_op_metadata hmtx hsa (fun h => by cases h) hcalm'' hnew)) ?_
    intro w₃ res hcalm₃
    have hcalm₄ := hcalm₃.mono hle
    cases (res : AsyncResult Obj) with
    | failedFuture c => exact .ret hcalm₄
    | succeededFuture x =>
      exact .act (.perform (Q := fun w' _ => Calm tx.session n w') rfl (A.sem_ok w₃ _)
        (hcalm₄.eff (a := .cacheAdd tx) (r := ()) fun _ h => by cases h)) fun w₅ r hcalm₅ => .ret hcalm₅

theorem completes_remove (hs : tx.session = s) (hinit : s.initalized = true)
    (hcalm : Calm s n w) :
    A.sem.Completes w (StoreMetaKVHook.remove tx) fun w' _ => Calm s n w' := by
  subst hs
  simp only [StoreMetaKVHook.remove, bind_eq, perform_bind]
  refine (completes_newTx hinit hcalm METADATA_MAP).bind ?_
  rintro w'' mtx ⟨hmtx, hsa, hcalm'', hnew, hle⟩
  refine .act (.call rfl (completes_op_metadata hmtx hsa (fun h => by cases h) hcalm'' hnew)) ?_
  intro w₃ res hcalm₃
  have hcalm₄ := hcalm₃.mono hle
  cases (res : AsyncResult Obj) with
  | failedFuture c => exact .ret hcalm₄
  | succeededFuture x =>
    exact .act (.perform (Q := fun w' _ => Calm tx.session n w') rfl (A.sem_ok w₃ _)
      (hcalm₄.eff (a := .cacheRemove tx) (r := ()) fun _ h => by cases h)) fun w₅ r hcalm₅ => .ret hcalm₅

theorem completes_checkIfEmpty (hs : tx.session = s) (hinit : s.initalized = true)
    (hcalm : Calm s n w) :
    A.sem.Completes w (StoreMetaKVHook.checkIfEmpty tx) fun w' _ => Calm s n w' := by
  subst hs
  simp only [StoreMetaKVHook.checkIfEmpty, bind_eq, perform_bind]
  refine (completes_cacheContains hcalm).act fun w' cached hcalm' => ?_
  cases (cached : Bool) with
  | false => exact .ret hcalm'
  | true =>
    refine (completes_newTx hinit hcalm' tx.strAddr).bind ?_
    rintro w'' ktx ⟨hktx, -, hcalm'', hnew, hle⟩
    refine .act (.call rfl (completes_op_reads hktx rfl (fun h => by cases h) hcalm'' hnew)) ?_
    intro w₃ res hcalm₃
    have hcalm₄ := hcalm₃.mono hle
    cases (res : AsyncResult Obj) with
    | failedFuture c => exact .ret hcalm₄
    | succeededFuture x =>
      by_cases hx : x = .int 0
      · simp only [hx, if_true]
        exact completes_remove rfl hinit hcalm₄
      · simp only [hx, if_false]
        exact .ret hcalm₄

/-- The metadata hook completes, whatever it does. -/
theorem completes_call (hs : tx.session = s) (hinit : s.initalized = true) (hcalm : Calm s n w) :
    A.sem.Completes w (StoreMetaKVHook.call tx) fun w' _ => Calm s n w' := by
  unfold StoreMetaKVHook.call
  split
  · exact completes_storeMeta hs hinit hcalm
  · exact completes_storeMeta hs hinit hcalm
  · exact completes_checkIfEmpty hs hinit hcalm
  · exact .ret hcalm

/-- All hooks complete. -/
theorem completes_hook (hs : tx.session = s) (hinit : s.initalized = true) (hcalm : Calm s n w)
    (h : TXNHook) : A.sem.Completes w (perform (.hook h tx)) fun w' _ => Calm s n w' := by
  by_cases hh : h = .StoreMetaKVHook
  · subst hh
    exact .call (q := StoreMetaKVHook.call tx) rfl (completes_call hs hinit hcalm)
  · exact completes_hook_other hh hcalm

/-! ## The parts of a transaction -/

theorem completes_perform {a : Act} (hb : sem.body a = none) (hcalm : Calm s n w)
    (ha : ∀ txid, a = .dirty txid → txid < w.uuids) :
    A.sem.Completes w (perform a) fun w' r => r = A.pick w a ∧ Calm s n w' :=
  .perform hb (A.sem_ok w a) ⟨rfl, hcalm.eff ha⟩

theorem completes_hookCaller (hs : tx.session = s) (hinit : s.initalized = true)
    (hcalm : Calm s n w) (hooks : List TXNHook) :
    A.sem.Completes w (KvdnSession.hookCaller tx hooks) fun w' _ => Calm s n w' := by
  induction hooks generalizing w with
  | nil => exact .ret hcalm
  | cons nxt hooks ih =>
    rw [KvdnSession.hookCaller]
    split_ifs
    · exact ih hcalm
    · exact .act (completes_hook hs hinit hcalm nxt) fun w' _ hcalm' => ih hcalm'

/-- A transaction that has not been invoked yet starts. -/
theorem completes_startTX (hs : tx.session = s) (hinit : s.initalized = true)
    (hcalm : Calm s (tx.txid + 1) w) (hnew : tx.txid ∉ w.dirty) (type : TXTYPE) :
    A.sem.Completes w (tx.startTX type) fun w' tx' =>
      tx' = { tx with type := some type } ∧ Calm s (tx.txid + 1) w' := by
  have hpick : A.pick w (.dirty tx.txid) = false :=
    (A.ok w (.dirty tx.txid)).trans (decide_eq_false hnew)
  simp only [KvTx.startTX, bind_eq, perform_bind]
  refine .act (completes_perform rfl hcalm fun txid h => Act.dirty.inj h ▸ hcalm.le) ?_
  rintro w' r ⟨rfl, hcalm'⟩
  rw [hpick, if_neg Bool.false_ne_true]
  have hs' : ({ tx with type := some type } : KvTx).session = s := hs
  exact (completes_hookCaller hs' hinit hcalm' _).bind fun w'' _ hcalm'' => .ret ⟨rfl, hcalm''⟩

theorem completes_finishTx (hs : tx.session = s) (hinit : s.initalized = true)
    (hcalm : Calm s n w) :
    A.sem.Completes w (tx.session.finishTx tx) fun w' _ => Calm s n w' := by
  subst hs
  simp only [KvdnSession.finishTx, bind_eq, perform_bind]
  refine .act (completes_perform rfl hcalm fun _ h => by cases h) ?_
  rintro w' r ⟨-, hcalm'⟩
  refine (completes_hookCaller rfl hinit hcalm' _).bind fun w'' _ hcalm'' => ?_
  split_ifs
  · exact (completes_perform rfl hcalm'' fun _ h => by cases h).mono fun _ _ h => h.2
  · exact (completes_perform rfl hcalm'' fun _ h => by cases h).mono fun _ _ h => h.2

end

end Kvdn
