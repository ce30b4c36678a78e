import Kvdn.Frame
import Kvdn.Setting

/-!
# The stages of the metadata hook

How far the metadata hook has come for a transaction that changes its map: a
`Stage`, moved by the call of the transaction, whether it succeeds or not, and then
by what the hook checks and does, its nested transactions included. A transaction
and the ones nested in it go through the stages (`Stage.holds_run`,
`Stage.verified`), whatever their steps answer.

What the stages say of the map, the index and the cache depends on who else is
working on them, and is left to the modules that use them.
-/

namespace Kvdn

open Callback Callback.Prog AsyncResult

/-- How far the metadata hook has come for a transaction. -/
inductive Stage
  /-- The map has not been called yet. -/
  | before
  /-- A value was to be written. -/
  | written
  /-- After that, the cache did not have the address. -/
  | missed
  /-- The address has been added to the index. -/
  | listed
  /-- Values were to be removed. -/
  | erased
  /-- After that, the cache had the address. -/
  | hit
  /-- Then, the map was empty. -/
  | empty
  /-- The address has been removed from the index. -/
  | unlisted
  | settled
  deriving DecidableEq

/-- The operation removes values. -/
def Op.deletes : Op → Bool
  | clear | del _ => true
  | _ => false

/-- What is known of the outcome of a transaction, seen from outside, from the answer
    of an action: of its call, of the lookup of its map if it fails, or of the
    transaction as a whole. -/
def Act.reply : (a : Act) → a.Res → Option (AsyncResult Obj)
  | .op _ _, (r : AsyncResult Obj) => some r
  | .getMap _ _, (r : AsyncResult AsyncMap) => r.cause.map failedFuture
  | a, r => a.answer r

theorem Act.reply_of_answer {a : Act} {r : a.Res} {res : AsyncResult Obj}
    (h : a.answer r = some res) : a.reply r = some res := by
  cases a with
  | put | get | remove | clear | size | getKeys => exact h
  | _ => exact nomatch h

namespace Stage

/-- The stage after the call of a transaction. -/
def changed (op : Op) : Stage := if op.deletes then erased else written

theorem changed_of_deletes {op : Op} (h : op.deletes = true) : changed op = erased := by
  simp [changed, h]

theorem changed_of_not_deletes {op : Op} (h : op.deletes = false) : changed op = written := by
  simp [changed, h]

/-- Where the outcome of a nested transaction leads. -/
def replied (st : Stage) (res : AsyncResult Obj) : Stage :=
  match st with
  | missed => if res.succeeded then listed else settled
  | hit => if res = succeededFuture (.int 0) then empty else settled
  | empty => if res.succeeded then unlisted else settled
  | st => st

/-- Where a step leads, for a transaction of the operation `op`. A whole metadata hook
    settles it, and a whole nested operation does what its call does. -/
def next (op : Op) (st : Stage) (a : Act) (r : a.Res) : Stage :=
  match st, a, r with
  | before, a, r => if (a.reply r).isSome then changed op else before
  | written, .cacheContains _, (cached : Bool) => if cached then settled else missed
  | erased, .cacheContains _, (cached : Bool) => if cached then hit else settled
  | written, .hook .StoreMetaKVHook _, _ | erased, .hook .StoreMetaKVHook _, _ => settled
  | listed, .cacheAdd _, _ => settled
  | unlisted, .cacheRemove _, _ => settled
  | st, a, r => ((a.reply r).map st.replied).getD st

/-- The operations of the nested transactions, on the address `sa`. -/
def Nested (sa : JString) (st : Stage) (tx : KvTx) (o : Op) : Prop :=
  match st with
  | missed => tx.strAddr = METADATA_MAP ∧ o = .set sa (jstr "1")
  | hit => tx.strAddr = sa ∧ o = .size
  | empty => tx.strAddr = METADATA_MAP ∧ o = .del sa
  | _ => False

/-- The call of the transaction on its map. -/
def Calls (S : Setting) (tx : KvTx) (op : Op) (st : Stage) (a : Act) : Prop :=
  st = before ∧ op.call (op.digestOf S.md5) ⟨S.session.D.space, tx.strAddr⟩ = some a

/-- The steps a transaction, or one nested in it, may take. -/
def allow (S : Setting) (tx : KvTx) (op : Op) (st : Stage) : Act → Prop
  | .put m key value => Calls S tx op st (.put m key value) ∨
    st = missed ∧ m = ⟨S.session.D.space, METADATA_MAP⟩ ∧ key = tx.strAddr
  | .remove m key => Calls S tx op st (.remove m key) ∨
    st = empty ∧ m = ⟨S.session.D.space, METADATA_MAP⟩ ∧ key = tx.strAddr
  | .clear m => Calls S tx op st (.clear m)
  | .size m => st = hit ∧ m = ⟨S.session.D.space, tx.strAddr⟩
  | .get _ _ | .getKeys _ _ => False
  | .cacheContains tx' => st = changed op ∧ tx' = tx.started op
  | .cacheAdd tx' => st = listed ∧ tx' = tx.started op
  | .cacheRemove tx' => st = unlisted ∧ tx' = tx.started op
  | .hook h tx' => tx'.session = S.session ∧ (h = .StoreMetaKVHook →
    st = changed op ∧ tx' = tx.started op ∨ (st = empty ∨ st = settled) ∧ tx'.type = some .KV_SIZE)
  | .op tx' o => tx'.session = S.session ∧ st.Nested tx.strAddr tx' o
  | _ => True

/-- The outline of a transaction. -/
def outline (S : Setting) (tx : KvTx) (op : Op) : Outline Act.Res Exn Stage where
  allow := allow S tx op
  next st a r st' := Known S a r ∧ st' = st.next op a r
  throws _ _ := True

variable {S : Setting} {tx tx' : KvTx} {op o : Op} {st st' : Stage} {g : Progress}

@[simp] theorem outline_allow : (outline S tx op).allow = allow S tx op := rfl

@[simp] theorem outline_next {a : Act} {r : a.Res} : (outline S tx op).next st a r st' ↔
    Known S a r ∧ st' = st.next op a r := Iff.rfl

theorem Calls.put {m : AsyncMap} {key : JString} {value : Obj}
    (h : Calls S tx op st (.put m key value)) :
    st = before ∧ op.deletes = false ∧ m = ⟨S.session.D.space, tx.strAddr⟩ := by
  obtain ⟨hst, hcall⟩ := h
  cases op with
  | submit | set => cases hcall; exact ⟨hst, rfl, rfl⟩
  | _ => exact nomatch hcall

theorem Calls.remove {m : AsyncMap} {key : JString} (h : Calls S tx op st (.remove m key)) :
    st = before ∧ op.deletes = true ∧ m = ⟨S.session.D.space, tx.strAddr⟩ := by
  obtain ⟨hst, hcall⟩ := h
  cases op with
  | del => cases hcall; exact ⟨hst, rfl, rfl⟩
  | _ => exact nomatch hcall

theorem Calls.clear {m : AsyncMap} (h : Calls S tx op st (.clear m)) :
    st = before ∧ op.deletes = true ∧ m = ⟨S.session.D.space, tx.strAddr⟩ := by
  obtain ⟨hst, hcall⟩ := h
  cases op with
  | clear => cases hcall; exact ⟨hst, rfl, rfl⟩
  | _ => exact nomatch hcall

theorem next_before_of_reply {a : Act} {r : a.Res} {res : AsyncResult Obj}
    (h : a.reply r = some res) : before.next op a r = changed op := by
  simp [next, h]

/-- A step that tells nothing of the outcome of a transaction leaves the stage, unless
    it is one of the hook's own. -/
theorem next_of_reply_eq_none {a : Act} {r : a.Res} (h : a.reply r = none)
    (hhook : ∀ tx, a ≠ .hook .StoreMetaKVHook tx) (hcontains : ∀ tx, a ≠ .cacheContains tx)
    (hadd : ∀ tx, a ≠ .cacheAdd tx) (hremove : ∀ tx, a ≠ .cacheRemove tx) :
    st.next op a r = st := by
  unfold next
  split
  · simp [h]
  · exact absurd rfl (hcontains _)
  · exact absurd rfl (hcontains _)
  · exact absurd rfl (hhook _)
  · exact absurd rfl (hhook _)
  · exact absurd rfl (hadd _)
  · exact absurd rfl (hremove _)
  · simp [h]

/-- The stage of a transaction, from its progress. -/
def Of (op : Op) (st : Stage) (g : Progress) : Prop :=
  match g.outcome with
  | .open => st = before
  | .refused _ => False
  | .failed _ | .called _ =>
    match g.phase with
    | .notifying | .decided => st = changed op
    | .finishing hooks => st = if .StoreMetaKVHook ∈ hooks then changed op else settled
    | _ => st = settled

theorem Of.before (hof : Of op st g) (hopen : g.outcome = .open) : st = before := by
  rw [Of, hopen] at hof
  exact hof

/-- Once the outcome is known, the stage is that of the phase. -/
theorem of_iff (hopen : g.outcome ≠ .open) (hrefused : ∀ m, g.outcome ≠ .refused m) :
    Of op st g ↔ match g.phase with
      | .notifying | .decided => st = changed op
      | .finishing hooks => st = if .StoreMetaKVHook ∈ hooks then changed op else settled
      | _ => st = settled := by
  cases ho : g.outcome with
  | «open» => exact absurd ho hopen
  | refused map => exact absurd ho (hrefused map)
  | failed c => simp only [Of, ho]
  | called x => simp only [Of, ho]

theorem called_eq (htx : UserAddr tx.strAddr) (hooks : List TXNHook) : tx.called hooks = hooks :=
  List.filter_eq_self.2 fun h _ => by simp [TXNHook.Skipped, htx.1]

/-- The hooks of a transaction: the metadata hook settles it. -/
theorem Of.hook (hready : S.session.Ready) (htx : UserAddr tx.strAddr) (hs : tx.session = S.session)
    {h : TXNHook} {r : AsyncResult Obj} (hfits : Fits S tx op g) (hof : Of op st g)
    (ha : Progress.allow tx op g (.hook h tx')) :
    (h = .StoreMetaKVHook → st = changed op) ∧
      Of op (st.next op (.hook h tx') r) (g.step tx op (.hook h tx') r) := by
  have hsound := hfits.sound
  have hother (hh : h ≠ .StoreMetaKVHook) : st.next op (.hook h tx') r = st :=
    next_of_reply_eq_none rfl (fun _ heq => hh (Act.hook.inj heq).1) (fun _ => nofun)
      (fun _ => nofun) fun _ => nofun
  obtain ⟨⟨hooks, hg | hg⟩, -⟩ := ha
  · -- the metadata hook is not among the pre hooks
    rw [Progress.Sound, hg, hs, called_eq htx S.session.preHooks] at hsound
    obtain ⟨hopen, hsuffix⟩ := hsound
    have hne : h ≠ .StoreMetaKVHook := fun heq =>
      hready.preHooks (heq ▸ hsuffix.subset List.mem_cons_self)
    rw [Progress.step_hook_starting hg, hother hne, hof.before hopen]
    exact ⟨fun heq => absurd heq hne, by rw [Of, hopen]⟩
  · -- and once among the post hooks
    rw [Progress.Sound, hg, hs, called_eq htx S.session.postHooks] at hsound
    obtain ⟨hopen, hsuffix⟩ := hsound
    have hcount := hsuffix.sublist.count_le .StoreMetaKVHook
    rw [hready.postHooks] at hcount
    rw [Progress.step_hook_finishing hg]
    rw [of_iff hopen hfits.not_refused, hg] at hof
    rw [of_iff (g := { g with phase := .finishing hooks }) hopen hfits.not_refused]
    by_cases hh : h = .StoreMetaKVHook
    · subst hh
      have hmem : .StoreMetaKVHook ∉ hooks := by
        rw [← List.count_eq_zero]
        simpa using hcount
      obtain rfl : st = changed op := by simpa using hof
      refine ⟨fun _ => rfl, ?_⟩
      cases hd : op.deletes <;> simp [changed, hd, next, hmem]
    · refine ⟨fun heq => absurd heq hh, ?_⟩
      rw [hother hh]
      simpa [Ne.symm hh] using hof

theorem Of.answered {res : AsyncResult Obj} : Of op (changed op) (g.answered op res) := by
  cases res with
  | failedFuture c => exact rfl
  | succeededFuture x => cases hn : op.notifies <;> simp [Progress.answered, hn, Of]

/-- The stage of a transaction moves with its progress. -/
theorem Of.step (hready : S.session.Ready) (htx : UserAddr tx.strAddr)
    (hs : tx.session = S.session) (hop : op.mutates = true) (hfits : Fits S tx op g)
    (hof : Of op st g) {a : Act} {r : a.Res} (ha : Progress.allow tx op g a)
    (hk : Known S a r) : Of op (st.next op a r) (g.step tx op a r) := by
  have hsound := hfits.sound
  have hstay (hr : a.reply r = none) (hhook : ∀ h tx, a ≠ .hook h tx) :
      st.next op a r = st := by
    refine next_of_reply_eq_none hr (fun tx => hhook _ tx) ?_ ?_ ?_ <;> rintro tx rfl <;>
      exact ha.elim
  cases a with
  -- its answer is what the stage moves with
  | put | get | remove | clear | size =>
    obtain rfl := hof.before (hfits.call ha).1
    rw [next_before_of_reply (Act.reply_of_answer (a := _) (r := r) rfl)]
    exact Of.answered
  | getKeys =>
    obtain ⟨-, -, rfl, -⟩ := ha
    cases hop
  | hook => exact (hof.hook hready htx hs hfits ha).2
  | getMap D sa =>
    obtain rfl := hof.before ha.2.1
    cases (r : AsyncResult AsyncMap) with
    | failedFuture c => exact rfl
    | succeededFuture map =>
      rw [hstay rfl (fun _ _ h => by cases h), Of, Progress.step, ha.2.1]
  | checkFlags sessionid mode =>
    rw [hstay rfl fun _ _ h => by cases h]
    obtain ⟨⟨map, hg⟩, hopen, rfl, -⟩ := ha
    obtain rfl : r = true := hk (by rw [hs])
    rw [Progress.step_checkFlags hg, hof.before hopen]
    simp [Of, hopen]
  | dirty txid =>
    rw [hstay rfl fun _ _ h => by cases h]
    rw [Progress.Sound, ha.1] at hsound
    have hopen : g.outcome = .open := hsound
    rw [hof.before hopen, Of, Progress.step, hopen]
  | digest bytes =>
    rw [hstay rfl fun _ _ h => by cases h]
    obtain ⟨⟨map, hg⟩, -⟩ := ha
    rw [Progress.Sound, hg] at hsound
    have hopen : g.outcome = .open := hsound
    rw [hof.before hopen, Of, Progress.step, hopen]
  | setKey | deleteKey =>
    rw [hstay rfl fun _ _ h => by cases h]
    obtain ⟨hg, -⟩ := ha
    rw [Progress.Sound, hg] at hsound
    obtain ⟨⟨x, hx⟩, -⟩ := hsound
    simpa only [Of, hx, hg, Progress.step] using hof
  | untrack =>
    rw [hstay rfl fun _ _ h => by cases h]
    obtain ⟨hg, -⟩ := ha
    rw [Progress.Sound, hg] at hsound
    rw [of_iff hsound hfits.not_refused, hg] at hof
    -- the post hooks are still to come, and the metadata hook is among them
    have hmem : .StoreMetaKVHook ∈ tx.called tx.session.postHooks := by
      rw [called_eq htx, hs, ← List.count_pos_iff, hready.postHooks]
      exact Nat.one_pos
    refine (of_iff (g := g.step tx op (.untrack _ _) r) hsound hfits.not_refused).2 ?_
    exact hof.trans (if_pos hmem).symm
  | accessPut | accessPutIfAbsent =>
    rw [hstay rfl fun _ _ h => by cases h]
    obtain ⟨hg, -⟩ := ha
    rw [Progress.Sound, hg] at hsound
    rw [of_iff hsound.1 hfits.not_refused, hg] at hof
    exact (of_iff (g := { g with phase := .finished }) hsound.1 hfits.not_refused).2
      (by simpa using hof)
  | publish | handle =>
    rw [hstay rfl fun _ _ h => by cases h]
    obtain ⟨hg, -⟩ := ha
    rw [Progress.Sound, hg] at hsound
    rw [of_iff hsound hfits.not_refused, hg] at hof
    refine (of_iff ?_ ?_).2 ?_
    · exact hsound
    · exact hfits.not_refused
    · simpa [Progress.step, hg] using hof
  | commit | newTx | op | cacheContains | cacheAdd | cacheRemove => exact ha.elim

/-- The steps of a transaction are allowed by the stage it has come to. -/
theorem Of.allow (hready : S.session.Ready) (htx : UserAddr tx.strAddr)
    (hs : tx.session = S.session) (hop : op.mutates = true) (hfits : Fits S tx op g)
    (hof : Of op st g) {a : Act} (ha : Progress.allow tx op g a) : Stage.allow S tx op st a := by
  have hcalls (ha : g.Calls op a) : Stage.Calls S tx op st a := by
    obtain ⟨hopen, hcall⟩ := hfits.call ha
    exact ⟨hof.before hopen, hcall⟩
  cases a with
  | put | remove => exact .inl (hcalls ha)
  | clear => exact hcalls ha
  | get m key =>
    obtain ⟨-, hcall⟩ := hcalls ha
    cases op with
    | get => exact nomatch hop
    | _ => exact nomatch hcall
  | size m =>
    obtain ⟨-, hcall⟩ := hcalls ha
    cases op with
    | size => exact nomatch hop
    | _ => exact nomatch hcall
  | getKeys =>
    obtain ⟨-, -, rfl, -⟩ := ha
    exact nomatch hop
  | hook h tx' =>
    obtain rfl := ha.2
    have hchanged := (hof.hook (r := succeededFuture .null) hready htx hs hfits ha).1
    exact ⟨hs, fun hh => .inl ⟨hchanged hh, rfl⟩⟩
  | op | cacheContains | cacheAdd | cacheRemove => exact ha.elim
  | _ => trivial

/-- A transaction goes through the stages, and is settled when it ends. -/
theorem holds_run (hready : S.session.Ready) (htx : UserAddr tx.strAddr)
    (hs : tx.session = S.session) (hop : op.mutates = true) :
    (tx.run op).Holds (outline S tx op) (fun st _ => st = settled) before := by
  have hallow : ∀ g st a, Fits S tx op g ∧ Of op st g → Progress.allow tx op g a →
      Stage.allow S tx op st a := fun g st a ⟨hfits, hof⟩ ha => hof.allow hready htx hs hop hfits ha
  have hnext : ∀ g st a r st', Fits S tx op g ∧ Of op st g → Progress.allow tx op g a →
      Known S a r ∧ st' = st.next op a r → ∃ g', g' = g.step tx op a r ∧
        Fits S tx op g' ∧ Of op st' g' := by
    rintro g st a r _ ⟨hfits, hof⟩ ha ⟨hk, rfl⟩
    exact ⟨_, rfl, hfits.step hs ha hk, hof.step hready htx hs hop hfits ha hk⟩
  refine (Progress.holds_run tx op).refine _ hallow hnext (fun _ _ _ _ _ => trivial) ?_
    ⟨fits_init, rfl⟩
  rintro g st res ⟨hfits, hof⟩ hdone
  have hsound := hfits.sound
  have hphase : g.phase = .handled res := hdone
  rw [Progress.Sound, hphase] at hsound
  have hopen : g.outcome ≠ .open := fun ho => by simp [Progress.result, ho] at hsound
  rw [of_iff hopen hfits.not_refused, hphase] at hof
  exact hof

/-! ## Nested transactions -/

/-- The stage of a transaction, from the progress of one nested in it. -/
def OfNested (st st' : Stage) (g : Progress) : Prop :=
  match g.outcome with
  | .open => st' = st
  | .refused _ => False
  | .failed c => st' = st.replied (failedFuture c)
  | .called x => st' = st.replied (succeededFuture x)

/-- The stages in a nested transaction. -/
def inNested : Stage → Bool
  | before | written | erased => false
  | _ => true

theorem Nested.inNested {sa : JString} (hn : st.Nested sa tx' o) : st.inNested = true := by
  cases st <;> first | rfl | exact hn.elim

theorem inNested_replied (h : st.inNested = true) (res : AsyncResult Obj) :
    (st.replied res).inNested = true := by
  cases st with
  | missed | hit | empty => simp only [replied]; split <;> rfl
  | _ => exact h

theorem OfNested.inNested (h : st.inNested = true) (hof : OfNested st st' g) :
    st'.inNested = true := by
  cases ho : g.outcome with
  | «open» => rw [OfNested, ho] at hof; exact hof ▸ h
  | refused map => rw [OfNested, ho] at hof; exact hof.elim
  | failed c | called x => rw [OfNested, ho] at hof; exact hof ▸ inNested_replied h _

theorem next_of_reply (h : st.inNested = true) {a : Act} {r : a.Res} {res : AsyncResult Obj}
    (hr : a.reply r = some res) : st.next op a r = st.replied res := by
  cases st with
  | before | written | erased => exact nomatch h
  | listed | unlisted =>
    cases a with
    | cacheAdd | cacheRemove => exact nomatch hr
    | _ => simp [next, hr]
  | _ => simp [next, hr]

theorem OfNested.replied (h : st.inNested = true) (hof : OfNested st st' g)
    (hopen : g.outcome = .open) {a : Act} {r : a.Res} {res : AsyncResult Obj}
    (hr : a.answer r = some res) : OfNested st (st'.next op a r) (g.answered o res) := by
  rw [OfNested, hopen] at hof
  subst hof
  rw [next_of_reply h (Act.reply_of_answer hr)]
  cases res <;> exact rfl

theorem OfNested.step (h : st.inNested = true) (hs : tx'.session = S.session)
    (hfits : Fits S tx' o g) (hof : OfNested st st' g) {a : Act} {r : a.Res}
    (ha : Progress.allow tx' o g a) (hk : Known S a r) :
    OfNested st (st'.next op a r) (g.step tx' o a r) := by
  have hkeep (hnext : st'.next op a r = st') (hout : (g.step tx' o a r).outcome = g.outcome) :
      OfNested st (st'.next op a r) (g.step tx' o a r) := by
    rw [hnext, OfNested, hout]
    exact hof
  have hstay (hr : a.reply r = none) (hhook : ∀ h tx, a ≠ .hook h tx) :
      st'.next op a r = st' := by
    refine next_of_reply_eq_none hr (fun tx => hhook _ tx) ?_ ?_ ?_ <;> rintro tx rfl <;>
      exact ha.elim
  cases a with
  | put | get | remove | clear | size => exact hof.replied h (hfits.call ha).1 rfl
  | getKeys => exact hof.replied h ha.2.1 rfl
  | getMap D sa =>
    cases (r : AsyncResult AsyncMap) with
    | succeededFuture map => exact hkeep (hstay rfl fun _ _ => nofun) rfl
    | failedFuture c =>
      rw [OfNested, ha.2.1] at hof
      subst hof
      rw [next_of_reply h rfl]
      exact rfl
  | checkFlags sessionid mode =>
    obtain ⟨⟨map, hg⟩, -, rfl, -⟩ := id ha
    obtain rfl : r = true := hk (by rw [hs])
    exact hkeep (hstay rfl fun _ _ => nofun) (by rw [Progress.step_checkFlags hg]; rfl)
  | hook nxt tx =>
    refine hkeep ?_ (Progress.outcome_step rfl fun _ _ => nofun)
    have hin := hof.inNested h
    cases st' with
    | before | written | erased => exact nomatch hin
    | _ => rfl
  | op | cacheContains | cacheAdd | cacheRemove => exact ha.elim
  | _ => exact hkeep (hstay rfl fun _ _ => nofun) rfl

/-- The hooks of a nested transaction: the metadata hook has nothing to do. -/
theorem Nested.hook (hready : S.session.Ready) {sa : JString} (hn : st.Nested sa tx' o)
    (hs : tx'.session = S.session) (hfits : Fits S tx' o g) (hof : OfNested st st' g)
    (ha : Progress.allow tx' o g (.hook .StoreMetaKVHook tx)) :
    (st' = empty ∨ st' = settled) ∧ tx.type = some .KV_SIZE := by
  have hsound := hfits.sound
  obtain ⟨⟨hooks, hg | hg⟩, rfl⟩ := ha
  · -- it is no pre hook
    rw [Progress.Sound, hg] at hsound
    have hmem := hsound.2.subset List.mem_cons_self
    rw [hs] at hmem
    exact absurd (List.mem_of_mem_filter hmem) hready.preHooks
  · rw [Progress.Sound, hg] at hsound
    have hmem := (List.mem_filter.1 (hsound.2.subset List.mem_cons_self)).2
    have hmeta : tx'.strAddr ≠ METADATA_MAP := by
      intro hmeta
      simp [TXNHook.Skipped, TXNHook.getType, hmeta] at hmem
    cases st with
    -- a write of the index is on the metadata map, which the hook is skipped for
    | missed | empty => exact absurd hn.1 hmeta
    | hit =>
      obtain ⟨-, rfl⟩ := hn
      refine ⟨?_, rfl⟩
      cases ho : g.outcome with
      | «open» => exact absurd ho hsound.1
      | refused map => exact absurd ho (hfits.not_refused map)
      | failed c =>
        rw [OfNested, ho] at hof
        exact .inr hof
      | called x =>
        rw [OfNested, ho] at hof
        rw [hof, Stage.replied]
        split
        · exact .inl rfl
        · exact .inr rfl
    | _ => exact hn.elim

/-- The call of a nested transaction is the one the stage allows. -/
theorem Nested.allow_call (hn : st.Nested tx.strAddr tx' o) (hfits : Fits S tx' o g)
    (hof : OfNested st st' g) {a : Act} (ha : g.Calls o a) : allow S tx op st' a := by
  obtain ⟨hopen, hcall⟩ := hfits.call ha
  rw [OfNested, hopen] at hof
  subst hof
  cases st' with
  | missed | empty =>
    obtain ⟨hmeta, rfl⟩ := hn
    cases hcall
    exact .inr ⟨rfl, by rw [hmeta], rfl⟩
  | hit =>
    obtain ⟨hsa, rfl⟩ := hn
    cases hcall
    exact ⟨rfl, by rw [hsa]⟩
  | _ => exact hn.elim

theorem Nested.ne_getKeys {sa : JString} (hn : st.Nested sa tx' o) : o ≠ .getKeys := by
  rintro rfl
  cases st with
  | missed | hit | empty => exact nomatch hn.2
  | _ => exact hn.elim

/-- A nested transaction does what the hook expects of it. -/
theorem holds_nested (hready : S.session.Ready) (hn : st.Nested tx.strAddr tx' o)
    (hs : tx'.session = S.session) :
    (tx'.run o).Holds (outline S tx op) (fun st' res => st' = st.next op (.op tx' o) res) st := by
  have hin := hn.inNested
  have hallow : ∀ g st' a, Fits S tx' o g ∧ OfNested st st' g → Progress.allow tx' o g a →
      allow S tx op st' a := by
    rintro g st' a ⟨hfits, hof⟩ ha
    cases a with
    | put | get | remove | clear | size => exact hn.allow_call hfits hof ha
    | getKeys => exact absurd ha.2.2.1 hn.ne_getKeys
    | hook h tx'' =>
      obtain ⟨hhooks, rfl⟩ := id ha
      refine ⟨hs, ?_⟩
      rintro rfl
      exact .inr (hn.hook hready hs hfits hof ha)
    | op | cacheContains | cacheAdd | cacheRemove => exact ha.elim
    | _ => trivial
  have hnext : ∀ g st' a r st'', Fits S tx' o g ∧ OfNested st st' g →
      Progress.allow tx' o g a → Known S a r ∧ st'' = st'.next op a r →
      ∃ g', g' = g.step tx' o a r ∧ Fits S tx' o g' ∧ OfNested st st'' g' := by
    rintro g st' a r _ ⟨hfits, hof⟩ ha ⟨hk, rfl⟩
    exact ⟨_, rfl, hfits.step hs ha hk, hof.step hin hs hfits ha hk⟩
  refine (Progress.holds_run tx' o).refine _ hallow hnext (fun _ _ _ _ _ => trivial) ?_
    ⟨fits_init, rfl⟩
  rintro g st' res ⟨hfits, hof⟩ hdone
  rw [next_of_reply hin (a := .op tx' o) (r := res) rfl]
  cases hfits.sound.gives hdone with
  | refused map ho => exact absurd ho (hfits.not_refused map)
  | failed c ho =>
    rw [OfNested, ho] at hof
    exact hof
  | called x v ho hv =>
    rw [OfNested, ho] at hof
    refine hof.trans ?_
    cases st with
    | missed | empty => rfl
    | hit =>
      obtain ⟨-, rfl⟩ := hn
      cases hv
      rfl
    | _ => exact hn.elim

/-! ## The metadata hook -/

theorem holds_newTx (hs : tx.session = S.session) {sa : JString} :
    ((tx.started op).session.newTx sa).Holds (outline S tx op)
      (fun st' mtx => st' = st ∧ mtx.session = S.session ∧ mtx.strAddr = sa) st := by
  unfold KvdnSession.newTx
  split_ifs
  · refine ⟨trivial, fun mtx st' ⟨hmtx, hst'⟩ => ⟨hst'.trans ?_, hmtx.2.1.trans hs, hmtx.2.2⟩⟩
    exact next_of_reply_eq_none rfl (fun _ => nofun) (fun _ => nofun) (fun _ => nofun)
      fun _ => nofun
  · trivial

theorem holds_storeMeta (hs : tx.session = S.session) (hd : op.deletes = false) :
    (StoreMetaKVHook.storeMeta (tx.started op)).Holds (outline S tx op)
      (fun st' _ => st' = settled) written := by
  simp only [StoreMetaKVHook.storeMeta, bind_eq, perform_bind]
  refine ⟨⟨by simp [changed, hd], rfl⟩, fun cached st' ⟨_, hst'⟩ => ?_⟩
  subst hst'
  cases (cached : Bool) with
  | true => exact rfl
  | false =>
    refine holds_bind.2 ((holds_newTx hs).mono fun st' mtx ⟨hst', hmtx⟩ => ?_)
    subst hst'
    refine ⟨⟨hmtx.1, hmtx.2, rfl⟩, fun res st' ⟨_, hst'⟩ => ?_⟩
    subst hst'
    cases (res : AsyncResult Obj) with
    | failedFuture c => exact rfl
    | succeededFuture x =>
      refine ⟨⟨rfl, rfl⟩, fun _ st' ⟨_, hst'⟩ => ?_⟩
      subst hst'
      exact rfl

theorem holds_remove (hs : tx.session = S.session) :
    (StoreMetaKVHook.remove (tx.started op)).Holds (outline S tx op)
      (fun st' _ => st' = settled) empty := by
  simp only [StoreMetaKVHook.remove, bind_eq]
  refine holds_bind.2 ((holds_newTx hs).mono fun st' mtx ⟨hst', hmtx⟩ => ?_)
  subst hst'
  refine ⟨⟨hmtx.1, hmtx.2, rfl⟩, fun res st' ⟨_, hst'⟩ => ?_⟩
  subst hst'
  cases (res : AsyncResult Obj) with
  | failedFuture c => exact rfl
  | succeededFuture x =>
    refine ⟨⟨rfl, rfl⟩, fun _ st' ⟨_, hst'⟩ => ?_⟩
    subst hst'
    exact rfl

theorem holds_checkIfEmpty (hs : tx.session = S.session) (hd : op.deletes = true) :
    (StoreMetaKVHook.checkIfEmpty (tx.started op)).Holds (outline S tx op)
      (fun st' _ => st' = settled) erased := by
  simp only [StoreMetaKVHook.checkIfEmpty, bind_eq, perform_bind]
  refine ⟨⟨by simp [changed, hd], rfl⟩, fun cached st' ⟨_, hst'⟩ => ?_⟩
  subst hst'
  cases (cached : Bool) with
  | false => exact rfl
  | true =>
    refine holds_bind.2 ((holds_newTx hs).mono fun st' ktx ⟨hst', hktx⟩ => ?_)
    subst hst'
    refine ⟨⟨hktx.1, hktx.2, rfl⟩, fun res st' ⟨_, hst'⟩ => ?_⟩
    subst hst'
    cases (res : AsyncResult Obj) with
    | failedFuture c => exact rfl
    | succeededFuture x =>
      by_cases hx : x = .int 0
      · subst hx
        exact holds_remove hs
      · simp only [hx, if_false]
        simp [next, Act.reply, Stage.replied, hx]

/-- The metadata hook settles the transaction it is called for. -/
theorem holds_hook (hs : tx.session = S.session) (hop : op.mutates = true) :
    (StoreMetaKVHook.call (tx.started op)).Holds (outline S tx op)
      (fun st' _ => st' = settled) (changed op) := by
  cases op with
  | submit | set => exact holds_storeMeta hs rfl
  | clear | del => exact holds_checkIfEmpty hs rfl
  | _ => exact nomatch hop

theorem verified (hready : S.session.Ready) (hs : tx.session = S.session)
    (hop : op.mutates = true) : (outline S tx op).Verified sem := by
  intro a q hb st ha
  cases a with
  | hook h tx' =>
    obtain ⟨-, hhook⟩ := ha
    cases h with
    | StoreMetaKVHook =>
      obtain rfl : StoreMetaKVHook.call tx' = q := Option.some.inj hb
      rcases hhook rfl with ⟨rfl, rfl⟩ | ⟨hst, htype⟩
      · refine (holds_hook hs hop).mono fun st' res hst' => ⟨trivial, ?_⟩
        rw [hst', changed]
        cases op.deletes <;> rfl
      · rw [StoreMetaKVHook.call, htype]
        exact ⟨trivial, by rcases hst with rfl | rfl <;> rfl⟩
    | MapdbPostTXHook =>
      obtain rfl : MapdbPostTXHook.call = q := Option.some.inj hb
      refine ⟨trivial, fun res st' ⟨_, hst'⟩ => ⟨trivial, hst'.trans ?_⟩⟩
      have hcommit : st.next op .commit res = st := next_of_reply_eq_none rfl (fun _ => nofun)
        (fun _ => nofun) (fun _ => nofun) fun _ => nofun
      have hhook : st.next op (.hook .MapdbPostTXHook tx') res = st := next_of_reply_eq_none rfl
        (fun _ => nofun) (fun _ => nofun) (fun _ => nofun) fun _ => nofun
      exact hcommit.trans hhook.symm
    | other n type => exact nomatch hb
  | op tx' o =>
    obtain rfl : tx'.run o = q := Option.some.inj hb
    exact (holds_nested hready ha.2 ha.1).mono fun st' res hst' => ⟨trivial, hst'⟩
  | _ => exact nomatch hb

end Stage

end Kvdn
