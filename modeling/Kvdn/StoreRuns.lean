import Kvdn.GetKeys

/-!
# The abstract store and whole transactions

What a request of any session makes of the maps of the clients, from any reachable world and
whatever fails: what its operation makes of the abstract store, and then it has the same
result; or nothing, and then it fails (`Request.step_of_runs`).

For the operations that write this is a matter of their call (`apply_of_runs`). Those that
read leave all maps of the clients alone, and are answered from the maps that were there when
they started (`reading`).
-/

namespace Kvdn

open Callback Callback.Prog Callback.Sem AsyncResult

/-- The maps of the clients, as a data implementation hands them out. -/
def World.view (w : World) (D : KVData) : JString → KMap := fun sa => w.map ⟨D.space, sa⟩

/-! ## Transactions which are not refused -/

/-- The outline of the programs of a setting: nothing is asked of them. -/
def knowing (S : Setting) : Outline Act.Res Exn Unit where
  allow _ _ := True
  next _ a r _ := Known S a r
  throws _ _ := True

section

variable {S : Setting} {tx : KvTx} {op : Op} {g : Progress} {w w' w₀ : World} {tr : List Step}
  {res : AsyncResult Obj}

theorem holds_knowing {α : Type} {Q : Unit → α → Prop} (hQ : ∀ x, Q () x) (p : Prog α) :
    p.Holds (knowing S) Q () := by
  induction p with
  | ret x => exact hQ x
  | throw e => trivial
  | act a k ih => exact ⟨trivial, fun r _ _ => ih r⟩

theorem verified_knowing : (knowing S).Verified sem := by
  intro a q hb _ _
  refine holds_knowing (fun r => ?_) q
  cases a with
  | hook | op => trivial
  | _ => cases hb

/-- Without flags, a transaction is not refused. -/
theorem fits_of_runs (hflags : ∀ mode, Sum.inr mode ∉ w.txflags tx.session.sessionid)
    (h : sem.Runs w (tx.run op) tr w' (.ret res)) :
    ∃ g, Fits ⟨tx.session, w.md5, 0⟩ tx op g ∧ g.phase = .handled res := by
  let S : Setting := ⟨tx.session, w.md5, 0⟩
  have hfits : (tx.run op).Holds (knowing S) (fun _ res => ∃ g, Fits S tx op g ∧ g.phase = .handled res)
      () :=
    (Progress.holds_run tx op).refine (fun g _ => Fits S tx op g) (fun _ _ _ _ _ => trivial)
      (fun g _ a r _ hg ha hk => ⟨_, rfl, hg.step rfl ha hk⟩) (fun _ _ _ _ _ => trivial)
      (fun g _ res hg hdone => ⟨g, hg, hdone⟩) fits_init
  have hkeeps : (knowing S).Keeps sem fun _ w' _ => w'.txflags = w.txflags ∧ w'.md5 = w.md5 := by
    rintro _ w₁ _ a r ⟨htxflags, hmd5⟩ _ _ hok
    refine ⟨(), known_of_ok (.inl fun mode => ?_) hmd5 (Nat.zero_le _) hok,
      World.txflags_eff.trans htxflags, World.md5_eff.trans hmd5⟩
    rw [htxflags]
    exact hflags mode
  obtain ⟨_, -, hdone⟩ := h.holds verified_knowing hkeeps (t := []) ⟨rfl, rfl⟩ hfits
  exact hdone

/-- What a transaction that writes makes of its map. -/
theorem write_of_runs (hop : op.mutates = true) (hsa : UserAddr tx.strAddr)
    (hflags : ∀ mode, Sum.inr mode ∉ w.txflags tx.session.sessionid)
    (h : sem.Runs w (tx.run op) tr w' (.ret res)) :
    let m : AsyncMap := ⟨tx.session.D.space, tx.strAddr⟩
    (w'.map m = (op.apply w.md5 (w.map m)).1 ∧
      res = succeededFuture (op.apply w.md5 (w.map m)).2) ∨
    (w'.map m = w.map m ∧ ∃ c, res = failedFuture c) := by
  intro m
  have haccess : m ≠ World.accessCache := fun hm => hsa.2 (congrArg AsyncMap.name hm)
  have hcall : op.callOn w.md5 m ≠ none := by
    cases op with
    | get | getKeys | size => cases hop
    | _ => simp [Op.callOn, Op.call, Op.digestOf, Act.on]
  refine (apply_of_runs h rfl haccess hcall).imp_right ?_
  rintro ⟨hmap, hfailed | ⟨map, rfl⟩⟩
  · exact ⟨hmap, hfailed⟩
  · -- the map itself is the result of a refusal only
    obtain ⟨g, hfits, hdone⟩ := fits_of_runs hflags h
    cases hfits.sound.gives hdone with
    | refused _ ho => exact absurd ho (hfits.not_refused map)
    | called x v ho hv =>
      have hresult := hfits.result hv
      cases op with
      | get | getKeys | size => cases hop
      | _ => cases hresult

/-! ## Transactions that read -/

/-- The outline of a transaction that reads, annotated with its answer: it reads what is its
    own, and writes nothing the clients see. -/
def reading (S : Setting) (tx : KvTx) (op : Op) : Outline Act.Res Exn (Option Obj) where
  allow _
    | .put _ _ _ | .remove _ _ | .clear _ | .op _ _ => False
    | .get m key => op = .get key ∧ m = ⟨S.session.D.space, tx.strAddr⟩
    | .size m => op = .size ∧ m = ⟨S.session.D.space, tx.strAddr⟩
    | .getKeys p sa => op = .getKeys ∧ p = S.session.keyprov ∧ sa = tx.strAddr
    | .hook _ tx' => tx'.type = some op.type
    | _ => True
  next γ a r γ' := Known S a r ∧
    γ' = match a.answer r with
      | some (succeededFuture x) => some x
      | _ => γ
  throws _ _ := True

/-- The answer is the one that has been given. -/
def ReadsAs (γ : Option Obj) : Outcome → Prop
  | .called x => γ = some x
  | _ => True

theorem ReadsAs.step {γ γ' : Option Obj} (h : ReadsAs γ g.outcome) (hs : tx.session = S.session)
    {a : Act} {r : a.Res} (ha : Progress.allow tx op g a) (hnext : (reading S tx op).next γ a r γ') :
    ReadsAs γ' (g.step tx op a r).outcome := by
  obtain ⟨hk, rfl⟩ := hnext
  cases hres : a.answer r with
  | some res =>
    rw [Progress.step_answer hres]
    cases res with
    | succeededFuture x => exact rfl
    | failedFuture c => trivial
  | none =>
    cases a with
    | put | get | remove | clear | size | getKeys => cases hres
    | getMap =>
      cases (r : AsyncResult AsyncMap) with
      | succeededFuture map => exact h
      | failedFuture c => trivial
    | checkFlags sessionid mode =>
      obtain ⟨⟨map, hg⟩, -, rfl, -⟩ := ha
      obtain rfl : r = true := hk (by rw [hs])
      rw [Progress.step_checkFlags hg]
      exact h
    | _ =>
      rw [Progress.outcome_step rfl fun _ _ hflags => by cases hflags]
      exact h

/-- A transaction that reads has as its result what it has read, or fails. -/
theorem holds_run_reading (hop : op.mutates = false) (hs : tx.session = S.session) :
    (tx.run op).Holds (reading S tx op)
      (fun γ res => (∃ x, γ = some x ∧ res = succeededFuture x) ∨ ∃ c, res = failedFuture c)
      none := by
  refine (Progress.holds_run tx op).refine (fun g γ => Fits S tx op g ∧ ReadsAs γ g.outcome) ?_ ?_
    (fun _ _ _ _ _ => trivial) ?_ ⟨fits_init, trivial⟩
  · rintro g γ a ⟨hfits, -⟩ ha
    have hcall (hcalls : g.Calls op a) := (hfits.call hcalls).2
    cases a with
    | put | remove | clear =>
      have hcall := hcall ha
      cases op with
      | get | size | getKeys => cases hcall
      | _ => cases hop
    | get m key =>
      have hcall := hcall ha
      cases op with
      | get key' =>
        cases hcall
        exact ⟨rfl, rfl⟩
      | size | getKeys => cases hcall
      | _ => cases hop
    | size m =>
      have hcall := hcall ha
      cases op with
      | size =>
        cases hcall
        exact ⟨rfl, rfl⟩
      | get | getKeys => cases hcall
      | _ => cases hop
    | getKeys p sa =>
      obtain ⟨-, -, hop, hp, hsa⟩ := ha
      exact ⟨hop, hp.trans (by rw [hs]), hsa⟩
    | hook nxt tx' =>
      obtain ⟨-, rfl⟩ := ha
      exact rfl
    | op => exact ha.elim
    | _ => trivial
  · rintro g γ a r γ' ⟨hfits, hreads⟩ ha hnext
    exact ⟨_, rfl, hfits.step hs ha hnext.1, hreads.step hs ha hnext⟩
  · rintro g γ res ⟨hfits, hreads⟩ hdone
    cases hfits.sound.gives hdone with
    | refused map ho => exact absurd ho (hfits.not_refused map)
    | failed c ho => exact .inr ⟨c, rfl⟩
    | called x v ho hv =>
      rw [ho] at hreads
      refine .inl ⟨v, ?_, rfl⟩
      cases op with
      | get | size | getKeys =>
        cases hv
        exact hreads
      | _ => cases hop

theorem verified_reading (hop : op.mutates = false) : (reading S tx op).Verified sem := by
  intro a q hb γ ha
  cases a with
  | hook nxt tx' =>
    have htype : tx'.type = some op.type := ha
    cases nxt with
    | StoreMetaKVHook =>
      obtain rfl : StoreMetaKVHook.call tx' = q := Option.some.inj hb
      rw [StoreMetaKVHook.call, htype]
      cases op with
      | get | size | getKeys => exact ⟨trivial, rfl⟩
      | _ => cases hop
    | MapdbPostTXHook =>
      obtain rfl : MapdbPostTXHook.call = q := Option.some.inj hb
      exact ⟨trivial, fun _ _ h => h⟩
    | other n type => cases hb
  | op => exact ha.elim
  | _ => cases hb

/-- The maps of the clients are as they were, and the answer is that of the abstract store. -/
structure Reads (tx : KvTx) (op : Op) (w₀ w : World) (γ : Option Obj) : Prop where
  txflags : w.txflags = w₀.txflags
  md5 : w.md5 = w₀.md5
  view : ∀ sa, UserAddr sa → w.view tx.session.D sa = w₀.view tx.session.D sa
  answer : ∀ x, γ = some x → x = (op.apply w₀.md5 (w₀.view tx.session.D tx.strAddr)).2

theorem keeps_reading (hflags : ∀ mode, Sum.inr mode ∉ w₀.txflags tx.session.sessionid)
    (hsa : UserAddr tx.strAddr) (hsource : tx.session.keyprov.source = some tx.session.D.space) :
    (reading ⟨tx.session, w₀.md5, 0⟩ tx op).Keeps sem fun _ w γ => Reads tx op w₀ w γ := by
  rintro _ w γ a r hreads hb ha hok
  refine ⟨_, ⟨known_of_ok (.inl ?_) hreads.md5 (Nat.zero_le _) hok, rfl⟩, World.txflags_eff.trans
    hreads.txflags, World.md5_eff.trans hreads.md5, fun sa hsa' => ?_, ?_⟩
  · rw [hreads.txflags]
    exact hflags
  · refine (World.map_eff_of_ne ?_).trans (hreads.view sa hsa')
    cases a with
    | put | remove | clear => exact ha.elim
    | accessPut | accessPutIfAbsent =>
      exact fun hm => hsa'.2 (congrArg AsyncMap.name (Option.some.inj hm)).symm
    | _ => rintro ⟨⟩
  · have hview := hreads.view _ hsa
    cases a with
    | put | remove | clear => exact ha.elim
    | get m key =>
      obtain ⟨rfl, rfl⟩ := ha
      cases (r : AsyncResult Obj) with
      | failedFuture c => exact hreads.answer
      | succeededFuture y =>
        rintro x hx
        obtain rfl := Option.some.inj hx
        rw [Op.apply, ← hview]
        exact hok
    | size m =>
      obtain ⟨rfl, rfl⟩ := ha
      cases (r : AsyncResult Obj) with
      | failedFuture c => exact hreads.answer
      | succeededFuture y =>
        rintro x hx
        obtain rfl := Option.some.inj hx
        rw [Op.apply, ← hview]
        exact hok
    | getKeys p sa =>
      obtain ⟨rfl, rfl, rfl⟩ := ha
      obtain rfl := World.ok_getKeys hsource hok
      rintro x hx
      obtain rfl := Option.some.inj hx
      rw [Op.apply, ← hview]
      rfl
    | _ => exact hreads.answer

/-- What a transaction that reads is answered. -/
theorem read_of_runs (hop : op.mutates = false) (hsa : UserAddr tx.strAddr)
    (hflags : ∀ mode, Sum.inr mode ∉ w.txflags tx.session.sessionid)
    (hsource : tx.session.keyprov.source = some tx.session.D.space)
    (h : sem.Runs w (tx.run op) tr w' (.ret res)) :
    (∀ sa, UserAddr sa → w'.view tx.session.D sa = w.view tx.session.D sa) ∧
      (res = succeededFuture (op.apply w.md5 (w.view tx.session.D tx.strAddr)).2 ∨
        ∃ c, res = failedFuture c) := by
  obtain ⟨γ, hreads, hres⟩ := h.holds (verified_reading hop) (keeps_reading hflags hsa hsource)
    (t := []) ⟨rfl, rfl, fun _ _ => rfl, fun _ hx => by cases hx⟩
    (holds_run_reading (S := ⟨tx.session, w.md5, 0⟩) hop rfl)
  refine ⟨hreads.view, hres.imp_left ?_⟩
  rintro ⟨x, hx, rfl⟩
  rw [hreads.answer x hx]

/-! ## Requests -/

/-- A request on an address of the clients does to the abstract store what its operation
    does, and has the same result; or it fails, and does nothing. -/
theorem Request.step_of_runs {c : Request} (hw : w.Reachable) (hsa : UserAddr c.strAddr)
    (hsource : c.session.keyprov.source = some c.session.D.space)
    (h : sem.Runs w c.transaction tr w' (.ret res)) :
    let next := kvStep w.md5 (w.view c.session.D) (c.strAddr, c.op)
    (res = succeededFuture next.2 ∧
      ∀ sa, UserAddr sa → w'.view c.session.D sa = next.1 sa) ∨
    ((∃ e, res = failedFuture e) ∧
      ∀ sa, UserAddr sa → w'.view c.session.D sa = w.view c.session.D sa) := by
  intro next
  obtain ⟨tr', tx, hs, haddr, hruns⟩ := Request.exists_runs h
  rw [← hs] at hsource
  have hsa' : UserAddr tx.strAddr := haddr ▸ hsa
  have hflags : ∀ mode, Sum.inr mode ∉
      (w.eff (.newTx c.session c.strAddr) tx).txflags tx.session.sessionid := (hw.calm tx.session).flags
  have hnext : next.1 = Function.update (w.view c.session.D) c.strAddr
    (c.op.apply w.md5 (w.view c.session.D c.strAddr)).1 := rfl
  by_cases hop : c.op.mutates = true
  · have hothers (sa : JString) (hsa'' : UserAddr sa) (hne : sa ≠ c.strAddr) :
        w'.view c.session.D sa = w.view c.session.D sa := by
      have hmap := map_of_runs (m := ⟨tx.session.D.space, sa⟩) hruns
        (fun hm => hsa''.2 (congrArg AsyncMap.name hm))
        (fun hm => hsa''.1 (congrArg AsyncMap.name hm))
        fun hm => hne ((congrArg AsyncMap.name hm).trans haddr)
      rw [hs] at hmap
      exact hmap
    have hown := write_of_runs hop hsa' hflags hruns
    rw [hs, haddr] at hown
    refine hown.imp (fun ⟨hmap, hres⟩ => ⟨hres, fun sa hsa'' => ?_⟩)
      fun ⟨hmap, hres⟩ => ⟨hres, fun sa hsa'' => ?_⟩
    · rw [hnext]
      by_cases heq : sa = c.strAddr
      · rw [heq, Function.update_self]
        exact hmap
      · rw [Function.update_of_ne heq]
        exact hothers sa hsa'' heq
    · by_cases heq : sa = c.strAddr
      · rw [heq]
        exact hmap
      · exact hothers sa hsa'' heq
  · rw [Bool.not_eq_true] at hop
    obtain ⟨hview, hres⟩ := read_of_runs hop hsa' hflags hsource hruns
    rw [hs] at hview
    rw [hs, haddr] at hres
    have hsame : next.1 = w.view c.session.D := by
      rw [hnext]
      have happly : (c.op.apply w.md5 (w.view c.session.D c.strAddr)).1 =
          w.view c.session.D c.strAddr := by
        cases hc : c.op <;> first | rfl | simp [hc, Op.mutates] at hop
      rw [happly, Function.update_eq_self]
    rw [hsame]
    exact hres.imp (fun hres => ⟨hres, hview⟩) fun hres => ⟨hres, hview⟩

end

end Kvdn
