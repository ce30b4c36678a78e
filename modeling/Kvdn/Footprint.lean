import Kvdn.Callback.Serial
import Kvdn.Hooks

/-!
# What a transaction changes

Whatever fails, a transaction changes the map of its address with its call, if it
succeeds, and the hooks change no map but the metadata map. So a map `m` is seen by a
transaction through one call at most (`Op.callOn`), which is the annotation of its
outline (`footprint`): the answer, once there is one.

* `apply_of_runs`: a run of a transaction does to its map what its operation does to the
  abstract map, or nothing, and says which;
* `map_of_runs`: it does nothing to the others.
-/

namespace Kvdn

open Callback Callback.Prog Callback.Sem AsyncResult

/-- The map whose contents a call depends on, or changes. -/
def Act.on : Act → Option AsyncMap
  | put m _ _ | get m _ | remove m _ | clear m => some m
  | _ => none

/-- The call of an operation on the map `m`. -/
def Op.callOn (md5 : List UInt8 → List UInt8) (m : AsyncMap) (op : Op) : Option Act :=
  (op.call (op.digestOf md5) m).filter fun a => a.on = some m

theorem Op.eq_of_on {op : Op} {digest : Option JString} {m m' : AsyncMap} {a : Act}
    (ha : op.call digest m = some a) (hon : a.on = some m') : m' = m := by
  cases op with
  | submit content =>
    obtain ⟨key, -, rfl⟩ := Option.map_eq_some_iff.1 ha
    exact (Option.some.inj hon).symm
  | getKeys => exact nomatch ha
  | size =>
    obtain rfl := Option.some.inj ha
    exact nomatch hon
  | _ =>
    obtain rfl := Option.some.inj ha
    exact (Option.some.inj hon).symm

theorem Op.callOn_eq {md5 : List UInt8 → List UInt8} {op : Op} {m : AsyncMap} {a : Act}
    (h : op.call (op.digestOf md5) m = some a) (ha : a.on = some m) : op.callOn md5 m = some a := by
  rw [Op.callOn, h]
  exact Option.filter_eq_some_iff.2 ⟨rfl, decide_eq_true ha⟩

/-- What the answers tell. -/
def Answered (md5 : List UInt8 → List UInt8) : (a : Act) → a.Res → Prop
  | .digest bytes, r => r = md5 bytes
  | a, r => Located a r

theorem answered_of_ok {w : World} {a : Act} {r : a.Res} (h : w.ok a r) : Answered w.md5 a r := by
  cases a with
  | digest bytes => exact h
  | _ => exact located_of_ok h

theorem Answered.located {md5 : List UInt8 → List UInt8} {a : Act} {r : a.Res}
    (h : Answered md5 a r) : Located a r := by
  cases a with
  | digest bytes => trivial
  | _ => exact h

/-- The answer of the call is kept. -/
structure Moves (call : Option Act) (γ : Option Obj) (a : Act) (r : a.Res) (γ' : Option Obj) :
    Prop where
  called : ∀ x, call = some a → a.answer r = some (succeededFuture x) → γ' = some x
  other : (∀ x, call = some a → a.answer r ≠ some (succeededFuture x)) → γ' = γ

theorem exists_moves (call : Option Act) (γ : Option Obj) (a : Act) (r : a.Res) :
    ∃ γ', Moves call γ a r γ' := by
  by_cases h : call = some a ∧ ∃ x, a.answer r = some (succeededFuture x)
  · obtain ⟨hcall, x, hx⟩ := h
    refine ⟨some x, fun y _ hy => ?_, fun hnot => absurd hx (hnot x hcall)⟩
    rw [hx] at hy
    cases hy
    rfl
  · exact ⟨γ, fun x hcall hx => absurd ⟨hcall, x, hx⟩ h, fun _ => rfl⟩

/-- The outline of the transactions of a session, as seen from the map `m`: the only step
    on it is `call`, once. -/
def footprint (s : KvdnSession) (md5 : List UInt8 → List UInt8) (m : AsyncMap) (call : Option Act) :
    Outline Act.Res Exn (Option Obj) where
  allow γ
    | .hook h tx => tx.session = s ∧ (h = .StoreMetaKVHook → m ≠ ⟨s.D.space, METADATA_MAP⟩)
    | .op tx o => Nests s (.op tx o) ∧ m ≠ ⟨s.D.space, METADATA_MAP⟩
    | a => a.on = some m → γ = none ∧ call = some a
  next γ a r γ' := Answered md5 a r ∧ Moves call γ a r γ'
  throws _ _ := True

section

variable {s : KvdnSession} {md5 : List UInt8 → List UInt8} {m : AsyncMap} {op o : Op} {tx : KvTx}
  {γ γ' : Option Obj}

theorem Moves.eq_of_on {a : Act} {r : a.Res} (h : Moves (op.callOn md5 m) γ a r γ')
    (ha : a.on ≠ some m) : γ' = γ := by
  refine h.other fun x hcall => absurd ?_ ha
  exact of_decide_eq_true (Option.filter_eq_some_iff.1 hcall).2

/-- The metadata hook does not see the map. -/
theorem transparent_footprint (hm : m ≠ ⟨s.D.space, METADATA_MAP⟩) :
    Transparent (footprint s md5 m (op.callOn md5 m)) s fun γ γ' => γ' = γ where
  refl _ := rfl
  trans _ _ _ h₁ h₂ := h₂.trans h₁
  allow γ a ha hn := by
    cases a with
    | op tx o => exact ⟨hn, hm⟩
    | hook => exact hn.elim
    | put | get | remove | clear => exact nomatch ha
    | _ => exact nofun
  next γ a r γ' ha h := by
    refine ⟨h.1.located, h.2.eq_of_on ?_⟩
    cases a with
    | put | get | remove | clear => exact nomatch ha
    | _ => exact nofun
  throws _ _ := trivial

/-- A transaction works on its own map, with the right key. -/
structure Sited (md5 : List UInt8 → List UInt8) (tx : KvTx) (op : Op) (g : Progress) : Prop where
  sound : g.Sound tx op
  map : ∀ m, g.phase.map = some m → m = ⟨tx.session.D.space, tx.strAddr⟩
  digest : g.digest = none ∨ g.digest = op.digestOf md5

theorem Sited.step {g : Progress} {a : Act} {r : a.Res} (h : Sited md5 tx op g)
    (ha : Progress.allow tx op g a) (hr : Answered md5 a r) :
    Sited md5 tx op (g.step tx op a r) where
  sound := h.sound.step ha
  map := Progress.FindsOwn.step h.map ha hr.located
  digest := by
    cases a with
    | digest bytes =>
      obtain ⟨-, -, content, rfl, rfl⟩ := ha
      obtain rfl : r = md5 content.getBytes := hr
      exact .inr rfl
    | _ => rw [Progress.digest_step fun _ hbytes => by cases hbytes]; exact h.digest

/-- The call of a transaction is that of its operation on its map. -/
theorem Sited.call {g : Progress} {a : Act} (h : Sited md5 tx op g) (ha : g.Calls op a) :
    g.outcome = .open ∧ op.call (op.digestOf md5) ⟨tx.session.D.space, tx.strAddr⟩ = some a := by
  obtain ⟨hopen, hcall⟩ := Progress.FindsOwn.call h.map ha
  refine ⟨hopen, ?_⟩
  rcases h.digest with hd | hd
  · rw [hd] at hcall
    cases op <;> first | exact hcall | exact nomatch hcall
  · rwa [hd] at hcall

theorem Sited.result {g : Progress} {x v : Obj} (h : Sited md5 tx op g)
    (hv : op.result g.digest x = some v) : op.result (op.digestOf md5) x = some v := by
  rcases h.digest with hd | hd
  · rw [hd] at hv
    cases op <;> first | exact hv | exact nomatch hv
  · rwa [hd] at hv

/-- What the map `m` sees of a transaction: its answer, if it is on this map. -/
def Sees (md5 : List UInt8 → List UInt8) (m : AsyncMap) (tx : KvTx) (op : Op) (γ : Option Obj) :
    Outcome → Prop
  | .called x => γ = if m = ⟨tx.session.D.space, tx.strAddr⟩ ∧ op.callOn md5 m ≠ none then some x else none
  | _ => γ = none

/-- An answer. -/
theorem sees_answered {g : Progress} {a : Act} {r : a.Res} {res : AsyncResult Obj}
    (hcall : ∀ a', op.call (op.digestOf md5) ⟨tx.session.D.space, tx.strAddr⟩ = some a' → a = a')
    (hon : a.on = some m → m = ⟨tx.session.D.space, tx.strAddr⟩)
    (hr : a.answer r = some res) (hγ : Moves (op.callOn md5 m) none a r γ') :
    Sees md5 m tx op γ' (g.answered op res).outcome := by
  cases res with
  | failedFuture c => exact hγ.other fun x _ hx => nomatch hr.symm.trans hx
  | succeededFuture x =>
    by_cases hm : m = ⟨tx.session.D.space, tx.strAddr⟩ ∧ op.callOn md5 m ≠ none
    · obtain ⟨rfl, hcallOn⟩ := id hm
      obtain ⟨a', ha'⟩ := Option.ne_none_iff_exists'.1 hcallOn
      obtain rfl := hcall a' (Option.filter_eq_some_iff.1 ha').1
      exact (hγ.called x ha' hr).trans (if_pos hm).symm
    · refine (hγ.other fun y hcallOn _ => hm ⟨hon ?_, ?_⟩).trans (if_neg hm).symm
      · exact of_decide_eq_true (Option.filter_eq_some_iff.1 hcallOn).2
      · rw [hcallOn]
        exact nofun

theorem Sees.step {g : Progress} {a : Act} {r : a.Res} (h : Sees md5 m tx op γ g.outcome)
    (hsited : Sited md5 tx op g) (ha : Progress.allow tx op g a)
    (hγ : Moves (op.callOn md5 m) γ a r γ') : Sees md5 m tx op γ' (g.step tx op a r).outcome := by
  by_cases hd : a.decides = false
  · have hkeep : γ' = γ := by
      refine hγ.eq_of_on ?_
      cases a with
      | put | get | remove | clear => exact nomatch hd
      | _ => exact nofun
    subst hkeep
    by_cases hflags : ∃ sessionid mode, a = .checkFlags sessionid mode
    · obtain ⟨sessionid, mode, rfl⟩ := hflags
      obtain ⟨⟨map, hg⟩, hopen, -⟩ := ha
      rw [hopen] at h
      rw [Progress.step_checkFlags hg]
      split
      · exact hopen ▸ h
      · exact h
    · rwa [Progress.outcome_step hd fun sessionid mode ha => hflags ⟨sessionid, mode, ha⟩]
  · cases a with
    | put | get | remove | clear | size =>
      obtain ⟨hopen, hcall⟩ := hsited.call ha
      rw [hopen] at h
      obtain rfl : γ = none := h
      exact sees_answered (fun a' ha' => Option.some.inj (hcall.symm.trans ha')) (Op.eq_of_on hcall)
        rfl hγ
    | getKeys p sa =>
      obtain ⟨-, hopen, rfl, -⟩ := ha
      rw [hopen] at h
      obtain rfl : γ = none := h
      exact sees_answered (a := .getKeys p sa) (fun _ ha' => (nomatch ha')) nofun rfl hγ
    | getMap D sa =>
      obtain ⟨-, hopen, -⟩ := ha
      rw [hopen] at h
      obtain rfl : γ = none := h
      have hkeep : γ' = none := hγ.eq_of_on nofun
      cases (r : AsyncResult AsyncMap) with
      | succeededFuture map => exact hopen ▸ hkeep
      | failedFuture c => exact hkeep
    | _ => exact absurd rfl hd

/-- A transaction, seen from the map `m`. -/
theorem holds_run_footprint (hm : m = ⟨tx.session.D.space, METADATA_MAP⟩ → tx.strAddr = METADATA_MAP) :
    (tx.run op).Holds (footprint tx.session md5 m (op.callOn md5 m))
      (fun γ res => ∃ g, Sited md5 tx op g ∧ Sees md5 m tx op γ g.outcome ∧ g.phase = .handled res)
      none := by
  have hallow : ∀ g γ a, Sited md5 tx op g ∧ Sees md5 m tx op γ g.outcome → Progress.allow tx op g a →
      (footprint tx.session md5 m (op.callOn md5 m)).allow γ a := by
    rintro g γ a ⟨hsited, hsees⟩ ha
    have hcalls (hcalls : g.Calls op a) (hon : a.on = some m) :
        γ = none ∧ op.callOn md5 m = some a := by
      obtain ⟨hopen, hcall⟩ := hsited.call hcalls
      rw [hopen] at hsees
      obtain rfl := Op.eq_of_on hcall hon
      exact ⟨hsees, Op.callOn_eq hcall hon⟩
    cases a with
    | put | get | remove | clear => exact hcalls ha
    | hook nxt tx' =>
      obtain ⟨hs, hmeta⟩ := session_of_hook hsited.sound ha
      exact ⟨hs, fun hnxt heq => hmeta hnxt (hm heq)⟩
    | op => exact ha.elim
    | _ => exact nofun
  exact (Progress.holds_run tx op).refine _ hallow
    (fun g γ a r γ' ⟨hsited, hsees⟩ ha hnext =>
      ⟨_, rfl, hsited.step ha hnext.1, hsees.step hsited ha hnext.2⟩)
    (fun _ _ _ _ _ => trivial) (fun g γ res ⟨hsited, hsees⟩ hdone => ⟨g, hsited, hsees, hdone⟩)
    ⟨⟨Progress.sound_init, fun _ hm => (nomatch hm), .inl rfl⟩, rfl⟩

/-- A transaction that the metadata hook opens is not seen. -/
theorem holds_nested_footprint (hm : m ≠ ⟨s.D.space, METADATA_MAP⟩) (hn : Nests s (.op tx o)) :
    (tx.run o).Holds (footprint s md5 m (op.callOn md5 m)) (fun γ' _ => γ' = γ) γ := by
  obtain ⟨rfl, ho⟩ := hn
  have hcalls {g : Progress} {a : Act} (hsited : Sited md5 tx o g) (hcalls : g.Calls o a) :
      a.on ≠ some m := by
    obtain ⟨-, hcall⟩ := hsited.call hcalls
    intro hon
    cases o with
    | set key content | del key =>
      obtain rfl := Option.some.inj hcall
      obtain rfl := Option.some.inj hon
      exact hm (by rw [show tx.strAddr = METADATA_MAP from ho])
    | size =>
      obtain rfl := Option.some.inj hcall
      exact nomatch hon
    | _ => exact ho.elim
  have hnot {g : Progress} {a : Act} (hsited : Sited md5 tx o g) (ha : Progress.allow tx o g a) :
      a.on ≠ some m := by
    cases a with
    | put | get | remove | clear => exact hcalls hsited ha
    | _ => exact nofun
  refine (Progress.holds_run tx o).refine (fun g γ' => Sited md5 tx o g ∧ γ' = γ) ?_ ?_
    (fun _ _ _ _ _ => trivial) (fun _ _ _ h _ => h.2)
    ⟨⟨Progress.sound_init, fun _ hm => (nomatch hm), .inl rfl⟩, rfl⟩
  · rintro g γ a ⟨hsited, rfl⟩ ha
    cases a with
    | put | get | remove | clear => exact fun hon => absurd hon (hnot hsited ha)
    | hook nxt tx' => exact ⟨(session_of_hook hsited.sound ha).1, fun _ => hm⟩
    | op => exact ha.elim
    | _ => exact nofun
  · rintro g γ a r γ' ⟨hsited, rfl⟩ ha hnext
    exact ⟨_, rfl, hsited.step ha hnext.1, hnext.2.eq_of_on (hnot hsited ha)⟩

theorem verified_footprint : (footprint s md5 m (op.callOn md5 m)).Verified sem := by
  intro a q hb γ ha
  have hkeep {r : a.Res} {γ' : Option Obj} (hk : Answered md5 a r) (hon : a.on = none) (hγ : γ' = γ) :
      (footprint s md5 m (op.callOn md5 m)).next γ a r γ' := by
    subst hγ
    refine ⟨hk, fun x hcall => ?_, fun _ => rfl⟩
    have hon' := of_decide_eq_true (Option.filter_eq_some_iff.1 hcall).2
    exact nomatch hon.symm.trans hon'
  cases a with
  | hook h tx =>
    cases h with
    | StoreMetaKVHook =>
      obtain rfl : StoreMetaKVHook.call tx = q := Option.some.inj hb
      exact ((transparent_footprint (ha.2 rfl)).holds_call ha.1 γ).mono fun γ' r hγ =>
        hkeep trivial rfl hγ
    | MapdbPostTXHook =>
      obtain rfl : MapdbPostTXHook.call = q := Option.some.inj hb
      exact ⟨nofun, fun r γ' hnext => hkeep trivial rfl (hnext.2.eq_of_on nofun)⟩
    | other n type => exact nomatch hb
  | op tx o =>
    obtain rfl : tx.run o = q := Option.some.inj hb
    exact (holds_nested_footprint ha.2 ha.1).mono fun γ' r hγ => hkeep trivial rfl hγ
  | _ => exact nomatch hb

/-! ## Runs -/

variable {w w' w₀ : World}

/-- What a transaction that has started in the world `w₀` has made of the map `m`. -/
structure Leaves (m : AsyncMap) (op : Op) (w₀ w : World) (γ : Option Obj) : Prop where
  md5 : w.md5 = w₀.md5
  map : w.map m = if γ = none then w₀.map m else (op.apply w₀.md5 (w₀.map m)).1
  result : ∀ x, γ = some x →
    op.result (op.digestOf w₀.md5) x = some (op.apply w₀.md5 (w₀.map m)).2

theorem target_ne_of_on {a : Act} (ha : a.on ≠ some m) (hm : m ≠ World.accessCache) :
    a.target ≠ some m := by
  cases a with
  | put | remove | clear => exact ha
  | accessPut | accessPutIfAbsent => exact fun h => hm (Option.some.inj h).symm
  | _ => exact nofun

theorem Leaves.stutter (h : Leaves m op w₀ w γ) {a : Act} {r : a.Res}
    (hmap : (w.eff a r).map m = w.map m) : Leaves m op w₀ (w.eff a r) γ :=
  ⟨World.md5_eff.trans h.md5, hmap.trans h.map, h.result⟩

theorem allow_footprint_of_on {call : Option Act} {a : Act}
    (ha : (footprint s md5 m call).allow γ a) (hon : a.on = some m) : γ = none ∧ call = some a := by
  cases a with
  | put | get | remove | clear => exact ha hon
  | _ => exact nomatch hon

theorem exists_answer_of_on {a : Act} (hon : a.on = some m) (r : a.Res) :
    ∃ res, a.answer r = some res := by
  cases a with
  | put | get | remove | clear => exact ⟨r, rfl⟩
  | _ => exact nomatch hon

/-- The call does what the operation does to the abstract map. -/
theorem Leaves.call (h : Leaves m op w₀ w none) {a : Act} {r : a.Res} {x : Obj}
    (hcall : op.callOn w₀.md5 m = some a) (hok : w.ok a r)
    (hr : a.answer r = some (succeededFuture x)) : Leaves m op w₀ (w.eff a r) (some x) := by
  have hop := (Option.filter_eq_some_iff.1 hcall).1
  rw [← h.md5] at hop
  obtain ⟨hmap, hresult⟩ := Op.apply_of_call hop hok hr
  have hbefore : w.map m = w₀.map m := h.map
  rw [h.md5, hbefore] at hmap hresult
  refine ⟨World.md5_eff.trans h.md5, hmap, fun y hy => ?_⟩
  obtain rfl := Option.some.inj hy
  exact hresult

theorem keeps_footprint (hm : m ≠ World.accessCache) :
    (footprint s w₀.md5 m (op.callOn w₀.md5 m)).Keeps sem fun _ w γ => Leaves m op w₀ w γ := by
  intro tr w γ a r hleaves hb ha hok
  have hanswered : Answered w₀.md5 a r := hleaves.md5 ▸ answered_of_ok hok
  obtain ⟨γ', hmoves⟩ := exists_moves (op.callOn w₀.md5 m) γ a r
  refine ⟨γ', ⟨hanswered, hmoves⟩, ?_⟩
  by_cases hon : a.on = some m
  · obtain ⟨rfl, hcall⟩ := allow_footprint_of_on ha hon
    obtain ⟨res, hres⟩ := exists_answer_of_on hon r
    cases res with
    | succeededFuture x =>
      rw [hmoves.called x hcall hres]
      exact hleaves.call hcall hok hres
    | failedFuture c =>
      rw [hmoves.other fun x _ hx => nomatch hres.symm.trans hx]
      exact hleaves.stutter (congrArg (World.map · m) (World.eff_of_failed hres))
  · rw [hmoves.eq_of_on hon]
    exact hleaves.stutter (World.map_eff_of_ne (target_ne_of_on hon hm))

/-- What a map sees of a whole transaction. -/
theorem leaves_of_runs {tr : List Step} {res : AsyncResult Obj}
    (h : sem.Runs w (tx.run op) tr w' (.ret res)) (haccess : m ≠ World.accessCache)
    (hm : m = ⟨tx.session.D.space, METADATA_MAP⟩ → tx.strAddr = METADATA_MAP) :
    ∃ γ g, Leaves m op w w' γ ∧ Sited w.md5 tx op g ∧ Sees w.md5 m tx op γ g.outcome ∧
      g.phase = .handled res := by
  have hinit : Leaves m op w w none := ⟨rfl, rfl, fun _ hx => (nomatch hx)⟩
  obtain ⟨γ, hleaves, g, hsited, hsees, hdone⟩ := h.holds verified_footprint (keeps_footprint haccess)
    (t := []) hinit (holds_run_footprint hm)
  exact ⟨γ, g, hleaves, hsited, hsees, hdone⟩

/-- A run of a transaction does nothing to the maps of the others, the metadata map apart. -/
theorem map_of_runs {tr : List Step} {res : AsyncResult Obj}
    (h : sem.Runs w (tx.run op) tr w' (.ret res)) (haccess : m ≠ World.accessCache)
    (hmeta : m ≠ ⟨tx.session.D.space, METADATA_MAP⟩) (hm : m ≠ ⟨tx.session.D.space, tx.strAddr⟩) :
    w'.map m = w.map m := by
  obtain ⟨γ, g, hleaves, -, hsees, -⟩ := leaves_of_runs h haccess fun h => absurd h hmeta
  have hγ : γ = none := by
    cases ho : g.outcome with
    | called x =>
      rw [ho] at hsees
      exact hsees.trans (if_neg fun h => hm h.1)
    | _ =>
      rw [ho] at hsees
      exact hsees
  exact hleaves.map.trans (if_pos hγ)

/-- A run of an operation that calls its map does to it what the operation does to the
    abstract map, and has the same result; or it fails or is refused, and does nothing. -/
theorem apply_of_runs {tr : List Step} {res : AsyncResult Obj}
    (h : sem.Runs w (tx.run op) tr w' (.ret res)) (hm : m = ⟨tx.session.D.space, tx.strAddr⟩)
    (haccess : m ≠ World.accessCache) (hop : op.callOn w.md5 m ≠ none) :
    (w'.map m = (op.apply w.md5 (w.map m)).1 ∧
      res = succeededFuture (op.apply w.md5 (w.map m)).2) ∨
    (w'.map m = w.map m ∧ ((∃ c, res = failedFuture c) ∨
      ∃ map, res = succeededFuture (.asyncMap map))) := by
  obtain ⟨γ, g, hleaves, hsited, hsees, hdone⟩ := leaves_of_runs h haccess
    fun hmeta => congrArg AsyncMap.name (hm.symm.trans hmeta)
  cases hsited.sound.gives hdone with
  | refused map ho =>
    rw [ho] at hsees
    exact .inr ⟨hleaves.map.trans (if_pos hsees), .inr ⟨map, rfl⟩⟩
  | failed c ho =>
    rw [ho] at hsees
    exact .inr ⟨hleaves.map.trans (if_pos hsees), .inl ⟨c, rfl⟩⟩
  | called x v ho hv =>
    rw [ho] at hsees
    have hγ : γ = some x := hsees.trans (if_pos ⟨hm, hop⟩)
    have hv' := (hsited.result hv).symm.trans (hleaves.result x hγ)
    refine .inl ⟨?_, congrArg succeededFuture (Option.some.inj hv')⟩
    rw [hleaves.map, if_neg (by rw [hγ]; rintro ⟨⟩)]

theorem md5_of_runs {α : Type} {p p' : Prog α} {tr : List Step} (h : sem.Runs w p tr w' p') :
    w'.md5 = w.md5 := by
  induction h with
  | refl => rfl
  | prim _ _ _ ih => exact ih.trans World.md5_eff
  | body _ _ ih => exact ih

/-- The run of a request is that of its operation, on a new transaction object. -/
theorem Request.exists_runs {c : Request} {tr : List Step} {res : AsyncResult Obj}
    (h : sem.Runs w c.transaction tr w' (.ret res)) : ∃ tr' tx, tx.session = c.session ∧
      tx.strAddr = c.strAddr ∧ sem.Runs (w.eff (.newTx c.session c.strAddr) tx) (tx.run c.op) tr' w' (.ret res) := by
  by_cases hinit : c.session.initalized = true
  · rw [Request.transaction_eq hinit] at h
    obtain ⟨tx, tr', -, hok, hruns⟩ := h.of_act rfl trivial
    obtain ⟨hs, hsa⟩ := located_of_ok (a := .newTx c.session c.strAddr) hok
    exact ⟨tr', tx, hs, hsa, hruns⟩
  · have hthrow : c.transaction = .throw .notInitalized := by
      simp [Request.transaction, KvdnSession.newTx, hinit]
    rw [hthrow] at h
    cases h

/-- What a request makes of its map. -/
theorem Request.apply_of_runs {c : Request} {tr : List Step} {res : AsyncResult Obj}
    (h : sem.Runs w c.transaction tr w' (.ret res)) (hm : m = ⟨c.session.D.space, c.strAddr⟩)
    (haccess : m ≠ World.accessCache) (hop : c.op.callOn w.md5 m ≠ none) :
    (w'.map m = (c.op.apply w.md5 (w.map m)).1 ∧
      res = succeededFuture (c.op.apply w.md5 (w.map m)).2) ∨
    (w'.map m = w.map m ∧ ((∃ c, res = failedFuture c) ∨
      ∃ map, res = succeededFuture (.asyncMap map))) := by
  obtain ⟨tr', tx, hs, hsa, hruns⟩ := Request.exists_runs h
  rw [← hs, ← hsa] at hm
  have happly := Kvdn.apply_of_runs hruns hm haccess hop
  exact happly

end

end Kvdn
