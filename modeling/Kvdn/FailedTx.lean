import Kvdn.Events
import Kvdn.Index
import Kvdn.NullKeys
import Kvdn.Reachable
import Kvdn.Stage

/-!
# Failed transactions

What a transaction leaves behind whose handler is given a failure (`World.Untouched`). A
transaction that gives up is finished as usual, and the post hooks are not told that it has
failed: the metadata hook goes on as after a success. So the failed transaction leaves no
trace if, and only if, the hook has nothing to do for it (`World.Inert`): a `set` or a
`submit` on an address that the cache has, a `del` or a `clear` on one that it has not, or
whose map is not empty; and its map answers once: the deletion of a null key that a `LocalMap`
has refused goes on as if it had not.

* `holds_run_bailing`, `untouched_of_runs`: as long as its call has not succeeded, a
  transaction does what changes nothing, if the hook has nothing to do;
* `exists_touched`: otherwise, its call may fail and the hook go through;
* `exists_twice`: the deletion of a null key is published;
* `untouched_iff`.
-/

namespace Kvdn

open Callback Callback.Prog Callback.Sem AsyncResult

namespace World

/-- What is seen from outside is the same: the maps, but for the access cache, the key sets of
    the provider, the caches of the metadata hooks, the events. -/
structure Untouched (w₀ w : World) : Prop where
  map : ∀ m, m ≠ accessCache → w.map m = w₀.map m
  keySets : w.keySets = w₀.keySets
  straddrCache : w.straddrCache = w₀.straddrCache
  published : w.published = w₀.published

/-- The metadata hook has nothing to do for a request that fails. -/
def Inert (w : World) (c : Request) : Prop :=
  if c.op.deletes then w.Cached c.session c.strAddr → w.Stored c.session.D c.strAddr
  else w.Cached c.session c.strAddr

instance (w : World) (c : Request) : Decidable (w.Inert c) :=
  inferInstanceAs (Decidable (ite ..))

variable {w w₀ : World} {a : Act} {r : a.Res}

theorem Untouched.refl (w : World) : Untouched w w := ⟨fun _ _ => rfl, rfl, rfl, rfl⟩

theorem Untouched.trans {w₁ : World} (h₁ : Untouched w₀ w₁) (h₂ : Untouched w₁ w) :
    Untouched w₀ w :=
  ⟨fun m hm => (h₂.map m hm).trans (h₁.map m hm), h₂.keySets.trans h₁.keySets,
    h₂.straddrCache.trans h₁.straddrCache, h₂.published.trans h₁.published⟩

/-- Only the key provider is told of keys. -/
theorem keySets_eff (hset : ∀ p map key, a ≠ .setKey p map key)
    (hdelete : ∀ p map key, a ≠ .deleteKey p map key) : (w.eff a r).keySets = w.keySets := by
  cases a with
  | setKey p map key => exact absurd rfl (hset p map key)
  | deleteKey p map key => exact absurd rfl (hdelete p map key)
  | put | remove | clear => simp only [eff, modify]; split <;> rfl
  | accessPutIfAbsent => simp only [eff]; split <;> rfl
  | _ => rfl

end World

/-! ## Without a success of the call -/

/-- A value has been written, or removed. -/
def Act.writes : (a : Act) → a.Res → Bool
  | .put _ _ _, r => r.succeeded
  | .remove _ _, r => r.succeeded
  | .clear _, r => r.succeeded
  | _, _ => false

/-- The steps of a transaction on the address `sa`, started with one of the types of `types`,
    before a call has succeeded. -/
def Quiet (s : KvdnSession) (sa : JString) (type : TXTYPE) : Act → Prop
  | .setKey _ _ _ | .deleteKey _ _ _ | .publish _ | .cacheAdd _ | .cacheRemove _ => False
  | .hook h tx => h = .StoreMetaKVHook → tx.session = s ∧ tx.strAddr = sa ∧
    (tx.type = some type ∨ tx.type = some .KV_SIZE)
  | .op tx o => tx.session = s ∧ tx.strAddr = sa ∧ o = .size
  | _ => True

/-- What the answers tell of the cache, and of the map. -/
def Learns (s : KvdnSession) (sa : JString) (cached stored : Bool) : (a : Act) → a.Res → Prop
  | .cacheContains tx, (b : Bool) => tx.session = s → tx.strAddr = sa → b = cached
  | .size m, (r : AsyncResult Obj) =>
    m = ⟨s.D.space, sa⟩ → r = succeededFuture (.int 0) → stored = false
  | .op _ _, (r : AsyncResult Obj) => r = succeededFuture (.int 0) → stored = false
  | _, _ => True

/-- The outline of a transaction, until its call succeeds: from then on, anything goes. -/
def bailing (s : KvdnSession) (sa : JString) (type : TXTYPE) (cached stored : Bool) :
    Outline Act.Res Exn Bool where
  allow called a := called = true ∨ Quiet s sa type a
  next called a r called' := if called then called' = true
    else called' = a.writes r ∧ Located a r ∧ Learns s sa cached stored a r
  throws _ _ := True

section

variable {s : KvdnSession} {sa : JString} {type : TXTYPE} {cached stored : Bool} {tx : KvTx}
  {op : Op} {g : Progress}

@[simp] theorem bailing_allow {called : Bool} {a : Act} :
    (bailing s sa type cached stored).allow called a ↔ called = true ∨ Quiet s sa type a := Iff.rfl

/-- Once the call has succeeded, nothing is said any more. -/
theorem holds_called {α : Type} (p : Prog α) :
    p.Holds (bailing s sa type cached stored) (fun called _ => called = true) true := by
  induction p with
  | ret x => rfl
  | throw e => trivial
  | act a k ih =>
    refine ⟨.inl rfl, fun r called h => ?_⟩
    obtain rfl : called = true := h
    exact ih r

/-- Nothing but the call makes a transaction succeed. -/
theorem Progress.called_step (hop : op.mutates = true) {a : Act} {r : a.Res}
    (ha : Progress.allow tx op g a) :
    (g.step tx op a r).Called ↔ g.Called ∨ a.writes r = true := by
  have hsame (hout : (g.step tx op a r).outcome = g.outcome) (hw : a.writes r = false) :
      (g.step tx op a r).Called ↔ g.Called ∨ a.writes r = true := by
    simp [Called, hout, hw]
  have hnot (hopen : g.outcome = .open) : ¬g.Called := by
    rintro ⟨x, hx⟩
    cases hopen.symm.trans hx
  cases a with
  | put | remove | clear =>
    obtain ⟨map, -, hopen, -⟩ := ha
    rw [or_iff_right (hnot hopen)]
    cases (r : AsyncResult Obj) <;> simp [Progress.step, answered, Called, Act.writes, succeeded]
  | get | size =>
    obtain ⟨map, -, -, hcall⟩ := ha
    cases op with
    | submit content => cases (Option.map_eq_some_iff.1 hcall).choose_spec.2
    | get | size | getKeys => cases hop
    | _ => cases hcall
  | getKeys =>
    obtain ⟨-, -, rfl, -⟩ := ha
    cases hop
  | getMap =>
    rw [or_iff_right (hnot ha.2.1)]
    cases (r : AsyncResult AsyncMap) <;> simp [Progress.step, Called, Act.writes, ha.2.1]
  | checkFlags sessionid mode =>
    obtain ⟨⟨map, hg⟩, hopen, -⟩ := ha
    rw [or_iff_right (hnot hopen), step_checkFlags hg]
    cases (r : Bool) <;> simp [Called, Act.writes, hopen]
  | hook nxt tx' => exact hsame popHook_outcome rfl
  | _ => exact hsame rfl rfl

/-- A transaction, until its call succeeds: its handler is not given a failure afterwards. -/
theorem holds_run_bailing (hs : tx.session = s) (hsa : tx.strAddr = sa)
    (hop : op.mutates = true) :
    (tx.run op).Holds (bailing s sa op.type cached stored)
      (fun called res => res.cause ≠ none → called = false) false := by
  subst hs hsa
  refine (Progress.holds_run tx op).refine
    (fun g called => g.Sound tx op ∧ (called = true ↔ g.Called)) ?_ ?_ (fun _ _ _ _ _ => trivial) ?_
    ⟨Progress.sound_init, by simp [Progress.Called]⟩
  · rintro g called a ⟨hsound, hcalled⟩ ha
    cases a with
    -- the key provider is told, and the event published, after a success only
    | setKey | deleteKey =>
      rw [Progress.Sound, ha.1] at hsound
      exact .inl (hcalled.2 hsound.1)
    | publish => exact .inl (hcalled.2 ha.2.1)
    | hook nxt tx' =>
      obtain ⟨-, rfl⟩ := ha
      exact .inr fun _ => ⟨rfl, rfl, .inl rfl⟩
    | op | cacheAdd | cacheRemove => exact ha.elim
    | _ => exact .inr trivial
  · rintro g called a r called' ⟨hsound, hcalled⟩ ha hnext
    refine ⟨_, rfl, hsound.step ha, ?_⟩
    rw [Progress.called_step hop ha, ← hcalled]
    cases called with
    | true =>
      obtain rfl : called' = true := hnext
      simp
    | false =>
      obtain ⟨rfl, -⟩ := hnext
      simp
  · rintro g called res ⟨hsound, hcalled⟩ hdone hcause
    have hnot (hout : ∀ x, g.outcome ≠ .called x) : called = false := by
      by_contra hne
      obtain ⟨x, hx⟩ := hcalled.1 (Bool.eq_true_of_not_eq_false hne)
      exact hout x hx
    cases hsound.gives hdone with
    | refused map ho => exact absurd rfl hcause
    | failed c ho => exact hnot fun x hx => by cases ho.symm.trans hx
    | called x v ho hv => exact absurd rfl hcause

/-- The metadata hook asks for the size of the map: what it is told is the truth. -/
theorem holds_size_bailing (hs : tx.session = s) (hsa : tx.strAddr = sa) :
    (tx.run .size).Holds (bailing s sa type cached stored) (fun called res => called = false ∧
      (res = succeededFuture (.int 0) → stored = false)) false := by
  subst hs hsa
  refine (Progress.holds_run tx .size).refine (fun g called => called = false ∧ g.Sound tx .size ∧
    g.FindsOwn tx ∧ (g.outcome = .called (.int 0) → stored = false)) ?_ ?_ (fun _ _ _ _ _ => trivial)
    ?_ ⟨rfl, Progress.sound_init, Progress.findsOwn_init, fun h => by cases h⟩
  · rintro g called a ⟨rfl, hsound, -⟩ ha
    cases a with
    | setKey | deleteKey =>
      rw [Progress.Sound, ha.1] at hsound
      cases hsound.2
    | publish => cases ha.2.2.2
    | hook nxt tx' =>
      obtain ⟨-, rfl⟩ := ha
      exact .inr fun _ => ⟨rfl, rfl, .inr rfl⟩
    | op | cacheAdd | cacheRemove => exact ha.elim
    | _ => exact .inr trivial
  · rintro g called a r called' ⟨rfl, hsound, hown, hzero⟩ ha ⟨rfl, hlocated, hlearns⟩
    have hstep (hw : a.writes r = false)
        (hout : (g.step tx .size a r).outcome = .called (.int 0) → stored = false) :
        ∃ g', (Progress.outline tx .size).next g a r g' ∧ a.writes r = false ∧
          g'.Sound tx .size ∧ g'.FindsOwn tx ∧ (g'.outcome = .called (.int 0) → stored = false) :=
      ⟨_, rfl, hw, hsound.step ha, hown.step ha hlocated, hout⟩
    cases a with
    | put | remove | clear | get =>
      obtain ⟨-, hcall⟩ := hown.call ha
      cases hcall
    | getKeys => cases ha.2.2.1
    | size m =>
      obtain ⟨-, hcall⟩ := hown.call ha
      cases hcall
      refine hstep rfl fun hx => hlearns rfl ?_
      cases (r : AsyncResult Obj) with
      | succeededFuture x => rw [Outcome.called.inj hx]
      | failedFuture c => cases hx
    | getMap D sa =>
      refine hstep rfl ?_
      cases (r : AsyncResult AsyncMap) with
      | succeededFuture map => exact hzero
      | failedFuture c => rintro ⟨⟩
    | checkFlags sessionid mode =>
      obtain ⟨⟨map, hg⟩, -⟩ := id ha
      refine hstep rfl ?_
      rw [Progress.step_checkFlags hg]
      split
      · exact hzero
      · rintro ⟨⟩
    | hook nxt tx' =>
      refine hstep rfl ?_
      rw [Progress.step, Progress.popHook_outcome]
      exact hzero
    | _ => exact hstep rfl hzero
  · rintro g called res ⟨rfl, hsound, -, hzero⟩ hdone
    refine ⟨rfl, ?_⟩
    rintro rfl
    cases hsound.gives hdone with
    | called x v ho hv =>
      obtain rfl : x = .int 0 := Option.some.inj hv
      exact hzero ho

theorem holds_newTx_bailing :
    (s.newTx sa).Holds (bailing s sa type cached stored)
      (fun called ktx => called = false ∧ ktx.session = s ∧ ktx.strAddr = sa) false := by
  unfold KvdnSession.newTx
  split_ifs
  · exact ⟨.inr trivial, fun ktx called h => ⟨h.1, h.2.1⟩⟩
  · trivial

/-- The address is in the cache already. -/
theorem holds_storeMeta_bailing (hs : tx.session = s) (hsa : tx.strAddr = sa)
    (hcached : cached = true) :
    (StoreMetaKVHook.storeMeta tx).Holds (bailing s sa type cached stored)
      (fun called _ => called = false) false := by
  simp only [StoreMetaKVHook.storeMeta, bind_eq, perform_bind]
  refine ⟨.inr trivial, ?_⟩
  rintro b called ⟨rfl, -, hb⟩
  obtain rfl : b = true := (hb hs hsa).trans hcached
  exact rfl

/-- The address is not in the cache, or its map is not empty. -/
theorem holds_checkIfEmpty_bailing (hs : tx.session = s) (hsa : tx.strAddr = sa)
    (hstored : cached = true → stored = true) :
    (StoreMetaKVHook.checkIfEmpty tx).Holds (bailing s sa type cached stored)
      (fun called _ => called = false) false := by
  simp only [StoreMetaKVHook.checkIfEmpty, bind_eq, perform_bind]
  refine ⟨.inr trivial, ?_⟩
  rintro b called ⟨rfl, -, hb⟩
  obtain rfl := hb hs hsa
  cases b with
  | false => exact rfl
  | true =>
    rw [hs, hsa]
    refine holds_bind.2 (holds_newTx_bailing.mono ?_)
    rintro called ktx ⟨rfl, hktx, hsa'⟩
    refine ⟨.inr ⟨hktx, hsa', rfl⟩, ?_⟩
    rintro res called ⟨rfl, -, hzero⟩
    cases (res : AsyncResult Obj) with
    | failedFuture c => exact rfl
    | succeededFuture x =>
      have hx : x ≠ .int 0 := by
        rintro rfl
        cases (hstored rfl).symm.trans (hzero rfl)
      simp only [hx, if_false]
      exact rfl

/-- If it has nothing to do, the metadata hook does nothing. -/
theorem verified_bailing
    (hinert : if op.deletes then cached = true → stored = true else cached = true)
    (hop : op.mutates = true) : (bailing s sa op.type cached stored).Verified sem := by
  intro a q hb called ha
  have hquiet : (bailing s sa op.type cached stored).allow called a := ha
  cases called with
  | true => exact holds_called q
  | false =>
    have ha : Quiet s sa op.type a := hquiet.resolve_left Bool.false_ne_true
    cases a with
    | hook h tx =>
      cases h with
      | StoreMetaKVHook =>
        obtain rfl : StoreMetaKVHook.call tx = q := Option.some.inj hb
        obtain ⟨hs, hsa, htype⟩ := ha rfl
        refine Holds.mono (Q := fun called _ => called = false) ?_
          fun called _ h => ⟨h, trivial, trivial⟩
        rcases htype with htype | htype <;> rw [StoreMetaKVHook.call, htype]
        · cases op with
          | submit | set => exact holds_storeMeta_bailing hs hsa hinert
          | clear | del => exact holds_checkIfEmpty_bailing hs hsa hinert
          | get | getKeys | size => cases hop
        · exact rfl
      | MapdbPostTXHook =>
        obtain rfl : MapdbPostTXHook.call = q := Option.some.inj hb
        exact ⟨.inr trivial, fun _ _ h => h⟩
      | other n type => cases hb
    | op tx o =>
      obtain ⟨hs, hsa, rfl⟩ := ha
      obtain rfl : tx.run .size = q := Option.some.inj hb
      exact (holds_size_bailing hs hsa).mono fun called _ h => ⟨h.1, trivial, h.2⟩
    | _ => cases hb

end

/-! ## The world -/

section

variable {s : KvdnSession} {sa : JString} {w w₀ : World} {type : TXTYPE}

/-- A quiet step changes nothing, unless it is the call and succeeds. -/
theorem World.Untouched.of_quiet {a : Act} {r : a.Res} (hquiet : Quiet s sa type a)
    (hw : a.writes r = false) (hb : sem.body a = none) : World.Untouched w (w.eff a r) := by
  have hfailed (m : AsyncMap) (f : KMap → KMap) {r : AsyncResult Obj} (hr : r.succeeded = false) :
      w.modify m r f = w := by
    rw [World.modify, hr]
    rfl
  have heff (htarget : a.target = none ∨ a.target = some World.accessCache)
      (hset : ∀ p map key, a ≠ .setKey p map key) (hdelete : ∀ p map key, a ≠ .deleteKey p map key)
      (hadd : ∀ tx, a ≠ .cacheAdd tx) (hremove : ∀ tx, a ≠ .cacheRemove tx)
      (hpublish : ∀ e, a ≠ .publish e) : World.Untouched w (w.eff a r) := by
    refine ⟨fun m hm => World.map_eff_of_ne ?_, World.keySets_eff hset hdelete,
      World.straddrCache_eff hadd hremove, World.published_eff hpublish⟩
    rcases htarget with ht | ht
    · rw [ht]
      exact (Option.some_ne_none m).symm
    · rw [ht]
      exact fun heq => hm (Option.some.inj heq).symm
  cases a with
  | put m key value =>
    have hsame : w.eff (.put m key value) r = w := hfailed m _ hw
    rw [hsame]
    exact .refl w
  | remove m key =>
    have hsame : w.eff (.remove m key) r = w := hfailed m _ hw
    rw [hsame]
    exact .refl w
  | clear m =>
    have hsame : w.eff (.clear m) r = w := hfailed m (fun _ => ∅) hw
    rw [hsame]
    exact .refl w
  | setKey | deleteKey | publish | cacheAdd | cacheRemove => exact hquiet.elim
  | op => cases hb
  | accessPut | accessPutIfAbsent =>
    refine heff (.inr rfl) ?_ ?_ ?_ ?_ ?_ <;> intros <;> exact fun heq => by cases heq
  | _ => refine heff (.inl rfl) ?_ ?_ ?_ ?_ ?_ <;> intros <;> exact fun heq => by cases heq

/-- What the answers tell is true. -/
theorem learns_of_ok (huser : UserAddr sa) (hw : World.Untouched w₀ w) {a : Act} {r : a.Res}
    (hb : sem.body a = none) (hok : w.ok a r) :
    Learns s sa (decide (w₀.Cached s sa)) (decide (w₀.Stored s.D sa)) a r := by
  cases a with
  | cacheContains tx =>
    rintro rfl rfl
    have hcached : r = decide (tx.strAddr ∈ w.straddrCache tx.session.sessionid) := hok
    rw [hcached, hw.straddrCache]
    rfl
  | size m =>
    rintro rfl rfl
    have hcard : Obj.int 0 = .int (w.map ⟨s.D.space, sa⟩).keys.card := hok
    have hempty : w.map ⟨s.D.space, sa⟩ = ∅ :=
      KMap.card_keys_eq_zero.1 (by simpa using hcard.symm)
    have haccess : (⟨s.D.space, sa⟩ : AsyncMap) ≠ World.accessCache := fun hm =>
      huser.2 (congrArg AsyncMap.name hm)
    rw [hw.map _ haccess] at hempty
    exact decide_eq_false fun hstored => hstored hempty
  | op => cases hb
  | _ => trivial

/-- A transaction that fails leaves no trace, if the metadata hook has nothing to do. -/
theorem untouched_of_runs {c : Request} {w' : World} {tr : List Step} {cause : Throwable}
    (hinit : c.session.initalized = true) (huser : UserAddr c.strAddr)
    (hop : c.op.mutates = true) (hinert : w.Inert c)
    (h : sem.Runs w c.transaction tr w' (.ret (failedFuture cause))) : w.Untouched w' := by
  rw [Request.transaction_eq hinit] at h
  obtain ⟨tx, tr', -, hok, hruns⟩ := h.of_act rfl trivial
  obtain ⟨hs, hsa⟩ := located_of_ok (a := .newTx c.session c.strAddr) hok
  let O := bailing c.session c.strAddr c.op.type (decide (w.Cached c.session c.strAddr))
    (decide (w.Stored c.session.D c.strAddr))
  have hverified : O.Verified sem := by
    refine verified_bailing ?_ hop
    rw [World.Inert] at hinert
    split_ifs at hinert ⊢ with hd
    · simpa using hinert
    · simpa using hinert
  have hkeeps : O.Keeps sem fun _ w' called => called = false → w.Untouched w' := by
    rintro _ w₁ called a r hw₁ hb ha hok
    cases called with
    | true => exact ⟨true, rfl, fun h => by cases h⟩
    | false =>
      have hquiet := ha.resolve_left Bool.false_ne_true
      refine ⟨a.writes r, ⟨rfl, located_of_ok hok, learns_of_ok huser (hw₁ rfl) hb hok⟩, ?_⟩
      exact fun hwrites => (hw₁ rfl).trans (.of_quiet hquiet hwrites hb)
  have hnew : Quiet c.session c.strAddr c.op.type (.newTx c.session c.strAddr) := trivial
  obtain ⟨called, hw', hcalled⟩ := hruns.holds hverified hkeeps (t := []) (g := false)
    (fun _ => .of_quiet hnew rfl rfl) (holds_run_bailing hs hsa hop)
  exact hw' (hcalled fun h => by cases h)

end

/-! ## A failure that is noticed -/

namespace Answers

/-- The environment in which the maps refuse to change, all but those of the metadata. -/
def callFails : Answers where
  pick w
    | .put m _ _ | .remove m _ | .clear m =>
      if m.name = METADATA_MAP then succeededFuture .null else failedFuture (.exception [])
    | a => w.succeed a
  ok w a := by
    cases a with
    | put | remove | clear => trivial
    | _ => exact World.ok_succeed w _
  noError w a msg := by
    cases a with
    | put | remove | clear =>
      simp only [Act.cause]
      split <;> rintro ⟨⟩
    | _ => exact succeeding.noError w _ msg

end Answers

section

variable {s : KvdnSession} {tx : KvTx} {op : Op} {w w₀ : World} {n : ℕ}

/-- The call of the transaction fails, which then comes to its end. -/
theorem exists_failed (hs : tx.session = s) (hinit : s.initalized = true)
    (huser : UserAddr tx.strAddr) (hop : op.mutates = true) (hcalm : Calm s (tx.txid + 1) w)
    (hnew : tx.txid ∉ w.dirty) : ∃ tr w' cause,
      Answers.callFails.sem.Runs w (tx.run op) tr w' (.ret (failedFuture cause)) := by
  have hcall {g : Progress} {a : Act} (w : World) (hown : g.FindsOwn tx)
      (ha : Progress.allow tx op g a) : a.writes (Answers.callFails.pick w a) = false := by
    have hname {m : AsyncMap} (hcalls : g.Calls op a) (htarget : a.target = some m) :
        m.name ≠ METADATA_MAP := by
      rcases Op.target_of_call (hown.call hcalls).2 with ht | ht
      · cases ht.symm.trans htarget
      · obtain rfl := Option.some.inj (ht.symm.trans htarget)
        exact huser.1
    cases a with
    | put | remove | clear =>
      simp only [Answers.callFails, if_neg (hname ha rfl)]
      rfl
    | _ => rfl
  have hstep {g : Progress} {a : Act} {r : a.Res} (hg : g.FindsOwn tx ∧ ¬g.Called)
      (ha : Progress.allow tx op g a) (hr : Located a r) (hw : a.writes r = false) :
      (g.step tx op a r).FindsOwn tx ∧ ¬(g.step tx op a r).Called := by
    refine ⟨hg.1.step ha hr, fun hcalled => ?_⟩
    rcases (Progress.called_step hop ha).1 hcalled with hcalled | hwrites
    · exact hg.2 hcalled
    · cases hw.symm.trans hwrites
  obtain ⟨tr, w', res, hruns, -, g, ⟨-, hnot⟩, hsound, hassumed, hphase⟩ :=
    completes_run (A := .callFails) (X := fun _ g => g.FindsOwn tx ∧ ¬g.Called) hs
      (fun h => by rw [h] at hop; cases hop)
      (fun w _ a _ _ _ hg ha _ =>
        hstep hg ha (located_of_ok (Answers.callFails.ok w a)) (hcall w hg.1 ha))
      (fun _ _ _ _ _ _ hg ha _ => hstep hg ha trivial rfl)
      (fun _ _ h hcalm _ _ => completes_hook (show (tx.started op).session = s from hs) hinit hcalm h) hcalm hnew
      ⟨Progress.findsOwn_init, by rintro ⟨x, ⟨⟩⟩⟩
  cases hsound.gives hphase with
  | refused map ho => exact absurd ho (hassumed.1 map)
  | failed c ho => exact ⟨tr, w', c, hruns⟩
  | called x v ho => exact absurd ⟨x, ho⟩ hnot

/-- Nothing has been done yet that the metadata hook looks at. -/
def World.SameFor (w₀ : World) (s : KvdnSession) (sa : JString) (w : World) : Prop :=
  w.straddrCache s.sessionid = w₀.straddrCache s.sessionid ∧
    w.map ⟨s.D.space, sa⟩ = w₀.map ⟨s.D.space, sa⟩

/-- What the stages of a transaction say whose call fails, while everything else succeeds, if
    the metadata hook has something to do: in the end its cache is another one. -/
def Stage.Leaves (s : KvdnSession) (sa : JString) (op : Op) (w₀ w : World) : Stage → Prop
  | before | written | erased => w₀.SameFor s sa w
  | missed | listed => op.deletes = false ∧ w₀.SameFor s sa w
  | hit | empty | unlisted => op.deletes = true ∧ w₀.SameFor s sa w
  | settled => w.straddrCache s.sessionid ≠ w₀.straddrCache s.sessionid

/-- What is known of a transaction whose call fails, while everything else succeeds. -/
structure Bailed (S : Setting) (tx : KvTx) (op : Op) (w₀ w : World) (st : Stage) : Prop where
  flags : ∀ mode, Sum.inr mode ∉ w.txflags S.session.sessionid
  md5 : w.md5 = S.md5
  uuids : S.uuids ≤ w.uuids
  leaves : st.Leaves S.session tx.strAddr op w₀ w

variable {S : Setting} {st st' : Stage}

theorem Bailed.of_leaves (h : Bailed S tx op w₀ w st) {a : Act} {r : a.Res}
    (hleaves : st'.Leaves S.session tx.strAddr op w₀ (w.eff a r)) :
    Bailed S tx op w₀ (w.eff a r) st' :=
  ⟨by rw [World.txflags_eff]; exact h.flags, by rw [World.md5_eff, h.md5],
    h.uuids.trans World.uuids_le_eff, hleaves⟩

/-- Only the cache and the map matter. -/
theorem Stage.Leaves.of_same {sa : JString} {w' : World} (h : st.Leaves s sa op w₀ w)
    (hw : w.SameFor s sa w') : st.Leaves s sa op w₀ w' := by
  have hsame (h : w₀.SameFor s sa w) : w₀.SameFor s sa w' :=
    ⟨hw.1.trans h.1, hw.2.trans h.2⟩
  cases st with
  | before | written | erased => exact hsame h
  | missed | listed | hit | empty | unlisted => exact ⟨h.1, hsame h.2⟩
  | settled =>
    rw [Stage.Leaves, hw.1]
    exact h

theorem World.sameFor_eff {sa : JString} {a : Act} {r : a.Res}
    (htarget : a.target ≠ some ⟨s.D.space, sa⟩) (hadd : ∀ tx, a ≠ .cacheAdd tx)
    (hremove : ∀ tx, a ≠ .cacheRemove tx) : w.SameFor s sa (w.eff a r) :=
  ⟨by rw [straddrCache_eff hadd hremove], map_eff_of_ne htarget⟩

/-- The call of the transaction fails. -/
theorem Bailed.call (h : Bailed S tx op w₀ w st) {a : Act} {r : a.Res} {c : Throwable}
    (ha : Stage.Calls S tx op st a) (hr : a.answer r = some (failedFuture c))
    (heff : w.eff a r = w) : Bailed S tx op w₀ (w.eff a r) (st.next op a r) := by
  obtain ⟨rfl, -⟩ := ha
  rw [Stage.next_before_of_reply (Act.reply_of_answer hr)]
  refine h.of_leaves ?_
  rw [heff]
  cases hd : op.deletes with
  | true => rw [Stage.changed_of_deletes hd]; exact h.leaves
  | false => rw [Stage.changed_of_not_deletes hd]; exact h.leaves

/-- The steps that move no stage. -/
theorem Bailed.stutter (h : Bailed S tx op w₀ w st) (huser : UserAddr tx.strAddr) {a : Act}
    {r : a.Res} (hst : st.next op a r = st)
    (htarget : a.target = none ∨ a.target = some World.accessCache)
    (hadd : ∀ tx, a ≠ .cacheAdd tx) (hremove : ∀ tx, a ≠ .cacheRemove tx) :
    Bailed S tx op w₀ (w.eff a r) (st.next op a r) := by
  rw [hst]
  refine h.of_leaves (h.leaves.of_same (World.sameFor_eff ?_ hadd hremove))
  rcases htarget with ht | ht
  · rw [ht]
    exact (Option.some_ne_none _).symm
  · rw [ht]
    exact fun heq => huser.2 (congrArg AsyncMap.name (Option.some.inj heq)).symm

/-- The cache has the address of a deletion, and not that of another operation. -/
theorem Bailed.cacheContains (h : Bailed S tx op w₀ w st) (hs : tx.session = S.session)
    (hinert : ¬w₀.Inert ⟨S.session, tx.strAddr, op⟩) {tx' : KvTx} {cached : Bool}
    (ha : Stage.allow S tx op st (.cacheContains tx')) (hok : w.ok (.cacheContains tx') cached) :
    Bailed S tx op w₀ (w.eff (.cacheContains tx') cached)
      (st.next op (.cacheContains tx') cached) := by
  obtain ⟨rfl, rfl⟩ := ha
  have hcached (hsame : w₀.SameFor S.session tx.strAddr w) :
      cached = decide (w₀.Cached S.session tx.strAddr) := by
    have hmem : cached = decide (tx.strAddr ∈ w.straddrCache tx.session.sessionid) := hok
    rw [hmem, hs, hsame.1]
    rfl
  have hleaves := h.leaves
  refine h.of_leaves ?_
  rw [World.Inert] at hinert
  cases hd : op.deletes with
  | true =>
    rw [Stage.changed_of_deletes hd] at hleaves ⊢
    obtain ⟨hc, -⟩ : w₀.Cached S.session tx.strAddr ∧ ¬w₀.Stored S.session.D tx.strAddr := by
      simpa [hd] using hinert
    obtain rfl : cached = true := (hcached hleaves).trans (decide_eq_true hc)
    exact ⟨hd, hleaves⟩
  | false =>
    rw [Stage.changed_of_not_deletes hd] at hleaves ⊢
    have hc : ¬w₀.Cached S.session tx.strAddr := by simpa [hd] using hinert
    obtain rfl : cached = false := (hcached hleaves).trans (decide_eq_false hc)
    exact ⟨hd, hleaves⟩

/-- The map is empty. -/
theorem Bailed.size (h : Bailed S tx op w₀ w st)
    (hinert : ¬w₀.Inert ⟨S.session, tx.strAddr, op⟩) {m : AsyncMap}
    (ha : Stage.allow S tx op st (.size m)) :
    Bailed S tx op w₀ (w.eff (.size m) (w.succeed (.size m)))
      (st.next op (.size m) (w.succeed (.size m))) := by
  obtain ⟨rfl, rfl⟩ := ha
  obtain ⟨hd, hsame⟩ := h.leaves
  refine h.of_leaves ?_
  have hempty : w.map ⟨S.session.D.space, tx.strAddr⟩ = ∅ := by
    rw [World.Inert] at hinert
    have hstored : ¬w₀.Stored S.session.D tx.strAddr := by
      simp only [hd, if_true, Classical.not_imp] at hinert
      exact hinert.2
    rw [hsame.2]
    exact not_not.1 hstored
  have hsize : w.succeed (.size ⟨S.session.D.space, tx.strAddr⟩) = succeededFuture (.int 0) := by
    simp only [World.succeed, hempty]
    rfl
  have hnext : Stage.hit.next op (.size ⟨S.session.D.space, tx.strAddr⟩)
      (succeededFuture (.int 0)) = .empty := rfl
  rw [hsize, hnext]
  exact ⟨hd, hsame⟩

/-- The cache has one address more. -/
theorem Bailed.cacheAdd (h : Bailed S tx op w₀ w st) (hs : tx.session = S.session) {tx' : KvTx}
    {r : Unit} (ha : Stage.allow S tx op st (.cacheAdd tx')) :
    Bailed S tx op w₀ (w.eff (.cacheAdd tx') r) (st.next op (.cacheAdd tx') r) := by
  obtain ⟨rfl, rfl⟩ := ha
  obtain ⟨-, hsame, -⟩ := h.leaves
  refine h.of_leaves fun heq => ?_
  have hcache : (w.eff (.cacheAdd (tx.started op)) r).straddrCache S.session.sessionid =
      w.straddrCache S.session.sessionid ++ [tx.strAddr] := by
    rw [← hs]
    exact Function.update_self ..
  rw [hcache, hsame] at heq
  have hlength := congrArg List.length heq
  rw [List.length_append, List.length_singleton] at hlength
  omega

/-- The cache has one address less. -/
theorem Bailed.cacheRemove (h : Bailed S tx op w₀ w st) (hs : tx.session = S.session)
    (hinert : ¬w₀.Inert ⟨S.session, tx.strAddr, op⟩) {tx' : KvTx} {r : Unit}
    (ha : Stage.allow S tx op st (.cacheRemove tx')) :
    Bailed S tx op w₀ (w.eff (.cacheRemove tx') r) (st.next op (.cacheRemove tx') r) := by
  obtain ⟨rfl, rfl⟩ := ha
  obtain ⟨hd, hsame, -⟩ := h.leaves
  refine h.of_leaves fun heq => ?_
  have hmem : tx.strAddr ∈ w₀.straddrCache S.session.sessionid := by
    rw [World.Inert] at hinert
    simp only [hd, if_true, Classical.not_imp] at hinert
    exact hinert.1
  have hcache : (w.eff (.cacheRemove (tx.started op)) r).straddrCache S.session.sessionid =
      (w.straddrCache S.session.sessionid).erase tx.strAddr := by
    rw [← hs]
    exact Function.update_self ..
  rw [hcache, hsame] at heq
  have hlength := congrArg List.length heq
  rw [List.length_erase_of_mem hmem] at hlength
  have hpos := List.length_pos_of_mem hmem
  omega

theorem Bailed.step (h : Bailed S tx op w₀ w st) (huser : UserAddr tx.strAddr)
    (hs : tx.session = S.session) (hinert : ¬w₀.Inert ⟨S.session, tx.strAddr, op⟩) {a : Act}
    (hb : sem.body a = none) (ha : Stage.allow S tx op st a) :
    Bailed S tx op w₀ (w.eff a (Answers.callFails.pick w a))
      (st.next op a (Answers.callFails.pick w a)) := by
  have hstay (htarget : a.target = none ∨ a.target = some World.accessCache)
      (hr : a.reply (Answers.callFails.pick w a) = none)
      (hhook : ∀ tx, a ≠ .hook .StoreMetaKVHook tx) (hcontains : ∀ tx, a ≠ .cacheContains tx)
      (hadd : ∀ tx, a ≠ .cacheAdd tx) (hremove : ∀ tx, a ≠ .cacheRemove tx) :
      Bailed S tx op w₀ (w.eff a (Answers.callFails.pick w a))
        (st.next op a (Answers.callFails.pick w a)) :=
    h.stutter huser (Stage.next_of_reply_eq_none hr hhook hcontains hadd hremove) htarget hadd
      hremove
  -- the index is not the map of the transaction
  have hindex (hadd : ∀ tx, a ≠ .cacheAdd tx) (hremove : ∀ tx, a ≠ .cacheRemove tx) {r : a.Res}
      (htarget : a.target = some ⟨S.session.D.space, METADATA_MAP⟩)
      (hsame : w₀.SameFor S.session tx.strAddr w) :
      w₀.SameFor S.session tx.strAddr (w.eff a r) := by
    have heff : w.SameFor S.session tx.strAddr (w.eff a r) := by
      refine World.sameFor_eff ?_ hadd hremove
      rw [htarget]
      exact fun heq => huser.1 (congrArg AsyncMap.name (Option.some.inj heq)).symm
    exact ⟨heff.1.trans hsame.1, heff.2.trans hsame.2⟩
  cases a with
  | put m key value =>
    rcases ha with hcall | ⟨rfl, rfl, rfl⟩
    · obtain ⟨-, -, rfl⟩ := hcall.put
      simp only [Answers.callFails, if_neg huser.1]
      exact h.call hcall rfl rfl
    · simp only [Answers.callFails, if_true]
      obtain ⟨hd, hsame⟩ := h.leaves
      have hnext : Stage.missed.next op (.put ⟨S.session.D.space, METADATA_MAP⟩ tx.strAddr value)
          (succeededFuture .null) = .listed := rfl
      rw [hnext]
      refine h.of_leaves ⟨hd, hindex (fun _ heq => by cases heq) (fun _ heq => by cases heq) rfl hsame⟩
  | remove m key =>
    rcases ha with hcall | ⟨rfl, rfl, rfl⟩
    · obtain ⟨-, -, rfl⟩ := hcall.remove
      simp only [Answers.callFails, if_neg huser.1]
      exact h.call hcall rfl rfl
    · simp only [Answers.callFails, if_true]
      obtain ⟨hd, hsame⟩ := h.leaves
      have hnext : Stage.empty.next op (.remove ⟨S.session.D.space, METADATA_MAP⟩ tx.strAddr)
          (succeededFuture .null) = .unlisted := rfl
      rw [hnext]
      refine h.of_leaves ⟨hd, hindex (fun _ heq => by cases heq) (fun _ heq => by cases heq) rfl hsame⟩
  | clear m =>
    obtain ⟨-, -, rfl⟩ := Stage.Calls.clear ha
    simp only [Answers.callFails, if_neg huser.1]
    exact h.call ha rfl rfl
  | size m => exact h.size hinert ha
  | cacheContains => exact h.cacheContains hs hinert ha rfl
  | cacheAdd => exact h.cacheAdd hs ha
  | cacheRemove => exact h.cacheRemove hs hinert ha
  | get | getKeys => exact ha.elim
  | op => cases hb
  | hook nxt tx' =>
    cases nxt with
    | other =>
      refine hstay (.inl rfl) rfl ?_ ?_ ?_ ?_ <;> exact fun _ heq => by cases heq
    | _ => cases hb
  | accessPut | accessPutIfAbsent =>
    refine hstay (.inr rfl) rfl ?_ ?_ ?_ ?_ <;> exact fun _ heq => by cases heq
  | _ => refine hstay (.inl rfl) rfl ?_ ?_ ?_ ?_ <;> exact fun _ heq => by cases heq

/-- If the metadata hook has something to do, the call may fail and the hook do it. -/
theorem exists_touched {c : Request} (hready : c.session.Ready) (hcalm : Calm c.session 0 w)
    (huser : UserAddr c.strAddr) (hop : c.op.mutates = true) (hinert : ¬w.Inert c) :
    ∃ tr w' cause, sem.Runs w c.transaction tr w' (.ret (failedFuture cause)) ∧
      w'.straddrCache c.session.sessionid ≠ w.straddrCache c.session.sessionid := by
  rw [Request.transaction_eq hready.initalized]
  let tx : KvTx := { txid := w.uuids, session := c.session, strAddr := c.strAddr }
  let w₁ := w.eff (.newTx c.session c.strAddr) tx
  have hcalm₁ : Calm c.session (tx.txid + 1) w₁ := hcalm.newTx tx
  have hnew : tx.txid ∉ w₁.dirty := fun hdirty => lt_irrefl _ (hcalm.fresh _ hdirty)
  -- a run in which the call of the map is all that fails: in it, the stages tell what the hook does
  obtain ⟨tr, w', cause, hruns⟩ :=
    exists_failed (show tx.session = c.session from rfl) hready.initalized huser hop hcalm₁ hnew
  let S : Setting := ⟨c.session, w₁.md5, 0⟩
  have hinit : Bailed S tx c.op w₁ w₁ .before := ⟨hcalm₁.flags, rfl, Nat.zero_le _, rfl, rfl⟩
  have hkeeps : (Stage.outline S tx c.op).Keeps Answers.callFails.sem
      fun _ w' st => Bailed S tx c.op w₁ w' st := by
    rintro _ w st a r h hb ha ⟨hok, rfl⟩
    exact ⟨_, ⟨known_of_ok (.inl h.flags) h.md5 h.uuids hok, rfl⟩, h.step huser rfl hinert hb ha⟩
  have hverified : (Stage.outline S tx c.op).Verified Answers.callFails.sem :=
    Stage.verified (S := S) hready rfl hop
  obtain ⟨st, hbailed, hst⟩ := hruns.holds hverified hkeeps (t := []) hinit
    (Stage.holds_run (S := S) hready huser rfl hop)
  obtain rfl : st = .settled := hst
  exact ⟨_, w', cause, .prim rfl (World.ok_succeed w (.newTx c.session c.strAddr))
    hruns.of_restrict, hbailed.leaves⟩

/-! ## A null key -/

/-- The map answers twice to the call of the request, with the key `null`. -/
def Request.AnsweredTwice (c : Request) (null : Bool) : Prop :=
  null = true ∧ c.session.D.space = .localMap ∧ ∃ key, c.op = .del key

/-- The handler of the request is given a failure, and the transaction has come to its end: to
    both of its ends, if the map has answered twice. -/
inductive Request.Fails (c : Request) (null : Bool) (w w' : World) : Prop
  | once {tr : List Step} {cause : Throwable} :
      sem.Runs w c.transaction tr w' (.ret (failedFuture cause)) →
      (c.AnsweredTwice null → ∀ l ∈ tr, l.1.target ≠ some ⟨c.session.D.space, c.strAddr⟩) →
      Fails c null w w'
  | twice {key : JString} {tx : KvTx} {tr : List (Bool × Step)} {cause : Throwable}
      {res : AsyncResult Obj} : c.AnsweredTwice null → c.op = .del key →
      w.ok (.newTx c.session c.strAddr) tx →
      RunsTwice sem (w.eff (.newTx c.session c.strAddr) tx) tx key tr w' (failedFuture cause) res →
      Fails c null w w'

theorem runs_handle (res : AsyncResult Obj) : sem.Runs w (tx.handle res) [⟨.handle tx.txid res, ()⟩]
    (w.eff (.handle tx.txid res) ()) (.ret res) :=
  .prim rfl trivial (.refl ..)

/-- The deletion of a null key goes on after its map has refused it, from the second answer. -/
theorem exists_removed (hs : tx.session = s) (hinit : s.initalized = true)
    (hcalm : Calm s (tx.txid + 1) w) (key : JString) :
    ∃ tr w' res, sem.Runs w (tx.removed key (succeededFuture .null)) tr w' (.ret res) ∧
      ⟨.publish ⟨KvTx.deleteChannel tx.strAddr, some key⟩, ()⟩ ∈ tr := by
  let e : Event := ⟨KvTx.deleteChannel tx.strAddr, some key⟩
  have hcalm' : Calm s (tx.txid + 1) (w.eff (.deleteKey tx.session.keyprov tx.strAddr key)
      (succeededFuture .null)) := hcalm.eff fun _ h => by cases h
  -- nothing that `removed` does looks at the map: it comes to its end as after a success
  obtain ⟨tr, w', x, hfinish, -⟩ :=
    @completes_finishTx .succeeding s tx _ _ hs hinit hcalm'
  have hpublish := Runs.prim (S := sem) (w := w') (a := .publish e) (r := ())
    (k := fun _ => tx.handle (succeededFuture (.str key))) rfl trivial (runs_handle _)
  refine ⟨_, _, _, .prim rfl (World.ok_succeed w (.deleteKey _ _ _))
    (hfinish.of_restrict.bind_ret hpublish), ?_⟩
  exact List.mem_cons_of_mem _ (List.mem_append_right _ List.mem_cons_self)

/-- A transaction gives up, and comes to its end. -/
theorem exists_bailTx (hs : tx.session = s) (hinit : s.initalized = true) (hcalm : Calm s n w)
    (msg : JString) : ∃ tr w', sem.Runs w (tx.bailTx (failedFuture (.exception msg))) tr w'
      (.ret (failedFuture (.exception msg))) ∧ Calm s n w' := by
  obtain ⟨tr, w', x, hfinish, hcalm'⟩ :=
    @completes_finishTx .succeeding s tx _ _ hs hinit hcalm
  have hcause : ¬(tx.session.isTraceEnabled = true ∧
      (failedFuture (.exception msg) : AsyncResult Obj).cause = none) := fun h => by cases h.2
  rw [KvTx.bailTx, if_neg hcause]
  · exact ⟨_, _, hfinish.of_restrict.bind_ret (runs_handle _), hcalm'.eff fun _ h => by cases h⟩
  · rintro msg' ⟨⟩

/-- The deletion of a null key, which its map refuses. -/
theorem exists_refused (hs : tx.session = s) (hinit : s.initalized = true)
    (hcalm : Calm s (tx.txid + 1) w) (hnew : tx.txid ∉ w.dirty) (key : JString) :
    ∃ (tr : List Step) (w' : World) (n : ℕ) (cause : Throwable),
      sem.Runs w (tx.del key) tr w' (.ret (failedFuture cause)) ∧
        Calm s (tx.txid + 1) w' ∧
        tr[n]? = some ⟨.remove ⟨tx.session.D.space, tx.strAddr⟩ key, failedFuture cause⟩ := by
  subst hs
  let map : AsyncMap := ⟨tx.session.D.space, tx.strAddr⟩
  let refused : AsyncResult Obj := failedFuture (.exception [])
  let started : KvTx := tx.started (.del key)
  -- `startTX`, the lookup, the flags, the call that is refused, and `bailTx`
  obtain ⟨tr₁, w₁, tx', hstart, rfl, hcalm₁⟩ :=
    completes_startTX (A := .succeeding) rfl hinit hcalm hnew .KV_DEL
  have hcalm₂ : Calm tx.session (tx.txid + 1) (w₁.eff (.remove map key) refused) :=
    hcalm₁.eff fun _ h => by cases h
  obtain ⟨tr₂, w₂, hbail, hcalm₃⟩ :=
    exists_bailTx (show started.session = tx.session from rfl) hinit hcalm₂ []
  have hflags : w₁.ok (.checkFlags tx.session.sessionid .MODE_WRITE) true := by
    have hflag : Sum.inr .MODE_WRITE ∉ w₁.txflags tx.session.sessionid := hcalm₁.flags .MODE_WRITE
    exact (by simpa using hflag :
      true = !decide (Sum.inr .MODE_WRITE ∈ w₁.txflags tx.session.sessionid))
  have hcall : sem.Runs w₁ ((perform (.remove map key)).bind (started.removed key))
      (⟨.remove map key, refused⟩ :: tr₂) w₂ (.ret refused) := .prim rfl trivial hbail
  have hrest : sem.Runs w₁ (started.withMap .MODE_WRITE fun map =>
      (perform (.remove map key)).bind (started.removed key))
      (⟨.getMap tx.session.D tx.strAddr, succeededFuture map⟩ ::
        ⟨.checkFlags tx.session.sessionid .MODE_WRITE, true⟩ :: ⟨.remove map key, refused⟩ :: tr₂)
      w₂ (.ret refused) := .prim rfl rfl (.prim rfl hflags hcall)
  rw [KvTx.del_eq]
  refine ⟨_, w₂, tr₁.length + 2, _, hstart.of_restrict.bind_ret hrest, hcalm₃, ?_⟩
  rw [List.getElem?_append_right (Nat.le_add_right ..), Nat.add_sub_cancel_left]
  rfl

/-- The deletion of a null key is published, though its handler has been given a failure. -/
theorem exists_twice {c : Request} {null : Bool} (hinit : c.session.initalized = true)
    (hcalm : Calm c.session 0 w) (htwice : c.AnsweredTwice null) :
    ∃ w', c.Fails null w w' ∧ w'.published ≠ w.published := by
  obtain ⟨-, hlocal, key, hop⟩ := id htwice
  let tx : KvTx := { txid := w.uuids, session := c.session, strAddr := c.strAddr }
  let w₁ := w.eff (.newTx c.session c.strAddr) tx
  have hcalm₁ : Calm c.session (tx.txid + 1) w₁ := hcalm.newTx tx
  have hnew : tx.txid ∉ w₁.dirty := fun hdirty => lt_irrefl _ (hcalm.fresh _ hdirty)
  obtain ⟨tr₁, w₂, n, cause, hrefused, hcalm₂, hn⟩ := exists_refused rfl hinit hcalm₁ hnew key
  obtain ⟨tr₂, w₃, res, hremoved, hpublish⟩ :=
    @exists_removed _ (tx.started (.del key)) _ rfl hinit hcalm₂ key
  -- the code calls the handler of the map again when the first call returns: one strand after
  -- the other
  have hinit : sem.Pool w₁ (tx.strands key) [] w₁ (tx.strands key) := .init
  have hpool := (hinit.runs (i := false) hrefused rfl).runs (i := true) hremoved rfl
  refine ⟨w₃, .twice htwice hop (World.ok_succeed w _) ⟨hlocal, ⟨_, hpool, rfl, rfl⟩, n, cause,
    fun l hl => ?_, ?_⟩, ?_⟩
  · have hlength : n < tr₁.length := (List.getElem?_eq_some_iff.1 hn).choose
    rw [List.nil_append, List.take_append_of_le_length (by simpa using hlength.le)] at hl
    obtain ⟨l', -, rfl⟩ := List.mem_map.1 (List.mem_of_mem_take hl)
    rfl
  · have hlength : n < tr₁.length := (List.getElem?_eq_some_iff.1 hn).choose
    rw [List.nil_append, List.getElem?_append_left (by simpa using hlength), List.getElem?_map, hn]
    rfl
  · -- what is published is what has been paid of the debts of events
    have hpaid : ⟨KvTx.deleteChannel c.strAddr, some key⟩ ∈
        eventDebts.paid ([] ++ tr₁.map (false, ·) ++ tr₂.map (true, ·)) :=
      List.mem_filterMap.2 ⟨(true, ⟨.publish _, ()⟩),
        List.mem_append_right _ (List.mem_map_of_mem hpublish), rfl⟩
    rw [published_of_pool hpool]
    exact fun heq => List.ne_nil_of_mem hpaid (List.append_right_eq_self.1 heq)

/-- A transaction that fails leaves no trace, whatever fails and whenever, if and only if the
    metadata hook has nothing to do for it, and its map does not answer twice. -/
theorem untouched_iff {c : Request} (null : Bool) (hready : c.session.Ready) (hw : w.Reachable)
    (huser : UserAddr c.strAddr) (hop : c.op.mutates = true) :
    (∀ w', c.Fails null w w' → w.Untouched w') ↔ w.Inert c ∧ ¬c.AnsweredTwice null := by
  have hcalm := hw.calm c.session
  refine ⟨fun h => ?_, fun ⟨hinert, hnot⟩ w' hfails => ?_⟩
  · -- a run that leaves a trace, if the map answers twice, or if the hook has something to do
    have hnot : ¬c.AnsweredTwice null := fun htwice => by
      obtain ⟨w', hfails, hpublished⟩ := exists_twice hready.initalized hcalm htwice
      exact hpublished (h w' hfails).published
    refine ⟨?_, hnot⟩
    by_contra hinert
    obtain ⟨tr, w', cause, hruns, hcache⟩ := exists_touched hready hcalm huser hop hinert
    exact hcache (congrFun (h w' (.once hruns fun htwice => absurd htwice hnot)).straddrCache _)
  · cases hfails with
    | once hruns => exact untouched_of_runs hready.initalized huser hop hinert hruns
    | twice htwice => exact absurd htwice hnot

end

/-- A `set` through a new session of a node of a cluster. -/
def firstSet : Request :=
  ⟨{ sessionid := 0, D := .DefaultDataImpl true, keyprov := .LocalKeyProvider }, jstr "a",
    .set (jstr "k") (jstr "v")⟩

/-- It leaves no trace when it fails if, and only if, the session has written to its address
    before. -/
theorem untouched_firstSet :
    (∀ w', firstSet.Fails false {} w' → World.Untouched {} w') ↔
      World.Inert {} firstSet ∧ ¬firstSet.AnsweredTwice false :=
  untouched_iff false ⟨rfl, List.not_mem_nil, rfl⟩
    (World.Initial.reachable ⟨fun _ => rfl, fun _ => rfl, rfl⟩) (by decide) rfl

/-- It has not: if the put fails, the address is in the index all the same, without any value,
    and its listing has been published. -/
theorem touched_firstSet :
    ∃ tr w' cause, sem.Runs {} firstSet.transaction tr w' (.ret (failedFuture cause)) ∧
      ¬World.Untouched {} w' ∧ w'.Indexed firstSet.session.D firstSet.strAddr ∧
        ¬w'.Stored firstSet.session.D firstSet.strAddr ∧
          w'.published = [⟨KvTx.writeChannel METADATA_MAP, some firstSet.strAddr⟩] := by
  have heval : (sem.eval Answers.callFails.pick 60 {} firstSet.transaction).any (fun x =>
      decide (x.2.2.succeeded = false ∧ x.2.1.Indexed firstSet.session.D firstSet.strAddr ∧
        ¬x.2.1.Stored firstSet.session.D firstSet.strAddr ∧
          x.2.1.published = [⟨KvTx.writeChannel METADATA_MAP, some firstSet.strAddr⟩])) = true := by
    decide +kernel
  obtain ⟨⟨tr, w', res⟩, hres, hw'⟩ := (Option.any_eq_true _ _).1 heval
  obtain ⟨hfailed, hindexed, hstored, hpublished⟩ := of_decide_eq_true hw'
  cases res with
  | succeededFuture x => cases hfailed
  | failedFuture c =>
    refine ⟨tr, w', c, runs_of_eval Answers.callFails.ok hres, fun h => ?_, hindexed, hstored,
      hpublished⟩
    cases hpublished.symm.trans h.published

end Kvdn
