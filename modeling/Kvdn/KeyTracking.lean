import Kvdn.Callback.Serial
import Kvdn.Hooks

/-!
# Providers that keep their own keys

A provider that keeps a key set for every address does so from the notifications it
gets: after a successful `put` or `remove`, the transaction owes the provider a
`setKey` or a `deleteKey`, and sends it before it goes on (`tracking`). So the key sets
are those of the maps, up to the notification owed (`Tracks`), as long as nothing else
changes the keys of a map (`Act.Told`). Two calls do: a `clear`, of which the provider is
not told, and the access cache of the session, if the maps are the local maps of the node.

* `tracked`: in every run in which these two change no keys, the key sets are those of
  the maps, after every transaction;
* `not_tracked`: after a `clear`, the provider has keys that the map has not.
-/

namespace Kvdn

open Callback Callback.Sem AsyncResult

namespace Act

/-- The notifications of the provider. -/
def isNotice : Act → Bool
  | setKey _ _ _ | deleteKey _ _ _ => true
  | _ => false

/-- A notification succeeds. -/
def Notified (a : Act) (r : a.Res) : Prop := a.isNotice = true → a.fails r = false

instance (a : Act) (r : a.Res) : Decidable (a.Notified r) := inferInstanceAs (Decidable (_ → _))

/-- The map that is cleared. -/
def cleared : Act → Option AsyncMap
  | clear m => some m
  | _ => none

/-- The address that enters the access cache. -/
def accessed : Act → Option JString
  | accessPut sa _ | accessPutIfAbsent sa => some sa
  | _ => none

/-- The call changes no keys of the maps of `D`, unless it is one of which the provider is
    told: a map is cleared when it is empty, and what enters the access cache, if it is one
    of these maps, is there already. -/
def Told (D : KVData) (w : World) (a : Act) : Prop :=
  (∀ m ∈ a.cleared, w.map m = ∅) ∧
    ∀ sa ∈ a.accessed, D.space = .localMap → sa ∈ w.map World.accessCache

instance (D : KVData) (w : World) (a : Act) : Decidable (a.Told D w) :=
  inferInstanceAs (Decidable (_ ∧ _))

end Act

/-- The runs in which the notifications succeed, and the provider is told of everything. -/
def trackedSem (D : KVData) : Sem Act.Res Exn World :=
  sem.restrict fun w a r => a.Notified r ∧ a.Told D w

/-- The key sets of a provider which has got the notification `owed`. -/
def noted (owed : Option Act) (keySets : JString → Finset JString) : JString → Finset JString :=
  match owed with
  | some (.setKey _ map key) => Function.update keySets map (insert key (keySets map))
  | some (.deleteKey _ map key) => Function.update keySets map ((keySets map).erase key)
  | _ => keySets

/-- The key sets are those of the maps, but for the notification `owed`. -/
def Tracks (D : KVData) (owed : Option Act) (w : World) : Prop :=
  ∀ sa, (w.map ⟨D.space, sa⟩).keys = noted owed w.keySets sa

/-- What is owed to the provider `p` after a step. -/
def owedAfter (p : KeyProvider) (owed : Option Act) : (a : Act) → a.Res → Option Act
  | .put m key _, (r : AsyncResult Obj) => if r.succeeded then some (.setKey p m.name key) else owed
  | .remove m key, (r : AsyncResult Obj) =>
    if r.succeeded then some (.deleteKey p m.name key) else owed
  | .setKey _ _ _, _ | .deleteKey _ _ _, _ => none
  | _, _ => owed

/-- The outline of the transactions of a session: nothing else is done while a notification
    is owed. -/
def tracking (s : KvdnSession) : Outline Act.Res Exn (Option Act) where
  allow owed
    | .hook _ tx | .op tx _ => owed = none ∧ tx.session = s
    | .put m _ _ | .remove m _ | .clear m => owed = none ∧ m.space = s.D.space
    | .setKey p map key => p = s.keyprov ∧ owed = some (.setKey p map key)
    | .deleteKey p map key => p = s.keyprov ∧ owed = some (.deleteKey p map key)
    | _ => True
  next owed a r owed' := Located a r ∧ owed' = owedAfter s.keyprov owed a r
  throws _ _ := True

/-- What a transaction owes to its provider. -/
def Progress.told (tx : KvTx) (op : Op) (g : Progress) : Option Act :=
  match g.phase with
  | .notifying => op.notice tx.session.keyprov tx.strAddr g.digest
  | _ => none

section

variable {s : KvdnSession} {D : KVData} {tx : KvTx} {op : Op} {g : Progress} {owed : Option Act}
  {w w' : World}

/-- The metadata hook owes nothing itself. -/
theorem holds_call_tracking (tx : KvTx) :
    (StoreMetaKVHook.call tx).Holds (tracking tx.session) (fun owed _ => owed = none) none := by
  refine (holds_call_nesting tx).refine (fun _ owed => owed = none) ?_ ?_
    (fun _ _ _ _ _ => trivial) (fun _ _ _ h _ => h) rfl
  · rintro _ _ a rfl ⟨ha, hn⟩
    cases a with
    | op tx' o => exact ⟨rfl, hn.1⟩
    | hook => exact hn.elim
    | put | remove | clear | setKey | deleteKey => exact nomatch ha
    | _ => trivial
  · rintro _ _ a r owed' rfl ⟨ha, -⟩ ⟨hlocated, rfl⟩
    refine ⟨(), hlocated, ?_⟩
    cases a with
    | put | remove => exact nomatch ha
    | _ => rfl

namespace Progress

theorem told_of_phase (h : g.phase ≠ .notifying) : g.told tx op = none := by
  unfold told
  split
  · exact absurd ‹_› h
  · rfl

/-- The answer of the call. -/
theorem told_answered {res : AsyncResult Obj} (hres : res.succeeded = true) :
    (g.answered op res).told tx op = op.notice tx.session.keyprov tx.strAddr g.digest := by
  obtain ⟨x, rfl⟩ := succeeded_iff.1 hres
  cases op <;> rfl

theorem told_answered_of_failed {res : AsyncResult Obj} (hres : res.succeeded = false) :
    (g.answered op res).told tx op = none := by
  obtain ⟨c, rfl⟩ := not_succeeded_iff.1 hres
  rfl

/-- The provider is to be told of what has been put, -/
theorem notice_of_put {p : KeyProvider} {digest : Option JString} {m m' : AsyncMap} {key : JString}
    {value : Obj} (h : op.call digest m' = some (.put m key value)) :
    op.notice p m'.name digest = some (.setKey p m.name key) := by
  cases op with
  | submit content =>
    obtain ⟨key', rfl, hput⟩ := Option.map_eq_some_iff.1 h
    cases hput
    rfl
  | set key' content =>
    cases h
    rfl
  | _ => exact nomatch h

/-- and of what has been removed. -/
theorem notice_of_remove {p : KeyProvider} {digest : Option JString} {m m' : AsyncMap}
    {key : JString} (h : op.call digest m' = some (.remove m key)) :
    op.notice p m'.name digest = some (.deleteKey p m.name key) := by
  cases op with
  | submit content =>
    obtain ⟨key', rfl, hput⟩ := Option.map_eq_some_iff.1 h
    exact nomatch hput
  | del key' =>
    cases h
    rfl
  | _ => exact nomatch h

/-- It is told of nothing else. -/
theorem notice_of_call {p : KeyProvider} {sa : JString} {digest : Option JString} {m : AsyncMap}
    {a : Act} (h : op.call digest m = some a) (hput : ∀ m key value, a ≠ .put m key value)
    (hremove : ∀ m key, a ≠ .remove m key) : op.notice p sa digest = none := by
  cases op with
  | submit content =>
    obtain ⟨key, -, rfl⟩ := Option.map_eq_some_iff.1 h
    exact (hput _ _ _ rfl).elim
  | set key content =>
    cases h
    exact (hput _ _ _ rfl).elim
  | del key =>
    cases h
    exact (hremove _ _ rfl).elim
  | _ => rfl

/-- What a transaction owes moves with its progress. -/
theorem told_step (hg : g.FindsOwn tx) {a : Act} {r : a.Res} (ha : allow tx op g a) :
    (g.step tx op a r).told tx op = owedAfter tx.session.keyprov (g.told tx op) a r := by
  have hanswered {res : AsyncResult Obj} {n : Option Act} (hcalls : g.Calls op a)
      (hn : op.notice tx.session.keyprov tx.strAddr g.digest = n) :
      (g.answered op res).told tx op = if res.succeeded then n else g.told tx op := by
    obtain ⟨map, hphase, -⟩ := hcalls
    cases hres : res.succeeded with
    | true => exact (told_answered hres).trans hn
    | false =>
      rw [told_answered_of_failed hres, told_of_phase (by rw [hphase]; exact nofun)]
      rfl
  have hsame (h : g.phase ≠ .notifying) (h' : (g.step tx op a r).phase ≠ .notifying) :
      (g.step tx op a r).told tx op = g.told tx op := by
    rw [told_of_phase h, told_of_phase h']
  cases a with
  -- a write, or a removal, is the one call after which the provider is told something
  | put m key value => exact hanswered ha (notice_of_put (hg.call ha).2)
  | remove m key => exact hanswered ha (notice_of_remove (hg.call ha).2)
  | clear | get | size =>
    obtain ⟨⟨map, hphase, -⟩, -, hcall⟩ := And.intro ha (hg.call ha)
    have hnone : g.told tx op = none := told_of_phase (by rw [hphase]; exact nofun)
    refine (hanswered ha (notice_of_call hcall nofun nofun)).trans ?_
    rw [hnone, ite_self]
    rfl
  | getKeys p sa =>
    obtain ⟨hphase, -, rfl, -⟩ := ha
    have hnone : g.told tx .getKeys = none := told_of_phase (by rw [hphase]; exact nofun)
    refine Eq.trans ?_ hnone.symm
    cases (r : AsyncResult Obj) <;> rfl
  | setKey | deleteKey => rfl
  | dirty txid =>
    refine hsame (by rw [ha.1]; exact nofun) ?_
    cases (r : Bool) <;> exact nofun
  | hook nxt tx' =>
    obtain ⟨⟨hooks, hphase | hphase⟩, -⟩ := ha
    · refine hsame (by rw [hphase]; exact nofun) ?_
      rw [step_hook_starting hphase]
      exact nofun
    · refine hsame (by rw [hphase]; exact nofun) ?_
      rw [step_hook_finishing hphase]
      exact nofun
  | getMap D sa =>
    refine hsame (by rw [ha.1]; exact nofun) ?_
    cases (r : AsyncResult AsyncMap) <;> exact nofun
  | checkFlags sessionid mode =>
    obtain ⟨⟨map, hphase⟩, -⟩ := ha
    refine hsame (by rw [hphase]; exact nofun) ?_
    rw [step_checkFlags hphase]
    split <;> exact nofun
  | digest bytes =>
    obtain ⟨⟨map, hphase⟩, -⟩ := ha
    refine hsame (by rw [hphase]; exact nofun) ?_
    show g.phase ≠ .notifying
    rw [hphase]
    exact nofun
  | publish e =>
    refine hsame (by rw [ha.1]; exact nofun) ?_
    show g.phase ≠ .notifying
    rw [ha.1]
    exact nofun
  | untrack | accessPut | accessPutIfAbsent | handle =>
    exact hsame (by rw [ha.1]; exact nofun) nofun
  | commit | newTx | op | cacheContains | cacheAdd | cacheRemove => exact ha.elim

/-- A transaction does nothing else while it owes a notification. -/
theorem tracking_allow (hg : g.FindsOwn tx) {a : Act} (ha : allow tx op g a) :
    (tracking tx.session).allow (g.told tx op) a := by
  have hcalls (hcalls : g.Calls op a) {m : AsyncMap} (hm : a.target = some m) :
      g.told tx op = none ∧ m.space = tx.session.D.space := by
    refine ⟨?_, ?_⟩
    · obtain ⟨map, hphase, -⟩ := hcalls
      exact told_of_phase (by rw [hphase]; exact nofun)
    · rcases Op.target_of_call (hg.call hcalls).2 with hnone | htarget
      · exact nomatch hnone.symm.trans hm
      · obtain rfl := Option.some.inj (htarget.symm.trans hm)
        rfl
  have hnotice (hphase : g.phase = .notifying)
      (hn : op.notice tx.session.keyprov tx.strAddr g.digest = some a) : g.told tx op = some a := by
    unfold told
    rw [hphase]
    exact hn
  cases a with
  | put | remove | clear => exact hcalls ha rfl
  | setKey p sa key =>
    refine ⟨?_, hnotice ha.1 ha.2⟩
    cases op with
    | submit content =>
      obtain ⟨key', -, hn⟩ := Option.map_eq_some_iff.1 ha.2
      cases hn
      rfl
    | set key' content =>
      cases ha.2
      rfl
    | _ => exact nomatch ha.2
  | deleteKey p sa key =>
    refine ⟨?_, hnotice ha.1 ha.2⟩
    cases op with
    | submit content =>
      obtain ⟨key', -, hn⟩ := Option.map_eq_some_iff.1 ha.2
      exact nomatch hn
    | del key' =>
      cases ha.2
      rfl
    | _ => exact nomatch ha.2
  | hook nxt tx' =>
    obtain ⟨⟨hooks, hphase⟩, rfl⟩ := ha
    refine ⟨told_of_phase ?_, rfl⟩
    rcases hphase with hphase | hphase <;> rw [hphase] <;> exact nofun
  | op => exact ha.elim
  | _ => trivial

end Progress

/-- A transaction owes nothing when it has ended. -/
theorem holds_run_tracking (tx : KvTx) (op : Op) :
    (tx.run op).Holds (tracking tx.session) (fun owed _ => owed = none) none := by
  refine (Progress.holds_run tx op).refine (fun g owed => g.FindsOwn tx ∧ owed = g.told tx op) ?_ ?_
    (fun _ _ _ _ _ => trivial) ?_ ⟨Progress.findsOwn_init, rfl⟩
  · rintro g owed a ⟨hg, rfl⟩ ha
    exact Progress.tracking_allow hg ha
  · rintro g owed a r owed' ⟨hg, rfl⟩ ha ⟨hlocated, rfl⟩
    exact ⟨_, rfl, hg.step ha hlocated, (Progress.told_step hg ha).symm⟩
  · rintro g owed res ⟨-, rfl⟩ hdone
    exact Progress.told_of_phase (by rw [hdone]; exact nofun)

theorem verified_tracking : (tracking s).Verified (trackedSem D) := by
  intro a q hb owed ha
  cases a with
  | hook h tx =>
    obtain ⟨rfl, rfl⟩ := ha
    cases h with
    | StoreMetaKVHook =>
      obtain rfl : StoreMetaKVHook.call tx = q := Option.some.inj hb
      exact (holds_call_tracking tx).mono fun _ _ howed => ⟨trivial, howed⟩
    | MapdbPostTXHook =>
      obtain rfl : MapdbPostTXHook.call = q := Option.some.inj hb
      exact ⟨trivial, fun _ _ hnext => ⟨trivial, hnext.2⟩⟩
    | other n type => exact nomatch hb
  | op tx o =>
    obtain ⟨rfl, rfl⟩ := ha
    obtain rfl : tx.run o = q := Option.some.inj hb
    exact (holds_run_tracking tx o).mono fun _ _ howed => ⟨trivial, howed⟩
  | _ => exact nomatch hb

/-! ## Runs -/

/-- A map is replaced, and what this owes is noted. -/
theorem Tracks.setMap (h : Tracks D none w) {m : AsyncMap} (hm : m.space = D.space) {c : KMap}
    (hself : c.keys = noted owed w.keySets m.name)
    (hother : ∀ sa, sa ≠ m.name → noted owed w.keySets sa = w.keySets sa) :
    Tracks D owed (w.setMap m c) := by
  obtain ⟨space, name⟩ := m
  obtain rfl : space = D.space := hm
  intro sa
  by_cases hsa : sa = name
  · subst hsa
    rw [World.map_setMap_self]
    exact hself
  · rw [World.map_setMap_of_ne (fun heq => hsa (congrArg AsyncMap.name heq).symm)]
    exact (h sa).trans (hother sa hsa).symm

/-- A map gets no new keys. -/
theorem Tracks.of_keys (h : Tracks D owed w) {m : AsyncMap} {c : KMap}
    (hm : m.space = D.space → c.keys = (w.map m).keys) : Tracks D owed (w.setMap m c) := by
  intro sa
  by_cases heq : m = ⟨D.space, sa⟩
  · subst heq
    rw [World.map_setMap_self, hm rfl]
    exact h sa
  · rw [World.map_setMap_of_ne heq]
    exact h sa

theorem keys_insert_of_mem {c : KMap} {key : JString} (h : key ∈ c) (value : Obj) :
    (c.insert key value).keys = c.keys := by
  rw [KMap.keys_insert, Finset.insert_eq_self]
  exact Finmap.mem_keys.2 h

/-- The key sets are those of the maps, but for what is owed, after every step. -/
theorem keeps_tracking (hkeeps : s.keyprov.keeps = true) :
    (tracking s).Keeps (trackedSem s.D) fun _ w owed => Tracks s.D owed w := by
  rintro tr w owed a r htracks hb ha ⟨hok, hnotified, htold⟩
  refine ⟨_, ⟨located_of_ok hok, rfl⟩, ?_⟩
  cases a with
  | put m key value =>
    obtain ⟨rfl, hm⟩ := ha
    cases (r : AsyncResult Obj) with
    | failedFuture c => exact htracks
    | succeededFuture x =>
      -- the notification is owed now
      show Tracks s.D (some (.setKey s.keyprov m.name key)) (w.setMap m _)
      refine htracks.setMap hm ?_ fun sa hsa => Function.update_of_ne hsa _ w.keySets
      obtain ⟨space, name⟩ := m
      obtain rfl : space = s.D.space := hm
      rw [KMap.keys_insert, htracks name]
      exact (Function.update_self name _ w.keySets).symm
  | remove m key =>
    obtain ⟨rfl, hm⟩ := ha
    cases (r : AsyncResult Obj) with
    | failedFuture c => exact htracks
    | succeededFuture x =>
      show Tracks s.D (some (.deleteKey s.keyprov m.name key)) (w.setMap m _)
      refine htracks.setMap hm ?_ fun sa hsa => Function.update_of_ne hsa _ w.keySets
      obtain ⟨space, name⟩ := m
      obtain rfl : space = s.D.space := hm
      rw [Finmap.keys_erase, htracks name]
      exact (Function.update_self name _ w.keySets).symm
  | clear m =>
    -- nobody is told: the map has to be empty already
    have hempty : w.map m = ∅ := htold.1 m rfl
    cases (r : AsyncResult Obj) with
    | failedFuture c => exact htracks
    | succeededFuture x => exact htracks.of_keys fun _ => by rw [hempty]
  | setKey p map key =>
    obtain ⟨rfl, rfl⟩ := ha
    obtain ⟨x, rfl⟩ := exists_of_cause (hnotified rfl)
    -- what was owed has reached the key sets
    intro sa
    simp only [trackedSem, sem, Sem.restrict, World.eff, World.modifyKeys, hkeeps]
    exact htracks sa
  | deleteKey p map key =>
    obtain ⟨rfl, rfl⟩ := ha
    obtain ⟨x, rfl⟩ := exists_of_cause (hnotified rfl)
    -- what was owed has reached the key sets
    intro sa
    simp only [trackedSem, sem, Sem.restrict, World.eff, World.modifyKeys, hkeeps]
    exact htracks sa
  | accessPut sa txid =>
    exact htracks.of_keys fun hm => keys_insert_of_mem (htold.2 sa rfl hm.symm) _
  | accessPutIfAbsent sa =>
    simp only [trackedSem, sem, Sem.restrict, World.eff]
    split_ifs with hmem
    · exact htracks
    · exact htracks.of_keys fun hm => absurd (htold.2 sa rfl hm.symm) hmem
  | _ => exact htracks

/-- A transaction, on a new transaction object. -/
theorem holds_transaction_tracking (c : Request) :
    c.transaction.Holds (tracking c.session) (fun owed _ => owed = none) none := by
  refine Prog.holds_bind.2 ?_
  unfold KvdnSession.newTx
  split_ifs
  · refine ⟨trivial, ?_⟩
    rintro tx owed' ⟨⟨hs, -⟩, rfl⟩
    rw [← hs]
    exact holds_run_tracking tx c.op
  · trivial

/-- In every run in which the notifications succeed, maps are cleared when they are empty
    only, and the access cache, if it is one of the maps, gets no new keys: after every
    transaction, the key sets of the provider are those of the maps. -/
theorem tracked {p : KeyProvider} {ts : List (Turn Request World (AsyncResult Obj))}
    (hkeeps : p.keeps = true) (h : (trackedSem D).Serial Request.transaction w ts w')
    (hts : ∀ t ∈ ts, t.call.session.D = D ∧ t.call.session.keyprov = p)
    (hw : ∀ sa, w.keySets sa = (w.map ⟨D.space, sa⟩).keys) :
    ∀ t ∈ ts, ∀ sa, t.after.keySets sa = (t.after.map ⟨D.space, sa⟩).keys := by
  have hstep (w : World) (c : Request) (tr : List Step) (w' : World) (res : AsyncResult Obj)
      (hw : Tracks D none w) (hc : c.session.D = D ∧ c.session.keyprov = p)
      (hruns : (trackedSem D).Runs w c.transaction tr w' (.ret res)) : Tracks D none w' := by
    obtain ⟨rfl, rfl⟩ := hc
    obtain ⟨owed, htracks, rfl⟩ := hruns.holds verified_tracking (keeps_tracking hkeeps)
      (t := []) hw (holds_transaction_tracking c)
    exact htracks
  exact fun t ht sa => (((h.inv hstep hts fun sa => (hw sa).symm).2 t ht).2 sa).symm

end

/-- A session over a data implementation and a provider from outside the repository, the
    provider keeping its own key sets. -/
def KvdnSession.outside (sessionid : ℕ) : KvdnSession where
  sessionid := sessionid
  D := .other 0
  keyprov := .other 0 true

/-- Operations of all kinds, a `clear` of an empty map among them. -/
def trackedCalls : List Request :=
  [⟨.outside 0, jstr "a", .set (jstr "k") (jstr "v")⟩, ⟨.outside 0, jstr "a", .submit (jstr "v")⟩,
    ⟨.outside 0, jstr "a", .get (jstr "k")⟩, ⟨.outside 0, jstr "a", .size⟩,
    ⟨.outside 0, jstr "a", .del (jstr "k")⟩, ⟨.outside 0, jstr "b", .clear⟩]

theorem tracked_calls :
    ∃ ts w, (trackedSem (.other 0)).Serial Request.transaction {} ts w ∧
      ts.map Turn.call = trackedCalls ∧ ts.map (fun t => t.after.keySets (jstr "a")) =
        [{jstr "k"}, {jstr "k", jstr "76"}, {jstr "k", jstr "76"}, {jstr "k", jstr "76"},
          {jstr "76"}, {jstr "76"}] ∧
      ∀ t ∈ ts, ∀ sa, t.after.keySets sa = (t.after.map ⟨.other 0, sa⟩).keys := by
  obtain ⟨ts, w, h, hcalls, hkeys⟩ := exists_serial (S := sem)
    (P := fun w a r => a.Notified r ∧ a.Told (.other 0) w) (p := Request.transaction) (w := {})
    (l := trackedCalls) (Q := fun ts _ => ts.map (fun t => t.after.keySets (jstr "a")) =
        [{jstr "k"}, {jstr "k", jstr "76"}, {jstr "k", jstr "76"}, {jstr "k", jstr "76"},
          {jstr "76"}, {jstr "76"}])
    World.ok_succeed 60 (by decide +kernel)
  refine ⟨ts, w, h, hcalls, hkeys, tracked (p := .other 0 true) rfl h (fun t ht => ?_) fun _ => rfl⟩
  have hmem : t.call ∈ trackedCalls := hcalls ▸ List.mem_map_of_mem ht
  have hall : ∀ c ∈ trackedCalls, c.session.D = .other 0 ∧ c.session.keyprov = .other 0 true := by
    decide
  exact hall _ hmem

/-- A value is set, and the map is cleared. -/
def setThenClear : List Request :=
  [⟨.outside 0, jstr "a", .set (jstr "k") (jstr "v")⟩, ⟨.outside 0, jstr "a", .clear⟩]

/-- All calls succeed, and the provider has a key that the map has not. -/
theorem not_tracked :
    ∃ ts w, succeedingSem.Serial Request.transaction {} ts w ∧ ts.map Turn.call = setThenClear ∧
      w.keySets (jstr "a") = {jstr "k"} ∧ (w.map ⟨.other 0, jstr "a"⟩).keys = ∅ :=
  exists_serial (S := sem) (P := fun _ a r => a.Succeeds r) (p := Request.transaction)
    (l := setThenClear) World.ok_succeed 60 (by decide +kernel)

end Kvdn
