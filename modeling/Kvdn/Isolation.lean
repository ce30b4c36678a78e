import Kvdn.Footprint
import Kvdn.HTTPServer

/-!
# Isolation of the addresses

The requests of the HTTP server act on the address their path names, which is joined from
two names. A transaction changes what is seen at its own address only (`apart`), whatever
else goes on: what is made through one address is not seen through another. Which pairs of
names have different addresses is another matter: the full stops are dropped, and the
token that joins the names is not escaped.

* `isolated`: names in which the token does not occur have different addresses, which are
  isolated from each other, and are none of those the session keeps for itself;
* `shared_address`: other names may share an address, or name the metadata map.
-/

namespace Kvdn

open Callback Callback.Sem AsyncResult

/-! ## What is seen at an address -/

/-- The name of the map, or of the key set, that an action may change. -/
def Act.changes : Act → Option JString
  | put m _ _ | remove m _ | clear m => some m.name
  | setKey _ map _ | deleteKey _ map _ => some map
  | accessPut _ _ | accessPutIfAbsent _ => some ACCESS_CACHE_LOC
  | _ => none

/-- The maps and the key set at an address are the same. -/
structure SameAt (sa : JString) (w w' : World) : Prop where
  maps : ∀ space, w'.maps space sa = w.maps space sa
  keySets : w'.keySets sa = w.keySets sa

/-- What a `get`, a `getKeys` or a `size` asks at an address. -/
def Act.Asks (sa : JString) : Act → Prop
  | get m _ | size m => m.name = sa
  | getKeys _ map => map = sa
  | _ => False

section

variable {sa : JString} {w w' : World} {a : Act} {r : a.Res}

theorem SameAt.refl (sa : JString) (w : World) : SameAt sa w w := ⟨fun _ => rfl, rfl⟩

theorem sameAt_setMap {m : AsyncMap} (h : m.name ≠ sa) (c : KMap) : SameAt sa w (w.setMap m c) :=
  ⟨fun space => World.map_setMap_of_ne (fun hm : m = ⟨space, sa⟩ => h (congrArg AsyncMap.name hm)) c,
    rfl⟩

theorem sameAt_modify {α : Type} {m : AsyncMap} (h : m.name ≠ sa) (r : AsyncResult α)
    (f : KMap → KMap) : SameAt sa w (w.modify m r f) := by
  unfold World.modify
  split
  · exact sameAt_setMap h _
  · exact .refl sa w

theorem sameAt_modifyKeys {α : Type} {p : KeyProvider} {map : JString} (h : map ≠ sa)
    (r : AsyncResult α) (f : Finset JString → Finset JString) :
    SameAt sa w (w.modifyKeys p map r f) := by
  unfold World.modifyKeys
  split
  · exact ⟨fun _ => rfl, Function.update_of_ne (Ne.symm h) ..⟩
  · exact .refl sa w

/-- An action changes what is seen at its own address only. -/
theorem sameAt_eff (h : a.changes ≠ some sa) : SameAt sa w (w.eff a r) := by
  have hname {name : JString} (hc : a.changes = some name) : name ≠ sa := by
    rintro rfl
    exact h hc
  cases a with
  | put | remove => exact sameAt_modify (hname rfl) ..
  | clear => exact sameAt_modify (hname rfl) r fun _ => ∅
  | setKey p map key => exact sameAt_modifyKeys (hname rfl) r (insert key)
  | deleteKey p map key => exact sameAt_modifyKeys (hname rfl) r (·.erase key)
  | accessPut => exact sameAt_setMap (hname rfl) _
  | accessPutIfAbsent =>
    simp only [World.eff]
    split
    · exact .refl sa w
    · exact sameAt_setMap (hname rfl) _
  | _ => exact ⟨fun _ => rfl, rfl⟩

/-- Where the same is seen, the same is answered. -/
theorem SameAt.ok_iff (h : SameAt sa w w') (ha : a.Asks sa) : w'.ok a r ↔ w.ok a r := by
  cases a with
  | get m key =>
    obtain ⟨space, name⟩ := m
    obtain rfl : name = sa := ha
    rw [World.ok, World.ok, World.map, World.map, h.maps space]
  | size m =>
    obtain ⟨space, name⟩ := m
    obtain rfl : name = sa := ha
    rw [World.ok, World.ok, World.map, World.map, h.maps space]
  | getKeys p map =>
    obtain rfl : map = sa := ha
    cases p <;> simp only [World.ok, h.maps, h.keySets]
  | _ => exact ha.elim

end

/-! ## Transactions on other addresses -/

/-- The outline of the transactions of a session that change nothing at an address. -/
def apart (s : KvdnSession) (sa : JString) : Outline Act.Res Exn Unit where
  allow _ a :=
    match a with
    | .hook _ tx => tx.session = s
    | .op tx o => tx.session = s ∧ (o.mutates = true → tx.strAddr ≠ sa)
    | a => a.changes ≠ some sa
  next _ a r _ := Located a r
  throws _ _ := True

section

variable {s : KvdnSession} {sa : JString} {tx : KvTx} {op : Op} {g : Progress}

/-- The metadata hook changes nothing but the metadata map. -/
theorem transparent_apart (hmeta : METADATA_MAP ≠ sa) :
    Transparent (apart s sa) s fun _ _ => True where
  refl _ := trivial
  trans _ _ _ _ _ := trivial
  allow _ a ha hn := by
    cases a with
    | op tx o =>
      refine ⟨hn.1, fun hmutates => ?_⟩
      cases o with
      | set | del => exact fun h => hmeta ((show tx.strAddr = METADATA_MAP from hn.2).symm.trans h)
      | submit | clear => exact hn.2.elim
      | get | getKeys | size => exact nomatch hmutates
    | hook => exact hn.elim
    | put | remove | clear | setKey | deleteKey | accessPut | accessPutIfAbsent => exact nomatch ha
    | _ => exact fun h => nomatch h
  next _ _ _ _ _ h := ⟨h, trivial⟩
  throws _ _ := trivial

/-- What a transaction changes, an operation that mutates changes, at the address. -/
theorem changes_of_allow (hg : g.FindsOwn tx) {a : Act} (ha : Progress.allow tx op g a) {name : JString}
    (hname : a.changes = some name) :
    name = ACCESS_CACHE_LOC ∨ (name = tx.strAddr ∧ op.mutates = true) := by
  have hcalls (hcalls : g.Calls op a) : name = tx.strAddr ∧ op.mutates = true := by
    obtain ⟨-, hcall⟩ := hg.call hcalls
    cases op with
    | submit content =>
      obtain ⟨key, -, rfl⟩ := Option.map_eq_some_iff.1 hcall
      exact ⟨(Option.some.inj hname).symm, rfl⟩
    | set | clear | del =>
      obtain rfl := Option.some.inj hcall
      exact ⟨(Option.some.inj hname).symm, rfl⟩
    | get | size =>
      obtain rfl := Option.some.inj hcall
      exact nomatch hname
    | getKeys => exact nomatch hcall
  have hnotice (hnotice : op.notice tx.session.keyprov tx.strAddr g.digest = some a) :
      name = tx.strAddr ∧ op.mutates = true := by
    cases op with
    | submit content =>
      obtain ⟨key, -, rfl⟩ := Option.map_eq_some_iff.1 hnotice
      exact ⟨(Option.some.inj hname).symm, rfl⟩
    | set | del =>
      obtain rfl := Option.some.inj hnotice
      exact ⟨(Option.some.inj hname).symm, rfl⟩
    | get | size | clear | getKeys => exact nomatch hnotice
  cases a with
  | put | remove | clear => exact .inr (hcalls ha)
  | setKey | deleteKey => exact .inr (hnotice ha.2)
  | accessPut | accessPutIfAbsent => exact .inl (Option.some.inj hname).symm
  | _ => exact nomatch hname

/-- A transaction that does not mutate, or is on another address. -/
theorem holds_run_apart (hsa : UserAddr sa) (h : op.mutates = true → tx.strAddr ≠ sa) :
    (tx.run op).Holds (apart tx.session sa) (fun _ _ => True) () := by
  refine (Progress.holds_run tx op).refine (fun g _ => g.FindsOwn tx) ?_
    (fun g _ a r _ hg ha hr => ⟨_, rfl, hg.step ha hr⟩) (fun _ _ _ _ _ => trivial)
    (fun _ _ _ _ _ => trivial) Progress.findsOwn_init
  intro g _ a hg ha
  have hchanges : a.changes ≠ some sa := by
    intro hname
    rcases changes_of_allow hg ha hname with haccess | ⟨haddr, hmutates⟩
    · exact hsa.2 haccess
    · exact h hmutates haddr.symm
  cases a with
  | hook nxt tx' =>
    obtain ⟨-, rfl⟩ := ha
    rfl
  | op => exact ha.elim
  | _ => exact hchanges

theorem verified_apart (hsa : UserAddr sa) : (apart s sa).Verified sem := by
  intro a q hb _ ha
  cases a with
  | hook h tx =>
    cases h with
    | StoreMetaKVHook =>
      obtain rfl : StoreMetaKVHook.call tx = q := Option.some.inj hb
      exact ((transparent_apart (Ne.symm hsa.1)).holds_call ha ()).mono fun _ _ _ => trivial
    | MapdbPostTXHook =>
      obtain rfl : MapdbPostTXHook.call = q := Option.some.inj hb
      exact ⟨nofun, fun _ _ _ => trivial⟩
    | other n type => exact nomatch hb
  | op tx o =>
    obtain rfl : tx.run o = q := Option.some.inj hb
    obtain ⟨rfl, hmutates⟩ := ha
    exact (holds_run_apart hsa hmutates).mono fun _ _ _ => trivial
  | _ => exact nomatch hb

/-- A request whose operation does not mutate, or is on another address. -/
theorem holds_transaction_apart {c : Request} (hsa : UserAddr sa)
    (h : c.op.mutates = true → c.strAddr ≠ sa) :
    c.transaction.Holds (apart c.session sa) (fun _ _ => True) () := by
  refine Prog.holds_bind.2 ?_
  unfold KvdnSession.newTx
  split_ifs
  · refine ⟨nofun, fun tx _ hlocated => ?_⟩
    obtain ⟨hs, haddr⟩ : tx.session = c.session ∧ tx.strAddr = c.strAddr := hlocated
    rw [← haddr] at h
    rw [← hs]
    exact holds_run_apart hsa h
  · trivial

/-- In every interleaving of transactions, a step of one that does not mutate, or is on
    another address, changes nothing at the address. -/
theorem sameAt_of_pool {ι : Type} [DecidableEq ι] {cs : ι → Request} {w₀ w : World}
    {tr : List (ι × Step)} {ps : ι → Prog (AsyncResult Obj)}
    (h : sem.Pool w₀ (fun i => (cs i).transaction) tr w ps) (hsa : UserAddr sa) {i : ι}
    (hi : (cs i).op.mutates = true → (cs i).strAddr ≠ sa) {a : Act} {r : a.Res}
    {k : a.Res → Prog (AsyncResult Obj)} (hact : ps i = .act a k) (hb : a.body = none) :
    SameAt sa w (w.eff a r) := by
  have hkeeps : (apart (cs i).session sa).Keeps sem fun _ _ _ => True :=
    fun _ _ _ _ _ _ _ _ hok => ⟨(), located_of_ok hok, trivial⟩
  obtain ⟨_, hp⟩ := h.holds_one (verified_apart hsa) hkeeps (holds_transaction_apart hsa hi)
  rw [hact] at hp
  have hallow := hp.1
  refine sameAt_eff ?_
  cases a with
  | hook nxt tx =>
    cases nxt with
    | other n type => exact nofun
    | _ => exact nomatch hb
  | op => exact nomatch hb
  | _ => exact hallow

end

/-! ## Addresses -/

/-- The token does not occur in a name that it follows, before its end: the end of the
    name is found again in what they are joined to. -/
def Delimited (token s : JString) : Prop := ∀ n < s.length, ¬token <+: (s ++ token).drop n

instance (token s : JString) : Decidable (Delimited token s) :=
  inferInstanceAs (Decidable (∀ n < s.length, ¬token <+: (s ++ token).drop n))

theorem Delimited.length_le {token s m s' m' : JString} (hs' : Delimited token s')
    (h : s ++ token ++ m = s' ++ token ++ m') : s'.length ≤ s.length := by
  by_contra hlt
  rw [not_le] at hlt
  refine hs' s.length hlt ?_
  have hdrop := congrArg (List.drop s.length) h
  rw [List.append_assoc, List.drop_left] at hdrop
  rw [List.drop_append_of_le_length (by simp; omega)] at hdrop
  refine List.prefix_of_prefix_length_le (List.prefix_append token m) ?_ (by simp; omega)
  rw [hdrop]
  exact List.prefix_append _ m'

/-- Names in which the token does not occur can be told from their address. -/
theorem Delimited.inj {token s m s' m' : JString} (hs : Delimited token s)
    (hs' : Delimited token s') (h : s ++ token ++ m = s' ++ token ++ m') : s = s' ∧ m = m' := by
  have hlength : s.length = s'.length := le_antisymm (hs.length_le h.symm) (hs'.length_le h)
  rw [List.append_assoc, List.append_assoc] at h
  obtain ⟨rfl, htail⟩ := List.append_inj h hlength
  exact ⟨rfl, List.append_cancel_left htail⟩

/-- An underscore. -/
def underscore : UInt16 := 0x5F

/-- The names of the maps the session keeps for itself begin with an underscore. -/
theorem userAddr_of_head {sa : JString} (h : sa.head? ≠ some underscore) : UserAddr sa := by
  constructor
  · rintro rfl
    exact h (by decide)
  · rintro rfl
    exact h (by decide)

/-! ## Requests -/

/-- The transactions performed, once a handler has run. -/
def Handling.calls (h : Handling Unit) (x : Exchange) : List ServiceCall :=
  match h x with
  | .ok _ x' | .error _ x' => x'.calls

theorem Exchange.calls_foldl_callBack (a : Reply) (cs : List ServiceCall) (x : Exchange) :
    (cs.foldl (Exchange.callBack a) x).calls = x.calls := by
  induction cs generalizing x with
  | nil => rfl
  | cons c cs ih =>
    rw [List.foldl_cons, ih]
    unfold Exchange.callBack
    cases c.resultHandler a.res x.response <;> rfl

/-- Neither the router nor the callbacks perform any other transaction. -/
theorem Router.calls_answer (router : Router) (a : Reply) (h : Handling Unit) :
    (router.answer a h).calls = h.calls {} := by
  unfold Router.answer Handling.calls
  cases h {} with
  | ok _ x =>
    simp only
    split_ifs
    · exact Exchange.calls_foldl_callBack a _ x
    · rfl
  | error e x =>
    simp only
    split_ifs
    · exact Exchange.calls_foldl_callBack a _ _
    · rfl

theorem Handling.calls_toHandling (m : Answering Unit) (x : Exchange) :
    Handling.calls m.toHandling x = x.calls := by
  unfold Handling.calls Answering.toHandling
  cases m x.response <;> rfl

theorem Handling.calls_perform (a : Reply) (c : ServiceCall) (x : Exchange) :
    Handling.calls (a.perform c) x =
      if c.request.session.initalized then x.calls ++ [c] else x.calls := by
  unfold Reply.perform
  by_cases hinit : c.request.session.initalized = true
  · rw [if_pos hinit, if_pos hinit]
    cases a.later with
    | true => rfl
    | false =>
      exact Handling.calls_toHandling (c.resultHandler a.res) { x with calls := x.calls ++ [c] }
  · rw [if_neg hinit, if_neg hinit]
    rfl

theorem Handling.calls_guarded (a : Reply) (catches : Option (Thrown → Body)) (c : ServiceCall)
    (x : Exchange) : Handling.calls (a.guarded catches c) x = Handling.calls (a.perform c) x := by
  cases catches with
  | none => rfl
  | some body =>
    unfold Handling.calls
    cases hp : a.perform c x with
    | ok _ x' => rw [guarded_of_ok hp]
    | error e x' =>
      rw [guarded_of_error hp]
      exact Handling.calls_toHandling _ x'

namespace HTTPServer

variable {server : HTTPServer} {s m s' m' : JString} {c : Request}

/-- The storage address of a pair of names. -/
def address (server : HTTPServer) (s m : JString) : JString :=
  server.straddr (filterName s) (filterName m)

/-- A transaction performed for a request of a data route whose path names `s` and `m`. -/
def Performs (server : HTTPServer) (s m : JString) (c : Request) : Prop :=
  ∃ (router : Router) (route : Route) (rc : RoutingContext) (randomUUID : JString) (a : Reply),
    route.Matches rc ∧ rc.getParam .str = some s ∧ rc.getParam .map = some m ∧
      ∃ call ∈ (router.answer a (route.handler server randomUUID a rc)).calls, call.request = c

/-- The handlers of all routes compute the same address. -/
theorem Performs.strAddr (h : server.Performs s m c) : c.strAddr = server.address s m := by
  obtain ⟨router, route, rc, randomUUID, a, hmatch, hs, hm, call, hcall, rfl⟩ := h
  have hperformed := Route.handler_eq server randomUUID a hmatch hs hm
  rw [router.calls_answer, Handling.calls, hperformed] at hcall
  cases hop : route.op randomUUID rc with
  | none =>
    rw [hop] at hcall
    have hrefused : call ∈ Handling.calls
        (HttpServerResponse.endStatus 400 route.refusal).toHandling {} := hcall
    rw [Handling.calls_toHandling] at hrefused
    exact nomatch hrefused
  | some o =>
    rw [hop] at hcall
    have hguarded : call ∈ Handling.calls (a.guarded route.catches ⟨⟨server.svc.session,
      server.address s m, o⟩, Route.resultHandler (filterName m) o⟩) {} := hcall
    rw [Handling.calls_guarded, Handling.calls_perform] at hguarded
    split_ifs at hguarded
    · obtain rfl := List.mem_singleton.1 hguarded
      rfl
    · exact nomatch hguarded

/-- Names in which the token does not occur have an address of their own, which is none of
    those the session keeps for itself if the first of them is there and does not begin
    with an underscore. And in all interleavings of any requests, a step of a request on
    another address, or of one that does not write, changes nothing that a `get`, a
    `getKeys` or a `size` answers. -/
theorem isolated {ι : Type} [DecidableEq ι] (server : HTTPServer) :
    (∀ s m s' m', Delimited server.token (filterName s) → Delimited server.token (filterName s') →
      (filterName s, filterName m) ≠ (filterName s', filterName m') →
        server.address s m ≠ server.address s' m') ∧
    (∀ s m, filterName s ≠ [] → (filterName s).head? ≠ some underscore →
      UserAddr (server.address s m)) ∧
    ∀ (names : ι → JString × JString) (cs : ι → Request) (w₀ w : World) (tr : List (ι × Step))
      (ps : ι → Prog (AsyncResult Obj)) (i : ι) (a : Act) (r : a.Res)
      (k : a.Res → Prog (AsyncResult Obj)) (s m : JString),
      (∀ i, server.Performs (names i).1 (names i).2 (cs i)) →
      sem.Pool w₀ (fun i => (cs i).transaction) tr w ps → ps i = .act a k → a.body = none →
      UserAddr (server.address s m) →
      ((cs i).op.mutates = true → server.address (names i).1 (names i).2 ≠ server.address s m) →
      ∀ b : Act, b.Asks (server.address s m) → ∀ r', (w.eff a r).ok b r' ↔ w.ok b r' := by
  refine ⟨fun s m s' m' hs hs' hne heq => ?_, fun s m hne hhead => ?_,
    fun names cs w₀ w tr ps i a r k s m hcs h hact hb hsa hi b hasks r' => ?_⟩
  · obtain ⟨hstr, hmap⟩ := hs.inj hs' heq
    exact hne (Prod.ext hstr hmap)
  · refine userAddr_of_head ?_
    obtain ⟨u, us, hus⟩ := List.exists_cons_of_ne_nil hne
    rw [hus] at hhead
    rw [address, straddr, hus]
    exact hhead
  · rw [← (hcs i).strAddr] at hi
    exact (sameAt_of_pool h hsa hi hact hb).ok_iff hasks

/-- A server of a node that is not clustered, without any configuration. -/
def inMemory : HTTPServer := { svc := ⟨.inMemory 0⟩ }

/-- A request whose path names `s`, `m` and `key`. -/
def request (s m key : JString) (body : Option JString) : RoutingContext where
  getParam
    | .str => some s
    | .map => some m
    | .key => some key
  getBodyAsString := body

/-- A transaction whose next action is to put a value. -/
def puts {α : Type} : Prog α → Bool
  | .act (.put _ _ _) _ => true
  | _ => false

theorem exists_of_puts {α : Type} {p : Prog α} (h : puts p = true) :
    ∃ m key value k, p = .act (.put m key value) k := by
  cases p with
  | act a k => cases a <;> first | exact ⟨_, _, _, _, rfl⟩ | cases h
  | ret | throw => cases h

/-- A `set` through one pair of names writes, and what is seen through another pair stays. -/
theorem isolated_set :
    let c : Request := ⟨.inMemory 0, inMemory.address (jstr "a") (jstr "b"),
      .set (jstr "k") (jstr "v")⟩
    inMemory.Performs (jstr "a") (jstr "b") c ∧ UserAddr (inMemory.address (jstr "c") (jstr "d")) ∧
      ∃ tr w ps m key value k, sem.Pool {} (fun _ : Unit => c.transaction) tr w ps ∧
        ps () = .act (.put m key value) k ∧
          ∀ b : Act, b.Asks (inMemory.address (jstr "c") (jstr "d")) → ∀ r',
            (w.eff (.put m key value) (succeededFuture .null)).ok b r' ↔ w.ok b r' := by
  intro c
  obtain ⟨hdistinct, huser, hstep⟩ := isolated (ι := Unit) inMemory
  have hperforms : inMemory.Performs (jstr "a") (jstr "b") c :=
    ⟨.plain, .set, request (jstr "a") (jstr "b") (jstr "k") (some (jstr "v")), [],
      ⟨succeededFuture .null, true⟩, by decide, rfl, rfl, _, List.mem_singleton_self _, rfl⟩
  have haddr : UserAddr (inMemory.address (jstr "c") (jstr "d")) :=
    huser _ _ (by decide) (by decide)
  have hpool := pool_schedule_init (S := sem) World.ok_succeed {} (fun _ : Unit => c.transaction)
    (List.replicate 4 ())
  obtain ⟨m, key, value, k, hact⟩ : ∃ m key value k, (sem.schedule World.succeed
      (List.replicate 4 ()) ([], {}, fun _ : Unit => c.transaction)).2.2 () =
        .act (.put m key value) k :=
    exists_of_puts (by decide +kernel)
  refine ⟨hperforms, haddr, _, _, _, m, key, value, k, hpool, hact, ?_⟩
  refine hstep (fun _ => (jstr "a", jstr "b")) (fun _ => c) _ _ _ _ () _ _ k _ _
    (fun _ => hperforms) hpool hact rfl haddr fun _ => ?_
  exact hdistinct _ _ _ _ (by decide) (by decide) (by decide)

/-- Different pairs of names may share an address, and name the maps of the session. -/
theorem shared_address :
    (∃ c, inMemory.Performs (jstr "a_b") (jstr "c") c ∧ inMemory.Performs (jstr "a") (jstr "b_c") c) ∧
    (∃ c, inMemory.Performs (jstr "a.b") (jstr "c") c ∧ inMemory.Performs (jstr "ab") (jstr "c") c) ∧
    (∃ c, inMemory.Performs (jstr "_") (jstr "METADATA_MAP") c ∧ c.strAddr = METADATA_MAP) ∧
    ∃ c, inMemory.Performs (jstr "_") (jstr "KVDN_ACCESS_CACHE") c ∧ c.strAddr = ACCESS_CACHE_LOC := by
  have hdel (s m : JString) :
      inMemory.Performs s m ⟨.inMemory 0, inMemory.address s m, .del (jstr "k")⟩ :=
    ⟨.plain, .del, request s m (jstr "k") none, [], ⟨succeededFuture .null, true⟩,
      fun p _ => by cases p <;> exact Option.some_ne_none _, rfl, rfl, _,
      List.mem_singleton_self _, rfl⟩
  refine ⟨⟨_, hdel (jstr "a_b") (jstr "c"), ?_⟩, ⟨_, hdel (jstr "a.b") (jstr "c"), ?_⟩,
    ⟨_, hdel _ _, by decide⟩, ⟨_, hdel _ _, by decide⟩⟩
  · have haddr : inMemory.address (jstr "a_b") (jstr "c") = inMemory.address (jstr "a") (jstr "b_c") := by
      decide
    exact haddr ▸ hdel (jstr "a") (jstr "b_c")
  · have haddr : inMemory.address (jstr "a.b") (jstr "c") = inMemory.address (jstr "ab") (jstr "c") := by
      decide
    exact haddr ▸ hdel (jstr "ab") (jstr "c")

end HTTPServer

end Kvdn
