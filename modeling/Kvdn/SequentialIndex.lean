import Kvdn.Callback.Serial
import Kvdn.Index
import Kvdn.Stage
import Kvdn.Store

/-!
# The metadata index across sessions

Any number of sessions over one store, whose transactions succeed and are run one
after the other. The metadata hook of a session believes its own cache: a cached
address is taken to be in the index, and one that is not cached to be absent from
it, so that it adds the address to the index without looking in the first case and
leaves it there in the second.

`Stage.Means` is what the stages of a transaction running alone say of its address.

* `indexes_iff`: the index is right after every transaction if, and only if, no
  transaction is misled by the cache of its session;
* `del_through_other`: a transaction of another session than the one that has
  written the values is.
-/

namespace Kvdn

open Callback Callback.Prog Callback.Sem AsyncResult

/-- The map of an address is not empty once the operation has been performed. -/
def World.Remains (w : World) (D : KVData) (sa : JString) (op : Op) : Prop :=
  (op.apply w.md5 (w.map ⟨D.space, sa⟩)).1 ≠ ∅

instance (w : World) (D : KVData) (sa : JString) (op : Op) : Decidable (w.Remains D sa op) :=
  inferInstanceAs (Decidable (_ ≠ _))

theorem World.remains_of_not_deletes {w : World} {D : KVData} {sa : JString} {op : Op}
    (hop : op.mutates = true) (hd : op.deletes = false) : w.Remains D sa op := by
  cases op with
  | submit | set => exact KMap.insert_ne_empty _ _ _
  | clear | del => exact nomatch hd
  | get | getKeys | size => exact nomatch hop

theorem World.stored_of_remains {w : World} {D : KVData} {sa : JString} {op : Op}
    (hd : op.deletes = true) (h : w.Remains D sa op) : w.Stored D sa := by
  intro hempty
  cases op with
  | del key => exact h (by rw [hempty]; exact KMap.erase_empty key)
  | clear => exact h rfl
  | _ => exact nomatch hd

namespace Stage

/-- What the stages of a transaction running alone from the world `w₀` say of its
    address `sa`. -/
def Means (s : KvdnSession) (sa : JString) (op : Op) (w₀ w : World) : Stage → Prop
  | before => w.map ⟨s.D.space, sa⟩ = w₀.map ⟨s.D.space, sa⟩ ∧
    (w.Indexed s.D sa ↔ w₀.Indexed s.D sa) ∧ (w.Cached s sa ↔ w₀.Cached s sa)
  | written | erased => (w.Stored s.D sa ↔ w₀.Remains s.D sa op) ∧
    (w.Indexed s.D sa ↔ w₀.Indexed s.D sa) ∧ (w.Cached s sa ↔ w₀.Cached s sa)
  | missed => (w.Stored s.D sa ↔ w₀.Remains s.D sa op) ∧ ¬w₀.Cached s sa ∧ op.deletes = false
  | listed => (w.Stored s.D sa ↔ w₀.Remains s.D sa op) ∧ w.Indexed s.D sa ∧
    ¬w₀.Cached s sa ∧ op.deletes = false
  | hit => (w.Stored s.D sa ↔ w₀.Remains s.D sa op) ∧
    (w.Indexed s.D sa ↔ w₀.Indexed s.D sa) ∧ w₀.Cached s sa ∧ op.deletes = true
  | empty => (w.Stored s.D sa ↔ w₀.Remains s.D sa op) ∧ w₀.Cached s sa ∧
    ¬w₀.Remains s.D sa op ∧ op.deletes = true
  | unlisted => (w.Stored s.D sa ↔ w₀.Remains s.D sa op) ∧ ¬w.Indexed s.D sa ∧
    w₀.Cached s sa ∧ ¬w₀.Remains s.D sa op ∧ op.deletes = true
  | settled => (w.Stored s.D sa ↔ w₀.Remains s.D sa op) ∧ (w.Indexed s.D sa ↔
    if op.deletes then w₀.Indexed s.D sa ∧ (w₀.Cached s sa → w₀.Remains s.D sa op)
    else w₀.Cached s sa → w₀.Indexed s.D sa)

/-- Only the contents of the map, the index and the cache matter. -/
theorem Means.of_same {s : KvdnSession} {sa : JString} {op : Op} {w₀ w w' : World} {st : Stage}
    (h : Means s sa op w₀ w st) (hmap : w'.map ⟨s.D.space, sa⟩ = w.map ⟨s.D.space, sa⟩)
    (hindexed : w'.Indexed s.D sa ↔ w.Indexed s.D sa) (hcached : w'.Cached s sa ↔ w.Cached s sa) :
    Means s sa op w₀ w' st := by
  have hstored : w'.Stored s.D sa ↔ w.Stored s.D sa := by rw [World.Stored, World.Stored, hmap]
  cases st <;> simpa only [Means, hmap, hstored, hindexed, hcached] using h

end Stage

variable {S : Setting} {tx : KvTx} {op : Op} {w w₀ : World} {st : Stage}

/-- What is known of a transaction running alone from the world `w₀`. -/
structure Solo (S : Setting) (tx : KvTx) (op : Op) (w₀ w : World) (st : Stage) : Prop where
  md5 : w.md5 = S.md5
  uuids : S.uuids ≤ w.uuids
  means : st.Means S.session tx.strAddr op w₀ w
  others : ∀ sa, UserAddr sa → sa ≠ tx.strAddr →
    (w.Stored S.session.D sa ↔ w₀.Stored S.session.D sa) ∧
    (w.Indexed S.session.D sa ↔ w₀.Indexed S.session.D sa)

namespace Solo

theorem of_means (h : Solo S tx op w₀ w st) {a : Act} {r : a.Res} {st' : Stage}
    (hmeans : st'.Means S.session tx.strAddr op w₀ (w.eff a r))
    (hothers : ∀ sa, UserAddr sa → sa ≠ tx.strAddr →
      ((w.eff a r).Stored S.session.D sa ↔ w.Stored S.session.D sa) ∧
      ((w.eff a r).Indexed S.session.D sa ↔ w.Indexed S.session.D sa)) :
    Solo S tx op w₀ (w.eff a r) st' := by
  refine ⟨by rw [World.md5_eff, h.md5], h.uuids.trans World.uuids_le_eff, hmeans, ?_⟩
  intro sa hsa hne
  rw [(hothers sa hsa hne).1, (hothers sa hsa hne).2]
  exact h.others sa hsa hne

/-- A step which changes neither map nor index, but may move the stage. -/
theorem check (h : Solo S tx op w₀ w st) {a : Act} {r : a.Res} {st' : Stage} (heff : w.eff a r = w)
    (hmeans : st'.Means S.session tx.strAddr op w₀ w) : Solo S tx op w₀ (w.eff a r) st' := by
  refine h.of_means (by rw [heff]; exact hmeans) fun sa _ _ => ?_
  rw [heff]
  exact ⟨Iff.rfl, Iff.rfl⟩

/-- The other steps do not matter. -/
theorem stutter (h : Solo S tx op w₀ w st) (htx : UserAddr tx.strAddr) {a : Act} {r : a.Res}
    (hst : st.next op a r = st) (htarget : a.target = none ∨ a.target = some World.accessCache)
    (hadd : ∀ tx, a ≠ .cacheAdd tx) (hremove : ∀ tx, a ≠ .cacheRemove tx) :
    Solo S tx op w₀ (w.eff a r) (st.next op a r) := by
  obtain ⟨hsame, -⟩ := World.unchanged_eff_of_target (D := S.session.D) (s := S.session)
    (w := w) (r := r) htarget hadd hremove
  rw [hst]
  obtain ⟨hmap, hindexed, hcached⟩ := hsame _ htx
  refine h.of_means (h.means.of_same hmap hindexed hcached) fun sa hsa _ => ?_
  obtain ⟨hmap, hindexed, -⟩ := hsame sa hsa
  exact ⟨by rw [World.Stored, World.Stored, hmap], hindexed⟩

/-- The call of the transaction. -/
theorem call (h : Solo S tx op w₀ w st) (hw₀ : w₀.md5 = S.md5) (htx : UserAddr tx.strAddr) {a : Act}
    {r : a.Res} {x : Obj} (ha : Stage.Calls S tx op st a) (hok : w.ok a r)
    (hr : a.answer r = some (succeededFuture x)) (hadd : ∀ tx, a ≠ .cacheAdd tx)
    (hremove : ∀ tx, a ≠ .cacheRemove tx) : Solo S tx op w₀ (w.eff a r) (st.next op a r) := by
  obtain ⟨rfl, hcall⟩ := ha
  obtain ⟨hmap, hindexed, hcached⟩ := h.means
  rw [← h.md5] at hcall
  have hmap' := (Op.apply_of_call hcall hok hr).1
  rw [hmap, h.md5, ← hw₀] at hmap'
  have htarget {sa : JString} (hsa : sa ≠ tx.strAddr) :
      a.target ≠ some ⟨S.session.D.space, sa⟩ := by
    rcases Op.target_of_call hcall with ht | ht
    · rw [ht]
      exact nofun
    · rw [ht]
      exact fun hm => hsa (congrArg AsyncMap.name (Option.some.inj hm)).symm
  have hmeta (sa : JString) : (w.eff a r).Indexed S.session.D sa ↔ w.Indexed S.session.D sa :=
    World.indexed_eff_of_ne (htarget htx.1.symm)
  rw [Stage.next_before_of_reply (Act.reply_of_answer hr)]
  refine h.of_means ?_ fun sa _ hne => ⟨World.stored_eff_of_ne (htarget hne), hmeta sa⟩
  have hmeans : ((w.eff a r).Stored S.session.D tx.strAddr ↔
      w₀.Remains S.session.D tx.strAddr op) ∧
      ((w.eff a r).Indexed S.session.D tx.strAddr ↔ w₀.Indexed S.session.D tx.strAddr) ∧
      ((w.eff a r).Cached S.session tx.strAddr ↔ w₀.Cached S.session tx.strAddr) :=
    ⟨by rw [World.Stored, hmap', World.Remains], (hmeta _).trans hindexed,
      (World.cached_eff hadd hremove).trans hcached⟩
  cases hd : op.deletes with
  | true => rw [Stage.changed_of_deletes hd]; exact hmeans
  | false => rw [Stage.changed_of_not_deletes hd]; exact hmeans

/-- The address is added to the index. -/
theorem list (h : Solo S tx op w₀ w st) (htx : UserAddr tx.strAddr) {value x : Obj}
    (hst : st = .missed) :
    Solo S tx op w₀ (w.eff (.put ⟨S.session.D.space, METADATA_MAP⟩ tx.strAddr value)
      (succeededFuture x)) .listed := by
  subst hst
  obtain ⟨hstored, hcached⟩ := h.means
  let w' := w.eff (.put ⟨S.session.D.space, METADATA_MAP⟩ tx.strAddr value) (succeededFuture x)
  have hput (sa : JString) : w'.Indexed S.session.D sa ↔ sa = tx.strAddr ∨ w.Indexed S.session.D sa :=
    World.indexed_put value x
  have hkeep {sa : JString} (hsa : UserAddr sa) : w'.Stored S.session.D sa ↔ w.Stored S.session.D sa :=
    World.stored_eff_of_ne fun hm => hsa.1 (congrArg AsyncMap.name (Option.some.inj hm)).symm
  exact h.of_means ⟨(hkeep htx).trans hstored, (hput _).2 (.inl rfl), hcached⟩
    fun sa hsa hne => ⟨hkeep hsa, (hput sa).trans (or_iff_right hne)⟩

/-- The address is removed from the index. -/
theorem unlist (h : Solo S tx op w₀ w st) (htx : UserAddr tx.strAddr) {x : Obj}
    (hst : st = .empty) :
    Solo S tx op w₀ (w.eff (.remove ⟨S.session.D.space, METADATA_MAP⟩ tx.strAddr)
      (succeededFuture x)) .unlisted := by
  subst hst
  obtain ⟨hstored, hcached⟩ := h.means
  let w' := w.eff (.remove ⟨S.session.D.space, METADATA_MAP⟩ tx.strAddr) (succeededFuture x)
  have hremove (sa : JString) :
      w'.Indexed S.session.D sa ↔ sa ≠ tx.strAddr ∧ w.Indexed S.session.D sa :=
    World.indexed_remove x
  have hkeep {sa : JString} (hsa : UserAddr sa) : w'.Stored S.session.D sa ↔ w.Stored S.session.D sa :=
    World.stored_eff_of_ne fun hm => hsa.1 (congrArg AsyncMap.name (Option.some.inj hm)).symm
  exact h.of_means ⟨(hkeep htx).trans hstored, fun hx => ((hremove _).1 hx).1 rfl, hcached⟩
    fun sa hsa hne => ⟨hkeep hsa, (hremove sa).trans (and_iff_right hne)⟩

theorem put (h : Solo S tx op w₀ w st) (hw₀ : w₀.md5 = S.md5) (htx : UserAddr tx.strAddr)
    {m : AsyncMap} {key : JString} {value : Obj} {res : AsyncResult Obj}
    (ha : Stage.allow S tx op st (.put m key value)) (hres : res.cause.isSome = false) :
    Solo S tx op w₀ (w.eff (.put m key value) res) (st.next op (.put m key value) res) := by
  obtain ⟨x, rfl⟩ := exists_of_cause hres
  rcases ha with hcall | ⟨hst, rfl, rfl⟩
  · exact h.call hw₀ htx hcall trivial rfl (fun _ => nofun) fun _ => nofun
  · have hnext : st.next op (.put ⟨S.session.D.space, METADATA_MAP⟩ tx.strAddr value)
        (succeededFuture x) = .listed := by rw [hst, Stage.next_of_reply rfl rfl]; rfl
    rw [hnext]
    exact h.list htx hst

theorem remove (h : Solo S tx op w₀ w st) (hw₀ : w₀.md5 = S.md5) (htx : UserAddr tx.strAddr)
    {m : AsyncMap} {key : JString} {res : AsyncResult Obj}
    (ha : Stage.allow S tx op st (.remove m key)) (hres : res.cause.isSome = false) :
    Solo S tx op w₀ (w.eff (.remove m key) res) (st.next op (.remove m key) res) := by
  obtain ⟨x, rfl⟩ := exists_of_cause hres
  rcases ha with hcall | ⟨hst, rfl, rfl⟩
  · exact h.call hw₀ htx hcall trivial rfl (fun _ => nofun) fun _ => nofun
  · have hnext : st.next op (.remove ⟨S.session.D.space, METADATA_MAP⟩ tx.strAddr)
        (succeededFuture x) = .unlisted := by rw [hst, Stage.next_of_reply rfl rfl]; rfl
    rw [hnext]
    exact h.unlist htx hst

/-- The cache is asked for the address. -/
theorem cacheContains (h : Solo S tx op w₀ w st) (hs : tx.session = S.session)
    {tx' : KvTx} {cached : Bool}
    (ha : Stage.allow S tx op st (.cacheContains tx')) (hok : w.ok (.cacheContains tx') cached) :
    Solo S tx op w₀ (w.eff (.cacheContains tx') cached)
      (st.next op (.cacheContains tx') cached) := by
  obtain ⟨hst, rfl⟩ := ha
  have hcached : cached = true ↔ w.Cached S.session tx.strAddr := by
    rw [show cached = decide _ from hok, decide_eq_true_iff, World.Cached, ← hs]
    rfl
  refine h.check rfl ?_
  cases hd : op.deletes with
  | true =>
    rw [Stage.changed_of_deletes hd] at hst
    subst hst
    obtain ⟨hstored, hindexed, hcache⟩ := h.means
    rw [hcache] at hcached
    cases cached with
    | true => exact ⟨hstored, hindexed, hcached.1 rfl, hd⟩
    | false =>
      have hmiss : ¬w₀.Cached S.session tx.strAddr := fun hc => by cases hcached.2 hc
      refine ⟨hstored, hindexed.trans ?_⟩
      simp [hd, hmiss]
  | false =>
    rw [Stage.changed_of_not_deletes hd] at hst
    subst hst
    obtain ⟨hstored, hindexed, hcache⟩ := h.means
    rw [hcache] at hcached
    cases cached with
    | true =>
      refine ⟨hstored, hindexed.trans ?_⟩
      simp [hd, hcached.1 rfl]
    | false => exact ⟨hstored, fun hc => (by cases hcached.2 hc), hd⟩

/-- The map is asked for its size. -/
theorem size (h : Solo S tx op w₀ w st) {m : AsyncMap} {res : AsyncResult Obj}
    (ha : Stage.allow S tx op st (.size m))
    (hres : res.cause.isSome = false) (hok : w.ok (.size m) res) :
    Solo S tx op w₀ (w.eff (.size m) res) (st.next op (.size m) res) := by
  obtain ⟨x, rfl⟩ := exists_of_cause hres
  obtain ⟨rfl, rfl⟩ := ha
  obtain rfl : x = .int (w.map ⟨S.session.D.space, tx.strAddr⟩).keys.card := hok
  obtain ⟨hstored, hindexed, hcached, hd⟩ := h.means
  refine h.check rfl ?_
  rw [Stage.next_of_reply rfl rfl, Stage.replied]
  by_cases hempty : w.map ⟨S.session.D.space, tx.strAddr⟩ = ∅
  · rw [if_pos (by rw [hempty]; rfl)]
    exact ⟨hstored, hcached, fun hr => hstored.2 hr hempty, hd⟩
  · have hcard := mt KMap.card_keys_eq_zero.1 hempty
    rw [if_neg (by simpa using hcard)]
    refine ⟨hstored, hindexed.trans ?_⟩
    simp [hd, hstored.1 hempty]

theorem cacheAdd (h : Solo S tx op w₀ w st) {tx' : KvTx} {r : Unit}
    (ha : Stage.allow S tx op st (.cacheAdd tx')) :
    Solo S tx op w₀ (w.eff (.cacheAdd tx') r) (st.next op (.cacheAdd tx') r) := by
  obtain ⟨rfl, rfl⟩ := ha
  obtain ⟨hstored, hindexed, hcached, hd⟩ := h.means
  refine h.of_means ⟨hstored, iff_of_true hindexed ?_⟩ fun sa _ _ => ⟨Iff.rfl, Iff.rfl⟩
  simp [hd, hcached]

theorem cacheRemove (h : Solo S tx op w₀ w st) {tx' : KvTx} {r : Unit}
    (ha : Stage.allow S tx op st (.cacheRemove tx')) :
    Solo S tx op w₀ (w.eff (.cacheRemove tx') r) (st.next op (.cacheRemove tx') r) := by
  obtain ⟨rfl, rfl⟩ := ha
  obtain ⟨hstored, hindexed, hcached, hremains, hd⟩ := h.means
  refine h.of_means ⟨hstored, iff_of_false hindexed ?_⟩ fun sa _ _ => ⟨Iff.rfl, Iff.rfl⟩
  simp [hd, hcached, hremains]

theorem step (h : Solo S tx op w₀ w st) (hw₀ : w₀.md5 = S.md5) (htx : UserAddr tx.strAddr)
    (hs : tx.session = S.session) {a : Act} {r : a.Res} (hb : sem.body a = none)
    (ha : Stage.allow S tx op st a) (hok : w.ok a r) (hc : a.Succeeds r) :
    Solo S tx op w₀ (w.eff a r) (st.next op a r) := by
  cases a with
  | put => exact h.put hw₀ htx ha (hc rfl)
  | remove => exact h.remove hw₀ htx ha (hc rfl)
  | clear m =>
    obtain ⟨x, rfl⟩ := exists_of_cause (hc rfl)
    exact h.call hw₀ htx ha trivial rfl (fun _ => nofun) fun _ => nofun
  | size => exact h.size ha (hc rfl) hok
  | cacheContains => exact h.cacheContains hs ha hok
  | cacheAdd => exact h.cacheAdd ha
  | cacheRemove => exact h.cacheRemove ha
  | get | getKeys => exact ha.elim
  | op => exact nomatch hb
  | hook nxt tx' =>
    cases nxt with
    | other =>
      exact h.stutter htx (Stage.next_of_reply_eq_none rfl (fun _ => nofun) (fun _ => nofun)
        (fun _ => nofun) fun _ => nofun) (.inl rfl) (fun _ => nofun) fun _ => nofun
    | _ => exact nomatch hb
  | accessPut | accessPutIfAbsent =>
    exact h.stutter htx (Stage.next_of_reply_eq_none rfl (fun _ => nofun) (fun _ => nofun)
      (fun _ => nofun) fun _ => nofun) (.inr rfl) (fun _ => nofun) fun _ => nofun
  | getMap D sa =>
    obtain ⟨map, rfl⟩ := exists_of_cause (hc rfl)
    exact h.stutter htx (Stage.next_of_reply_eq_none rfl (fun _ => nofun) (fun _ => nofun)
      (fun _ => nofun) fun _ => nofun) (.inl rfl) (fun _ => nofun) fun _ => nofun
  | _ =>
    exact h.stutter htx (Stage.next_of_reply_eq_none rfl (fun _ => nofun) (fun _ => nofun)
      (fun _ => nofun) fun _ => nofun) (.inl rfl) (fun _ => nofun) fun _ => nofun

end Solo

/-- What a whole transaction, which succeeds, makes of the map and of the index. -/
theorem solo_of_runs {w w' : World} {tr : List Step} {res : AsyncResult Obj} (hready : tx.session.Ready)
    (htx : UserAddr tx.strAddr) (hop : op.mutates = true)
    (h : succeedingSem.Runs w (tx.run op) tr w' (.ret res)) :
    Solo ⟨tx.session, w.md5, 0⟩ tx op w w' .settled := by
  let S : Setting := ⟨tx.session, w.md5, 0⟩
  have hinit : Solo S tx op w w .before :=
    ⟨rfl, Nat.zero_le _, ⟨rfl, Iff.rfl, Iff.rfl⟩, fun _ _ _ => ⟨Iff.rfl, Iff.rfl⟩⟩
  -- alone, what the hook has seen is still so when it acts on it
  have hkeeps : (Stage.outline S tx op).Keeps succeedingSem fun _ w' st => Solo S tx op w w' st :=
    fun _ _ _ a r hInv hb ha ⟨hok, hc⟩ => ⟨_, ⟨known_of_ok (.inr hc) hInv.md5 hInv.uuids hok, rfl⟩,
      hInv.step rfl htx rfl hb ha hok hc⟩
  have hverified : (Stage.outline S tx op).Verified succeedingSem :=
    Stage.verified (S := S) hready rfl hop
  obtain ⟨st, hsolo, hst⟩ := h.holds hverified hkeeps (t := []) hinit
    (Stage.holds_run (S := S) hready htx rfl hop)
  obtain rfl : st = .settled := hst
  exact hsolo

/-! ## Sessions -/

/-- The index lists the addresses of the clients whose maps are not empty. -/
def World.IndexCorrect (w : World) (D : KVData) : Prop :=
  ∀ sa, UserAddr sa → (w.Indexed D sa ↔ w.Stored D sa)

/-- The cache of the session does not mislead its metadata hook: it does not have an
    address to which the operation writes, but which is not in the index; and it has
    an address in the index if the operation makes its map empty. -/
def World.Informed (w : World) (c : Request) : Prop :=
  if c.op.deletes then w.Indexed c.session.D c.strAddr → ¬w.Remains c.session.D c.strAddr c.op →
    w.Cached c.session c.strAddr
  else w.Cached c.session c.strAddr → w.Indexed c.session.D c.strAddr

instance (w : World) (c : Request) : Decidable (w.Informed c) :=
  inferInstanceAs (Decidable (ite ..))

/-- A request of a client, to change a map of the store `D`. -/
structure Request.Changes (D : KVData) (c : Request) : Prop where
  ready : c.session.Ready
  store : c.session.D = D
  address : UserAddr c.strAddr
  mutates : c.op.mutates = true

/-- A transaction keeps the index right if, and only if, it is not misled. -/
theorem indexCorrect_iff {D : KVData} {c : Request} {w w' : World} {tr : List Step}
    {res : AsyncResult Obj} (hw : w.IndexCorrect D) (hc : c.Changes D)
    (h : succeedingSem.Runs w c.transaction tr w' (.ret res)) :
    w'.IndexCorrect D ↔ w.Informed c := by
  obtain ⟨hready, rfl, hsa, hop⟩ := hc
  rw [Request.transaction_eq hready.initalized] at h
  obtain ⟨tx, tr', -, ⟨rfl, -⟩, hruns⟩ := h.of_act rfl trivial
  have hsolo := solo_of_runs hready hsa hop hruns
  obtain ⟨hstored, hindexed⟩ : (w'.Stored c.session.D c.strAddr ↔
      w.Remains c.session.D c.strAddr c.op) ∧ (w'.Indexed c.session.D c.strAddr ↔
      if c.op.deletes then w.Indexed c.session.D c.strAddr ∧
        (w.Cached c.session c.strAddr → w.Remains c.session.D c.strAddr c.op)
      else w.Cached c.session c.strAddr → w.Indexed c.session.D c.strAddr) := hsolo.means
  -- the other addresses are as before
  have hothers : w'.IndexCorrect c.session.D ↔
      (w'.Indexed c.session.D c.strAddr ↔ w'.Stored c.session.D c.strAddr) := by
    refine ⟨fun h => h _ hsa, fun h sa hsa' => ?_⟩
    by_cases heq : sa = c.strAddr
    · rw [heq]
      exact h
    · obtain ⟨hs, hi⟩ := hsolo.others sa hsa' heq
      exact hi.trans ((hw sa hsa').trans hs.symm)
  rw [hothers, hstored, hindexed, World.Informed]
  cases hd : c.op.deletes with
  | false => simp [World.remains_of_not_deletes hop hd]
  | true =>
    have hremains (hr : w.Remains c.session.D c.strAddr c.op) :
        w.Indexed c.session.D c.strAddr := (hw _ hsa).2 (World.stored_of_remains hd hr)
    simp only [if_true]
    constructor
    · intro h hi hr
      by_contra hc
      exact hr (h.1 ⟨hi, fun hc' => absurd hc' hc⟩)
    · intro h
      refine ⟨fun ⟨hi, hr⟩ => ?_, fun hr => ⟨hremains hr, fun _ => hr⟩⟩
      by_contra hr'
      exact hr' (hr (h hi hr'))

/-- Transactions are performed through any number of sessions over one store, one after
    the other. The index is right after each of them if, and only if, none is misled
    by the cache of its session. -/
theorem indexes_iff {D : KVData} {w w' : World} {ts : List (Turn Request World (AsyncResult Obj))}
    (h : succeedingSem.Serial Request.transaction w ts w') (hts : ∀ t ∈ ts, t.call.Changes D)
    (hw : w.IndexCorrect D) :
    (∀ t ∈ ts, t.after.IndexCorrect D) ↔ ∀ t ∈ ts, t.before.Informed t.call :=
  h.forall_after_iff (C := Request.Changes D) (P := World.Informed)
    (fun _ _ _ _ _ hw hc hruns => indexCorrect_iff hw hc hruns) hts hw

/-- One session sets a value, and the same one, or another, removes it. -/
def setThenDel (other : ℕ) : List Request :=
  [⟨.inMemory 0, jstr "a", .set (jstr "k") (jstr "v")⟩, ⟨.inMemory other, jstr "a", .del (jstr "k")⟩]

/-- If it is the session that has set the value, the index stays right. -/
theorem indexes_setThenDel :
    ∃ ts w, succeedingSem.Serial Request.transaction {} ts w ∧ ts.map Turn.call = setThenDel 0 ∧
      ((∀ t ∈ ts, t.after.IndexCorrect (.DefaultDataImpl false)) ↔
        ∀ t ∈ ts, t.before.Informed t.call) := by
  obtain ⟨ts, w, h, hcalls, -⟩ := exists_serial (S := sem) (P := fun _ a r => a.Succeeds r)
    (p := Request.transaction) (w := {}) (l := setThenDel 0) (Q := fun _ _ => True)
    World.ok_succeed 60 (by decide +kernel)
  refine ⟨ts, w, h, hcalls, indexes_iff h (fun t ht => ?_) fun sa _ => ⟨nofun, fun h => absurd rfl h⟩⟩
  have hmem : t.call ∈ setThenDel 0 := hcalls ▸ List.mem_map_of_mem ht
  have hready : (KvdnSession.inMemory 0).Ready := ⟨rfl, nofun, rfl⟩
  rcases List.mem_cons.1 hmem with hc | hmem
  · rw [hc]
    exact ⟨hready, rfl, by decide, rfl⟩
  · rw [List.mem_singleton.1 hmem]
    exact ⟨hready, rfl, by decide, rfl⟩

/-- If it is another one, the index still lists the address, whose map is empty. -/
theorem del_through_other :
    ∃ ts w, succeedingSem.Serial Request.transaction {} ts w ∧ ts.map Turn.call = setThenDel 1 ∧
      w.Indexed (.DefaultDataImpl false) (jstr "a") ∧
      ¬w.Stored (.DefaultDataImpl false) (jstr "a") :=
  exists_serial (S := sem) (P := fun _ a r => a.Succeeds r) (p := Request.transaction)
    (l := setThenDel 1) World.ok_succeed 60 (by decide +kernel)

end Kvdn
