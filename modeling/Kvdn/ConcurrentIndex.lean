import Kvdn.Index
import Kvdn.Stage

/-!
# The metadata index under concurrency

Any number of concurrent transactions that change maps, on one session, all of
which succeed. The metadata hook checks, and then acts on what it has seen: between
the two, another transaction may have changed the map, the index or the cache, and
the index may then be wrong for good.

`Agreement` is what holds of an address between the stages of its transactions:
whenever map, index and cache disagree, a transaction is about to put it right. It
is kept by the steps that still act on the truth (`Current`):

* `agrees_of_current`: in the runs in which all steps do, map, index and cache agree
  on every address whenever no transaction is in progress;
* `set_during_del`: in other runs, they need not.
-/

namespace Kvdn

open Callback Callback.Prog Callback.Sem AsyncResult

/-! ## Agreement -/

namespace Stage

/-- The transaction is about to add the address to the index, if need be. -/
def toList : Stage → Bool
  | written | missed => true
  | _ => false

/-- The transaction is about to remove the address from the index, if need be. -/
def toUnlist : Stage → Bool
  | erased | hit | empty => true
  | _ => false

/-- The transaction is about to add the address to the cache. -/
def toCache : Stage → Bool
  | listed => true
  | _ => false

/-- The transaction is about to remove the address from the cache. -/
def toUncache : Stage → Bool
  | unlisted => true
  | _ => false

end Stage

/-- What holds of an address on which the transactions `on` are working: `stored`,
    `indexed` and `cached` agree, or a transaction is about to make them. -/
structure Agreement {ι : Type} (stored indexed cached : Prop) (on : ι → Prop) (st : ι → Stage) :
    Prop where
  toList : stored → ¬indexed → ∃ i, on i ∧ (st i).toList = true
  toUnlist : ¬stored → indexed → ∃ i, on i ∧ (st i).toUnlist = true
  toCache : indexed → ¬cached → ∃ i, on i ∧ (st i).toCache = true
  toUncache : ¬indexed → cached → ∃ i, on i ∧ (st i).toUncache = true

namespace Agreement

variable {ι : Type} {stored indexed cached stored' indexed' cached' : Prop} {on : ι → Prop}
  {st : ι → Stage} {i : ι} {s : Stage}

/-- When no transaction is in progress, they agree. -/
theorem agree (h : Agreement stored indexed cached on st)
    (hst : ∀ i, on i → st i = .before ∨ st i = .settled) :
    (indexed ↔ stored) ∧ (cached ↔ indexed) := by
  have hnone {P : Stage → Bool} (hP : P .before = false ∧ P .settled = false) :
      ¬∃ i, on i ∧ P (st i) = true := by
    rintro ⟨i, hon, hi⟩
    rcases hst i hon with hst | hst <;> simp [hst, hP] at hi
  refine ⟨⟨fun hi => ?_, fun hs => ?_⟩, ⟨fun hc => ?_, fun hi => ?_⟩⟩
  · by_contra hn
    exact hnone (P := Stage.toUnlist) ⟨rfl, rfl⟩ (h.toUnlist hn hi)
  · by_contra hn
    exact hnone (P := Stage.toList) ⟨rfl, rfl⟩ (h.toList hs hn)
  · by_contra hn
    exact hnone (P := Stage.toUncache) ⟨rfl, rfl⟩ (h.toUncache hn hc)
  · by_contra hn
    exact hnone (P := Stage.toCache) ⟨rfl, rfl⟩ (h.toCache hi hn)

variable [DecidableEq ι]

theorem exists_update {P : Stage → Bool} (h : ∃ j, on j ∧ P (st j) = true)
    (hi : on i → P (st i) = true → P s = true) :
    ∃ j, on j ∧ P (Function.update st i s j) = true := by
  obtain ⟨j, hon, hj⟩ := h
  refine ⟨j, hon, ?_⟩
  by_cases hji : j = i
  · subst hji
    simpa using hi hon hj
  · simpa [hji] using hj

theorem exists_of_ne {P : Stage → Bool} (h : ∃ j, on j ∧ P (st j) = true) {s₀ : Stage}
    (hi : st i = s₀) (hs : P s₀ = false) : ∃ j, on j ∧ P (Function.update st i s j) = true :=
  exists_update h fun _ hp => by simp [hi, hs] at hp

theorem exists_self {P : Stage → Bool} (hon : on i) (hs : P s = true) :
    ∃ j, on j ∧ P (Function.update st i s j) = true :=
  ⟨i, hon, by simpa using hs⟩

/-- The transactions on other addresses do not matter. -/
theorem other (h : Agreement stored indexed cached on st) (hi : ¬on i) :
    Agreement stored indexed cached on (Function.update st i s) where
  toList hs hn := exists_update (h.toList hs hn) fun hon => absurd hon hi
  toUnlist hn hx := exists_update (h.toUnlist hn hx) fun hon => absurd hon hi
  toCache hx hn := exists_update (h.toCache hx hn) fun hon => absurd hon hi
  toUncache hn hc := exists_update (h.toUncache hn hc) fun hon => absurd hon hi

/-- A value is written. -/
theorem write (h : Agreement stored indexed cached on st) (hon : on i) (hi : st i = .before)
    (hs : stored') : Agreement stored' indexed cached on (Function.update st i .written) where
  toList _ _ := exists_self hon rfl
  toUnlist hn := absurd hs hn
  toCache hx hn := exists_of_ne (h.toCache hx hn) hi rfl
  toUncache hn hc := exists_of_ne (h.toUncache hn hc) hi rfl

/-- The cache does not have the address, or has it, which is indexed then. -/
theorem look (h : Agreement stored indexed cached on st) (hon : on i) (hi : st i = .written)
    (hs : s = .missed ∨ s = .settled ∧ indexed) :
    Agreement stored indexed cached on (Function.update st i s) where
  toList hx hn := by
    rcases hs with rfl | ⟨rfl, hindexed⟩
    · exact exists_self hon rfl
    · exact absurd hindexed hn
  toUnlist hn hx := exists_of_ne (h.toUnlist hn hx) hi rfl
  toCache hx hn := exists_of_ne (h.toCache hx hn) hi rfl
  toUncache hn hc := exists_of_ne (h.toUncache hn hc) hi rfl

/-- The address is added to the index, while its map is not empty. -/
theorem list (hon : on i) (hs : stored) (hx : indexed') : Agreement stored indexed' cached on (Function.update st i .listed) where
  toList _ hn := absurd hx hn
  toUnlist hn := absurd hs hn
  toCache _ _ := exists_self hon rfl
  toUncache hn := absurd hx hn

/-- The address, which is indexed, is added to the cache. -/
theorem cache (h : Agreement stored indexed cached on st) (hi : st i = .listed) (hx : indexed)
    (hc : cached') : Agreement stored indexed cached' on (Function.update st i .settled) where
  toList _ hn := absurd hx hn
  toUnlist hn hx := exists_of_ne (h.toUnlist hn hx) hi rfl
  toCache _ hn := absurd hc hn
  toUncache hn := absurd hx hn

/-- Values are removed. -/
theorem erase (h : Agreement stored indexed cached on st) (hon : on i) (hi : st i = .before)
    (hs : stored' → stored) :
    Agreement stored' indexed cached on (Function.update st i .erased) where
  toList hx hn := exists_of_ne (h.toList (hs hx) hn) hi rfl
  toUnlist _ _ := exists_self hon rfl
  toCache hx hn := exists_of_ne (h.toCache hx hn) hi rfl
  toUncache hn hc := exists_of_ne (h.toUncache hn hc) hi rfl

/-- The hook goes on because of what the cache or the map says, or stops, the address
    not having to be removed from the index. -/
theorem check (h : Agreement stored indexed cached on st) (hon : on i)
    (hi : st i = .erased ∨ st i = .hit)
    (hs : s = .hit ∨ s = .empty ∨ s = .settled ∧ (indexed → stored)) :
    Agreement stored indexed cached on (Function.update st i s) where
  toList hx hn := by rcases hi with hi | hi <;> exact exists_of_ne (h.toList hx hn) hi rfl
  toUnlist hn hx := by
    rcases hs with rfl | rfl | ⟨rfl, hstored⟩
    · exact exists_self hon rfl
    · exact exists_self hon rfl
    · exact absurd (hstored hx) hn
  toCache hx hn := by rcases hi with hi | hi <;> exact exists_of_ne (h.toCache hx hn) hi rfl
  toUncache hn hc := by rcases hi with hi | hi <;> exact exists_of_ne (h.toUncache hn hc) hi rfl

/-- The address is removed from the index, while its map is empty. -/
theorem unlist (hon : on i) (hs : ¬stored) (hx : ¬indexed') :
    Agreement stored indexed' cached on (Function.update st i .unlisted) where
  toList hs' := absurd hs' hs
  toUnlist _ hx' := absurd hx' hx
  toCache hx' := absurd hx' hx
  toUncache _ _ := exists_self hon rfl

/-- The address, which is not indexed, is removed from the cache. -/
theorem uncache (h : Agreement stored indexed cached on st) (hi : st i = .unlisted)
    (hx : ¬indexed) (hc : ¬cached') :
    Agreement stored indexed cached' on (Function.update st i .settled) where
  toList hs hn := exists_of_ne (h.toList hs hn) hi rfl
  toUnlist _ hx' := absurd hx' hx
  toCache hx' := absurd hx' hx
  toUncache _ hc' := absurd hc' hc

end Agreement

/-! ## Interleavings -/

/-- The steps that maintain the index act on the truth: an entry is added while the
    map has values and removed while it has none, the cache is updated as the index
    says, and does not say otherwise when it is asked. -/
def Act.Current (s : KvdnSession) (w : World) : (a : Act) → a.Res → Prop
  | .put m key _, _ => m = ⟨s.D.space, METADATA_MAP⟩ → w.Stored s.D key
  | .remove m key, _ => m = ⟨s.D.space, METADATA_MAP⟩ → ¬w.Stored s.D key
  | .cacheContains tx, (cached : Bool) =>
    if tx.type = some .KV_DEL then
      cached = false → w.Indexed s.D tx.strAddr → w.Stored s.D tx.strAddr
    else cached = true → w.Indexed s.D tx.strAddr
  | .cacheAdd tx, _ => w.Indexed s.D tx.strAddr ∧ ¬w.Cached s tx.strAddr
  | .cacheRemove tx, _ => ¬w.Indexed s.D tx.strAddr
  | _, _ => True

instance (s : KvdnSession) (w : World) : ∀ (a : Act) (r : a.Res), Decidable (a.Current s w r)
  | .put m key _, _ => inferInstanceAs (Decidable (m = ⟨s.D.space, METADATA_MAP⟩ → w.Stored s.D key))
  | .remove m key, _ =>
    inferInstanceAs (Decidable (m = ⟨s.D.space, METADATA_MAP⟩ → ¬w.Stored s.D key))
  | .cacheContains tx, (cached : Bool) =>
    inferInstanceAs (Decidable (if tx.type = some .KV_DEL then
      cached = false → w.Indexed s.D tx.strAddr → w.Stored s.D tx.strAddr
      else cached = true → w.Indexed s.D tx.strAddr))
  | .cacheAdd tx, _ =>
    inferInstanceAs (Decidable (w.Indexed s.D tx.strAddr ∧ ¬w.Cached s tx.strAddr))
  | .cacheRemove tx, _ => inferInstanceAs (Decidable (¬w.Indexed s.D tx.strAddr))
  | .dirty _, _ | .checkFlags _ _, _ | .getMap _ _, _ | .get _ _, _ | .clear _, _ | .size _, _
  | .setKey _ _ _, _ | .deleteKey _ _ _, _ | .getKeys _ _, _ | .publish _, _ | .untrack _ _, _
  | .accessPut _ _, _ | .accessPutIfAbsent _, _ | .commit, _ | .digest _, _ | .newTx _ _, _
  | .handle _ _, _ | .hook _ _, _ | .op _ _, _ => isTrue trivial

/-- The runs in which all transactions succeed, and the index is maintained on the
    truth. -/
def currentSem (s : KvdnSession) : Sem Act.Res Exn World :=
  sem.restrict fun w a r => a.Succeeds r ∧ a.Current s w r

/-- Map, index and cache agree on the addresses of the clients. -/
def World.Agrees (w : World) (s : KvdnSession) : Prop :=
  ∀ sa, UserAddr sa → (w.Indexed s.D sa ↔ w.Stored s.D sa) ∧ (w.Cached s sa ↔ w.Indexed s.D sa)

section

variable {ι : Type} [DecidableEq ι] {S : Setting} {txs : ι → KvTx} {ops : ι → Op}
  {w w₀ : World} {tr : List (ι × Step)} {st : ι → Stage}

/-- What is known of the index, from the stages of the transactions. -/
structure Indexes (S : Setting) (txs : ι → KvTx) (tr : List (ι × Step)) (w : World)
    (st : ι → Stage) : Prop where
  md5 : w.md5 = S.md5
  uuids : S.uuids ≤ w.uuids
  notBegun : ∀ i, own i tr = [] → st i = .before
  nodup : (w.straddrCache S.session.sessionid).Nodup
  agreement : ∀ sa, UserAddr sa → Agreement (w.Stored S.session.D sa) (w.Indexed S.session.D sa)
    (w.Cached S.session sa) (fun i => (txs i).strAddr = sa) st

/-- A step keeps what is known, if it does for its own address, and changes nothing
    for the others. -/
theorem Indexes.of_agreement (h : Indexes S txs tr w st) {i : ι} {a : Act} {r : a.Res}
    {s : Stage} (hi : UserAddr (txs i).strAddr)
    (hnodup : ((w.eff a r).straddrCache S.session.sessionid).Nodup)
    (hself : Agreement ((w.eff a r).Stored S.session.D (txs i).strAddr)
      ((w.eff a r).Indexed S.session.D (txs i).strAddr)
      ((w.eff a r).Cached S.session (txs i).strAddr) (fun j => (txs j).strAddr = (txs i).strAddr)
      (Function.update st i s))
    (hother : ∀ sa, UserAddr sa → sa ≠ (txs i).strAddr →
      ((w.eff a r).Stored S.session.D sa ↔ w.Stored S.session.D sa) ∧
      ((w.eff a r).Indexed S.session.D sa ↔ w.Indexed S.session.D sa) ∧
      ((w.eff a r).Cached S.session sa ↔ w.Cached S.session sa)) :
    Indexes S txs (tr ++ [(i, ⟨a, r⟩)]) (w.eff a r) (Function.update st i s) := by
  refine ⟨by rw [World.md5_eff, h.md5],
    h.uuids.trans World.uuids_le_eff, fun j hj => ?_, hnodup, fun sa hsa => ?_⟩
  · rw [own_append, List.append_eq_nil_iff] at hj
    have hji : j ≠ i := by
      rintro rfl
      simp at hj
    rw [Function.update_of_ne hji]
    exact h.notBegun j hj.1
  · by_cases heq : sa = (txs i).strAddr
    · subst heq
      exact hself
    · obtain ⟨hstored, hindexed, hcached⟩ := hother sa hsa heq
      rw [hstored, hindexed, hcached]
      exact (h.agreement sa hsa).other (Ne.symm heq)

theorem Indexes.put (h : Indexes S txs tr w st) {i : ι} (hi : UserAddr (txs i).strAddr)
    {m : AsyncMap} {key : JString} {value : Obj} {res : AsyncResult Obj} (hres : res.cause.isSome = false)
    (ha : Stage.allow S (txs i) (ops i) (st i) (.put m key value))
    (hcurrent : Act.Current S.session w (.put m key value) res) :
    Indexes S txs (tr ++ [(i, ⟨.put m key value, res⟩)]) (w.eff (.put m key value) res)
      (Function.update st i ((st i).next (ops i) (.put m key value) res)) := by
  obtain ⟨x, rfl⟩ := AsyncResult.exists_of_cause hres
  obtain ⟨hstored, hindexed, hcached, hcache⟩ := World.unchanged_eff (D := S.session.D) (s := S.session) (w := w)
    (a := .put m key value) (r := succeededFuture x) rfl (fun _ => nofun) fun _ => nofun
  have hnodup := h.nodup
  rw [← hcache] at hnodup
  rcases ha with hcall | ⟨hst, rfl, rfl⟩
  · obtain ⟨hst, hd, rfl⟩ := hcall.put
    refine h.of_agreement hi hnodup ?_ fun sa hsa hne =>
      ⟨hstored sa (AsyncMap.mk_ne hne.symm), hindexed sa (AsyncMap.mk_ne hi.1), hcached sa⟩
    rw [hindexed _ (AsyncMap.mk_ne hi.1), hcached, hst, Stage.next_before_of_reply rfl,
      Stage.changed_of_not_deletes hd]
    exact (h.agreement _ hi).write rfl hst (World.stored_put value x)
  · refine h.of_agreement hi hnodup ?_ fun sa hsa hne =>
      ⟨hstored sa (AsyncMap.mk_ne hsa.1.symm), ?_, hcached sa⟩
    · rw [hstored _ (AsyncMap.mk_ne hi.1.symm), hcached, hst]
      exact Agreement.list rfl (hcurrent rfl) ((World.indexed_put value x).2 (.inl rfl))
    · rw [World.indexed_put]
      exact or_iff_right hne

theorem Indexes.remove (h : Indexes S txs tr w st) {i : ι} (hi : UserAddr (txs i).strAddr)
    {m : AsyncMap} {key : JString} {res : AsyncResult Obj} (hres : res.cause.isSome = false)
    (ha : Stage.allow S (txs i) (ops i) (st i) (.remove m key))
    (hcurrent : Act.Current S.session w (.remove m key) res) :
    Indexes S txs (tr ++ [(i, ⟨.remove m key, res⟩)]) (w.eff (.remove m key) res)
      (Function.update st i ((st i).next (ops i) (.remove m key) res)) := by
  obtain ⟨x, rfl⟩ := AsyncResult.exists_of_cause hres
  obtain ⟨hstored, hindexed, hcached, hcache⟩ := World.unchanged_eff (D := S.session.D) (s := S.session) (w := w)
    (a := .remove m key) (r := succeededFuture x) rfl (fun _ => nofun) fun _ => nofun
  have hnodup := h.nodup
  rw [← hcache] at hnodup
  rcases ha with hcall | ⟨hst, rfl, rfl⟩
  · obtain ⟨hst, hd, rfl⟩ := hcall.remove
    refine h.of_agreement hi hnodup ?_ fun sa hsa hne =>
      ⟨hstored sa (AsyncMap.mk_ne hne.symm), hindexed sa (AsyncMap.mk_ne hi.1), hcached sa⟩
    rw [hindexed _ (AsyncMap.mk_ne hi.1), hcached, hst, Stage.next_before_of_reply rfl,
      Stage.changed_of_deletes hd]
    exact (h.agreement _ hi).erase rfl hst World.stored_of_remove
  · refine h.of_agreement hi hnodup ?_ fun sa hsa hne =>
      ⟨hstored sa (AsyncMap.mk_ne hsa.1.symm), ?_, hcached sa⟩
    · rw [hstored _ (AsyncMap.mk_ne hi.1.symm), hcached, hst]
      exact Agreement.unlist rfl (hcurrent rfl) fun hx => ((World.indexed_remove x).1 hx).1 rfl
    · rw [World.indexed_remove]
      exact and_iff_right hne

theorem Indexes.clear (h : Indexes S txs tr w st) {i : ι} (hi : UserAddr (txs i).strAddr)
    {m : AsyncMap} {res : AsyncResult Obj}
    (ha : Stage.allow S (txs i) (ops i) (st i) (.clear m)) :
    Indexes S txs (tr ++ [(i, ⟨.clear m, res⟩)]) (w.eff (.clear m) res)
      (Function.update st i ((st i).next (ops i) (.clear m) res)) := by
  obtain ⟨hstored, hindexed, hcached, hcache⟩ := World.unchanged_eff (D := S.session.D) (s := S.session) (w := w)
    (a := .clear m) (r := res) rfl (fun _ => nofun) fun _ => nofun
  have hnodup := h.nodup
  rw [← hcache] at hnodup
  obtain ⟨hst, hd, rfl⟩ := ha.clear
  refine h.of_agreement hi hnodup ?_ fun sa hsa hne =>
    ⟨hstored sa (AsyncMap.mk_ne hne.symm), hindexed sa (AsyncMap.mk_ne hi.1), hcached sa⟩
  rw [hindexed _ (AsyncMap.mk_ne hi.1), hcached, hst, Stage.next_before_of_reply rfl,
    Stage.changed_of_deletes hd]
  exact (h.agreement _ hi).erase rfl hst World.stored_of_clear

theorem Indexes.cacheAdd (h : Indexes S txs tr w st) {i : ι} (hi : UserAddr (txs i).strAddr)
    (hs : (txs i).session = S.session) {tx : KvTx} {r : Unit}
    (ha : Stage.allow S (txs i) (ops i) (st i) (.cacheAdd tx))
    (hcurrent : Act.Current S.session w (.cacheAdd tx) r) :
    Indexes S txs (tr ++ [(i, ⟨.cacheAdd tx, r⟩)]) (w.eff (.cacheAdd tx) r)
      (Function.update st i ((st i).next (ops i) (.cacheAdd tx) r)) := by
  obtain ⟨hst, rfl⟩ := ha
  obtain ⟨hindexed, hcached⟩ := hcurrent
  have hcache (sa : JString) : (w.eff (.cacheAdd ((txs i).started (ops i))) r).Cached S.session sa ↔
      sa = (txs i).strAddr ∨ w.Cached S.session sa := World.cached_cacheAdd hs r
  refine h.of_agreement hi ?_ ?_ fun sa _ hne =>
    ⟨Iff.rfl, Iff.rfl, (hcache sa).trans (or_iff_right hne)⟩
  · have hnodup : (w.straddrCache S.session.sessionid ++ [(txs i).strAddr]).Nodup := by
      rw [List.nodup_append]
      refine ⟨h.nodup, by simp, fun sa hsa sa' hsa' heq => hcached ?_⟩
      obtain rfl : sa' = (txs i).strAddr := List.mem_singleton.1 hsa'
      exact heq ▸ hsa
    simpa [World.eff, KvTx.started, hs] using hnodup
  · rw [hst]
    exact (h.agreement _ hi).cache hst hindexed ((hcache _).2 (.inl rfl))

theorem Indexes.cacheRemove (h : Indexes S txs tr w st) {i : ι} (hi : UserAddr (txs i).strAddr)
    (hs : (txs i).session = S.session) {tx : KvTx} {r : Unit}
    (ha : Stage.allow S (txs i) (ops i) (st i) (.cacheRemove tx))
    (hcurrent : Act.Current S.session w (.cacheRemove tx) r) :
    Indexes S txs (tr ++ [(i, ⟨.cacheRemove tx, r⟩)]) (w.eff (.cacheRemove tx) r)
      (Function.update st i ((st i).next (ops i) (.cacheRemove tx) r)) := by
  obtain ⟨hst, rfl⟩ := ha
  have hcache (sa : JString) :
      (w.eff (.cacheRemove ((txs i).started (ops i))) r).Cached S.session sa ↔
        sa ≠ (txs i).strAddr ∧ w.Cached S.session sa := World.cached_cacheRemove hs h.nodup r
  refine h.of_agreement hi ?_ ?_ fun sa _ hne =>
    ⟨Iff.rfl, Iff.rfl, (hcache sa).trans (and_iff_right hne)⟩
  · simpa [World.eff, KvTx.started, hs] using h.nodup.erase (txs i).strAddr
  · rw [hst]
    exact (h.agreement _ hi).uncache hst hcurrent fun hx => ((hcache _).1 hx).1 rfl

/-- The steps that change nothing, but the stage of their transaction. -/
theorem Indexes.check (h : Indexes S txs tr w st) {i : ι} (hi : UserAddr (txs i).strAddr)
    {a : Act} {r : a.Res} {s : Stage} (heff : w.eff a r = w)
    (hself : Agreement (w.Stored S.session.D (txs i).strAddr)
      (w.Indexed S.session.D (txs i).strAddr) (w.Cached S.session (txs i).strAddr)
      (fun j => (txs j).strAddr = (txs i).strAddr) (Function.update st i s)) :
    Indexes S txs (tr ++ [(i, ⟨a, r⟩)]) (w.eff a r) (Function.update st i s) := by
  refine h.of_agreement hi ?_ ?_ fun sa _ _ => ?_
  · rw [heff]
    exact h.nodup
  · rw [heff]
    exact hself
  · rw [heff]
    exact ⟨Iff.rfl, Iff.rfl, Iff.rfl⟩

theorem Indexes.cacheContains (h : Indexes S txs tr w st) {i : ι} (hi : UserAddr (txs i).strAddr)
    {tx : KvTx} {cached : Bool}
    (ha : Stage.allow S (txs i) (ops i) (st i) (.cacheContains tx))
    (hop : (ops i).mutates = true)
    (hcurrent : Act.Current S.session w (.cacheContains tx) cached) :
    Indexes S txs (tr ++ [(i, ⟨.cacheContains tx, cached⟩)]) (w.eff (.cacheContains tx) cached)
      (Function.update st i ((st i).next (ops i) (.cacheContains tx) cached)) := by
  obtain ⟨hst, rfl⟩ := ha
  refine h.check hi rfl ?_
  have hagreement := h.agreement _ hi
  have hwrites (hd : st i = .written) (ht : ((txs i).started (ops i)).type ≠ some .KV_DEL) :
      Agreement (w.Stored S.session.D (txs i).strAddr) (w.Indexed S.session.D (txs i).strAddr)
        (w.Cached S.session (txs i).strAddr) (fun j => (txs j).strAddr = (txs i).strAddr)
        (Function.update st i ((st i).next (ops i) (.cacheContains ((txs i).started (ops i))) cached)) := by
    rw [hd]
    rw [Act.Current, if_neg ht] at hcurrent
    cases cached with
    | true => exact hagreement.look rfl hd (.inr ⟨rfl, hcurrent rfl⟩)
    | false => exact hagreement.look rfl hd (.inl rfl)
  have hdeletes (hd : st i = .erased) (ht : ((txs i).started (ops i)).type = some .KV_DEL) :
      Agreement (w.Stored S.session.D (txs i).strAddr) (w.Indexed S.session.D (txs i).strAddr)
        (w.Cached S.session (txs i).strAddr) (fun j => (txs j).strAddr = (txs i).strAddr)
        (Function.update st i ((st i).next (ops i) (.cacheContains ((txs i).started (ops i))) cached)) := by
    rw [hd]
    rw [Act.Current, if_pos ht] at hcurrent
    cases cached with
    | true => exact hagreement.check rfl (.inl hd) (.inl rfl)
    | false => exact hagreement.check rfl (.inl hd) (.inr (.inr ⟨rfl, hcurrent rfl⟩))
  cases ho : ops i with
  | submit | set => rw [ho] at hst hwrites; exact hwrites hst nofun
  | clear | del => rw [ho] at hst hdeletes; exact hdeletes hst rfl
  | _ => rw [ho] at hop; exact nomatch hop

theorem Indexes.size (h : Indexes S txs tr w st) {i : ι} (hi : UserAddr (txs i).strAddr)
    {m : AsyncMap} {res : AsyncResult Obj} (hres : res.cause.isSome = false)
    (ha : Stage.allow S (txs i) (ops i) (st i) (.size m)) (hok : w.ok (.size m) res) :
    Indexes S txs (tr ++ [(i, ⟨.size m, res⟩)]) (w.eff (.size m) res)
      (Function.update st i ((st i).next (ops i) (.size m) res)) := by
  obtain ⟨x, rfl⟩ := AsyncResult.exists_of_cause hres
  obtain ⟨hst, rfl⟩ := ha
  obtain rfl : x = .int (w.map ⟨S.session.D.space, (txs i).strAddr⟩).keys.card := hok
  refine h.check hi rfl ((h.agreement _ hi).check rfl (.inr hst) ?_)
  rw [hst, Stage.next_of_reply rfl rfl, Stage.replied]
  by_cases hempty : w.map ⟨S.session.D.space, (txs i).strAddr⟩ = ∅
  · exact .inr (.inl (by simp [hempty]))
  · have hcard := mt KMap.card_keys_eq_zero.1 hempty
    exact .inr (.inr ⟨by simp [hcard], fun _ => hempty⟩)

/-- The other steps do not matter. -/
theorem Indexes.stutter (h : Indexes S txs tr w st) {i : ι} (hi : UserAddr (txs i).strAddr)
    {a : Act} {r : a.Res} (hst : (st i).next (ops i) a r = st i)
    (htarget : a.target = none ∨ a.target = some World.accessCache)
    (hadd : ∀ tx, a ≠ .cacheAdd tx) (hremove : ∀ tx, a ≠ .cacheRemove tx) :
    Indexes S txs (tr ++ [(i, ⟨a, r⟩)]) (w.eff a r)
      (Function.update st i ((st i).next (ops i) a r)) := by
  obtain ⟨hsame, hcache⟩ := World.unchanged_eff_of_target (D := S.session.D) (s := S.session)
    (w := w) (r := r) htarget hadd hremove
  have hself (sa : JString) (hsa : UserAddr sa) :
      ((w.eff a r).Stored S.session.D sa ↔ w.Stored S.session.D sa) ∧
      ((w.eff a r).Indexed S.session.D sa ↔ w.Indexed S.session.D sa) ∧
      ((w.eff a r).Cached S.session sa ↔ w.Cached S.session sa) := by
    obtain ⟨hmap, hsame⟩ := hsame sa hsa
    exact ⟨by rw [World.Stored, World.Stored, hmap], hsame⟩
  refine h.of_agreement hi (by rw [hcache]; exact h.nodup) ?_ fun sa hsa _ => hself sa hsa
  obtain ⟨hstored, hindexed, hcached⟩ := hself _ hi
  rw [hstored, hindexed, hcached, hst, Function.update_eq_self]
  exact h.agreement _ hi

theorem Indexes.step (h : Indexes S txs tr w st) {i : ι} (hi : UserAddr (txs i).strAddr)
    (hs : (txs i).session = S.session) (hop : (ops i).mutates = true) {a : Act} {r : a.Res}
    (hb : sem.body a = none) (ha : Stage.allow S (txs i) (ops i) (st i) a) (hok : w.ok a r)
    (hc : a.Succeeds r) (hcurrent : a.Current S.session w r) :
    Indexes S txs (tr ++ [(i, ⟨a, r⟩)]) (w.eff a r)
      (Function.update st i ((st i).next (ops i) a r)) := by
  cases a with
  | put => exact h.put hi (hc rfl) ha hcurrent
  | remove => exact h.remove hi (hc rfl) ha hcurrent
  | clear => exact h.clear hi ha
  | size => exact h.size hi (hc rfl) ha hok
  | cacheContains => exact h.cacheContains hi ha hop hcurrent
  | cacheAdd => exact h.cacheAdd hi hs ha hcurrent
  | cacheRemove => exact h.cacheRemove hi hs ha hcurrent
  | get | getKeys => exact ha.elim
  | op => exact nomatch hb
  | hook nxt tx =>
    cases nxt with
    | other =>
      exact h.stutter hi (Stage.next_of_reply_eq_none rfl (fun _ => nofun) (fun _ => nofun)
        (fun _ => nofun) fun _ => nofun) (.inl rfl) (fun _ => nofun) fun _ => nofun
    | _ => exact nomatch hb
  | accessPut | accessPutIfAbsent =>
    exact h.stutter hi (Stage.next_of_reply_eq_none rfl (fun _ => nofun) (fun _ => nofun)
      (fun _ => nofun) fun _ => nofun) (.inr rfl) (fun _ => nofun) fun _ => nofun
  | getMap D sa =>
    obtain ⟨map, rfl⟩ := AsyncResult.exists_of_cause (hc rfl)
    exact h.stutter hi (Stage.next_of_reply_eq_none rfl (fun _ => nofun) (fun _ => nofun)
      (fun _ => nofun) fun _ => nofun) (.inl rfl) (fun _ => nofun) fun _ => nofun
  | _ =>
    exact h.stutter hi (Stage.next_of_reply_eq_none rfl (fun _ => nofun) (fun _ => nofun)
      (fun _ => nofun) fun _ => nofun) (.inl rfl) (fun _ => nofun) fun _ => nofun

/-- In the runs in which the index is maintained on the truth, map, index and cache
    agree whenever no transaction is in progress. -/
theorem agrees_of_current {s : KvdnSession} (hready : s.Ready)
    (hnodup : (w₀.straddrCache s.sessionid).Nodup)
    (hagrees : w₀.Agrees s) (hs : ∀ i, (txs i).session = s) (hsa : ∀ i, UserAddr (txs i).strAddr)
    (hops : ∀ i, (ops i).mutates = true) {ps : ι → Prog (AsyncResult Obj)}
    (h : (currentSem s).Pool w₀ (fun i => (txs i).run (ops i)) tr w ps)
    (hquiet : ∀ i, own i tr = [] ∨ ∃ res, ps i = .ret res) : w.Agrees s := by
  let S : Setting := ⟨s, w₀.md5, 0⟩
  have hinit : Indexes S txs [] w₀ fun _ => .before := by
    refine ⟨rfl, Nat.zero_le _, fun _ _ => rfl, hnodup, fun sa hsa => ?_⟩
    obtain ⟨hindexed, hcached⟩ := hagrees sa hsa
    exact ⟨fun hs hn => absurd (hindexed.2 hs) hn, fun hn hx => absurd (hindexed.1 hx) hn,
      fun hx hn => absurd (hcached.2 hx) hn, fun hn hc => absurd (hcached.1 hc) hn⟩
  -- the stages of all transactions are the annotations; the invariant says which of them is
  -- about to put right what disagrees
  have hkeeps : Outline.KeepsPool (fun i => Stage.outline S (txs i) (ops i)) (currentSem s)
      (Indexes S txs) := fun tr w st i a r hInv hb ha ⟨hok, hc, hcurrent⟩ =>
    ⟨_, ⟨known_of_ok (.inr hc) hInv.md5 hInv.uuids hok, rfl⟩,
      hInv.step (hsa i) (hs i) (hops i) hb ha hok hc hcurrent⟩
  have hverified (i : ι) : (Stage.outline S (txs i) (ops i)).Verified (currentSem s) :=
    Stage.verified (S := S) hready (hs i) (hops i)
  obtain ⟨st, hindexes, hps⟩ := h.holds hverified hkeeps hinit
    fun i => Stage.holds_run (S := S) hready (hsa i) (hs i) (hops i)
  -- no transaction is in progress, so nobody is about to
  intro sa hsa
  refine (hindexes.agreement sa hsa).agree fun i _ => ?_
  rcases hquiet i with hnil | ⟨res, hres⟩
  · exact .inl (hindexes.notBegun i hnil)
  · have hsettled := hps i
    rw [hres] at hsettled
    exact .inr hsettled

end

/-- A `set` and a `del` on one address, which take their steps in turn, but for the steps
    of the `set` between its call and the cache. -/
theorem agrees_set_del :
    let txs : Bool → KvTx := fun i =>
      { txid := if i then 0 else 1, session := .inMemory 0, strAddr := jstr "a" }
    let ops : Bool → Op := fun i => if i then .set (jstr "k") (jstr "v") else .del (jstr "k")
    ∃ tr w ps, (currentSem (.inMemory 0)).Pool { uuids := 2 } (fun i => (txs i).run (ops i)) tr w ps ∧
      tr.length = 50 ∧ w.Agrees (.inMemory 0) := by
  intro txs ops
  have hpool := pool_schedule_of_meets (S := sem) World.ok_succeed
    (fun _ _ _ => of_decide_eq_true) ((List.replicate 3 [true, false]).flatten ++
      List.replicate 12 true ++ (List.replicate 30 [true, false]).flatten)
    (s := ([], { uuids := 2 }, fun i => (txs i).run (ops i)))
    (P := fun w a r => a.Succeeds r ∧ a.Current (.inMemory 0) w r) (by decide) .init
  refine ⟨_, _, _, hpool, by decide, ?_⟩
  have hready : (KvdnSession.inMemory 0).Ready := ⟨rfl, nofun, rfl⟩
  have hagrees : World.Agrees { uuids := 2 } (.inMemory 0) :=
    fun sa _ => ⟨⟨nofun, fun h => absurd rfl h⟩, ⟨nofun, nofun⟩⟩
  exact agrees_of_current hready List.nodup_nil hagrees (fun _ => rfl) (by decide) (by decide)
    hpool fun i => .inr ⟨.succeededFuture (.str (jstr "k")), eq_ret_of_value (by revert i; decide)⟩

/-- A `del` between the call of a `set` and its metadata hook: the map is empty, and
    listed for good. -/
theorem set_during_del :
    let txs : Bool → KvTx := fun i =>
      { txid := if i then 0 else 1, session := .inMemory 0, strAddr := jstr "a" }
    let ops : Bool → Op := fun i => if i then .set (jstr "k") (jstr "v") else .del (jstr "k")
    ∃ tr w ps, succeedingSem.Pool { uuids := 2 } (fun i => (txs i).run (ops i)) tr w ps ∧
      (∀ i, ps i = .ret (.succeededFuture (.str (jstr "k")))) ∧
      w.Indexed (.DefaultDataImpl false) (jstr "a") ∧ ¬w.Stored (.DefaultDataImpl false) (jstr "a") := by
  intro txs ops
  have hpool := pool_schedule_of_meets (S := sem) World.ok_succeed
    (fun _ _ _ => of_decide_eq_true)
    (List.replicate 4 true ++ List.replicate 30 false ++ List.replicate 60 true)
    (s := ([], { uuids := 2 }, fun i => (txs i).run (ops i)))
    (P := fun _ a r => a.Succeeds r) (by decide) .init
  exact ⟨_, _, _, hpool, fun i => eq_ret_of_value (by revert i; decide), by decide, by decide⟩

end Kvdn
