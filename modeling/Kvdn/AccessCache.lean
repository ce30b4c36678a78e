import Kvdn.Hooks
import Kvdn.Reachable

/-!
# The access cache

Every session of a node enters the addresses accessed into a local map, at the end of each
transaction (`finishTx`): so do the transactions that the metadata hook opens, on the metadata
map, or to ask for the size of the map it has been called for (`holds_call_nestingAt`).

* `accessCache_of_pool`: in all interleavings, whatever fails, the address of a transaction
  that has returned is in the cache; and no address is but that of a transaction, or of the
  metadata map.

The cache is a map like those of the clients: a transaction on its name would clear it.
-/

namespace Kvdn

open Callback Callback.Prog Callback.Sem AsyncResult

/-! ## Where the metadata hook goes -/

/-- The addresses of a transaction on `sa` and of those that its hooks open. -/
def Touches (sa sa' : JString) : Prop := sa' = METADATA_MAP ∨ sa' = sa

/-- The outline of the metadata hook, called for a transaction on the address `sa`. -/
def nestingAt (s : KvdnSession) (sa : JString) : Outline Act.Res Exn Unit where
  allow _
    | .cacheContains _ | .cacheAdd _ | .cacheRemove _ => True
    | .newTx s' sa' => s' = s ∧ Touches sa sa'
    | .op tx _ => tx.session = s ∧ Touches sa tx.strAddr
    | _ => False
  next _ a r _ := Located a r
  throws _ _ := True

section

variable {s : KvdnSession} {sa : JString} {tx : KvTx}

theorem holds_newTx_nestingAt {sa' : JString} (h : Touches sa sa') :
    (s.newTx sa').Holds (nestingAt s sa) (fun _ mtx => mtx.session = s ∧ Touches sa mtx.strAddr)
      () := by
  unfold KvdnSession.newTx
  split_ifs
  · exact ⟨⟨rfl, h⟩, fun mtx _ hmtx => ⟨hmtx.1, hmtx.2.symm ▸ h⟩⟩
  · trivial

theorem holds_storeMeta_nestingAt :
    (StoreMetaKVHook.storeMeta tx).Holds (nestingAt tx.session tx.strAddr) (fun _ _ => True) () := by
  simp only [StoreMetaKVHook.storeMeta, bind_eq, perform_bind]
  refine ⟨trivial, fun cached _ _ => ?_⟩
  cases (cached : Bool) with
  | true => trivial
  | false =>
    refine holds_bind.2 ((holds_newTx_nestingAt (.inl rfl)).mono fun _ mtx hmtx => ?_)
    refine ⟨hmtx, fun res _ _ => ?_⟩
    cases (res : AsyncResult Obj) with
    | failedFuture c => trivial
    | succeededFuture x => exact ⟨trivial, fun _ _ _ => trivial⟩

theorem holds_remove_nestingAt :
    (StoreMetaKVHook.remove tx).Holds (nestingAt tx.session tx.strAddr) (fun _ _ => True) () := by
  simp only [StoreMetaKVHook.remove, bind_eq]
  refine holds_bind.2 ((holds_newTx_nestingAt (.inl rfl)).mono fun _ mtx hmtx => ?_)
  refine ⟨hmtx, fun res _ _ => ?_⟩
  cases (res : AsyncResult Obj) with
  | failedFuture c => trivial
  | succeededFuture x => exact ⟨trivial, fun _ _ _ => trivial⟩

theorem holds_checkIfEmpty_nestingAt :
    (StoreMetaKVHook.checkIfEmpty tx).Holds (nestingAt tx.session tx.strAddr) (fun _ _ => True)
      () := by
  simp only [StoreMetaKVHook.checkIfEmpty, bind_eq, perform_bind]
  refine ⟨trivial, fun cached _ _ => ?_⟩
  cases (cached : Bool) with
  | false => trivial
  | true =>
    refine holds_bind.2 ((holds_newTx_nestingAt (.inr rfl)).mono fun _ ktx hktx => ?_)
    refine ⟨hktx, fun res _ _ => ?_⟩
    cases (res : AsyncResult Obj) with
    | failedFuture c => trivial
    | succeededFuture x =>
      by_cases hx : x = .int 0
      · simp only [hx, if_true]
        exact holds_remove_nestingAt
      · simp only [hx, if_false]
        trivial

/-- The metadata hook goes to the metadata map, and to the address it has been called for. -/
theorem holds_call_nestingAt :
    (StoreMetaKVHook.call tx).Holds (nestingAt tx.session tx.strAddr) (fun _ _ => True) () := by
  unfold StoreMetaKVHook.call
  split
  · exact holds_storeMeta_nestingAt
  · exact holds_storeMeta_nestingAt
  · exact holds_checkIfEmpty_nestingAt
  · trivial

end

/-! ## What is recorded -/

/-- The address a step enters into the cache. -/
def Act.records : Act → Option JString
  | accessPut sa _ | accessPutIfAbsent sa => some sa
  | _ => none

/-- The outline of a transaction on the address `sa`, and of its hooks: the annotations are
    the addresses entered so far. -/
def recording (s : KvdnSession) (sa : JString) : Outline Act.Res Exn (Finset JString) where
  allow _
    | .put m _ _ | .remove m _ | .clear m => Touches sa m.name
    | .accessPut sa' _ | .accessPutIfAbsent sa' => Touches sa sa'
    | .newTx s' sa' => s' = s ∧ Touches sa sa'
    | .op tx _ | .hook _ tx => tx.session = s ∧ Touches sa tx.strAddr
    | _ => True
  next addrs a r addrs' := Located a r ∧ addrs ⊆ addrs' ∧ ∀ sa', a.records = some sa' → sa' ∈ addrs'
  throws _ _ := True

section

variable {s : KvdnSession} {sa : JString} {tx : KvTx} {addrs addrs' : Finset JString}

theorem Touches.trans {sa' sa'' : JString} (h : Touches sa sa') (h' : Touches sa' sa'') :
    Touches sa sa'' := by
  rcases h' with h' | rfl
  · exact .inl h'
  · exact h

/-- A transaction that is about to call its handler has been recorded. -/
structure Progress.Records (tx : KvTx) (op : Op) (base : Finset JString) (g : Progress)
    (addrs : Finset JString) : Prop where
  sound : g.Sound tx op
  own : g.FindsOwn tx
  base : base ⊆ addrs
  recorded : (g.phase = .finished ∨ ∃ res, g.phase = .handled res) → tx.strAddr ∈ addrs

theorem Progress.Records.step {op : Op} {base : Finset JString} {g : Progress}
    (h : g.Records tx op base addrs) {a : Act} {r : a.Res} (ha : allow tx op g a)
    (hnext : (recording s sa).next addrs a r addrs') : (g.step tx op a r).Records tx op base addrs' where
  sound := h.sound.step ha
  own := h.own.step ha hnext.1
  base := h.base.trans hnext.2.1
  recorded hg := by
    have hanswered (res : AsyncResult Obj) : ¬((g.answered op res).phase = .finished ∨
        ∃ res', (g.answered op res).phase = .handled res') := by
      cases res with
      | succeededFuture x => cases hn : op.notifies <;> simp [answered, hn]
      | failedFuture c => simp [answered]
    cases a with
    | dirty txid =>
      cases (r : Bool) <;> simp [Progress.step] at hg
    | hook nxt tx' =>
      obtain ⟨⟨hooks, hp | hp⟩, -⟩ := ha
      · rw [step_hook_starting hp] at hg
        simp at hg
      · rw [step_hook_finishing hp] at hg
        simp at hg
    | getMap D sa' =>
      cases (r : AsyncResult AsyncMap) <;> simp [Progress.step] at hg
    | checkFlags sessionid mode =>
      obtain ⟨⟨map, hp⟩, -⟩ := ha
      rw [step_checkFlags hp] at hg
      cases (r : Bool) <;> simp at hg
    | digest bytes =>
      obtain ⟨⟨map, hp⟩, -⟩ := ha
      simp [Progress.step, hp] at hg
    | put | get | remove | clear | size | getKeys => exact absurd hg (hanswered r)
    | setKey | deleteKey | untrack => simp [Progress.step] at hg
    | accessPut sa' txid =>
      obtain ⟨-, -, rfl, -⟩ := ha
      exact hnext.2.2 _ rfl
    | accessPutIfAbsent sa' =>
      obtain ⟨-, -, rfl⟩ := ha
      exact hnext.2.2 _ rfl
    | publish e => exact hnext.2.1 (h.recorded (.inl ha.1))
    | handle txid res => exact hnext.2.1 (h.recorded (.inl ha.1))
    | commit | newTx | op | cacheContains | cacheAdd | cacheRemove => exact ha.elim

theorem Progress.Records.allow {op : Op} {base : Finset JString} {g : Progress}
    (h : g.Records tx op base addrs) (hsa : Touches sa tx.strAddr) {a : Act}
    (ha : Progress.allow tx op g a) : (recording tx.session sa).allow addrs a := by
  have hname {m : AsyncMap} (hcalls : g.Calls op a) (htarget : a.target = some m) :
      Touches sa m.name := by
    obtain ⟨-, hcall⟩ := h.own.call hcalls
    rcases Op.target_of_call hcall with hnone | hmap
    · cases htarget.symm.trans hnone
    · obtain rfl := Option.some.inj (htarget.symm.trans hmap)
      exact hsa
  cases a with
  | put | remove | clear => exact hname ha rfl
  | accessPut sa' txid =>
    obtain ⟨-, -, rfl, -⟩ := ha
    exact hsa
  | accessPutIfAbsent sa' =>
    obtain ⟨-, -, rfl⟩ := ha
    exact hsa
  | hook nxt tx' =>
    obtain ⟨-, rfl⟩ := ha
    exact ⟨rfl, hsa⟩
  | newTx | op => exact ha.elim
  | _ => trivial

/-- A transaction that has ended has been recorded. -/
theorem holds_run_recording (sa : JString) (hsa : Touches sa tx.strAddr) (op : Op)
    (addrs : Finset JString) :
    (tx.run op).Holds (recording tx.session sa)
      (fun addrs' _ => addrs ⊆ addrs' ∧ tx.strAddr ∈ addrs') addrs := by
  refine (Progress.holds_run tx op).refine (Progress.Records tx op addrs)
    (fun g addrs' a h ha => h.allow hsa ha)
    (fun g addrs' a r addrs'' h ha hnext => ⟨_, rfl, h.step ha hnext⟩) (fun _ _ _ _ _ => trivial)
    (fun g addrs' res h hdone => ⟨h.base, h.recorded (.inr ⟨res, hdone⟩)⟩) ?_
  refine ⟨Progress.sound_init, Progress.findsOwn_init, Finset.Subset.refl _, ?_⟩
  rintro (hg | ⟨res, hg⟩) <;> cases hg

theorem verified_recording : (recording s sa).Verified sem := by
  intro a q hb addrs ha
  cases a with
  | hook h tx =>
    obtain ⟨rfl, hsa⟩ := ha
    refine Holds.mono (Q := fun addrs' _ => addrs ⊆ addrs') ?_ fun _ _ h =>
      ⟨trivial, h, fun _ hr => by cases hr⟩
    cases h with
    | StoreMetaKVHook =>
      obtain rfl : StoreMetaKVHook.call tx = q := Option.some.inj hb
      refine holds_call_nestingAt.refine (fun _ addrs' => addrs ⊆ addrs') ?_ ?_
        (fun _ _ _ _ _ => trivial) (fun _ _ _ hsub _ => hsub) (Finset.Subset.refl _)
      · intro _ addrs' a _ hallow
        cases a with
        | newTx => exact ⟨hallow.1, hsa.trans hallow.2⟩
        | op => exact ⟨hallow.1, hsa.trans hallow.2⟩
        | cacheContains | cacheAdd | cacheRemove => trivial
        | _ => exact hallow.elim
      · rintro _ addrs' a r addrs'' hsub _ ⟨hlocated, hgrows, -⟩
        exact ⟨(), hlocated, hsub.trans hgrows⟩
    | MapdbPostTXHook =>
      obtain rfl : MapdbPostTXHook.call = q := Option.some.inj hb
      exact ⟨trivial, fun _ _ h => h.2.1⟩
    | other n type => cases hb
  | op tx o =>
    obtain rfl : tx.run o = q := Option.some.inj hb
    obtain ⟨rfl, hsa⟩ := ha
    exact (holds_run_recording sa hsa o addrs).mono fun _ _ h => ⟨trivial, h.1, fun _ hr => by cases hr⟩
  | _ => cases hb

/-- The transaction of a request. -/
theorem holds_transaction_recording (c : Request) :
    c.transaction.Holds (recording c.session c.strAddr) (fun addrs _ => c.strAddr ∈ addrs) ∅ := by
  simp only [Request.transaction, KvdnSession.newTx, bind_eq]
  split_ifs
  · refine ⟨⟨rfl, .inr rfl⟩, fun tx addrs hnext => ?_⟩
    obtain ⟨hs, hsa⟩ : tx.session = c.session ∧ tx.strAddr = c.strAddr := hnext.1
    have hrun := holds_run_recording c.strAddr (.inr hsa) c.op addrs
    rw [hs] at hrun
    exact hrun.mono fun _ _ h => hsa ▸ h.2
  · trivial

end

/-! ## Interleavings -/

section

variable {ι : Type} [DecidableEq ι] {c : ι → Request} {w₀ w : World} {tr : List (ι × Step)}
  {ps : ι → Prog (AsyncResult Obj)}

/-- What is known of the access cache, and of the addresses entered by each program. -/
structure Recorded (c : ι → Request) (w₀ w : World) (addrs : ι → Finset JString) : Prop where
  mem : ∀ i, ∀ sa ∈ addrs i, sa ∈ w.map World.accessCache
  of_mem : ∀ sa ∈ w.map World.accessCache,
    sa ∈ w₀.map World.accessCache ∨ ∃ i, Touches (c i).strAddr sa

/-- The cache grows by the address recorded, and is changed by no other step. -/
theorem mem_accessCache_eff {s : KvdnSession} {sa : JString} {addrs : Finset JString} {a : Act}
    {r : a.Res} (ha : (recording s sa).allow addrs a) (hsa : sa ≠ ACCESS_CACHE_LOC)
    (sa' : JString) : sa' ∈ (w.eff a r).map World.accessCache ↔
      sa' ∈ w.map World.accessCache ∨ a.records = some sa' := by
  have hname {m : AsyncMap} (hm : Touches sa m.name) : some m ≠ some World.accessCache := by
    intro heq
    obtain rfl := Option.some.inj heq
    rcases hm with hm | hm
    · exact metadata_map_ne_access_cache hm.symm
    · exact hsa hm.symm
  have hother (htarget : a.target ≠ some World.accessCache) (hrecords : a.records = none) :
      sa' ∈ (w.eff a r).map World.accessCache ↔
        sa' ∈ w.map World.accessCache ∨ a.records = some sa' := by
    rw [World.map_eff_of_ne htarget, hrecords, or_iff_left]
    rintro ⟨⟩
  cases a with
  | put | remove | clear => exact hother (hname ha) rfl
  | accessPut sa'' txid =>
    simp only [World.eff, World.map_setMap_self, Act.records, Option.some.injEq]
    rw [Finmap.mem_insert, or_comm, eq_comm]
  | accessPutIfAbsent sa'' =>
    simp only [World.eff, Act.records, Option.some.injEq]
    split_ifs with hmem
    · refine (or_iff_left_of_imp ?_).symm
      rintro rfl
      exact hmem
    · rw [World.map_setMap_self, Finmap.mem_insert, or_comm, eq_comm]
  | _ => exact hother (fun h => by cases h) rfl

/-- In all interleavings of transactions, whatever fails, the address of a transaction that
    has returned is in the access cache, where no other is than those of the transactions. -/
theorem accessCache_of_pool (h : sem.Pool w₀ (fun i => (c i).transaction) tr w ps)
    (hsa : ∀ i, (c i).strAddr ≠ ACCESS_CACHE_LOC) :
    (∀ i res, ps i = .ret res → (c i).strAddr ∈ w.map World.accessCache) ∧
      ∀ sa ∈ w.map World.accessCache, sa ∈ w₀.map World.accessCache ∨ sa = METADATA_MAP ∨
        ∃ i, (c i).strAddr = sa := by
  have hkeeps : Outline.KeepsPool (fun i => recording (c i).session (c i).strAddr) sem
      fun _ w addrs => Recorded c w₀ w addrs := by
    intro tr w addrs i a r hrecorded _ ha hok
    have heff (sa : JString) : sa ∈ (sem.eff w a r).map World.accessCache ↔
        sa ∈ w.map World.accessCache ∨ a.records = some sa := mem_accessCache_eff ha (hsa i) sa
    refine ⟨addrs i ∪ a.records.toFinset, ⟨located_of_ok hok, Finset.subset_union_left, ?_⟩,
      fun j sa hmem => ?_, fun sa hmem => ?_⟩
    · intro sa hrecords
      rw [hrecords]
      exact Finset.mem_union_right _ (by simp)
    · -- nothing is ever taken out of the cache, so that the others' addresses stay
      rw [heff]
      by_cases hj : j = i
      · subst hj
        rw [Function.update_self, Finset.mem_union] at hmem
        exact hmem.imp (hrecorded.mem j sa) (by simp)
      · rw [Function.update_of_ne hj] at hmem
        exact .inl (hrecorded.mem j sa hmem)
    · rcases (heff sa).1 hmem with hmem | hrecords
      · exact hrecorded.of_mem sa hmem
      · refine .inr ⟨i, ?_⟩
        cases a with
        | accessPut sa' txid =>
          obtain rfl := Option.some.inj hrecords
          exact ha
        | accessPutIfAbsent sa' =>
          obtain rfl := Option.some.inj hrecords
          exact ha
        | _ => cases hrecords
  obtain ⟨addrs, hrecorded, hps⟩ := h.holds (fun i => verified_recording) hkeeps
    ⟨fun i sa hmem => absurd hmem (Finset.notMem_empty sa), fun sa hmem => .inl hmem⟩
    fun i => holds_transaction_recording (c i)
  refine ⟨fun i res hres => ?_, fun sa hmem => ?_⟩
  · have hdone := hps i
    rw [hres] at hdone
    exact hrecorded.mem i _ hdone
  · rcases hrecorded.of_mem sa hmem with h₀ | ⟨i, hmeta | rfl⟩
    · exact .inl h₀
    · exact .inr (.inl hmeta)
    · exact .inr (.inr ⟨i, rfl⟩)

/-- A `set` that has returned. -/
theorem accessCache_set :
    let c : Request := { session := .inMemory 0, strAddr := jstr "a", op := .set (jstr "k") [] }
    ∃ tr w ps, sem.Pool {} (fun _ : Unit => c.transaction) tr w ps ∧ (ps ()).value ≠ none ∧
      jstr "a" ∈ w.map World.accessCache := by
  intro c
  have hpool := pool_schedule_init (S := sem) World.ok_succeed {} (fun _ : Unit => c.transaction)
    (List.replicate 50 ())
  have hvalue : ((sem.schedule World.succeed (List.replicate 50 ())
      ([], {}, fun _ : Unit => c.transaction)).2.2 ()).value ≠ none := by
    decide +kernel
  obtain ⟨res, hres⟩ := Option.ne_none_iff_exists'.1 hvalue
  refine ⟨_, _, _, hpool, hvalue, ?_⟩
  exact (accessCache_of_pool hpool fun _ => by decide).1 () res (eq_ret_of_value hres)

end

end Kvdn
