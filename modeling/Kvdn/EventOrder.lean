import Kvdn.Subscriptions

/-!
# The order of the events

What a subscriber to all events of an address may know of its map: the changes of the
keys that the events tell of (`Event.change`) are replayed in the order published.

* `keys_incurred`: replayed in the order of the calls, the events tell the keys of the map;
* `replay_published`: so they do in the order published, if the changes in conflict (of
  which the last one counts) are published in the order of their calls;
* `overtaken`: a call does not wait for the event of the call before it.
-/

namespace Kvdn

open Callback Callback.Sem AsyncResult

/-! ## Changes of keys -/

/-- A change of the keys of a map. -/
inductive Change
  | insert (key : JString)
  | erase (key : JString)
  | clear
  deriving DecidableEq

namespace Change

def apply (keys : Finset JString) : Change → Finset JString
  | insert key => Insert.insert key keys
  | erase key => keys.erase key
  | clear => ∅

/-- A key is inserted by one of the changes, and removed by the other. -/
def Conflicts : Change → Change → Prop
  | insert key, erase key' | erase key, insert key' => key = key'
  | insert _, clear | clear, insert _ => True
  | _, _ => False

instance decidableConflicts : DecidableRel Conflicts
  | insert key, erase key' | erase key, insert key' => inferInstanceAs (Decidable (key = key'))
  | insert _, clear | clear, insert _ => .isTrue trivial
  | insert _, insert _ | erase _, erase _ | erase _, clear | clear, erase _ | clear, clear =>
    .isFalse nofun

theorem apply_comm {c c' : Change} (h : ¬ c.Conflicts c') (keys : Finset JString) :
    c'.apply (c.apply keys) = c.apply (c'.apply keys) := by
  cases c with
  | insert key =>
    cases c' with
    | insert key' => exact Finset.insert_comm key' key keys
    | erase key' => exact Finset.erase_insert_of_ne h
    | clear => exact absurd trivial h
  | erase key =>
    cases c' with
    | insert key' => exact (Finset.erase_insert_of_ne (Ne.symm h)).symm
    | erase key' => exact Finset.erase_right_comm
    | clear => exact (Finset.erase_empty key).symm
  | clear =>
    cases c' with
    | insert key' => exact absurd trivial h
    | erase key' => exact Finset.erase_empty key'
    | clear => rfl

end Change

namespace Event

/-- What an event tells of the keys of the address `sa`. -/
def change (sa : JString) (e : Event) : Option Change :=
  if e.address = KvTx.writeChannel sa then e.key.map .insert
  else if e.address = KvTx.deleteChannel sa then e.key.map .erase
  else if e.address = KvTx.clearChannel sa then some .clear
  else none

/-- The keys of the address `sa` after an event. -/
def replay (sa : JString) (keys : Finset JString) (e : Event) : Finset JString :=
  (e.change sa).elim keys (Change.apply keys)

/-- Two events tell of changes in conflict. -/
def Conflicts (sa : JString) (e e' : Event) : Prop :=
  ∃ c ∈ e.change sa, ∃ c' ∈ e'.change sa, c.Conflicts c'

instance decidableConflicts (sa : JString) : DecidableRel (Conflicts sa) := fun e e' =>
  inferInstanceAs (Decidable (∃ c ∈ e.change sa, ∃ c' ∈ e'.change sa, c.Conflicts c'))

variable {sa : JString} {e e' : Event}

theorem replay_comm (h : ¬ e.Conflicts sa e') (keys : Finset JString) :
    e'.replay sa (e.replay sa keys) = e.replay sa (e'.replay sa keys) := by
  unfold replay
  cases hc : e.change sa with
  | none => rfl
  | some c =>
    cases hc' : e'.change sa with
    | none => rfl
    | some c' => exact Change.apply_comm (fun hconflict => h ⟨c, hc, c', hc', hconflict⟩) keys

theorem change_write (sa' key : JString) :
    (⟨KvTx.writeChannel sa', some key⟩ : Event).change sa =
      if sa' = sa then some (.insert key) else none := by
  simp [change, writeChannel_inj, writeChannel_ne_deleteChannel, writeChannel_ne_clearChannel]

theorem change_delete (sa' key : JString) :
    (⟨KvTx.deleteChannel sa', some key⟩ : Event).change sa =
      if sa' = sa then some (.erase key) else none := by
  simp [change, deleteChannel_inj, (writeChannel_ne_deleteChannel _ _).symm,
    deleteChannel_ne_clearChannel]

theorem change_clear (sa' : JString) : (⟨KvTx.clearChannel sa', none⟩ : Event).change sa =
    if sa' = sa then some .clear else none := by
  have hinj : KvTx.clearChannel sa' = KvTx.clearChannel sa ↔ sa' = sa :=
    ⟨List.append_cancel_left, congrArg _⟩
  simp [change, hinj, (writeChannel_ne_clearChannel _ _).symm,
    (deleteChannel_ne_clearChannel _ _).symm]

end Event

/-! ## The keys of the map -/

/-- What a step does to the keys of a map, the event that it owes tells. -/
theorem keys_eff {s : KvdnSession} {w : World} {a : Act} {r : a.Res} {sa : JString}
    (hp : Permits s a) (ha : ⟨s.D.space, sa⟩ ≠ World.accessCache) :
    ((w.eff a r).map ⟨s.D.space, sa⟩).keys = (eventDebts.incur a r).elim
      (w.map ⟨s.D.space, sa⟩).keys (Event.replay sa (w.map ⟨s.D.space, sa⟩).keys) := by
  have hmodify {m : AsyncMap} (hm : m.space = s.D.space) (r : AsyncResult Obj) (f : KMap → KMap)
      (c : Change) (e : Event) (he : e.change sa = if m.name = sa then some c else none)
      (hf : ∀ map : KMap, (f map).keys = c.apply map.keys) :
      ((w.modify m r f).map ⟨s.D.space, sa⟩).keys = (if r.succeeded then some e else none).elim
        (w.map ⟨s.D.space, sa⟩).keys (Event.replay sa (w.map ⟨s.D.space, sa⟩).keys) := by
    by_cases hname : m.name = sa
    · obtain rfl : m = ⟨s.D.space, sa⟩ := by rw [← hm, ← hname]
      rw [World.map_modify_self]
      split_ifs with hr
      · simp [Event.replay, he, hf]
      · rfl
    · rw [World.map_modify_of_ne (fun heq => hname (congrArg AsyncMap.name heq))]
      split_ifs
      · simp [Event.replay, he, hname]
      · rfl
  cases a with
  | put m key value =>
    exact hmodify hp r _ (.insert key) _ (Event.change_write m.name key) fun map =>
      KMap.keys_insert ..
  | remove m key =>
    exact hmodify hp r _ (.erase key) _ (Event.change_delete m.name key) fun map =>
      Finmap.keys_erase ..
  | clear m => exact hmodify hp r _ .clear _ (Event.change_clear m.name) fun _ => Finmap.keys_empty
  | accessPut sa' txid | accessPutIfAbsent sa' =>
    exact congrArg Finmap.keys (World.map_eff_of_ne fun h => ha (Option.some.inj h).symm)
  | _ => exact congrArg Finmap.keys (World.map_eff_of_ne nofun)

section

variable {ι : Type} [DecidableEq ι] {txs : ι → KvTx} {ops : ι → Op} {w₀ w : World} {sa : JString}
  {sp : Space} {tr : List (ι × Step)} {ps : ι → Prog (AsyncResult Obj)}

/-- The keys of the map are told by the events owed, in the order of the calls. -/
theorem keys_incurred (h : sem.Pool w₀ (fun i => (txs i).run (ops i)) tr w ps)
    (hsp : ∀ i, (txs i).session.D.space = sp) (hsa : ⟨sp, sa⟩ ≠ World.accessCache) :
    (w.map ⟨sp, sa⟩).keys = (eventDebts.incurred tr).foldl (Event.replay sa) (w₀.map ⟨sp, sa⟩).keys := by
  induction h with
  | init => rfl
  | @prim tr w ps i a r k hpool hi hb hok ih =>
    have hp : Permits (txs i).session a :=
      (follows_of_pool (.prim i hpool hi hb hok) i).1.permits ⟨a, r⟩ (by simp)
    have hstep := @keys_eff (txs i).session w a r sa hp (hsp i ▸ hsa)
    rw [hsp i] at hstep
    rw [Debts.incurred_snoc, List.foldl_append, ← ih]
    refine hstep.trans ?_
    cases eventDebts.incur a r <;> rfl
  | body i _ hi hb ih => exact ih

/-- When no transaction is in progress, the events published tell the keys of the map. -/
structure Told (sa : JString) (tr : List (ι × Step)) (keys₀ keys : Finset JString)
    (published : List Event) : Prop where
  /-- They are those of the calls, in the order of which they tell the keys. -/
  perm : published.Perm (eventDebts.incurred tr)
  calls : (eventDebts.incurred tr).foldl (Event.replay sa) keys₀ = keys
  /-- If those in conflict are published in the order of the calls, then the order in
      which they are published tells the keys as well. -/
  replay : eventDebts.InOrder (Event.Conflicts sa) tr → published.foldl (Event.replay sa) keys₀ = keys

theorem replay_published (h : sem.Pool w₀ (fun i => (txs i).run (ops i)) tr w ps)
    (hquiet : Quiescent tr ps) (hsp : ∀ i, (txs i).session.D.space = sp)
    (hsa : ⟨sp, sa⟩ ≠ World.accessCache) :
    Told sa tr (w₀.map ⟨sp, sa⟩).keys (w.map ⟨sp, sa⟩).keys
      (w.published.drop w₀.published.length) := by
  have hkeys := keys_incurred h hsp hsa
  rw [published_of_pool h, List.drop_left]
  refine ⟨(incurred_perm_paid h hquiet).symm, hkeys.symm, fun horder => ?_⟩
  -- events that do not conflict commute, so that their order among each other does not matter
  have hfold := Debts.foldl_incurred (f := Event.replay sa) (fun _ _ hc b => Event.replay_comm hc b)
    (fun i => (follows_of_pool h i).1.honours) incur_eq_none_of_pay horder (w₀.map ⟨sp, sa⟩).keys
  rw [outstanding_of_quiescent h hquiet, ← hkeys] at hfold
  exact hfold

end

/-- The calls of a `set` and a `del` of the same key, one after the other, and then the
    events. -/
theorem replay_set_del :
    let tx (i : Bool) : KvTx := { txid := i.toNat, session := .inMemory 0, strAddr := jstr "a" }
    let op (i : Bool) : Op := if i then .del (jstr "k") else .set (jstr "k") (jstr "v")
    ∃ tr w ps, sem.Pool { uuids := 2 } (fun i => (tx i).run (op i)) tr w ps ∧
      Told (jstr "a") tr ∅ (w.map ⟨.localMap, jstr "a"⟩).keys w.published ∧
      eventDebts.InOrder (Event.Conflicts (jstr "a")) tr := by
  intro tx op
  have hpool := pool_schedule_init (S := sem) World.ok_succeed { uuids := 2 }
    (fun i => (tx i).run (op i))
    (.replicate 4 false ++ .replicate 4 true ++ .replicate 40 false ++ .replicate 40 true)
  refine ⟨_, _, _, hpool, ?_, by decide +kernel⟩
  refine replay_published hpool (fun i => .inr ?_) (fun _ => rfl) (by decide)
  cases i
  · exact ⟨succeededFuture (.str (jstr "k")), Prog.eq_ret_of_value (by decide +kernel)⟩
  · exact ⟨succeededFuture (.str (jstr "k")), Prog.eq_ret_of_value (by decide +kernel)⟩

/-- The event of a `del` overtakes that of the `set` before it: replayed, the events tell
    of a key that has been deleted. -/
theorem overtaken :
    let tx (i : Bool) : KvTx := { txid := i.toNat, session := .inMemory 0, strAddr := jstr "a" }
    let op (i : Bool) : Op := if i then .del (jstr "k") else .set (jstr "k") (jstr "v")
    ∃ tr w ps, sem.Pool { uuids := 2 } (fun i => (tx i).run (op i)) tr w ps ∧
      (∀ i, ps i = .ret (succeededFuture (.str (jstr "k")))) ∧
      w.published.foldl (Event.replay (jstr "a")) ∅ = {jstr "k"} ∧
      (w.map ⟨.localMap, jstr "a"⟩).keys = ∅ := by
  intro tx op
  have hpool := pool_schedule_init (S := sem) World.ok_succeed { uuids := 2 }
    (fun i => (tx i).run (op i))
    (.replicate 4 false ++ .replicate 40 true ++ .replicate 40 false)
  refine ⟨_, _, _, hpool, fun i => ?_, by decide +kernel, by decide +kernel⟩
  cases i
  · exact Prog.eq_ret_of_value (by decide +kernel)
  · exact Prog.eq_ret_of_value (by decide +kernel)

end Kvdn
