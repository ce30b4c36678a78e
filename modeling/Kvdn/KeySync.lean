import Kvdn.Callback.Machine
import Kvdn.ORSet
import Kvdn.Value

/-!
# Replicated key sets

The sessions of the `project` tree, each with a key set for every address it has
heard of. A `set` or a `del` changes the key set of its own session, and publishes
it as a whole to the sessions that have subscribed to the address. Deliveries may
come in any order, late, or more than once; a session without a key set may ask
another one for its own.

* `kept_iff`: an update is kept if, and only if, the session it is delivered to has
  already written to the address, or been sent a key set;
* `keysync_dropped`: otherwise it is lost;
* `converges`: the key sets converge, in the runs in which no merge would have to
  remove a tag;
* `set_del_deliver`: in others, a session keeps a key which has been deleted.
-/

namespace Kvdn.KeySync

open Callback

/-- The key sets of a session. -/
abbrev KeySets := JString → Option (ORSet JString ℕ)

/-- A session: its key sets, and the addresses it has subscribed to. -/
structure KvdnSession where
  keysets : KeySets := fun _ => none
  maps : List JString := []
  /-- The addresses for which it answers requests for its key set. -/
  keyreqs : List JString := []

namespace KvTx

/-- The update handler of a transaction. -/
def peerUpdateHdlr (keysets : KeySets) (update : ORSet JString ℕ) (uaddr : JString) : KeySets :=
  let keys := (keysets uaddr).getD {}
  Function.update keysets uaddr (some (keys.merge update))

end KvTx

namespace KvdnSession

/-- The update handler of a session: a null pointer, if there is no key set. -/
def peerUpdateHdlr (keysets : KeySets) (update : ORSet JString ℕ) (uaddr : JString) :
    Option KeySets := do
  let keys ← keysets uaddr
  return Function.update keysets uaddr (some (keys.merge update))

end KvdnSession

/-- What happens to the sessions `ι`, of which the key sets are told: the writes and
    deletions are those which have succeeded on the map. -/
inductive Event (ι : Type)
  | newTx (i : ι) (strAddr : JString)
  | set (i : ι) (strAddr key : JString)
  | del (i : ι) (strAddr key : JString)
  /-- The session `j` answers the request of `i` for its key set. -/
  | keyreq (i j : ι) (strAddr : JString)
  /-- The answer arrives. -/
  | reply (i : ι) (strAddr : JString) (update : ORSet JString ℕ)
  /-- A published key set is delivered. -/
  | keysync (i : ι) (strAddr : JString) (update : ORSet JString ℕ)
  deriving DecidableEq

/-- The address an event is about. -/
def Event.strAddr {ι : Type} : Event ι → JString
  | .newTx _ a | .set _ a _ | .del _ a _ | .keyreq _ _ a | .reply _ a _ | .keysync _ a _ => a

/-- The session whose key set an event is about. -/
def Event.session {ι : Type} : Event ι → ι
  | .newTx i _ | .set i _ _ | .del i _ _ | .keyreq i _ _ | .reply i _ _ | .keysync i _ _ => i

/-- The sessions, and the messages sent so far. -/
structure World (ι : Type) where
  sessions : ι → KvdnSession
  published : List (JString × ORSet JString ℕ) := []
  replies : List (ι × JString × ORSet JString ℕ) := []
  /-- The number of tags drawn. -/
  tags : ℕ := 0

section

variable {ι : Type} [DecidableEq ι]

namespace World

variable (w : World ι)

def keys (i : ι) (strAddr : JString) : Option (ORSet JString ℕ) := (w.sessions i).keysets strAddr

def setSession (i : ι) (s : KvdnSession) : World ι :=
  { w with sessions := Function.update w.sessions i s }

/-- The key sets of the session `i` replaced. -/
def setKeysets (i : ι) (keysets : KeySets) : World ι :=
  w.setSession i { w.sessions i with keysets }

/-- The session `i` is about to write: it sets up a key set, if it has none, and will
    then answer requests for it. -/
def setUp (i : ι) (strAddr : JString) : World ι :=
  match w.keys i strAddr with
  | some _ => w
  | none => w.setSession i { w.sessions i with
      keysets := Function.update (w.sessions i).keysets strAddr (some {})
      keyreqs := strAddr :: (w.sessions i).keyreqs }

/-- The key set of the session `i` for an address replaced, and published. -/
def publish (i : ι) (strAddr : JString) (keys : ORSet JString ℕ) : World ι :=
  { w.setKeysets i (Function.update (w.sessions i).keysets strAddr (some keys)) with
    published := w.published ++ [(strAddr, keys)] }

/-- The state after an event. An exception leaves it as it is. -/
def step : Event ι → World ι
  | .newTx i strAddr =>
    if strAddr ∈ (w.sessions i).maps then w
    else w.setSession i { w.sessions i with maps := strAddr :: (w.sessions i).maps }
  | .set i strAddr key =>
    { (w.setUp i strAddr).publish i strAddr (((w.keys i strAddr).getD {}).add key w.tags) with
      tags := w.tags + 1 }
  | .del i strAddr key =>
    match w.keys i strAddr with
    | some keys => w.publish i strAddr (keys.remove key)
    | none => w
  | .keyreq i j strAddr =>
    match w.keys j strAddr with
    | some keys => { w with replies := w.replies ++ [(i, strAddr, keys)] }
    | none => w
  | .reply i strAddr update =>
    w.setKeysets i (KvTx.peerUpdateHdlr (w.sessions i).keysets update strAddr)
  | .keysync i strAddr update =>
    match KvdnSession.peerUpdateHdlr (w.sessions i).keysets update strAddr with
    | some keysets => w.setKeysets i keysets
    | none => w

/-- The events that may happen: a transaction belongs to a session that has
    subscribed, and a message has been sent. -/
def Can : Event ι → Prop
  | .newTx _ _ => True
  | .set i strAddr _ | .del i strAddr _ => strAddr ∈ (w.sessions i).maps
  | .keyreq i j strAddr => strAddr ∈ (w.sessions i).maps ∧ strAddr ∈ (w.sessions j).keyreqs
  | .reply i strAddr update => (i, strAddr, update) ∈ w.replies
  | .keysync i strAddr update =>
    strAddr ∈ (w.sessions i).maps ∧ (strAddr, update) ∈ w.published

end World

/-- The sessions, as a state machine. -/
def machine : Machine (World ι) (Event ι) := ⟨World.Can, World.step⟩

instance (w : World ι) (e : Event ι) : Decidable (w.Can e) := by
  cases e <;> unfold World.Can <;> infer_instance

instance (w : World ι) (e : Event ι) : Decidable (machine.can w e) :=
  inferInstanceAs (Decidable (w.Can e))

variable {w₀ w : World ι} {tr : List (World ι × Event ι)} {i : ι} {strAddr : JString}
  {update : ORSet JString ℕ}

/-! ## What an event leaves as it is -/

theorem keys_setKeysets_of_ne {a : JString} {j : ι} (h : a ≠ strAddr ∨ i ≠ j)
    (keys : ORSet JString ℕ) :
    (w.setKeysets i (Function.update (w.sessions i).keysets a (some keys))).keys j strAddr =
      w.keys j strAddr := by
  by_cases hj : j = i
  · subst hj
    have ha : a ≠ strAddr := h.resolve_right (fun hne => hne rfl)
    simp [World.keys, World.setKeysets, World.setSession, ha.symm]
  · simp [World.keys, World.setKeysets, World.setSession, hj]

theorem keys_setUp_of_ne {a : JString} {j : ι} (h : a ≠ strAddr ∨ i ≠ j) :
    (w.setUp i a).keys j strAddr = w.keys j strAddr := by
  unfold World.setUp
  split
  · rfl
  · by_cases hj : j = i
    · subst hj
      have ha : a ≠ strAddr := h.resolve_right (fun hne => hne rfl)
      simp [World.keys, World.setSession, ha.symm]
    · simp [World.keys, World.setSession, hj]

theorem keys_newTx (a : JString) (j : ι) :
    (w.step (.newTx i a)).keys j strAddr = w.keys j strAddr := by
  simp only [World.step]
  split
  · rfl
  · by_cases hj : j = i
    · subst hj
      simp [World.keys, World.setSession]
    · simp [World.keys, World.setSession, hj]

theorem keys_keyreq (i j k : ι) (a : JString) :
    (w.step (.keyreq i j a)).keys k strAddr = w.keys k strAddr := by
  simp only [World.step]
  split <;> rfl

theorem step_del_of_none {key : JString} (hkeys : w.keys i strAddr = none) :
    w.step (.del i strAddr key) = w := by
  simp [World.step, hkeys]

theorem step_del_of_some {key : JString} {keys : ORSet JString ℕ}
    (hkeys : w.keys i strAddr = some keys) :
    w.step (.del i strAddr key) = w.publish i strAddr (keys.remove key) := by
  simp [World.step, hkeys]

theorem step_keysync_of_none (hkeys : w.keys i strAddr = none) :
    w.step (.keysync i strAddr update) = w := by
  have hnone : (w.sessions i).keysets strAddr = none := hkeys
  simp [World.step, KvdnSession.peerUpdateHdlr, hnone]

theorem step_keysync_of_some {keys : ORSet JString ℕ} (hkeys : w.keys i strAddr = some keys) :
    w.step (.keysync i strAddr update) = w.setKeysets i
      (Function.update (w.sessions i).keysets strAddr (some (keys.merge update))) := by
  have hsome : (w.sessions i).keysets strAddr = some keys := hkeys
  simp [World.step, KvdnSession.peerUpdateHdlr, hsome]

theorem keys_setKeysets_self (keys : ORSet JString ℕ) :
    (w.setKeysets i (Function.update (w.sessions i).keysets strAddr (some keys))).keys i strAddr =
      some keys := by
  simp [World.keys, World.setKeysets, World.setSession]

/-- An event leaves the key sets for other addresses, and of other sessions, as they are. -/
theorem keys_step_of_ne {e : Event ι} {j : ι} (h : e.strAddr ≠ strAddr ∨ e.session ≠ j) :
    (w.step e).keys j strAddr = w.keys j strAddr := by
  cases e with
  | newTx i a => exact keys_newTx a j
  | set i a key => exact (keys_setKeysets_of_ne h _).trans (keys_setUp_of_ne h)
  | del i a key =>
    cases hkeys : w.keys i a with
    | none => rw [step_del_of_none hkeys]
    | some keys =>
      rw [step_del_of_some hkeys]
      exact keys_setKeysets_of_ne h _
  | keyreq i k a => exact keys_keyreq i k j a
  | reply i a update => exact keys_setKeysets_of_ne h _
  | keysync i a update =>
    cases hkeys : w.keys i a with
    | none => rw [step_keysync_of_none hkeys]
    | some keys =>
      rw [step_keysync_of_some hkeys]
      exact keys_setKeysets_of_ne h _

/-! ## Updates -/

/-- The update delivered to the session `i` is kept: it has a key set then, which
    contains what it contained before, and the tags observed by the update which
    it has not removed; and its key sets are as the handler of a transaction would
    leave them. -/
structure Kept (w : World ι) (i : ι) (strAddr : JString) (update : ORSet JString ℕ) : Prop where
  exists_keys : ∃ keys, (w.step (.keysync i strAddr update)).keys i strAddr = some keys ∧
    (∀ p ∈ update.observed, (∀ old ∈ w.keys i strAddr, p ∉ old.removed) → p ∈ keys.observed) ∧
    ∀ old ∈ w.keys i strAddr, old.observed ⊆ keys.observed ∧ old.removed ⊆ keys.removed
  keysets : ((w.step (.keysync i strAddr update)).sessions i).keysets =
    KvTx.peerUpdateHdlr (w.sessions i).keysets update strAddr

theorem kept_iff_isSome : Kept w i strAddr update ↔ (w.keys i strAddr).isSome = true := by
  cases hkeys : w.keys i strAddr with
  | none =>
    refine iff_of_false (fun h => ?_) nofun
    obtain ⟨keys, hsome, -⟩ := h.exists_keys
    rw [step_keysync_of_none hkeys, hkeys] at hsome
    exact nomatch hsome
  | some old =>
    have hsome : (w.sessions i).keysets strAddr = some old := hkeys
    refine iff_of_true ⟨⟨old.merge update, ?_, ?_, ?_⟩, ?_⟩ rfl
    · rw [step_keysync_of_some hkeys, keys_setKeysets_self]
    · intro p hp _
      exact Finset.mem_union_right _ hp
    · intro old' hold
      obtain rfl : old = old' := Option.some.inj (hkeys.symm.trans hold)
      exact ⟨Finset.subset_union_left, Finset.subset_union_left⟩
    · rw [step_keysync_of_some hkeys]
      simp [KvTx.peerUpdateHdlr, hsome, World.setKeysets, World.setSession]

/-- A session gets a key set when it writes to the address, or when it is sent the one it
    has asked for. -/
def GetsKeys (e : Event ι) (i : ι) (strAddr : JString) : Prop :=
  (∃ key, e = .set i strAddr key) ∨ ∃ update, e = .reply i strAddr update

theorem isSome_keys_step {e : Event ι} : ((w.step e).keys i strAddr).isSome = true ↔
    (w.keys i strAddr).isSome = true ∨ GetsKeys e i strAddr := by
  by_cases h : e.strAddr = strAddr ∧ e.session = i
  · obtain ⟨rfl, rfl⟩ := h
    cases e with
    | newTx i a =>
      rw [keys_newTx]
      exact (or_iff_left (by simp [GetsKeys])).symm
    | set i a key =>
      have hkeys : (w.step (.set i a key)).keys i a = some _ := keys_setKeysets_self _
      exact iff_of_true (Option.isSome_of_eq_some hkeys) (.inr (.inl ⟨key, rfl⟩))
    | del i a key =>
      rw [or_iff_left (by simp [GetsKeys])]
      cases hkeys : w.keys i a with
      | none => rw [step_del_of_none hkeys]
      | some keys =>
        rw [step_del_of_some hkeys]
        exact iff_of_true (Option.isSome_of_eq_some (keys_setKeysets_self _))
          (Option.isSome_of_eq_some hkeys)
    | keyreq i j a =>
      rw [keys_keyreq]
      exact (or_iff_left (by simp [GetsKeys])).symm
    | reply i a update =>
      have hkeys : (w.step (.reply i a update)).keys i a = some _ := keys_setKeysets_self _
      exact iff_of_true (Option.isSome_of_eq_some hkeys) (.inr (.inr ⟨update, rfl⟩))
    | keysync i a update =>
      rw [or_iff_left (by simp [GetsKeys])]
      cases hkeys : w.keys i a with
      | none => rw [step_keysync_of_none hkeys]
      | some keys =>
        rw [step_keysync_of_some hkeys]
        exact iff_of_true (Option.isSome_of_eq_some (keys_setKeysets_self _))
          (Option.isSome_of_eq_some hkeys)
  · rw [keys_step_of_ne (not_and_or.1 h)]
    refine (or_iff_left fun hgets => h ?_).symm
    rcases hgets with ⟨key, rfl⟩ | ⟨update, rfl⟩ <;> exact ⟨rfl, rfl⟩

theorem isSome_keys (hrun : machine.Run w₀ tr w) (h₀ : ∀ i strAddr, w₀.keys i strAddr = none) :
    (w.keys i strAddr).isSome = true ↔ ∃ l ∈ tr, GetsKeys l.2 i strAddr := by
  refine hrun.inv (I := fun tr w => (w.keys i strAddr).isSome = true ↔
    ∃ l ∈ tr, GetsKeys l.2 i strAddr) (by simp [h₀]) fun tr w e ih _ => ?_
  have hstep : ((machine.step w e).keys i strAddr).isSome = true ↔ _ := isSome_keys_step
  rw [hstep, ih]
  simp only [List.mem_append, List.mem_singleton, or_and_right, exists_or, exists_eq_left]

/-- In a run, all updates are kept if, and only if, every session to which an update is
    delivered has already written to the address, or been sent a key set. -/
theorem kept_iff (hrun : machine.Run w₀ tr w) (h₀ : ∀ i strAddr, w₀.keys i strAddr = none) :
    (∀ tr₁ tr₂ w' i strAddr update, tr = tr₁ ++ (w', .keysync i strAddr update) :: tr₂ →
      Kept w' i strAddr update) ↔
      ∀ tr₁ tr₂ w' i strAddr update, tr = tr₁ ++ (w', .keysync i strAddr update) :: tr₂ →
        ∃ l ∈ tr₁, GetsKeys l.2 i strAddr := by
  refine forall_congr' fun tr₁ => forall_congr' fun tr₂ => forall_congr' fun w' =>
    forall_congr' fun i => forall_congr' fun strAddr => forall_congr' fun update =>
    imp_congr_right fun htr => ?_
  -- an update is kept exactly if there is a key set to merge it into
  rw [kept_iff_isSome]
  exact isSome_keys (hrun.before htr).1 h₀

/-- Two sessions write to an address, and then hear of each other. -/
theorem kept_set_set :
    let k := jstr "k"; let a := jstr "a"
    let es : List (Event Bool) := [.newTx false a, .newTx true a, .set false a k, .set true a k,
      .keysync false a { observed := {(k, 1)} }, .keysync true a { observed := {(k, 0)} }]
    let w₀ : World Bool := { sessions := fun _ => {} }
    ∀ tr₁ tr₂ w' i strAddr update, machine.trace w₀ es = tr₁ ++ (w', .keysync i strAddr update) :: tr₂ →
      Kept w' i strAddr update := by
  intro k a es w₀
  have hrun : machine.Run w₀ (machine.trace w₀ es) (es.foldl machine.step w₀) :=
    Machine.run_of_canAll (by decide +kernel)
  have hnone (i : Bool) (strAddr : JString) : w₀.keys i strAddr = none := rfl
  have hkeys : ∀ l ∈ machine.trace w₀ es, (match l.2 with
      | .keysync i strAddr _ => (l.1.keys i strAddr).isSome
      | _ => true) = true := by decide +kernel
  refine (kept_iff hrun hnone).2 fun tr₁ tr₂ w' i strAddr update htr => ?_
  have hmem : (w', .keysync i strAddr update) ∈ machine.trace w₀ es :=
    htr ▸ List.mem_append_right _ List.mem_cons_self
  exact (isSome_keys (hrun.before htr).1 hnone).1 (hkeys _ hmem)

/-- A session that has subscribed to an address, but not written to it, drops what it is
    told. -/
theorem keysync_dropped :
    let k := jstr "k"; let a := jstr "a"
    let es : List (Event Bool) := [.newTx false a, .newTx true a, .set true a k]
    let w₀ : World Bool := { sessions := fun _ => {} }
    let w := es.foldl machine.step w₀
    machine.Run w₀ (machine.trace w₀ es) w ∧ w.Can (.keysync false a { observed := {(k, 0)} }) ∧
      w.step (.keysync false a { observed := {(k, 0)} }) = w ∧ w.keys false a = none ∧
      ¬ Kept w false a { observed := {(k, 0)} } := by
  intro k a es w₀ w
  have hrun : machine.Run w₀ (machine.trace w₀ es) w :=
    Machine.run_of_canAll (by decide +kernel)
  have hnone : w.keys false a = none := by decide +kernel
  have hsession : (w.sessions false).keysets a = none := hnone
  refine ⟨hrun, by decide +kernel, ?_, hnone, fun hkept => ?_⟩
  · simp only [World.step, KvdnSession.peerUpdateHdlr, hsession]
    rfl
  · rw [kept_iff_isSome, hnone] at hkept
    exact nomatch hkept

/-! ## Convergence -/

/-- The tag has been added to the key set of the address. -/
def Added (tr : List (World ι × Event ι)) (strAddr : JString) (p : JString × ℕ) : Prop :=
  ∃ w i, (w, .set i strAddr p.1) ∈ tr ∧ w.tags = p.2

/-- The tag has been observed by a deletion of its key. -/
def Observed (tr : List (World ι × Event ι)) (strAddr : JString) (p : JString × ℕ) : Prop :=
  ∃ w i keys, (w, .del i strAddr p.1) ∈ tr ∧ w.keys i strAddr = some keys ∧ p ∈ keys.observed

/-- A merge with the update has no tag to remove. -/
def Consistent (keys update : ORSet JString ℕ) : Prop :=
  Disjoint (keys.observed ∪ update.observed) (keys.removed ∪ update.removed)

instance (keys update : ORSet JString ℕ) : Decidable (Consistent keys update) :=
  inferInstanceAs (Decidable (Disjoint _ _))

/-- What a key set knows, of what has happened to it in a run. -/
structure Knows (tr : List (World ι × Event ι)) (strAddr : JString) (keys : ORSet JString ℕ) :
    Prop where
  disjoint : Disjoint keys.observed keys.removed
  observed : ∀ p ∈ keys.observed, Added tr strAddr p
  removed : ∀ p ∈ keys.removed, Added tr strAddr p ∧ Observed tr strAddr p

/-- The published key set has been delivered to the session `i`, when it had one. -/
def Merged (tr : List (World ι × Event ι)) (i : ι) (strAddr : JString) (update : ORSet JString ℕ) :
    Prop :=
  ∃ w, (w, .keysync i strAddr update) ∈ tr ∧ (w.keys i strAddr).isSome = true

instance : Decidable (Merged tr i strAddr update) :=
  decidable_of_iff
    (∃ l ∈ tr, l.2 = .keysync i strAddr update ∧ (l.1.keys i strAddr).isSome = true)
    ⟨fun ⟨l, hl, he, hkeys⟩ => ⟨l.1, he ▸ hl, hkeys⟩, fun ⟨_, hw, hkeys⟩ => ⟨_, hw, rfl, hkeys⟩⟩

/-- The key sets of an address, and the messages. -/
structure Synced (tr : List (World ι × Event ι)) (w : World ι) (strAddr : JString) : Prop where
  keys : ∀ i keys, w.keys i strAddr = some keys → Knows tr strAddr keys
  published : ∀ update, (strAddr, update) ∈ w.published → Knows tr strAddr update
  replies : ∀ i update, (i, strAddr, update) ∈ w.replies → Knows tr strAddr update
  tags : ∀ p, Added tr strAddr p → p.2 < w.tags
  /-- What has been added and what has been observed has been published. -/
  added : ∀ p, Added tr strAddr p → ∃ update, (strAddr, update) ∈ w.published ∧
    p ∈ update.observed ∪ update.removed
  deleted : ∀ p, Observed tr strAddr p → ∃ update, (strAddr, update) ∈ w.published ∧
    p ∈ update.removed
  merged : ∀ i update, Merged tr i strAddr update → ∃ keys, w.keys i strAddr = some keys ∧
    update.removed ⊆ keys.removed ∧ update.observed ⊆ keys.observed ∪ keys.removed

section

variable {p : JString × ℕ} {e : Event ι} {keys keys' : ORSet JString ℕ}

omit [DecidableEq ι] in
theorem added_snoc : Added (tr ++ [(w, e)]) strAddr p ↔
    Added tr strAddr p ∨ ∃ i, e = .set i strAddr p.1 ∧ w.tags = p.2 := by
  constructor
  · rintro ⟨w', i, hmem, htag⟩
    rcases List.mem_append.1 hmem with hmem | hmem
    · exact .inl ⟨w', i, hmem, htag⟩
    · obtain ⟨rfl, rfl⟩ := Prod.mk.inj (List.mem_singleton.1 hmem)
      exact .inr ⟨i, rfl, htag⟩
  · rintro (⟨w', i, hmem, htag⟩ | ⟨i, rfl, htag⟩)
    · exact ⟨w', i, List.mem_append_left _ hmem, htag⟩
    · exact ⟨w, i, List.mem_append_right _ (List.mem_singleton_self _), htag⟩

omit [DecidableEq ι] in
theorem observed_snoc : Observed (tr ++ [(w, e)]) strAddr p ↔ Observed tr strAddr p ∨
    ∃ i keys, e = .del i strAddr p.1 ∧ w.keys i strAddr = some keys ∧ p ∈ keys.observed := by
  constructor
  · rintro ⟨w', i, keys, hmem, hkeys⟩
    rcases List.mem_append.1 hmem with hmem | hmem
    · exact .inl ⟨w', i, keys, hmem, hkeys⟩
    · obtain ⟨rfl, rfl⟩ := Prod.mk.inj (List.mem_singleton.1 hmem)
      exact .inr ⟨i, keys, rfl, hkeys⟩
  · rintro (⟨w', i, keys, hmem, hkeys⟩ | ⟨i, keys, rfl, hkeys⟩)
    · exact ⟨w', i, keys, List.mem_append_left _ hmem, hkeys⟩
    · exact ⟨w, i, keys, List.mem_append_right _ (List.mem_singleton_self _), hkeys⟩

omit [DecidableEq ι] in
theorem merged_snoc : Merged (tr ++ [(w, e)]) i strAddr update ↔ Merged tr i strAddr update ∨
    e = .keysync i strAddr update ∧ (w.keys i strAddr).isSome = true := by
  constructor
  · rintro ⟨w', hmem, hkeys⟩
    rcases List.mem_append.1 hmem with hmem | hmem
    · exact .inl ⟨w', hmem, hkeys⟩
    · obtain ⟨rfl, rfl⟩ := Prod.mk.inj (List.mem_singleton.1 hmem)
      exact .inr ⟨rfl, hkeys⟩
  · rintro (⟨w', hmem, hkeys⟩ | ⟨rfl, hkeys⟩)
    · exact ⟨w', List.mem_append_left _ hmem, hkeys⟩
    · exact ⟨w, List.mem_append_right _ (List.mem_singleton_self _), hkeys⟩

omit [DecidableEq ι] in
theorem Knows.empty : Knows tr strAddr {} where
  disjoint := Finset.disjoint_empty_left _
  observed _ hp := absurd hp (Finset.notMem_empty _)
  removed _ hp := absurd hp (Finset.notMem_empty _)

omit [DecidableEq ι] in
theorem Synced.knows (h : Synced tr w strAddr) (hkeys : (w.keys i strAddr).getD {} = keys) :
    Knows tr strAddr keys := by
  cases hi : w.keys i strAddr with
  | none =>
    rw [hi] at hkeys
    exact hkeys ▸ .empty
  | some k =>
    rw [hi] at hkeys
    exact h.keys i keys (hi.trans (congrArg some hkeys))

omit [DecidableEq ι] in
theorem Knows.snoc (h : Knows tr strAddr keys) : Knows (tr ++ [(w, e)]) strAddr keys where
  disjoint := h.disjoint
  observed p hp := added_snoc.2 (.inl (h.observed p hp))
  removed p hp := ⟨added_snoc.2 (.inl (h.removed p hp).1), observed_snoc.2 (.inl (h.removed p hp).2)⟩

/-- What an event makes of the key set of a session for the address: `keys'`, which is
    published if `sent`. -/
structure Changes (tr : List (World ι × Event ι)) (w : World ι) (strAddr : JString) (e : Event ι)
    (i : ι) (keys keys' : ORSet JString ℕ) (sent : Bool) : Prop where
  before : (w.keys i strAddr).getD {} = keys
  after : (w.step e).keys i strAddr = some keys'
  others : ∀ j ≠ i, (w.step e).keys j strAddr = w.keys j strAddr
  published : ∀ update, (strAddr, update) ∈ (w.step e).published →
    (strAddr, update) ∈ w.published ∨ update = keys'
  stays : ∀ update, (strAddr, update) ∈ w.published → (strAddr, update) ∈ (w.step e).published
  isSent : sent = true → (strAddr, keys') ∈ (w.step e).published
  replies : (w.step e).replies = w.replies
  tags : w.tags ≤ (w.step e).tags
  knows : Knows (tr ++ [(w, e)]) strAddr keys'
  grows : keys.removed ⊆ keys'.removed ∧ keys.observed ⊆ keys'.observed ∪ keys'.removed
  added : ∀ p, (∃ i, e = .set i strAddr p.1 ∧ w.tags = p.2) →
    sent = true ∧ p ∈ keys'.observed ∪ keys'.removed ∧ p.2 < (w.step e).tags
  deleted : ∀ p, (∃ i keys, e = .del i strAddr p.1 ∧ w.keys i strAddr = some keys ∧
    p ∈ keys.observed) → sent = true ∧ p ∈ keys'.removed
  merged : ∀ j update, e = .keysync j strAddr update →
    j = i ∧ update.removed ⊆ keys'.removed ∧ update.observed ⊆ keys'.observed ∪ keys'.removed

theorem Synced.change (h : Synced tr w strAddr) {sent : Bool}
    (hc : Changes tr w strAddr e i keys keys' sent) :
    Synced (tr ++ [(w, e)]) (w.step e) strAddr where
  keys j k hk := by
    by_cases hj : j = i
    · subst hj
      obtain rfl : keys' = k := Option.some.inj (hc.after.symm.trans hk)
      exact hc.knows
    · rw [hc.others j hj] at hk
      exact (h.keys j k hk).snoc
  published update hupdate := by
    rcases hc.published update hupdate with hold | rfl
    · exact (h.published update hold).snoc
    · exact hc.knows
  replies j update hupdate := by
    rw [hc.replies] at hupdate
    exact (h.replies j update hupdate).snoc
  tags p hp := by
    rcases added_snoc.1 hp with hold | hnew
    · exact (h.tags p hold).trans_le hc.tags
    · exact (hc.added p hnew).2.2
  added p hp := by
    rcases added_snoc.1 hp with hold | hnew
    · obtain ⟨update, hupdate, hmem⟩ := h.added p hold
      exact ⟨update, hc.stays update hupdate, hmem⟩
    · obtain ⟨hsent, hmem, -⟩ := hc.added p hnew
      exact ⟨keys', hc.isSent hsent, hmem⟩
  deleted p hp := by
    rcases observed_snoc.1 hp with hold | hnew
    · obtain ⟨update, hupdate, hmem⟩ := h.deleted p hold
      exact ⟨update, hc.stays update hupdate, hmem⟩
    · obtain ⟨hsent, hmem⟩ := hc.deleted p hnew
      exact ⟨keys', hc.isSent hsent, hmem⟩
  merged j update hmerged := by
    rcases merged_snoc.1 hmerged with hold | ⟨rfl, -⟩
    · obtain ⟨k, hk, hremoved, hobserved⟩ := h.merged j update hold
      by_cases hj : j = i
      · subst hj
        obtain rfl : k = keys := by rw [← hc.before, hk]; rfl
        refine ⟨keys', hc.after, hremoved.trans hc.grows.1, fun p hp => ?_⟩
        rcases Finset.mem_union.1 (hobserved hp) with hp | hp
        · exact hc.grows.2 hp
        · exact Finset.mem_union_right _ (hc.grows.1 hp)
      · rw [hc.others j hj]
        exact ⟨k, hk, hremoved, hobserved⟩
    · obtain ⟨rfl, hupdate⟩ := hc.merged j update rfl
      exact ⟨keys', hc.after, hupdate⟩

/-- An event that leaves the key sets of the address as they are, and publishes none. -/
theorem Synced.stutter (h : Synced tr w strAddr)
    (hkeys : ∀ j, (w.step e).keys j strAddr = w.keys j strAddr)
    (hpublished : ∀ update, (strAddr, update) ∈ (w.step e).published ↔ (strAddr, update) ∈ w.published)
    (hreplies : ∀ j update, (j, strAddr, update) ∈ (w.step e).replies → Knows tr strAddr update)
    (htags : w.tags ≤ (w.step e).tags) (hset : ∀ i key, e ≠ .set i strAddr key)
    (hdel : ∀ i key, e = .del i strAddr key → w.keys i strAddr = none)
    (hkeysync : ∀ i update, e = .keysync i strAddr update → w.keys i strAddr = none) :
    Synced (tr ++ [(w, e)]) (w.step e) strAddr := by
  have hadded {p : JString × ℕ} : Added (tr ++ [(w, e)]) strAddr p → Added tr strAddr p :=
    fun hp => (added_snoc.1 hp).resolve_right fun ⟨i, he, _⟩ => hset i _ he
  have hobserved {p : JString × ℕ} : Observed (tr ++ [(w, e)]) strAddr p → Observed tr strAddr p :=
    fun hp => (observed_snoc.1 hp).resolve_right fun ⟨i, _, he, hsome, _⟩ =>
      nomatch hsome.symm.trans (hdel i _ he)
  have hmerged {i : ι} {u : ORSet JString ℕ} :
      Merged (tr ++ [(w, e)]) i strAddr u → Merged tr i strAddr u :=
    fun hu => (merged_snoc.1 hu).resolve_right fun ⟨he, hsome⟩ => by
      rw [hkeysync i u he] at hsome
      exact nomatch hsome
  refine ⟨fun j k hk => ?_, fun update hupdate => ?_, fun j update hupdate => ?_, fun p hp => ?_,
    fun p hp => ?_, fun p hp => ?_, fun j update hu => ?_⟩
  · rw [hkeys j] at hk
    exact (h.keys j k hk).snoc
  · exact (h.published update ((hpublished update).1 hupdate)).snoc
  · exact (hreplies j update hupdate).snoc
  · exact (h.tags p (hadded hp)).trans_le htags
  · obtain ⟨update, hupdate, hmem⟩ := h.added p (hadded hp)
    exact ⟨update, (hpublished update).2 hupdate, hmem⟩
  · obtain ⟨update, hupdate, hmem⟩ := h.deleted p (hobserved hp)
    exact ⟨update, (hpublished update).2 hupdate, hmem⟩
  · rw [hkeys j]
    exact h.merged j update (hmerged hu)

@[simp] theorem World.published_setUp : (w.setUp i strAddr).published = w.published := by
  unfold World.setUp
  split <;> rfl

@[simp] theorem World.replies_setUp : (w.setUp i strAddr).replies = w.replies := by
  unfold World.setUp
  split <;> rfl

/-- Only a write and a deletion publish, and to their own address. -/
theorem published_step_of_ne (he : ∀ i key, e ≠ .set i strAddr key ∧ e ≠ .del i strAddr key) :
    (strAddr, update) ∈ (w.step e).published ↔ (strAddr, update) ∈ w.published := by
  have hsnoc {a : JString} (ha : a ≠ strAddr) (keys : ORSet JString ℕ) :
      (strAddr, update) ∈ w.published ++ [(a, keys)] ↔ (strAddr, update) ∈ w.published := by
    simp [ha.symm]
  cases e with
  | set i a key =>
    have ha : a ≠ strAddr := fun heq => (he i key).1 (heq ▸ rfl)
    simpa [World.step, World.publish, World.setKeysets, World.setSession] using hsnoc ha _
  | del i a key =>
    have ha : a ≠ strAddr := fun heq => (he i key).2 (heq ▸ rfl)
    simp only [World.step]
    split
    · exact hsnoc ha _
    · rfl
  | newTx i a | keyreq i k a | keysync i a u =>
    simp only [World.step]
    split <;> rfl
  | reply i a u => rfl

/-- Only a request is replied to. -/
theorem replies_step_of_ne (he : ∀ i j, e ≠ .keyreq i j strAddr) :
    (i, strAddr, update) ∈ (w.step e).replies ↔ (i, strAddr, update) ∈ w.replies := by
  cases e with
  | keyreq i j a =>
    have ha : a ≠ strAddr := fun heq => he i j (heq ▸ rfl)
    simp only [World.step]
    split
    · simp [ha.symm]
    · rfl
  | newTx i a | del i a key | keysync i a u =>
    simp only [World.step]
    split <;> rfl
  | set i a key =>
    simp [World.step, World.publish, World.setKeysets, World.setSession]
  | reply i a u => rfl

theorem tags_step : w.tags ≤ (w.step e).tags := by
  cases e with
  | set i a key => exact Nat.le_succ _
  | newTx i a | del i a key | keyreq i j a | keysync i a u =>
    simp only [World.step]
    split <;> exact le_rfl
  | reply i a u => exact le_rfl

/-- A key is added. -/
theorem Synced.set (h : Synced tr w strAddr) (key : JString)
    (hkeys : (w.keys i strAddr).getD {} = keys) :
    Changes tr w strAddr (.set i strAddr key) i keys (keys.add key w.tags) true := by
  have hknows := h.knows hkeys
  have hstep : w.step (.set i strAddr key) =
      { (w.setUp i strAddr).publish i strAddr (keys.add key w.tags) with tags := w.tags + 1 } := by
    rw [← hkeys]
    rfl
  refine ⟨hkeys, ?_, fun j hj => ?_, fun update hupdate => ?_, fun update hupdate => ?_, fun _ => ?_,
    ?_, ?_, ⟨?_, fun p hp => ?_, fun p hp => ?_⟩, ⟨subset_rfl, fun p hp => ?_⟩,
    fun p ⟨j, he, htag⟩ => ?_, fun p ⟨j, k, he, _⟩ => (nomatch he), fun j update he => (nomatch he)⟩
  · rw [hstep]
    exact keys_setKeysets_self _
  · exact keys_step_of_ne (.inr hj.symm)
  · rw [hstep] at hupdate
    rcases List.mem_append.1 hupdate with hold | hnew
    · exact .inl (by rwa [World.published_setUp] at hold)
    · exact .inr (Prod.mk.inj (List.mem_singleton.1 hnew)).2
  · rw [hstep]
    exact List.mem_append_left _ (by rwa [World.published_setUp])
  · rw [hstep]
    exact List.mem_append_right _ (List.mem_singleton_self _)
  · rw [hstep]
    exact World.replies_setUp
  · rw [hstep]
    exact Nat.le_succ _
  · -- the tag is new
    rw [ORSet.removed_add, Finset.disjoint_left]
    intro p hp hremoved
    rcases ORSet.mem_observed_add.1 hp with rfl | hp
    · exact absurd (h.tags _ (hknows.removed _ hremoved).1) (lt_irrefl _)
    · exact Finset.disjoint_left.1 hknows.disjoint hp hremoved
  · rcases ORSet.mem_observed_add.1 hp with rfl | hp
    · exact added_snoc.2 (.inr ⟨i, rfl, rfl⟩)
    · exact added_snoc.2 (.inl (hknows.observed p hp))
  · exact hknows.snoc.removed p hp
  · exact Finset.mem_union_left _ (ORSet.mem_observed_add.2 (.inr hp))
  · obtain ⟨rfl, -, rfl⟩ := Event.set.inj he
    refine ⟨rfl, Finset.mem_union_left _ (ORSet.mem_observed_add.2 (.inl ?_)), ?_⟩
    · rw [htag]
    · rw [hstep, ← htag]
      exact Nat.lt_succ_self _

/-- A key is removed, with the tags observed. -/
theorem Synced.del (h : Synced tr w strAddr) (key : JString)
    (hkeys : w.keys i strAddr = some keys) :
    Changes tr w strAddr (.del i strAddr key) i keys (keys.remove key) true := by
  have hknows := h.keys i keys hkeys
  have hstep : w.step (.del i strAddr key) = w.publish i strAddr (keys.remove key) :=
    step_del_of_some hkeys
  refine ⟨by rw [hkeys]; rfl, ?_, fun j hj => ?_, fun update hupdate => ?_, fun update hupdate => ?_, fun _ => ?_,
    ?_, ?_, ⟨?_, fun p hp => ?_, fun p hp => ?_⟩, ⟨fun p hp => ?_, fun p hp => ?_⟩,
    fun p ⟨j, he, _⟩ => (nomatch he), fun p ⟨j, k, he, hk, hp⟩ => ?_, fun j update he => (nomatch he)⟩
  · rw [hstep]
    exact keys_setKeysets_self _
  · exact keys_step_of_ne (.inr hj.symm)
  · rw [hstep] at hupdate
    rcases List.mem_append.1 hupdate with hold | hnew
    · exact .inl hold
    · exact .inr (Prod.mk.inj (List.mem_singleton.1 hnew)).2
  · rw [hstep]
    exact List.mem_append_left _ hupdate
  · rw [hstep]
    exact List.mem_append_right _ (List.mem_singleton_self _)
  · rw [hstep]
    rfl
  · rw [hstep]
    exact le_rfl
  · rw [Finset.disjoint_left]
    intro p hp hremoved
    obtain ⟨hp, hne⟩ := ORSet.mem_observed_remove.1 hp
    rcases ORSet.mem_removed_remove.1 hremoved with hremoved | hremoved
    · exact Finset.disjoint_left.1 hknows.disjoint hp hremoved
    · exact hne hremoved.2
  · exact hknows.snoc.observed p (ORSet.mem_observed_remove.1 hp).1
  · rcases ORSet.mem_removed_remove.1 hp with hold | ⟨hobs, hkey⟩
    · exact hknows.snoc.removed p hold
    · exact ⟨hknows.snoc.observed p hobs, observed_snoc.2 (.inr ⟨i, keys, by rw [hkey], hkeys, hobs⟩)⟩
  · exact ORSet.mem_removed_remove.2 (.inl hp)
  · by_cases hkey : p.1 = key
    · exact Finset.mem_union_right _ (ORSet.mem_removed_remove.2 (.inr ⟨hp, hkey⟩))
    · exact Finset.mem_union_left _ (ORSet.mem_observed_remove.2 ⟨hp, hkey⟩)
  · obtain ⟨rfl, -, rfl⟩ := Event.del.inj he
    obtain rfl : keys = k := Option.some.inj (hkeys.symm.trans hk)
    exact ⟨rfl, ORSet.mem_removed_remove.2 (.inr ⟨hp, rfl⟩)⟩

/-- An update is merged which has no tag to remove. -/
theorem Synced.merge (h : Synced tr w strAddr) (hkeys : (w.keys i strAddr).getD {} = keys)
    (hupdate : Knows tr strAddr update) (hc : Consistent keys update)
    (he : e = .reply i strAddr update ∨ e = .keysync i strAddr update)
    (hstep : w.step e = w.setKeysets i
      (Function.update (w.sessions i).keysets strAddr (some (keys.merge update)))) :
    Changes tr w strAddr e i keys (keys.merge update) false := by
  have hknows := h.knows hkeys
  refine ⟨hkeys, ?_, fun j hj => ?_, fun _ hu => .inl ?_, fun _ hu => ?_, nofun,
    ?_, ?_, ⟨hc, fun p hp => ?_, fun p hp => ?_⟩,
    ⟨Finset.subset_union_left, Finset.subset_union_left.trans Finset.subset_union_left⟩,
    fun p ⟨j, hset, _⟩ => ?_, fun p ⟨j, k, hdel, _⟩ => ?_, fun j u hsync => ?_⟩
  · rw [hstep]
    exact keys_setKeysets_self _
  · rw [hstep]
    exact keys_setKeysets_of_ne (.inr hj.symm) _
  · rw [hstep] at hu
    exact hu
  · rw [hstep]
    exact hu
  · rw [hstep]
    rfl
  · rw [hstep]
    exact le_rfl
  · rcases Finset.mem_union.1 hp with hp | hp
    · exact hknows.snoc.observed p hp
    · exact hupdate.snoc.observed p hp
  · rcases Finset.mem_union.1 hp with hp | hp
    · exact hknows.snoc.removed p hp
    · exact hupdate.snoc.removed p hp
  · rcases he with rfl | rfl <;> exact nomatch hset
  · rcases he with rfl | rfl <;> exact nomatch hdel
  · rcases he with rfl | rfl
    · exact nomatch hsync
    · obtain ⟨rfl, -, rfl⟩ := Event.keysync.inj hsync
      exact ⟨rfl, Finset.subset_union_right,
        Finset.subset_union_right.trans Finset.subset_union_left⟩

/-- The event merges no update which has a tag to remove into the key set of the address. -/
def NoConflict (w : World ι) (strAddr : JString) (e : Event ι) : Prop :=
  ∀ i update, e = .reply i strAddr update ∨
    e = .keysync i strAddr update ∧ (w.keys i strAddr).isSome = true →
    Consistent ((w.keys i strAddr).getD {}) update

instance (w : World ι) (strAddr : JString) : ∀ e, Decidable (NoConflict w strAddr e)
  | .reply i a update =>
    decidable_of_iff (a = strAddr → Consistent ((w.keys i strAddr).getD {}) update) <| by
      constructor
      · rintro h j u (he | ⟨he, -⟩)
        · obtain ⟨rfl, rfl, rfl⟩ := Event.reply.inj he
          exact h rfl
        · exact nomatch he
      · rintro h rfl
        exact h i update (.inl rfl)
  | .keysync i a update =>
    decidable_of_iff (a = strAddr → (w.keys i strAddr).isSome = true →
      Consistent ((w.keys i strAddr).getD {}) update) <| by
      constructor
      · rintro h j u (he | ⟨he, hsome⟩)
        · exact nomatch he
        · obtain ⟨rfl, rfl, rfl⟩ := Event.keysync.inj he
          exact h rfl hsome
      · rintro h rfl hsome
        exact h i update (.inr ⟨rfl, hsome⟩)
  | .newTx .. | .set .. | .del .. | .keyreq .. => .isTrue nofun

/-- Every event keeps the key sets synchronised, if a merge has no tag to remove. -/
theorem Synced.step (h : Synced tr w strAddr) (hcan : w.Can e) (hc : NoConflict w strAddr e) :
    Synced (tr ++ [(w, e)]) (w.step e) strAddr := by
  by_cases he : e.strAddr = strAddr
  · -- an event on the address changes the key set of one session, or none
    cases e with
    | newTx i a =>
      exact h.stutter (fun j => keys_newTx a j)
        (fun _ => published_step_of_ne fun i key => ⟨nofun, nofun⟩)
        (fun j u hu => h.replies j u ((replies_step_of_ne nofun).1 hu)) tags_step nofun nofun nofun
    | set i a key =>
      obtain rfl : a = strAddr := he
      exact h.change (h.set key rfl)
    | del i a key =>
      obtain rfl : a = strAddr := he
      cases hkeys : w.keys i a with
      | some keys => exact h.change (h.del key hkeys)
      | none =>
        have hstep : w.step (.del i a key) = w := step_del_of_none hkeys
        refine h.stutter ?_ ?_ ?_ tags_step nofun (fun j k hdel => ?_) nofun
        · exact fun j => by rw [hstep]
        · exact fun u => by rw [hstep]
        · exact fun j u hu => h.replies j u (by rwa [hstep] at hu)
        · obtain ⟨rfl, -, -⟩ := Event.del.inj hdel
          exact hkeys
    | keyreq i j a =>
      obtain rfl : a = strAddr := he
      refine h.stutter (fun k => ?_) (fun _ => published_step_of_ne fun i key => ⟨nofun, nofun⟩)
        (fun k u hu => ?_) tags_step nofun nofun nofun
      · exact keys_keyreq i j k a
      · simp only [World.step] at hu
        split at hu
        · rename_i keys hkeys
          rcases List.mem_append.1 hu with hold | hnew
          · exact h.replies k u hold
          · obtain ⟨-, rfl⟩ : k = i ∧ u = keys := by simpa using hnew
            exact h.keys j u hkeys
        · exact h.replies k u hu
    | reply i a update =>
      obtain rfl : a = strAddr := he
      exact h.change (h.merge rfl (h.replies i update hcan) (hc i update (.inl rfl)) (.inl rfl) rfl)
    | keysync i a update =>
      obtain rfl : a = strAddr := he
      cases hkeys : w.keys i a with
      | some keys =>
        have hcons := hc i update (.inr ⟨rfl, by rw [hkeys]; rfl⟩)
        rw [hkeys] at hcons
        exact h.change (h.merge (by rw [hkeys]) (h.published update hcan.2) hcons (.inr rfl)
          (step_keysync_of_some hkeys))
      | none =>
        have hstep : w.step (.keysync i a update) = w := step_keysync_of_none hkeys
        refine h.stutter ?_ ?_ ?_ tags_step nofun nofun (fun j u hsync => ?_)
        · exact fun j => by rw [hstep]
        · exact fun u => by rw [hstep]
        · exact fun j u hu => h.replies j u (by rwa [hstep] at hu)
        · obtain ⟨rfl, -, -⟩ := Event.keysync.inj hsync
          exact hkeys
  · have hset (i : ι) (key : JString) : e ≠ .set i strAddr key := fun heq => he (heq ▸ rfl)
    have hdel (i : ι) (key : JString) : e ≠ .del i strAddr key := fun heq => he (heq ▸ rfl)
    have hkeyreq (i j : ι) : e ≠ .keyreq i j strAddr := fun heq => he (heq ▸ rfl)
    exact h.stutter (fun _ => keys_step_of_ne (.inl he))
      (fun _ => published_step_of_ne fun i key => ⟨hset i key, hdel i key⟩)
      (fun j u hu => h.replies j u ((replies_step_of_ne hkeyreq).1 hu)) tags_step hset
      (fun i key heq => absurd heq (hdel i key)) fun i u heq => absurd (heq ▸ rfl) he

/-- Nothing has happened to the key sets of the address yet. -/
structure Initial (w₀ : World ι) (strAddr : JString) : Prop where
  keys : ∀ i keys, w₀.keys i strAddr = some keys → keys = {}
  published : ∀ update, (strAddr, update) ∉ w₀.published
  replies : ∀ i update, (i, strAddr, update) ∉ w₀.replies

omit [DecidableEq ι] in
theorem Initial.synced (h : Initial w₀ strAddr) : Synced [] w₀ strAddr where
  keys i keys hkeys := h.keys i keys hkeys ▸ .empty
  published update hupdate := absurd hupdate (h.published update)
  replies i update hupdate := absurd hupdate (h.replies i update)
  tags _ := fun ⟨_, _, hmem, _⟩ => (nomatch hmem)
  added _ := fun ⟨_, _, hmem, _⟩ => (nomatch hmem)
  deleted _ := fun ⟨_, _, _, hmem, _⟩ => (nomatch hmem)
  merged _ _ := fun ⟨_, hmem, _⟩ => (nomatch hmem)

theorem synced (hrun : machine.Run w₀ tr w) (h : Initial w₀ strAddr)
    (hc : ∀ l ∈ tr, NoConflict l.1 strAddr l.2) : Synced tr w strAddr := by
  refine hrun.inv (I := fun tr w => (∀ l ∈ tr, NoConflict l.1 strAddr l.2) → Synced tr w strAddr)
    (fun _ => h.synced) (fun tr w e ih hcan hc => ?_) hc
  refine (ih fun l hl => hc l (List.mem_append_left _ hl)).step hcan ?_
  exact hc _ (List.mem_append_right _ (List.mem_singleton_self _))

omit [DecidableEq ι] in
/-- The tags observed, when all that has been published has been merged. -/
theorem Synced.mem_observed (h : Synced tr w strAddr) (hkeys : w.keys i strAddr = some keys)
    (hmerged : ∀ update, (strAddr, update) ∈ w.published → Merged tr i strAddr update) :
    p ∈ keys.observed ↔ Added tr strAddr p ∧ ¬ Observed tr strAddr p := by
  have hknows := h.keys i keys hkeys
  have hall {update : ORSet JString ℕ} (hu : (strAddr, update) ∈ w.published) :
      update.removed ⊆ keys.removed ∧ update.observed ⊆ keys.observed ∪ keys.removed := by
    obtain ⟨k, hk, hsub⟩ := h.merged i update (hmerged update hu)
    obtain rfl : keys = k := Option.some.inj (hkeys.symm.trans hk)
    exact hsub
  constructor
  · intro hp
    refine ⟨hknows.observed p hp, fun hobs => ?_⟩
    obtain ⟨update, hu, hmem⟩ := h.deleted p hobs
    exact Finset.disjoint_left.1 hknows.disjoint hp ((hall hu).1 hmem)
  · rintro ⟨hadded, hnot⟩
    have hremoved : p ∉ keys.removed := fun hp => hnot (hknows.removed p hp).2
    obtain ⟨update, hu, hmem⟩ := h.added p hadded
    rcases Finset.mem_union.1 hmem with hp | hp
    · exact (Finset.mem_union.1 ((hall hu).2 hp)).resolve_right hremoved
    · exact absurd ((hall hu).1 hp) hremoved

end

namespace World

/-- The answer of `getKeys`, if the session need not ask for it. -/
def getKeys (w : World ι) (i : ι) (strAddr : JString) : Option (Finset JString) :=
  (w.keys i strAddr).map ORSet.get

end World

/-- When all key sets published have been merged by all sessions, and no merge had a tag
    to remove, `getKeys` answers the same on all of them: the keys of which an addition
    has not been observed by a deletion. -/
theorem converges (hrun : machine.Run w₀ tr w) (h₀ : Initial w₀ strAddr)
    (hc : ∀ l ∈ tr, NoConflict l.1 strAddr l.2)
    (hmerged : ∀ update, (strAddr, update) ∈ w.published → ∀ i, Merged tr i strAddr update) :
    (∀ i j S S', w.getKeys i strAddr = some S → w.getKeys j strAddr = some S' → S = S') ∧
    ∀ i S, w.getKeys i strAddr = some S →
      ∀ key, key ∈ S ↔ ∃ tag, Added tr strAddr (key, tag) ∧ ¬ Observed tr strAddr (key, tag) := by
  -- the key sets are told by the history alone, once all updates have been merged
  have hsynced := synced hrun h₀ hc
  have hkeys {i : ι} {S : Finset JString} (hS : w.getKeys i strAddr = some S) (key : JString) :
      key ∈ S ↔ ∃ tag, Added tr strAddr (key, tag) ∧ ¬ Observed tr strAddr (key, tag) := by
    obtain ⟨keys, hkeys, rfl⟩ := Option.map_eq_some_iff.1 hS
    rw [ORSet.mem_get]
    exact exists_congr fun tag => hsynced.mem_observed hkeys fun u hu => hmerged u hu i
  refine ⟨fun i j S S' hS hS' => Finset.ext fun key => ?_, fun i S hS => hkeys hS⟩
  rw [hkeys hS, hkeys hS']

/-- Two sessions write to an address, and hear of each other; both delete one of the keys,
    and hear of this. -/
theorem converges_del_del :
    let k := jstr "k"; let l := jstr "l"; let a := jstr "a"
    let updates : List (ORSet JString ℕ) := [{ observed := {(k, 0)} }, { observed := {(l, 1)} },
      { observed := {(l, 1)}, removed := {(k, 0)} }]
    let es : List (Event Bool) := [.newTx false a, .newTx true a, .set false a k, .set true a l] ++
      [.keysync false a updates[0], .keysync true a updates[0], .keysync false a updates[1],
        .keysync true a updates[1]] ++ [.del false a k, .del true a k] ++
      [.keysync false a updates[2], .keysync true a updates[2]]
    let w₀ : World Bool := { sessions := fun _ => {} }
    let w := es.foldl machine.step w₀
    w.getKeys false a = some {l} ∧ w.getKeys true a = some {l} := by
  intro k l a updates es w₀ w
  have hrun : machine.Run w₀ (machine.trace w₀ es) w :=
    Machine.run_of_canAll (by decide +kernel)
  have hmerged : ∀ m ∈ w.published, m.1 = a → ∀ i, Merged (machine.trace w₀ es) i m.1 m.2 := by
    decide +kernel
  have hinitial : Initial w₀ a := ⟨nofun, nofun, nofun⟩
  have hconv := converges hrun hinitial (by decide +kernel) fun update hu => hmerged _ hu rfl
  have hfalse : w.getKeys false a = some {l} := by decide +kernel
  have htrue : (w.getKeys true a).isSome = true := by decide +kernel
  obtain ⟨S, hS⟩ := Option.isSome_iff_exists.1 htrue
  refine ⟨hfalse, ?_⟩
  rw [hS, hconv.1 false true _ _ hfalse hS]

/-- Both write, and hear of each other; one deletes a key, and both hear of this: the
    other one has the key still. -/
theorem set_del_deliver :
    let k := jstr "k"; let l := jstr "l"; let a := jstr "a"
    let updates : List (ORSet JString ℕ) := [{ observed := {(k, 0)} }, { observed := {(l, 1)} },
      { observed := {(l, 1)}, removed := {(k, 0)} }]
    let es : List (Event Bool) := [.newTx false a, .newTx true a, .set false a k, .set true a l] ++
      [.keysync false a updates[0], .keysync true a updates[0], .keysync false a updates[1],
        .keysync true a updates[1]] ++ [.del false a k] ++
      [.keysync false a updates[2], .keysync true a updates[2]]
    let w₀ : World Bool := { sessions := fun _ => {} }
    let w := es.foldl machine.step w₀
    machine.Run w₀ (machine.trace w₀ es) w ∧ Initial w₀ a ∧
      (∀ update, (a, update) ∈ w.published → ∀ i, Merged (machine.trace w₀ es) i a update) ∧
      w.getKeys false a = some {l} ∧ w.getKeys true a = some {k, l} := by
  intro k l a updates es w₀ w
  have hrun : machine.Run w₀ (machine.trace w₀ es) w :=
    Machine.run_of_canAll (by decide +kernel)
  have hmerged : ∀ m ∈ w.published, m.1 = a → ∀ i, Merged (machine.trace w₀ es) i m.1 m.2 := by
    decide +kernel
  exact ⟨hrun, ⟨nofun, nofun, nofun⟩, fun update hu => hmerged _ hu rfl, by decide +kernel,
    by decide +kernel⟩

end

end Kvdn.KeySync
