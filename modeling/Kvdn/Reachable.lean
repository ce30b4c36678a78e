import Kvdn.Completion

/-!
# Reachable worlds

The worlds that the transactions of any sessions, interleaved in any order, lead to from one
in which the sessions are new (`World.Reachable`). There, the flags are those the
constructors have set, none, and every transaction invoked has been created before, so that
the next one is new (`World.Reachable.calm`): a program invokes the transactions only that it
has created itself (`owning`).
-/

namespace Kvdn

open Callback Callback.Prog Callback.Sem AsyncResult

namespace World

/-- A world in which the sessions are new. The maps may have been written to before, by other
    nodes or in an earlier life of the database. -/
structure Initial (w : World) : Prop where
  txflags : ∀ sessionid, w.txflags sessionid = ∅
  straddrCache : ∀ sessionid, w.straddrCache sessionid = []
  dirty : w.dirty = ∅

/-- What any number of transactions lead to, which are at any points of their programs. -/
def Reachable (w : World) : Prop :=
  ∃ (ι : Type) (_ : DecidableEq ι) (c : ι → Request) (w₀ : World) (tr : List (ι × Step))
    (ps : ι → Prog (AsyncResult Obj)),
    w₀.Initial ∧ sem.Pool w₀ (fun i => (c i).transaction) tr w ps

theorem Initial.reachable {w : World} (h : w.Initial) : w.Reachable :=
  ⟨Empty, inferInstance, Empty.elim, w, [], _, h, .init⟩

end World

/-! ## The transactions of a program -/

/-- A transaction that has been created is among `txids`. -/
def Created (txids : Finset ℕ) : (a : Act) → a.Res → Prop
  | .newTx _ _, (tx : KvTx) => tx.txid ∈ txids
  | _, _ => True

/-- The outline of a program that invokes the transactions only that it has created, the ones
    of its hooks included. -/
def owning : Outline Act.Res Exn (Finset ℕ) where
  allow txids
    | .dirty txid => txid ∈ txids
    | .op tx _ => tx.txid ∈ txids
    | _ => True
  next txids a r txids' := txids ⊆ txids' ∧ Created txids' a r
  throws _ _ := True

section

variable {tx : KvTx} {txids : Finset ℕ}

theorem holds_newTx_owning (s : KvdnSession) (sa : JString) :
    (s.newTx sa).Holds owning (fun txids' mtx => txids ⊆ txids' ∧ mtx.txid ∈ txids') txids := by
  unfold KvdnSession.newTx
  split_ifs
  · exact ⟨trivial, fun mtx txids' h => h⟩
  · trivial

/-- An operation of a transaction that has been created. -/
theorem holds_run_owning (op : Op) (htx : tx.txid ∈ txids) :
    (tx.run op).Holds owning (fun txids' _ => txids ⊆ txids') txids := by
  refine (Progress.holds_run tx op).refine (fun _ txids' => txids ⊆ txids') ?_ ?_
    (fun _ _ _ _ _ => trivial) (fun _ _ _ h _ => h) (Finset.Subset.refl _)
  · intro g txids' a hsub ha
    cases a with
    | dirty txid =>
      obtain ⟨-, rfl⟩ := ha
      exact hsub htx
    | op => exact ha.elim
    | _ => trivial
  · exact fun g txids' a r txids'' hsub _ h => ⟨_, rfl, hsub.trans h.1⟩

theorem holds_storeMeta_owning :
    (StoreMetaKVHook.storeMeta tx).Holds owning (fun txids' _ => txids ⊆ txids') txids := by
  simp only [StoreMetaKVHook.storeMeta, bind_eq, perform_bind]
  refine ⟨trivial, ?_⟩
  rintro cached txids₁ ⟨h₁, -⟩
  cases (cached : Bool) with
  | true => exact h₁
  | false =>
    refine holds_bind.2 ((holds_newTx_owning _ _).mono ?_)
    rintro txids₂ mtx ⟨h₂, hmtx⟩
    refine ⟨hmtx, ?_⟩
    rintro res txids₃ ⟨h₃, -⟩
    have hsub := h₁.trans (h₂.trans h₃)
    cases (res : AsyncResult Obj) with
    | failedFuture c => exact hsub
    | succeededFuture x => exact ⟨trivial, fun _ txids₄ h₄ => hsub.trans h₄.1⟩

theorem holds_remove_owning :
    (StoreMetaKVHook.remove tx).Holds owning (fun txids' _ => txids ⊆ txids') txids := by
  simp only [StoreMetaKVHook.remove, bind_eq]
  refine holds_bind.2 ((holds_newTx_owning _ _).mono ?_)
  rintro txids₁ mtx ⟨h₁, hmtx⟩
  refine ⟨hmtx, ?_⟩
  rintro res txids₂ ⟨h₂, -⟩
  have hsub := h₁.trans h₂
  cases (res : AsyncResult Obj) with
  | failedFuture c => exact hsub
  | succeededFuture x => exact ⟨trivial, fun _ txids₃ h₃ => hsub.trans h₃.1⟩

theorem holds_checkIfEmpty_owning :
    (StoreMetaKVHook.checkIfEmpty tx).Holds owning (fun txids' _ => txids ⊆ txids') txids := by
  simp only [StoreMetaKVHook.checkIfEmpty, bind_eq, perform_bind]
  refine ⟨trivial, ?_⟩
  rintro cached txids₁ ⟨h₁, -⟩
  cases (cached : Bool) with
  | false => exact h₁
  | true =>
    refine holds_bind.2 ((holds_newTx_owning _ _).mono ?_)
    rintro txids₂ ktx ⟨h₂, hktx⟩
    refine ⟨hktx, ?_⟩
    rintro res txids₃ ⟨h₃, -⟩
    have hsub := h₁.trans (h₂.trans h₃)
    cases (res : AsyncResult Obj) with
    | failedFuture c => exact hsub
    | succeededFuture x =>
      by_cases hx : x = .int 0
      · simp only [hx, if_true]
        exact holds_remove_owning.mono fun _ _ h₄ => hsub.trans h₄
      · simp only [hx, if_false]
        exact hsub

theorem verified_owning : owning.Verified sem := by
  intro a q hb txids ha
  cases a with
  | hook h tx =>
    cases h with
    | StoreMetaKVHook =>
      obtain rfl : StoreMetaKVHook.call tx = q := Option.some.inj hb
      refine Holds.mono (Q := fun txids' _ => txids ⊆ txids') ?_ fun _ _ h => ⟨h, trivial⟩
      unfold StoreMetaKVHook.call
      split
      · exact holds_storeMeta_owning
      · exact holds_storeMeta_owning
      · exact holds_checkIfEmpty_owning
      · exact Finset.Subset.refl _
    | MapdbPostTXHook =>
      obtain rfl : MapdbPostTXHook.call = q := Option.some.inj hb
      exact ⟨trivial, fun _ _ h => h⟩
    | other n type => cases hb
  | op tx o =>
    obtain rfl : tx.run o = q := Option.some.inj hb
    exact (holds_run_owning o ha).mono fun _ _ h => ⟨h, trivial⟩
  | _ => cases hb

theorem holds_transaction_owning (c : Request) :
    c.transaction.Holds owning (fun _ _ => True) txids := by
  refine holds_bind.2 ((holds_newTx_owning _ _).mono fun txids' tx htx => ?_)
  exact (holds_run_owning c.op htx.2).mono fun _ _ _ => trivial

end

/-! ## Reachable worlds -/

/-- What is known of a world and of the transactions created by each program. -/
structure Accounted {ι : Type} (w : World) (txids : ι → Finset ℕ) : Prop where
  txflags : ∀ sessionid, w.txflags sessionid = ∅
  created : ∀ i, ∀ txid ∈ txids i, txid < w.uuids
  dirty : ∀ txid ∈ w.dirty, txid < w.uuids

theorem Accounted.step {ι : Type} [DecidableEq ι] {w : World} {txids : ι → Finset ℕ} {i : ι}
    (h : Accounted w txids) {a : Act} {r : a.Res} (ha : owning.allow (txids i) a)
    (hok : w.ok a r) : ∃ txids', owning.next (txids i) a r txids' ∧
      Accounted (w.eff a r) (Function.update txids i txids') := by
  have hflags : ∀ sessionid, (w.eff a r).txflags sessionid = ∅ := by
    rw [World.txflags_eff]
    exact h.txflags
  have hkeep (hcreated : Created (txids i) a r)
      (hdirty : ∀ txid ∈ (w.eff a r).dirty, txid < (w.eff a r).uuids) :
      ∃ txids', owning.next (txids i) a r txids' ∧
        Accounted (w.eff a r) (Function.update txids i txids') := by
    refine ⟨txids i, ⟨Finset.Subset.refl _, hcreated⟩, hflags, fun j txid hmem => ?_, hdirty⟩
    rw [Function.update_eq_self] at hmem
    exact (h.created j txid hmem).trans_le World.uuids_le_eff
  have hclean (hd : ∀ txid, a ≠ .dirty txid) :
      ∀ txid ∈ (w.eff a r).dirty, txid < (w.eff a r).uuids := by
    rw [World.dirty_eff hd]
    exact fun txid hmem => (h.dirty txid hmem).trans_le World.uuids_le_eff
  cases a with
  | dirty txid =>
    refine hkeep trivial fun txid' hmem => ?_
    rcases Finset.mem_insert.1 hmem with rfl | hmem
    · exact h.created i _ ha
    · exact h.dirty txid' hmem
  | newTx s sa =>
    obtain rfl : r = { txid := w.uuids, session := s, strAddr := sa } := hok
    refine ⟨insert w.uuids (txids i), ⟨Finset.subset_insert .., Finset.mem_insert_self ..⟩, hflags,
      fun j txid hmem => ?_, hclean fun _ heq => by cases heq⟩
    show txid < w.uuids + 1
    by_cases hj : j = i
    · subst hj
      rw [Function.update_self] at hmem
      rcases Finset.mem_insert.1 hmem with rfl | hmem
      · exact Nat.lt_succ_self _
      · exact Nat.lt_succ_of_lt (h.created j txid hmem)
    · rw [Function.update_of_ne hj] at hmem
      exact Nat.lt_succ_of_lt (h.created j txid hmem)
  | _ => exact hkeep trivial (hclean fun _ heq => by cases heq)

/-- In a reachable world nothing is refused, and the next transaction is new. -/
theorem World.Reachable.calm {w : World} (h : w.Reachable) (s : KvdnSession) : Calm s 0 w := by
  obtain ⟨ι, _, c, w₀, tr, ps, hw₀, hpool⟩ := h
  have hinit : Accounted w₀ fun _ : ι => ∅ := by
    refine ⟨hw₀.txflags, fun _ _ hmem => absurd hmem (Finset.notMem_empty _), fun _ hmem => ?_⟩
    rw [hw₀.dirty] at hmem
    exact absurd hmem (Finset.notMem_empty _)
  have hkeeps : Outline.KeepsPool (fun _ : ι => owning) sem fun _ w txids => Accounted w txids :=
    fun _ _ _ _ _ _ hacc _ ha hok => hacc.step ha hok
  obtain ⟨txids, hacc, -⟩ := hpool.holds (fun _ => verified_owning) hkeeps hinit
    fun i => holds_transaction_owning (c i)
  refine ⟨fun mode => ?_, hacc.dirty, Nat.zero_le _⟩
  rw [hacc.txflags]
  exact Finset.notMem_empty _

/-- What a transaction leads to from a reachable world is reachable: it is one more
    transaction of the pool. -/
theorem World.Reachable.of_runs {w w' : World} {c : Request} {tr : List Step}
    {p : Prog (AsyncResult Obj)} (h : w.Reachable) (hruns : sem.Runs w c.transaction tr w' p) :
    w'.Reachable := by
  obtain ⟨ι, _, cs, w₀, tr₀, ps, hw₀, hpool⟩ := h
  have hpool' := (hpool.extend c.transaction).runs (i := none) hruns rfl
  have hps : (fun i : Option ι => i.elim c.transaction fun i => (cs i).transaction) =
      fun i : Option ι => (i.elim c cs).transaction := by
    funext i
    cases i <;> rfl
  rw [hps] at hpool'
  exact ⟨Option ι, inferInstance, fun i => i.elim c cs, w₀, _, _, hw₀, hpool'⟩

/-- So is what a serial run leads to. -/
theorem World.Reachable.of_serial {w w' : World} {ts : List (Turn Request World (AsyncResult Obj))}
    (h : w.Reachable) (hserial : sem.Serial Request.transaction w ts w') : w'.Reachable :=
  (hserial.inv (C := fun _ => True) (fun _ _ _ _ _ hw _ hruns => hw.of_runs hruns)
    (fun _ _ => trivial) h).1

end Kvdn
