import Kvdn.Callback.Outline
import Kvdn.Store

/-!
# What the hooks do

The metadata hook does nothing but look at its cache and open transactions. So if an
outline lets the steps of this kind pass (`Transparent`), then the hook follows it as
soon as the operations do (`Transparent.holds_call`): the code of the hook is looked
into here, for outlines of any kind.
-/

namespace Kvdn

open Callback Callback.Prog AsyncResult

/-- The steps a transaction of the session `s` takes, with those of its hooks: they are
    on the maps of the session. -/
def Permits (s : KvdnSession) : Act → Prop
  | .put m _ _ | .remove m _ | .clear m => m.space = s.D.space
  | .hook _ tx | .op tx _ => tx.session = s
  | _ => True

/-- A hook that a transaction calls: the metadata hook is not called on the metadata map. -/
theorem session_of_hook {tx tx' : KvTx} {op : Op} {g : Progress} {nxt : TXNHook} (h : g.Sound tx op)
    (ha : Progress.allow tx op g (.hook nxt tx')) :
    tx'.session = tx.session ∧ (nxt = .StoreMetaKVHook → tx.strAddr ≠ METADATA_MAP) := by
  obtain ⟨⟨hooks, hg⟩, rfl⟩ := ha
  refine ⟨rfl, ?_⟩
  rintro rfl
  have hcalled : ∃ hooks, .StoreMetaKVHook ∈ tx.called hooks := by
    rw [Progress.Sound] at h
    rcases hg with hg | hg
    · rw [hg] at h
      exact ⟨_, h.2.subset List.mem_cons_self⟩
    · rw [hg] at h
      exact ⟨_, h.2.subset List.mem_cons_self⟩
  obtain ⟨hooks, hmem⟩ := hcalled
  have hnot := (List.mem_filter.1 hmem).2
  simpa [TXNHook.Skipped, TXNHook.getType] using hnot

/-- The steps by which a hook goes about its business. -/
def Act.isHooks : Act → Bool
  | cacheContains _ | cacheAdd _ | cacheRemove _ | commit | newTx _ _ | hook _ _ | op _ _ => true
  | _ => false

/-- The steps of the metadata hook: of the transactions it opens, those on the metadata
    map write, and the others ask for the size. -/
def Nests (s : KvdnSession) : Act → Prop
  | .op tx o => tx.session = s ∧
    match o with
    | .set _ _ | .del _ => tx.strAddr = METADATA_MAP
    | .size => True
    | _ => False
  | .hook _ _ => False
  | _ => True

theorem Nests.permits {s : KvdnSession} {a : Act} (h : Nests s a) (ha : a.isHooks = true) :
    Permits s a := by
  cases a with
  | op tx o => exact h.1
  | hook => exact h.elim
  | put | remove | clear => exact nomatch ha
  | _ => trivial

/-- An outline lets the steps of the metadata hook of a session pass: they are allowed,
    and what they may change is `Keeps`. -/
structure Transparent {γ : Type} (O : Outline Act.Res Exn γ) (s : KvdnSession)
    (Keeps : γ → γ → Prop) : Prop where
  refl : ∀ g, Keeps g g
  trans : ∀ g₁ g₂ g₃, Keeps g₁ g₂ → Keeps g₂ g₃ → Keeps g₁ g₃
  allow : ∀ g a, a.isHooks = true → Nests s a → O.allow g a
  next : ∀ g a r g', a.isHooks = true → O.next g a r g' → Located a r ∧ Keeps g g'
  throws : ∀ g e, O.throws g e

namespace Transparent

variable {γ : Type} {O : Outline Act.Res Exn γ} {s : KvdnSession} {Keeps : γ → γ → Prop} {tx : KvTx}
  {g g' : γ}

/-- What is done after a step that may change `Keeps`. -/
theorem mono {α : Type} (h : Transparent O s Keeps) {p : Prog α} (hg : Keeps g g')
    (hp : p.Holds O (fun g'' _ => Keeps g' g'') g') : p.Holds O (fun g'' _ => Keeps g g'') g' :=
  hp.mono fun g'' _ hg' => h.trans g g' g'' hg hg'

theorem holds_newTx (h : Transparent O s Keeps) (hs : tx.session = s) {sa : JString} (g : γ) :
    (tx.session.newTx sa).Holds O
      (fun g' mtx => Keeps g g' ∧ mtx.session = s ∧ mtx.strAddr = sa) g := by
  unfold KvdnSession.newTx
  split_ifs
  · refine ⟨h.allow g _ rfl trivial, fun mtx g' hnext => ?_⟩
    obtain ⟨⟨hmtx, hsa⟩, hg⟩ := h.next g _ mtx g' rfl hnext
    exact ⟨hg, hmtx.trans hs, hsa⟩
  · exact h.throws g _

theorem holds_storeMeta (h : Transparent O s Keeps) (hs : tx.session = s) (g : γ) :
    (StoreMetaKVHook.storeMeta tx).Holds O (fun g' _ => Keeps g g') g := by
  simp only [StoreMetaKVHook.storeMeta, bind_eq, perform_bind]
  refine ⟨h.allow g _ rfl trivial, fun cached g₁ hnext => h.mono (h.next g _ _ g₁ rfl hnext).2 ?_⟩
  cases (cached : Bool) with
  | true => exact h.refl g₁
  | false =>
    refine holds_bind.2 ((h.holds_newTx hs g₁).mono fun g₂ mtx ⟨hg₂, hmtx⟩ => h.mono hg₂ ?_)
    refine ⟨h.allow g₂ _ rfl hmtx, fun res g₃ hnext => h.mono (h.next g₂ _ _ g₃ rfl hnext).2 ?_⟩
    cases (res : AsyncResult Obj) with
    | failedFuture c => exact h.refl g₃
    | succeededFuture x =>
      exact ⟨h.allow g₃ _ rfl trivial, fun _ g₄ hnext => (h.next g₃ _ _ g₄ rfl hnext).2⟩

theorem holds_remove (h : Transparent O s Keeps) (hs : tx.session = s) (g : γ) :
    (StoreMetaKVHook.remove tx).Holds O (fun g' _ => Keeps g g') g := by
  simp only [StoreMetaKVHook.remove, bind_eq]
  refine holds_bind.2 ((h.holds_newTx hs g).mono fun g₁ mtx ⟨hg₁, hmtx⟩ => h.mono hg₁ ?_)
  refine ⟨h.allow g₁ _ rfl hmtx, fun res g₂ hnext => h.mono (h.next g₁ _ _ g₂ rfl hnext).2 ?_⟩
  cases (res : AsyncResult Obj) with
  | failedFuture c => exact h.refl g₂
  | succeededFuture x =>
    exact ⟨h.allow g₂ _ rfl trivial, fun _ g₃ hnext => (h.next g₂ _ _ g₃ rfl hnext).2⟩

theorem holds_checkIfEmpty (h : Transparent O s Keeps) (hs : tx.session = s) (g : γ) :
    (StoreMetaKVHook.checkIfEmpty tx).Holds O (fun g' _ => Keeps g g') g := by
  simp only [StoreMetaKVHook.checkIfEmpty, bind_eq, perform_bind]
  refine ⟨h.allow g _ rfl trivial, fun cached g₁ hnext => h.mono (h.next g _ _ g₁ rfl hnext).2 ?_⟩
  cases (cached : Bool) with
  | false => exact h.refl g₁
  | true =>
    refine holds_bind.2 ((h.holds_newTx hs g₁).mono fun g₂ ktx ⟨hg₂, hktx⟩ => h.mono hg₂ ?_)
    refine ⟨h.allow g₂ _ rfl ⟨hktx.1, trivial⟩, fun res g₃ hnext => h.mono (h.next g₂ _ _ g₃ rfl hnext).2 ?_⟩
    cases (res : AsyncResult Obj) with
    | failedFuture c => exact h.refl g₃
    | succeededFuture x =>
      by_cases hx : x = .int 0
      · simp only [hx, if_true]
        exact h.holds_remove hs g₃
      · simp only [hx, if_false]
        exact h.refl g₃

/-- The metadata hook. -/
theorem holds_call (h : Transparent O s Keeps) (hs : tx.session = s) (g : γ) :
    (StoreMetaKVHook.call tx).Holds O (fun g' _ => Keeps g g') g := by
  unfold StoreMetaKVHook.call
  split
  · exact h.holds_storeMeta hs g
  · exact h.holds_storeMeta hs g
  · exact h.holds_checkIfEmpty hs g
  · exact h.refl g

end Transparent

/-- The outline of the metadata hook itself. -/
def nesting (s : KvdnSession) : Outline Act.Res Exn Unit where
  allow _ a := a.isHooks = true ∧ Nests s a
  next _ a r _ := Located a r
  throws _ _ := True

/-- The metadata hook follows its outline. -/
theorem holds_call_nesting (tx : KvTx) :
    (StoreMetaKVHook.call tx).Holds (nesting tx.session) (fun _ _ => True) () := by
  have htransparent : Transparent (nesting tx.session) tx.session fun _ _ => True :=
    ⟨fun _ => trivial, fun _ _ _ _ _ => trivial, fun _ _ ha hn => ⟨ha, hn⟩,
      fun _ _ _ _ _ h => ⟨h, trivial⟩, fun _ _ => trivial⟩
  exact htransparent.holds_call rfl ()

end Kvdn
