import Kvdn.Replication.Objects
import Mathlib.Algebra.BigOperators.Group.Finset.Basic
import Mathlib.Algebra.Order.BigOperators.Group.Finset
import Mathlib.Data.Finset.Powerset
import Mathlib.Order.Lattice.Nat

/-!
# Replicated counts

Objects that count their updates, each under a key, and of which a merge keeps the greater
count of every key (`Counts`). Two updates of a key that have not seen each other count as
one once they are merged: what an object counts is the longest chain of the updates it has
seen (`Counts.count_eq`), so that objects which have seen the same count the same. An
object never counts more updates than it has seen, and counts all of them if, and only if,
of every two that have the same key one had seen the other (`chain_eq_card_iff`,
`Counts.sum_iff`).

This is so if every key is left to one object (`ordered_of_owner`).
-/

namespace Replication

variable {ι σ υ T : Type} [DecidableEq T]

/-- The objects of a class count: an update adds one to the count of its key, as long as
    the count is below `bound`, and a merge keeps the greater counts. -/
structure Counts (R : Replicated σ υ) (T : Type) [DecidableEq T] (bound : ℕ) where
  key : υ → T
  count : σ → T → ℕ
  /-- What holds of the objects as long as no count has exceeded the bound. -/
  Good : σ → Prop
  good_new : Good R.new
  count_new : ∀ k, count R.new k = 0
  update : ∀ {n x u y}, Good x → count x (key u) < bound → R.update n u x = some y →
    Good y ∧ count y = Function.update (count x) (key u) (count x (key u) + 1)
  merge : ∀ {x y}, Good x → Good y →
    Good (R.merge x y) ∧ ∀ k, count (R.merge x y) k = max (count x k) (count y k)

/-! ## Chains -/

/-- The length of the longest chain of the updates `U`, in which of every two one had seen
    the other. -/
def chain (log : List (Entry υ)) (U : Finset ℕ) : ℕ :=
  (U.powerset.filter (Ordered log)).sup Finset.card

section

variable {log : List (Entry υ)} {p : υ → Prop} [DecidablePred p] {K K' U V : Finset ℕ}

theorem card_le_chain (hsub : V ⊆ U) (hord : Ordered log V) : V.card ≤ chain log U :=
  Finset.le_sup (f := Finset.card) (Finset.mem_filter.2 ⟨Finset.mem_powerset.2 hsub, hord⟩)

theorem exists_chain (log : List (Entry υ)) (U : Finset ℕ) :
    ∃ V ⊆ U, Ordered log V ∧ chain log U = V.card := by
  have hempty : ∅ ∈ U.powerset.filter (Ordered log) :=
    Finset.mem_filter.2 ⟨Finset.empty_mem_powerset U, fun m hm => absurd hm (Finset.notMem_empty m)⟩
  obtain ⟨V, hV, hcard⟩ := Finset.exists_mem_eq_sup _ ⟨∅, hempty⟩ Finset.card
  obtain ⟨hsub, hord⟩ := Finset.mem_filter.1 hV
  exact ⟨V, Finset.mem_powerset.1 hsub, hord, hcard⟩

theorem chain_mono (h : U ⊆ V) : chain log U ≤ chain log V := by
  obtain ⟨W, hsub, hord, hcard⟩ := exists_chain log U
  rw [hcard]
  exact card_le_chain (hsub.trans h) hord

theorem chain_le_card : chain log U ≤ U.card := by
  obtain ⟨V, hsub, -, hcard⟩ := exists_chain log U
  rw [hcard]
  exact Finset.card_le_card hsub

theorem chain_eq_card_iff : chain log U = U.card ↔ Ordered log U := by
  refine ⟨fun h => ?_, fun h => le_antisymm chain_le_card (card_le_chain (Finset.Subset.refl U) h)⟩
  obtain ⟨V, hsub, hord, hcard⟩ := exists_chain log U
  rwa [Finset.eq_of_subset_of_card_le hsub (by rw [← h, hcard])] at hord

theorem chain_pos (h : U.Nonempty) : 0 < chain log U := by
  obtain ⟨n, hn⟩ := h
  have hone : ({n} : Finset ℕ).card ≤ chain log U := by
    refine card_le_chain (Finset.singleton_subset_iff.2 hn) fun m hm m' hm' => .inl ?_
    rw [Finset.mem_singleton.1 hm, Finset.mem_singleton.1 hm']
  exact hone

@[simp] theorem chain_empty : chain log ∅ = 0 := Nat.le_zero.1 chain_le_card

theorem chain_append {l : List (Entry υ)} (hU : ∀ n ∈ U, n < log.length) :
    chain (log ++ l) U = chain log U := by
  unfold chain
  congr 1
  refine Finset.filter_congr fun V hV => ordered_append fun n hn => ?_
  exact hU n (Finset.mem_powerset.1 hV hn)

/-- An update that has seen a chain comes after it. -/
theorem ordered_insert (hU : ∀ n ∈ U, n < log.length) (hsub : U ⊆ K) (hord : Ordered log U)
    (u : υ) :
    Ordered (log ++ [⟨u, K⟩]) (insert log.length U) := by
  rw [← ordered_append (l := [⟨u, K⟩]) hU] at hord
  have hlast {n : ℕ} (hn : n ∈ U) : n ∈ seenBy (log ++ [⟨u, K⟩]) log.length := by
    rw [seenBy_snoc_self]
    exact hsub hn
  intro m hm n hn
  rcases Finset.mem_insert.1 hm with rfl | hm
  · rcases Finset.mem_insert.1 hn with rfl | hn
    · exact .inl rfl
    · exact .inr (.inr (hlast hn))
  · rcases Finset.mem_insert.1 hn with rfl | hn
    · exact .inr (.inl (hlast hm))
    · exact hord m hm n hn

/-- An update that has seen a chain makes it longer. -/
theorem chain_insert (hU : ∀ n ∈ U, n < log.length) (hsub : U ⊆ K) (u : υ) :
    chain (log ++ [⟨u, K⟩]) (insert log.length U) = chain log U + 1 := by
  have hfresh : log.length ∉ U := fun hmem => lt_irrefl _ (hU _ hmem)
  apply le_antisymm
  · obtain ⟨V, hV, hord, hcard⟩ := exists_chain (log ++ [⟨u, K⟩]) (insert log.length U)
    rw [hcard, ← chain_append (l := [⟨u, K⟩]) hU]
    -- without the new update, a chain of the old ones is left
    have hold : (V.erase log.length).card ≤ chain (log ++ [⟨u, K⟩]) U := by
      refine card_le_chain (fun n hn => ?_) (hord.mono (Finset.erase_subset ..))
      obtain ⟨hne, hn⟩ := Finset.mem_erase.1 hn
      exact (Finset.mem_insert.1 (hV hn)).resolve_left hne
    have hpred := Finset.pred_card_le_card_erase (s := V) (a := log.length)
    omega
  · obtain ⟨V, hV, hord, hcard⟩ := exists_chain log U
    rw [hcard, ← Finset.card_insert_of_notMem fun hmem => hfresh (hV hmem)]
    exact card_le_chain (Finset.insert_subset_insert _ hV)
      (ordered_insert (fun n hn => hU n (hV hn)) (hV.trans hsub) hord u)

/-- A chain of what two objects know of is known to one of them. -/
theorem chain_union (h : Closed log K) (h' : Closed log K') :
    chain log (about log p (K ∪ K')) =
      max (chain log (about log p K)) (chain log (about log p K')) := by
  apply le_antisymm
  · obtain ⟨V, hV, hord, hcard⟩ := exists_chain log (about log p (K ∪ K'))
    rw [about_union] at hV
    have hknown : V ⊆ about log p K ∨ V ⊆ about log p K' := by
      by_contra hnot
      rw [not_or, Finset.not_subset, Finset.not_subset] at hnot
      obtain ⟨⟨n, hn, hnK⟩, m, hm, hmK'⟩ := hnot
      have hn' := (Finset.mem_union.1 (hV hn)).resolve_left hnK
      have hm' := (Finset.mem_union.1 (hV hm)).resolve_right hmK'
      have hnK : n ∉ K := fun hmem => hnK (mem_about.2 ⟨hmem, (mem_about.1 hn').2⟩)
      have hmK' : m ∉ K' := fun hmem => hmK' (mem_about.2 ⟨hmem, (mem_about.1 hm').2⟩)
      -- whichever has seen the other, what it had seen has come with it
      rcases hord m hm n hn with rfl | hseen | hseen
      · exact hnK (about_subset hm')
      · exact hmK' (h'.seenBy_subset n (about_subset hn') hseen)
      · exact hnK (h.seenBy_subset m (about_subset hm') hseen)
    rw [hcard, le_max_iff]
    exact hknown.imp (card_le_chain · hord) (card_le_chain · hord)
  · exact max_le (chain_mono (about_mono Finset.subset_union_left))
      (chain_mono (about_mono Finset.subset_union_right))

end

/-! ## Counts -/

namespace Counts

variable {R : Replicated σ υ} {bound : ℕ} (C : Counts R T bound)

/-- The updates of the key `k` that an object knows of. -/
abbrev updates (log : List (Entry υ)) (k : T) (K : Finset ℕ) : Finset ℕ :=
  about log (fun u => C.key u = k) K

/-- What an object that has seen `K` counts. -/
def Counted (log : List (Entry υ)) (K : Finset ℕ) (x : σ) : Prop :=
  C.Good x ∧ ∀ k, C.count x k = chain log (C.updates log k K)

variable {C} {log : List (Entry υ)} {K K' : Finset ℕ} {x y : σ}

theorem counted_new : C.Counted [] ∅ R.new :=
  ⟨C.good_new, fun k => (C.count_new k).trans chain_empty.symm⟩

theorem Counted.snoc (h : C.Counted log K x) (hK : Closed log K) (e : Entry υ) :
    C.Counted (log ++ [e]) K x := by
  refine ⟨h.1, fun k => ?_⟩
  rw [updates, about_append hK.lt, chain_append fun n hn => hK.lt n (about_subset hn)]
  exact h.2 k

theorem Counted.update (h : C.Counted log K x) (hK : Closed log K) {u : υ}
    (hbound : log.length < bound) (hy : R.update log.length u x = some y) :
    C.Counted (log ++ [⟨u, K⟩]) (insert log.length K) y := by
  have hlt : C.count x (C.key u) < bound := by
    rw [h.2]
    exact (chain_le_card.trans (Finset.card_le_card about_subset)).trans_lt
      (hK.card_le.trans_lt hbound)
  obtain ⟨hgood, hcount⟩ := C.update h.1 hlt hy
  have hknown (k : T) : ∀ n ∈ C.updates log k K, n < log.length :=
    fun n hn => hK.lt n (about_subset hn)
  refine ⟨hgood, fun k => ?_⟩
  rw [hcount, updates, about_snoc_insert hK.lt]
  split_ifs with hk
  · subst hk
    rw [Function.update_self, h.2, chain_insert (hknown _) about_subset]
  · rw [Function.update_of_ne (Ne.symm hk), h.2, chain_append (hknown k)]

theorem Counted.merge (h : C.Counted log K x) (h' : C.Counted log K' y) (hK : Closed log K)
    (hK' : Closed log K') : C.Counted log (K ∪ K') (R.merge x y) := by
  obtain ⟨hgood, hcount⟩ := C.merge h.1 h'.1
  refine ⟨hgood, fun k => ?_⟩
  rw [hcount, updates, chain_union hK hK', h.2, h'.2]

/-! ## Programs -/

variable [DecidableEq ι] (C) {calls : List (Call ι υ)}

/-- What the objects of a program count, as long as no more updates than the bound have been
    made. -/
theorem counted_run (hbound : (R.run calls).log.length ≤ bound) (i : ι) :
    Closed (R.run calls).log ((R.run calls).seen i) ∧
      C.Counted (R.run calls).log ((R.run calls).seen i) ((R.run calls).objects i) := by
  have hlength {log : List (Entry υ)} {e : Entry υ} (h : (log ++ [e]).length ≤ bound) :
      log.length < bound := by
    rwa [List.length_append, List.length_singleton, Nat.add_one_le_iff] at h
  have h := Replicated.run_objects (R := R)
    (I := fun log K x => log.length ≤ bound → C.Counted log K x)
    (fun _ => counted_new) (fun log K x e hK h hlen => (h (hlength hlen).le).snoc hK e)
    (fun log K x u y hK h hy hlen => (h (hlength hlen).le).update hK (hlength hlen) hy)
    (fun log K K' x y hK hK' h h' hlen => (h hlen).merge (h' hlen) hK hK') calls i
  exact ⟨h.1, h.2 hbound⟩

/-- An object counts the longest chain of the updates of a key it has seen. -/
theorem count_eq (hbound : (R.run calls).log.length ≤ bound) (i : ι) (k : T) :
    C.count ((R.run calls).objects i) k =
      chain (R.run calls).log (C.updates (R.run calls).log k ((R.run calls).seen i)) :=
  (C.counted_run hbound i).2.2 k

/-- The sum of the counts of an object, over the keys meeting `q` that it counts. -/
theorem sum_iff (hbound : (R.run calls).log.length ≤ bound) (i : ι) (q : T → Prop) [DecidablePred q]
    {s : Finset T} (hs : ∀ k, k ∈ s ↔ q k ∧ 0 < C.count ((R.run calls).objects i) k) :
    let w := R.run calls
    ∑ k ∈ s, C.count (w.objects i) k ≤ (about w.log (fun u => q (C.key u)) (w.seen i)).card ∧
      (∑ k ∈ s, C.count (w.objects i) k = (about w.log (fun u => q (C.key u)) (w.seen i)).card ↔
        ∀ k, q k → Ordered w.log (C.updates w.log k (w.seen i))) := by
  intro w
  have hcount := C.count_eq hbound i
  -- every update seen is one of some key of `s`
  have hcover : about w.log (fun u => q (C.key u)) (w.seen i) =
      s.biUnion fun k => C.updates w.log k (w.seen i) := by
    ext n
    simp only [Finset.mem_biUnion, mem_about]
    constructor
    · rintro ⟨hn, e, he, hq⟩
      have hmem : n ∈ C.updates w.log (C.key e.update) (w.seen i) := mem_about.2 ⟨hn, e, he, rfl⟩
      refine ⟨_, (hs _).2 ⟨hq, ?_⟩, hn, e, he, rfl⟩
      rw [hcount]
      exact chain_pos ⟨n, hmem⟩
    · rintro ⟨k, hk, hn, e, he, rfl⟩
      exact ⟨hn, e, he, ((hs _).1 hk).1⟩
  have hdisjoint : (s : Set T).PairwiseDisjoint fun k => C.updates w.log k (w.seen i) := by
    intro k _ k' _ hne
    refine Finset.disjoint_left.2 fun n hn hn' => hne ?_
    obtain ⟨-, e, he, rfl⟩ := mem_about.1 hn
    obtain ⟨-, e', he', rfl⟩ := mem_about.1 hn'
    rw [Option.some.inj (he.symm.trans he')]
  rw [hcover, Finset.card_biUnion hdisjoint]
  have hle : ∀ k ∈ s, C.count (w.objects i) k ≤ (C.updates w.log k (w.seen i)).card := by
    intro k _
    rw [hcount]
    exact chain_le_card
  refine ⟨Finset.sum_le_sum hle, ?_⟩
  rw [Finset.sum_eq_sum_iff_of_le hle]
  have hiff (k : T) : C.count (w.objects i) k = (C.updates w.log k (w.seen i)).card ↔
      Ordered w.log (C.updates w.log k (w.seen i)) := by
    rw [hcount, chain_eq_card_iff]
  refine ⟨fun h k hq => ?_, fun h k hk => (hiff k).2 (h k ((hs k).1 hk).1)⟩
  by_cases hk : k ∈ s
  · exact (hiff k).1 (h k hk)
  · -- a key that is not counted has no update
    have hnone : C.updates w.log k (w.seen i) = ∅ := by
      refine Finset.not_nonempty_iff_eq_empty.1 fun hne => hk ((hs k).2 ⟨hq, ?_⟩)
      rw [hcount]
      exact chain_pos hne
    rw [hnone]
    exact fun m hm => absurd hm (Finset.notMem_empty m)

/-- An object that is not assigned a copy never counts less than it has. -/
theorem count_mono {later : List (Call ι υ)} {i : ι} (hcopy : ∀ j, .copy i j ∉ later)
    (hbound : (R.run (calls ++ later)).log.length ≤ bound) (k : T) :
    C.count ((R.run calls).objects i) k ≤ C.count ((R.run (calls ++ later)).objects i) k := by
  obtain ⟨l, hlog, hseen⟩ := R.run_append calls later
  have hshort : (R.run calls).log.length ≤ bound := by
    rw [hlog, List.length_append] at hbound
    exact (Nat.le_add_right ..).trans hbound
  have hlt := (C.counted_run hshort i).1.lt
  rw [C.count_eq hshort, C.count_eq hbound, hlog,
    ← chain_append (l := l) fun n hn => hlt n (about_subset hn), ← about_append (l := l) hlt]
  exact chain_mono (about_mono (hseen i hcopy))

end Counts

/-! ## Owners -/

/-- Updates of a key are made on its owner only, and no owner is assigned a copy. -/
def Call.Respects (key : υ → T) (owner : T → ι) : Call ι υ → Prop
  | .update i u => i = owner (key u)
  | .merge _ _ => True
  | .copy i _ => ∀ k, owner k ≠ i

/-- The owner of a key has seen all its updates, each of which had seen those before it. -/
theorem ordered_of_owner [DecidableEq ι] {R : Replicated σ υ} {key : υ → T} {owner : T → ι}
    {calls : List (Call ι υ)} (h : ∀ c ∈ calls, c.Respects key owner) (i : ι) (k : T) :
    Ordered (R.run calls).log
      (about (R.run calls).log (fun u => key u = k) ((R.run calls).seen i)) := by
  -- what has been made of each key is a chain, and its owner has seen it
  have hinv : ∀ k,
      Ordered (R.run calls).log (about (R.run calls).log (fun u => key u = k)
        (Finset.range (R.run calls).log.length)) ∧
      about (R.run calls).log (fun u => key u = k) (Finset.range (R.run calls).log.length) ⊆
        (R.run calls).seen (owner k) := by
    induction calls using List.reverseRecOn with
    | nil => exact fun k => ⟨fun m hm => absurd hm (by simp [about]), by simp [about]⟩
    | append_singleton calls c ih =>
      rw [List.forall_mem_append, List.forall_mem_singleton] at h
      obtain ⟨hcalls, hc⟩ := h
      have ih := ih hcalls
      rw [Replicated.run_snoc]
      generalize R.run calls = w at ih
      rcases c with ⟨j, u⟩ | ⟨j, l⟩ | ⟨j, l⟩
      · cases hu : R.update w.log.length u (w.objects j) with
        | none => simpa only [Replicated.step, hu] using ih
        | some x =>
          intro k
          obtain ⟨hord, hsub⟩ := ih k
          have hlt : ∀ n ∈ Finset.range w.log.length, n < w.log.length :=
            fun n => Finset.mem_range.1
          have hlt' : ∀ n ∈ about w.log (fun u => key u = k) (Finset.range w.log.length),
              n < w.log.length := fun n hn => hlt n (about_subset hn)
          simp only [Replicated.step, hu]
          rw [List.length_append, List.length_singleton, Finset.range_add_one, about_snoc_insert hlt]
          split_ifs with hk
          · obtain rfl : j = owner k := hk ▸ hc
            rw [Function.update_self]
            exact ⟨ordered_insert hlt' hsub hord u, Finset.insert_subset_insert _ hsub⟩
          · refine ⟨(ordered_append hlt').2 hord, hsub.trans ?_⟩
            by_cases hj : owner k = j
            · rw [hj, Function.update_self]
              exact Finset.subset_insert ..
            · rw [Function.update_of_ne hj]
      · refine fun k => ⟨(ih k).1, (ih k).2.trans ?_⟩
        simp only [Replicated.step]
        by_cases hj : owner k = j
        · rw [hj, Function.update_self]
          exact Finset.subset_union_left
        · rw [Function.update_of_ne hj]
      · refine fun k => ⟨(ih k).1, ?_⟩
        simp only [Replicated.step]
        rw [Function.update_of_ne (hc k)]
        exact (ih k).2
  have hclosed := (Replicated.run_objects (R := R) (I := fun _ _ _ => True) trivial
    (fun _ _ _ _ _ _ => trivial) (fun _ _ _ _ _ _ _ _ => trivial)
    (fun _ _ _ _ _ _ _ _ _ => trivial) calls i).1
  exact (hinv k).1.mono (about_mono fun n hn => Finset.mem_range.2 (hclosed.lt n hn))

end Replication
