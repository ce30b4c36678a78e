import Mathlib.Data.Finset.Basic
import Mathlib.Data.Finset.Card
import Mathlib.Data.List.Basic

/-!
# Replicated objects

Objects of a class that can be updated, copied, and merged into each other
(`Replicated`), and programs over any number of them (`Replicated.run`): which
object is copied or merged when, how often and in which order, is up to the
program. A copy that is merged later is a message that is delayed; one merged
again, or never, has been duplicated or lost.

The updates that have not been refused are logged, each with the updates its
object had *seen*: what an object has seen is what has been made on it, or on an
object whose state has come to it (`Replicas.seen`). Neither is known to the
objects themselves.

What relates the state of an object to what it has seen is proved once for each
way a state comes about (`Replicated.run_objects`).
-/

namespace Replication

/-- A class of replicated objects with the states `σ` and the updates `υ`. -/
structure Replicated (σ υ : Type) where
  new : σ
  /-- An update, given a number that no other update has been given; an exception
      refuses it. -/
  update : ℕ → υ → σ → Option σ
  /-- The first object, once the second one has been merged into it. -/
  merge : σ → σ → σ

/-- The calls made on the objects `ι`. -/
inductive Call (ι υ : Type)
  | update (i : ι) (u : υ)
  /-- The object `j` is merged into `i`. -/
  | merge (i j : ι)
  /-- The variable `i` is assigned a copy of `j`. -/
  | copy (i j : ι)
  deriving DecidableEq

/-- An update made, with the updates its object had seen. -/
structure Entry (υ : Type) where
  update : υ
  seen : Finset ℕ
  deriving DecidableEq

/-- The objects, and what has been made on them. -/
structure Replicas (ι σ υ : Type) where
  objects : ι → σ
  /-- The updates made so far, the first one first. -/
  log : List (Entry υ) := []
  /-- The updates each object has seen, by their place in the log. -/
  seen : ι → Finset ℕ := fun _ => ∅

variable {ι σ υ : Type}

/-- The updates an object that has seen `K` knows of, of those meeting `p`. -/
def about (log : List (Entry υ)) (p : υ → Prop) [DecidablePred p] (K : Finset ℕ) : Finset ℕ :=
  K.filter fun n => (log[n]?).any fun e => p e.update

/-- What the update `n` had seen. -/
def seenBy (log : List (Entry υ)) (n : ℕ) : Finset ℕ := (log[n]?).elim ∅ Entry.seen

/-- Of every two updates, one had seen the other. -/
def Ordered (log : List (Entry υ)) (K : Finset ℕ) : Prop :=
  ∀ m ∈ K, ∀ n ∈ K, m = n ∨ m ∈ seenBy log n ∨ n ∈ seenBy log m

instance (log : List (Entry υ)) (K : Finset ℕ) : Decidable (Ordered log K) :=
  inferInstanceAs (Decidable (∀ m ∈ K, ∀ n ∈ K, m = n ∨ m ∈ seenBy log n ∨ n ∈ seenBy log m))

namespace Replicated

variable [DecidableEq ι] (R : Replicated σ υ)

/-- The objects, once a call has been made. -/
def step (w : Replicas ι σ υ) : Call ι υ → Replicas ι σ υ
  | .update i u =>
    match R.update w.log.length u (w.objects i) with
    | none => w
    | some x => {
        objects := Function.update w.objects i x
        log := w.log ++ [⟨u, w.seen i⟩]
        seen := Function.update w.seen i (insert w.log.length (w.seen i)) }
  | .merge i j => { w with
      objects := Function.update w.objects i (R.merge (w.objects i) (w.objects j))
      seen := Function.update w.seen i (w.seen i ∪ w.seen j) }
  | .copy i j => { w with
      objects := Function.update w.objects i (w.objects j)
      seen := Function.update w.seen i (w.seen j) }

/-- The objects, all of them new, once the calls have been made. -/
def run (calls : List (Call ι υ)) : Replicas ι σ υ :=
  calls.foldl R.step { objects := fun _ => R.new }

@[simp] theorem run_nil : R.run ([] : List (Call ι υ)) = { objects := fun _ => R.new } := rfl

@[simp] theorem run_snoc (calls : List (Call ι υ)) (c : Call ι υ) :
    R.run (calls ++ [c]) = R.step (R.run calls) c := by
  simp [run]

/-- The log only grows, and an object that is not assigned a copy goes on having seen what
    it has seen. -/
theorem run_append (calls later : List (Call ι υ)) :
    ∃ l, (R.run (calls ++ later)).log = (R.run calls).log ++ l ∧
      ∀ i, (∀ j, .copy i j ∉ later) → (R.run calls).seen i ⊆ (R.run (calls ++ later)).seen i := by
  induction later using List.reverseRecOn with
  | nil => exact ⟨[], by simp⟩
  | append_singleton later c ih =>
    obtain ⟨l, hl, hseen⟩ := ih
    rw [← List.append_assoc, run_snoc]
    generalize R.run (calls ++ later) = w at hl hseen
    have hseen' (i : ι) (hi : ∀ j, .copy i j ∉ later ++ [c]) : (R.run calls).seen i ⊆ w.seen i :=
      hseen i fun j hj => hi j (List.mem_append_left _ hj)
    rcases c with ⟨j, u⟩ | ⟨j, k⟩ | ⟨j, k⟩
    · cases hu : R.update w.log.length u (w.objects j) with
      | none => exact ⟨l, by simpa only [step, hu] using ⟨hl, hseen'⟩⟩
      | some x =>
        refine ⟨l ++ [⟨u, w.seen j⟩], ?_, fun i hi => ?_⟩
        · rw [← List.append_assoc, ← hl]
          simp only [step, hu]
        · simp only [step, hu]
          by_cases hij : i = j
          · subst hij
            rw [Function.update_self]
            exact (hseen' i hi).trans (Finset.subset_insert ..)
          · rw [Function.update_of_ne hij]
            exact hseen' i hi
    · refine ⟨l, hl, fun i hi => ?_⟩
      simp only [step]
      by_cases hij : i = j
      · subst hij
        rw [Function.update_self]
        exact (hseen' i hi).trans Finset.subset_union_left
      · rw [Function.update_of_ne hij]
        exact hseen' i hi
    · refine ⟨l, hl, fun i hi => ?_⟩
      simp only [step]
      by_cases hij : i = j
      · subst hij
        exact absurd (List.mem_append_right _ (List.mem_singleton_self _)) (hi k)
      · rw [Function.update_of_ne hij]
        exact hseen' i hi

end Replicated

/-! ## What is seen -/

section

variable {log l : List (Entry υ)} {p : υ → Prop} [DecidablePred p] {K K' : Finset ℕ} {m n : ℕ}
  {e : Entry υ}

/-- What has been seen is in the log, and with it what it had seen. -/
structure Closed (log : List (Entry υ)) (K : Finset ℕ) : Prop where
  lt : ∀ n ∈ K, n < log.length
  seenBy_subset : ∀ n ∈ K, seenBy log n ⊆ K

theorem mem_about : n ∈ about log p K ↔ n ∈ K ∧ ∃ e, log[n]? = some e ∧ p e.update := by
  simp [about, Option.any_eq_true]

theorem about_subset : about log p K ⊆ K := Finset.filter_subset ..

theorem about_union : about log p (K ∪ K') = about log p K ∪ about log p K' :=
  Finset.filter_union ..

theorem about_mono (h : K ⊆ K') : about log p K ⊆ about log p K' := Finset.filter_subset_filter _ h

theorem seenBy_of_getElem? (h : log[n]? = some e) : seenBy log n = e.seen := by
  rw [seenBy, h]
  rfl

/-! ### A longer log -/

theorem getElem?_snoc_self : (log ++ [e])[log.length]? = some e := by simp

theorem seenBy_append (hn : n < log.length) : seenBy (log ++ l) n = seenBy log n := by
  rw [seenBy, seenBy, List.getElem?_append_left hn]

theorem seenBy_snoc_self : seenBy (log ++ [e]) log.length = e.seen :=
  seenBy_of_getElem? getElem?_snoc_self

theorem about_append (hK : ∀ n ∈ K, n < log.length) : about (log ++ l) p K = about log p K := by
  ext n
  rw [mem_about, mem_about]
  refine and_congr_right fun hn => ?_
  rw [List.getElem?_append_left (hK n hn)]

/-- The last update of the log is known of, if it meets `p`. -/
theorem about_snoc_insert (hK : ∀ n ∈ K, n < log.length) :
    about (log ++ [e]) p (insert log.length K) =
      if p e.update then insert log.length (about log p K) else about log p K := by
  rw [← about_append (l := [e]) hK, about, Finset.filter_insert, getElem?_snoc_self]
  simp only [Option.any_some, decide_eq_true_eq]
  rfl

theorem Ordered.mono (h : Ordered log K') (hsub : K ⊆ K') : Ordered log K :=
  fun m hm n hn => h m (hsub hm) n (hsub hn)

theorem ordered_append (hK : ∀ n ∈ K, n < log.length) : Ordered (log ++ l) K ↔ Ordered log K := by
  refine forall₂_congr fun m hm => forall₂_congr fun n hn => ?_
  rw [seenBy_append (hK m hm), seenBy_append (hK n hn)]

theorem Closed.card_le (h : Closed log K) : K.card ≤ log.length := by
  simpa using Finset.card_le_card fun n hn => Finset.mem_range.2 (h.lt n hn)

theorem Closed.append (h : Closed log K) (l : List (Entry υ)) : Closed (log ++ l) K where
  lt n hn := by
    rw [List.length_append]
    exact Nat.lt_add_right _ (h.lt n hn)
  seenBy_subset n hn := by
    rw [seenBy_append (h.lt n hn)]
    exact h.seenBy_subset n hn

/-- An object has seen its own update. -/
theorem Closed.insert (h : Closed log K) (u : υ) :
    Closed (log ++ [⟨u, K⟩]) (insert log.length K) where
  lt n hn := by
    rw [List.length_append, List.length_singleton, Nat.lt_succ_iff]
    rcases Finset.mem_insert.1 hn with rfl | hn
    · exact le_rfl
    · exact (h.lt n hn).le
  seenBy_subset n hn := by
    rcases Finset.mem_insert.1 hn with rfl | hn
    · rw [seenBy_snoc_self]
      exact Finset.subset_insert ..
    · exact ((h.append [⟨u, K⟩]).seenBy_subset n hn).trans (Finset.subset_insert ..)

theorem Closed.union (h : Closed log K) (h' : Closed log K') : Closed log (K ∪ K') where
  lt n hn := (Finset.mem_union.1 hn).elim (h.lt n) (h'.lt n)
  seenBy_subset n hn := (Finset.mem_union.1 hn).elim
    (fun hn => (h.seenBy_subset n hn).trans Finset.subset_union_left)
    fun hn => (h'.seenBy_subset n hn).trans Finset.subset_union_right

end

/-! ## The states of the objects -/

namespace Replicated

variable [DecidableEq ι] {R : Replicated σ υ}

/-- A relation between the log, what an object has seen and its state, which
    holds of new objects, whatever is logged elsewhere, and is kept by the updates and
    the merges, holds of all objects of a program. -/
theorem run_objects {I : List (Entry υ) → Finset ℕ → σ → Prop} (hnew : I [] ∅ R.new)
    (hlog : ∀ log K x e, Closed log K → I log K x → I (log ++ [e]) K x)
    (hupdate : ∀ log K x u y, Closed log K → I log K x → R.update log.length u x = some y →
      I (log ++ [⟨u, K⟩]) (insert log.length K) y)
    (hmerge : ∀ log K K' x y, Closed log K → Closed log K' → I log K x → I log K' y →
      I log (K ∪ K') (R.merge x y)) (calls : List (Call ι υ)) (i : ι) :
    Closed (R.run calls).log ((R.run calls).seen i) ∧
      I (R.run calls).log ((R.run calls).seen i) ((R.run calls).objects i) := by
  induction calls using List.reverseRecOn generalizing i with
  | nil =>
    refine ⟨⟨fun n hn => absurd hn (Finset.notMem_empty n), fun n hn => ?_⟩, hnew⟩
    exact absurd hn (Finset.notMem_empty n)
  | append_singleton calls c ih =>
    rw [run_snoc]
    generalize R.run calls = w at ih
    rcases c with ⟨j, u⟩ | ⟨j, k⟩ | ⟨j, k⟩
    · cases hu : R.update w.log.length u (w.objects j) with
      | none => simpa only [step, hu] using ih i
      | some x =>
        simp only [step, hu]
        by_cases hi : i = j
        · subst hi
          rw [Function.update_self, Function.update_self]
          exact ⟨(ih i).1.insert u, hupdate _ _ _ u x (ih i).1 (ih i).2 hu⟩
        · -- the log has become longer, but not by anything the object has seen
          rw [Function.update_of_ne hi, Function.update_of_ne hi]
          exact ⟨(ih i).1.append _, hlog _ _ _ _ (ih i).1 (ih i).2⟩
    · simp only [step]
      by_cases hi : i = j
      · subst hi
        rw [Function.update_self, Function.update_self]
        exact ⟨(ih i).1.union (ih k).1, hmerge _ _ _ _ _ (ih i).1 (ih k).1 (ih i).2 (ih k).2⟩
      · rw [Function.update_of_ne hi, Function.update_of_ne hi]
        exact ih i
    · simp only [step]
      by_cases hi : i = j
      · subst hi
        rw [Function.update_self, Function.update_self]
        exact ih k
      · rw [Function.update_of_ne hi, Function.update_of_ne hi]
        exact ih i

end Replicated

end Replication
