import Kvdn.ORSet
import Kvdn.Replication.Objects

/-!
# Replicated sets

The other sets of the `project` tree: `GSet`, which only grows, and `TwoPSet`, of which
items are removed for good. What they contain, in any program that updates, copies and
merges any number of them, is known from what they have seen: a removal counts if it had
seen an addition, and no item is added once such a removal has been seen
(`TwoPSet.contains_run`).

Of an `ORSet`, the same holds of what it remembers, though not of what it shows: the
tags recorded as removed are those that a removal had seen, and no tag is forgotten. What a
merge is to leave of the observed tags, those not removed, are the additions that no removal
has seen: none of them is missing from the set (`ORSet.mem_tags_run`).
-/

namespace Kvdn

open Replication

variable {ι T : Type} [DecidableEq ι] [DecidableEq T]

/-- The updates of a set. -/
inductive SetUpdate (T : Type)
  | add (item : T)
  | remove (item : T)
  deriving DecidableEq

/-! ## What has been seen -/

/-- The additions of an item. -/
def additions (log : List (Entry (SetUpdate T))) (item : T) (K : Finset ℕ) : Finset ℕ :=
  about log (· = .add item) K

/-- The additions of an item that a removal of it had seen. -/
def revoked (log : List (Entry (SetUpdate T))) (item : T) (K : Finset ℕ) : Finset ℕ :=
  (additions log item K).filter fun m => ∃ n ∈ about log (· = .remove item) K, m ∈ seenBy log n

section

variable {log : List (Entry (SetUpdate T))} {K K' : Finset ℕ} {item : T} {m : ℕ}
  {e : Entry (SetUpdate T)} {u : SetUpdate T}

theorem revoked_subset : revoked log item K ⊆ additions log item K := Finset.filter_subset ..

theorem mem_revoked : m ∈ revoked log item K ↔
    m ∈ additions log item K ∧ ∃ n ∈ about log (· = .remove item) K, m ∈ seenBy log n := by
  rw [revoked, Finset.mem_filter]

theorem additions_union :
    additions log item (K ∪ K') = additions log item K ∪ additions log item K' := about_union

theorem additions_append (hK : Closed log K) :
    additions (log ++ [e]) item K = additions log item K :=
  about_append hK.lt

theorem additions_insert (hK : Closed log K) :
    additions (log ++ [⟨u, K⟩]) item (insert log.length K) =
      if u = .add item then insert log.length (additions log item K) else additions log item K :=
  about_snoc_insert hK.lt

/-- A removal has come with the additions it had seen. -/
theorem revoked_union (hK : Closed log K) (hK' : Closed log K') :
    revoked log item (K ∪ K') = revoked log item K ∪ revoked log item K' := by
  ext m
  rw [Finset.mem_union, mem_revoked, mem_revoked, mem_revoked, additions_union, about_union]
  constructor
  · rintro ⟨hm, n, hn, hseen⟩
    have hadd : ∃ e : Entry (SetUpdate T), log[m]? = some e ∧ e.update = .add item :=
      (Finset.mem_union.1 hm).elim (fun h => (mem_about.1 h).2) fun h => (mem_about.1 h).2
    rcases Finset.mem_union.1 hn with hn | hn
    · have hmem := hK.seenBy_subset n (about_subset hn) hseen
      exact .inl ⟨mem_about.2 ⟨hmem, hadd⟩, n, hn, hseen⟩
    · have hmem := hK'.seenBy_subset n (about_subset hn) hseen
      exact .inr ⟨mem_about.2 ⟨hmem, hadd⟩, n, hn, hseen⟩
  · rintro (⟨hm, n, hn, hseen⟩ | ⟨hm, n, hn, hseen⟩)
    · exact ⟨Finset.mem_union_left _ hm, n, Finset.mem_union_left _ hn, hseen⟩
    · exact ⟨Finset.mem_union_right _ hm, n, Finset.mem_union_right _ hn, hseen⟩

theorem revoked_append (hK : Closed log K) :
    revoked (log ++ [e]) item K = revoked log item K := by
  rw [revoked, additions_append hK, about_append hK.lt]
  refine Finset.filter_congr fun m _ => exists_congr fun n => and_congr_right fun hn => ?_
  rw [seenBy_append (hK.lt n (about_subset hn))]

/-- A removal removes all additions seen, and an addition is new to all removals. -/
theorem revoked_insert (hK : Closed log K) :
    revoked (log ++ [⟨u, K⟩]) item (insert log.length K) =
      if u = .remove item then additions log item K else revoked log item K := by
  have hlast : log.length ∉ K := fun h => lt_irrefl _ (hK.lt _ h)
  ext m
  rw [mem_revoked, additions_insert hK, about_snoc_insert hK.lt]
  rcases eq_or_ne u (.remove item) with rfl | hu
  · rw [if_neg (by simp), if_pos rfl, if_pos rfl]
    refine and_iff_left_of_imp fun hm => ⟨_, Finset.mem_insert_self .., ?_⟩
    rw [seenBy_snoc_self]
    exact about_subset hm
  · rw [if_neg hu, if_neg hu, mem_revoked]
    have hseen : (∃ n ∈ about log (· = .remove item) K, m ∈ seenBy (log ++ [⟨u, K⟩]) n) ↔
        ∃ n ∈ about log (· = .remove item) K, m ∈ seenBy log n := by
      refine exists_congr fun n => and_congr_right fun hn => ?_
      rw [seenBy_append (hK.lt n (about_subset hn))]
    rw [hseen]
    refine and_congr_left fun ⟨n, hn, hmn⟩ => ?_
    have hm : m ≠ log.length := by
      rintro rfl
      exact hlast (hK.seenBy_subset n (about_subset hn) hmn)
    split_ifs
    · rw [Finset.mem_insert, or_iff_right hm]
    · rfl

end

/-! ## Grow-only sets -/

/-- A `GSet`. The order of the items is left out. -/
structure GSet (T : Type) where
  items : Finset T := ∅

namespace GSet

variable (s : GSet T) (item : T)

def add : GSet T := { items := insert item s.items }

def get : Finset T := s.items

def contains : Bool := decide (item ∈ s.items)

def addAll (items : Finset T) : GSet T := { items := s.items ∪ items }

end GSet

/-! ## Two phase sets -/

/-- A `TwoPSet`: what has been added, and what has been removed. -/
structure TwoPSet (T : Type) where
  adds : GSet T := {}
  removes : GSet T := {}

namespace TwoPSet

variable (s other : TwoPSet T) (item : T)

def add : Option (TwoPSet T) :=
  if s.removes.contains item then none else some { s with adds := s.adds.add item }

def remove : TwoPSet T :=
  if s.adds.contains item then { s with removes := s.removes.add item } else s

def get : Finset T := s.adds.get \ s.removes.get

def merge : TwoPSet T where
  adds := s.adds.addAll other.adds.get
  removes := s.removes.addAll other.removes.get

/-- Sets as replicated objects. -/
def replicated : Replicated (TwoPSet T) (SetUpdate T) where
  new := {}
  update
    | _, .add item, s => s.add item
    | _, .remove item, s => some (s.remove item)
  merge := merge

/-- What a set that has seen `K` contains. -/
structure Holds (log : List (Entry (SetUpdate T))) (K : Finset ℕ) (s : TwoPSet T) : Prop where
  mem_adds : ∀ item, item ∈ s.adds.items ↔ (additions log item K).Nonempty
  mem_removes : ∀ item, item ∈ s.removes.items ↔ (revoked log item K).Nonempty

variable {s other item} {log : List (Entry (SetUpdate T))} {K K' : Finset ℕ} {s' : TwoPSet T}

theorem Holds.add (h : Holds log K s) (hK : Closed log K) (hs : s.add item = some s') :
    Holds (log ++ [⟨.add item, K⟩]) (insert log.length K) s' := by
  simp only [TwoPSet.add] at hs
  split_ifs at hs
  obtain rfl := Option.some.inj hs
  refine ⟨fun item' => ?_, fun item' => ?_⟩
  · rw [additions_insert hK]
    split_ifs with heq
    · obtain rfl := SetUpdate.add.inj heq
      exact iff_of_true (Finset.mem_insert_self ..) (Finset.insert_nonempty ..)
    · rw [← h.mem_adds, GSet.add, Finset.mem_insert, or_iff_right]
      rintro rfl
      exact heq rfl
  · rw [revoked_insert hK, if_neg (by simp)]
    exact h.mem_removes item'

theorem Holds.remove (h : Holds log K s) (hK : Closed log K) :
    Holds (log ++ [⟨.remove item, K⟩]) (insert log.length K) (s.remove item) := by
  have hadds : (s.remove item).adds = s.adds := by
    rw [TwoPSet.remove]
    split_ifs <;> rfl
  have hremoves (item' : T) : item' ∈ (s.remove item).removes.items ↔
      item' ∈ s.removes.items ∨ item' = item ∧ item ∈ s.adds.items := by
    rw [TwoPSet.remove]
    split_ifs with hmem
    · rw [GSet.add, Finset.mem_insert, or_comm, and_iff_left (of_decide_eq_true hmem)]
    · rw [or_iff_left]
      exact fun hitem => hmem (decide_eq_true hitem.2)
  refine ⟨fun item' => ?_, fun item' => ?_⟩
  · rw [hadds, additions_insert hK, if_neg (by simp)]
    exact h.mem_adds item'
  · rw [hremoves, revoked_insert hK]
    split_ifs with heq
    · -- what has been removed before has been added
      obtain rfl := SetUpdate.remove.inj heq
      rw [h.mem_removes, h.mem_adds, eq_self, true_and]
      exact or_iff_right_of_imp fun hne => hne.mono revoked_subset
    · rw [← h.mem_removes, or_iff_left]
      rintro ⟨rfl, -⟩
      exact heq rfl

theorem Holds.merge (h : Holds log K s) (h' : Holds log K' other) (hK : Closed log K)
    (hK' : Closed log K') : Holds log (K ∪ K') (s.merge other) := by
  refine ⟨fun item => ?_, fun item => ?_⟩
  · rw [additions_union, Finset.union_nonempty, ← h.mem_adds, ← h'.mem_adds]
    exact Finset.mem_union
  · rw [revoked_union hK hK', Finset.union_nonempty, ← h.mem_removes, ← h'.mem_removes]
    exact Finset.mem_union

/-- A set contains the items added, but none that was removed after it was added, as far as
    it has seen: those cannot be added again. -/
theorem contains_run (calls : List (Call ι (SetUpdate T))) (i : ι) (item : T) :
    let w := replicated.run calls
    (item ∈ (w.objects i).get ↔ (additions w.log item (w.seen i)).Nonempty ∧
      revoked w.log item (w.seen i) = ∅) ∧
    ((w.objects i).add item = none ↔ (revoked w.log item (w.seen i)).Nonempty) := by
  intro w
  -- an empty set, another update in the log, an own update, a merge
  have hinv := Replicated.run_objects (R := replicated (T := T)) (I := Holds)
    ⟨fun item => by simp [replicated, additions, about],
      fun item => by simp [replicated, revoked, about]⟩
    (fun log K s e hK h => ⟨fun item => by rw [additions_append hK, h.mem_adds],
      fun item => by rw [revoked_append hK, h.mem_removes]⟩)
    (fun log K s u s' hK h hs => by
      rcases u with item | item
      · exact h.add hK hs
      · obtain rfl := Option.some.inj hs
        exact h.remove hK)
    (fun log K K' s s' hK hK' h h' => h.merge h' hK hK') calls i
  have hremoves := hinv.2.mem_removes item
  constructor
  · rw [← Finset.not_nonempty_iff_eq_empty, ← hinv.2.mem_adds, ← hremoves]
    exact Finset.mem_sdiff
  · rw [← hremoves, add, ite_eq_left_iff, GSet.contains]
    simp [w]

end TwoPSet

/-! ## Observed-removed sets -/

namespace ORSet

/-- Sets as replicated objects: a tag is the number of its update. -/
def replicated : Replicated (ORSet T ℕ) (SetUpdate T) where
  new := {}
  update
    | tag, .add item, s => some (s.add item tag)
    | _, .remove item, s => some (s.remove item)
  merge := merge

/-- What a set that has seen `K` remembers. -/
structure Remembers (log : List (Entry (SetUpdate T))) (K : Finset ℕ) (s : ORSet T ℕ) : Prop where
  mem_tags : ∀ item tag,
    (item, tag) ∈ s.observed ∨ (item, tag) ∈ s.removed ↔ tag ∈ additions log item K
  mem_removed : ∀ item tag, (item, tag) ∈ s.removed ↔ tag ∈ revoked log item K

variable {s other : ORSet T ℕ} {item : T} {log : List (Entry (SetUpdate T))} {K K' : Finset ℕ}

theorem Remembers.add (h : Remembers log K s) (hK : Closed log K) :
    Remembers (log ++ [⟨.add item, K⟩]) (insert log.length K) (s.add item log.length) := by
  refine ⟨fun item' tag => ?_, fun item' tag => ?_⟩
  · rw [mem_observed_add, removed_add, or_assoc, h.mem_tags, additions_insert hK, Prod.mk.injEq]
    split_ifs with heq
    · obtain rfl := SetUpdate.add.inj heq
      rw [Finset.mem_insert, eq_self, true_and]
    · rw [or_iff_right]
      rintro ⟨rfl, -⟩
      exact heq rfl
  · rw [removed_add, h.mem_removed, revoked_insert hK, if_neg (by simp)]

theorem Remembers.remove (h : Remembers log K s) (hK : Closed log K) :
    Remembers (log ++ [⟨.remove item, K⟩]) (insert log.length K) (s.remove item) := by
  refine ⟨fun item' tag => ?_, fun item' tag => ?_⟩
  · rw [mem_observed_remove, mem_removed_remove, additions_insert hK, if_neg (by simp),
      ← h.mem_tags]
    tauto
  · rw [mem_removed_remove, revoked_insert hK]
    split_ifs with heq
    · -- every tag that is not observed has been removed before
      obtain rfl := SetUpdate.remove.inj heq
      rw [← h.mem_tags]
      tauto
    · rw [← h.mem_removed, or_iff_left]
      rintro ⟨-, rfl⟩
      exact heq rfl

theorem Remembers.merge (h : Remembers log K s) (h' : Remembers log K' other) (hK : Closed log K)
    (hK' : Closed log K') : Remembers log (K ∪ K') (s.merge other) := by
  refine ⟨fun item tag => ?_, fun item tag => ?_⟩
  · rw [observed_merge, removed_merge, additions_union, Finset.mem_union, Finset.mem_union,
      Finset.mem_union, ← h.mem_tags, ← h'.mem_tags]
    tauto
  · rw [removed_merge, revoked_union hK hK', Finset.mem_union, Finset.mem_union,
      ← h.mem_removed, ← h'.mem_removed]

theorem remembers_run (calls : List (Call ι (SetUpdate T))) (i : ι) :
    Remembers (replicated.run calls).log ((replicated.run calls).seen i)
      ((replicated.run calls).objects i) :=
  (Replicated.run_objects (R := replicated (T := T)) (I := Remembers)
    ⟨fun item tag => by simp [replicated, additions, about],
      fun item tag => by simp [replicated, revoked, about]⟩
    (fun log K s e hK h => ⟨fun item tag => by rw [additions_append hK, h.mem_tags],
      fun item tag => by rw [revoked_append hK, h.mem_removed]⟩)
    (fun log K s u s' hK h hs => by
      rcases u with item | item
      · obtain rfl := Option.some.inj hs
        exact h.add hK
      · obtain rfl := Option.some.inj hs
        exact h.remove hK)
    (fun log K K' s s' hK hK' h h' => h.merge h' hK hK') calls i).2

/-- The tags a set has recorded as removed are those of the additions that a removal had
    seen, the others are observed: an item is in the set if there is one of these. -/
theorem mem_tags_run (calls : List (Call ι (SetUpdate T))) (i : ι) (item : T) :
    let w := replicated.run calls
    let live := additions w.log item (w.seen i) \ revoked w.log item (w.seen i)
    (∀ tag, (item, tag) ∈ (w.objects i).removed ↔ tag ∈ revoked w.log item (w.seen i)) ∧
      (∀ tag, (item, tag) ∈ (w.objects i).observed \ (w.objects i).removed ↔ tag ∈ live) ∧
      (live.Nonempty → item ∈ (w.objects i).get) ∧
      (item ∈ (w.objects i).get → (additions w.log item (w.seen i)).Nonempty) := by
  intro w live
  have h : Remembers w.log (w.seen i) (w.objects i) := remembers_run calls i
  have hlive (tag : ℕ) :
      (item, tag) ∈ (w.objects i).observed \ (w.objects i).removed ↔ tag ∈ live := by
    rw [Finset.mem_sdiff, Finset.mem_sdiff, ← h.mem_tags, ← h.mem_removed]
    tauto
  refine ⟨h.mem_removed item, hlive, ?_, ?_⟩
  · rintro ⟨tag, htag⟩
    exact mem_get.2 ⟨tag, (Finset.mem_sdiff.1 ((hlive tag).2 htag)).1⟩
  · intro hget
    obtain ⟨tag, htag⟩ := mem_get.1 hget
    exact ⟨tag, (h.mem_tags item tag).1 (.inl htag)⟩

end ORSet

end Kvdn
