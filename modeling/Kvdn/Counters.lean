import Kvdn.Replication.Counts
import Mathlib.Algebra.BigOperators.Ring.Finset
import Mathlib.Data.List.AList

/-!
# Replicated counters

The counters of the `project` tree: `GCounter`, which can only be incremented, `PNCounter`,
a pair of them, and `GState`, in which every key goes through the constants of an
enumeration. They are hash maps, of which a merge keeps the greater value of every key.

What they show of the updates made on them, in any program that updates, copies and merges
any number of them:

* `GCounter.get_iff`: all those that the object has seen, unless two increments of one key
  have not seen each other;
* `PNCounter.get_of_owner`: all of them, if every key is left to one object, and in any case
  the same as any object that has seen the same (`PNCounter.get_congr`);
* `GState.lookup_run`: of the advances of a key, as many as have seen each other, until the
  last state is reached, and never less than before (`GState.le_of_lookup`).
-/

namespace Kvdn

open Replication

variable {ι T : Type} [DecidableEq ι] [DecidableEq T]

/-! ## Hash maps -/

/-- A hash map: its entries, in some order. -/
abbrev HashMap (K V : Type) := AList fun _ : K => V

namespace HashMap

variable {V : Type}

/-- The loop of the merges: every entry of the other map is put into the first one, joined
    with the value that is there. -/
def mergeWith (join : V → V → V) (m other : HashMap T V) : HashMap T V :=
  other.entries.foldl (fun m e => m.insert e.1 (match m.lookup e.1 with
    | some v => join e.2 v
    | none => e.2)) m

/-- A value joined with one that may be missing. -/
def joined (join : V → V → V) : Option V → Option V → Option V
  | some v, some v' => some (join v' v)
  | none, v' => v'
  | v, none => v

theorem lookup_mergeWith (join : V → V → V) (m other : HashMap T V) (k : T) :
    (mergeWith join m other).lookup k = joined join (m.lookup k) (other.lookup k) := by
  obtain ⟨l, hl⟩ := other
  unfold mergeWith
  show _ = joined join (m.lookup k) (l.dlookup k)
  induction l generalizing m with
  | nil =>
    rw [List.dlookup_nil]
    cases h : m.lookup k <;> exact h
  | cons e l ih =>
    obtain ⟨k', v'⟩ := e
    obtain ⟨hfresh, hl'⟩ := List.nodupKeys_cons.1 hl
    rw [List.foldl_cons]
    refine (ih _ hl').trans ?_
    by_cases hk : k = k'
    · -- the key of the first entry comes up only once
      subst hk
      rw [AList.lookup_insert, List.dlookup_eq_none.2 hfresh, List.dlookup_cons_eq]
      cases m.lookup k <;> rfl
    · rw [AList.lookup_insert_ne hk, List.dlookup_cons_ne _ _ hk]

end HashMap

/-! ## Grow-only counters -/

/-- A `GCounter`. The counts are 32 bit integers, which overflow. -/
structure GCounter (T : Type) where
  counts : HashMap T Int32 := ∅

namespace GCounter

variable (c other : GCounter T) (key : T)

def increment : GCounter T :=
  let count := (c.counts.lookup key).getD 0
  { counts := c.counts.insert key (count + 1) }

omit [DecidableEq T] in
def get : Int32 := c.counts.entries.foldl (fun sum e => sum + e.2) 0

def merge : GCounter T := { counts := c.counts.mergeWith max other.counts }

/-- Counters as replicated objects. -/
def replicated : Replicated (GCounter T) T where
  new := {}
  update _ key c := some (c.increment key)
  merge := merge

/-- The count of a key, if it is one. -/
def count : ℕ := ((c.counts.lookup key).getD 0).toInt.toNat

/-- No count has overflowed. -/
def Good : Prop := ∀ key v, c.counts.lookup key = some v → 0 < v.toInt

variable {c other key}

theorem Good.toInt_getD (h : c.Good) (key : T) :
    ((c.counts.lookup key).getD 0).toInt = c.count key := by
  rw [count]
  cases hv : c.counts.lookup key with
  | none => rfl
  | some v =>
    have hpos := h key v hv
    rw [Option.getD_some]
    omega

theorem toInt_max (a b : Int32) : (max a b).toInt = max a.toInt b.toInt := by
  show (if a ≤ b then b else a).toInt = _
  split_ifs with h
  · exact (max_eq_right (Int32.le_iff_toInt_le.1 h)).symm
  · have hlt := mt Int32.le_iff_toInt_le.2 h
    omega

/-- An increment adds one, as long as the count does not overflow. -/
theorem Good.increment (h : c.Good) (hbound : c.count key < 2 ^ 31 - 1) :
    (c.increment key).Good ∧
      (c.increment key).count = Function.update c.count key (c.count key + 1) := by
  have hsum : ((c.counts.lookup key).getD 0 + 1).toInt = c.count key + 1 := by
    rw [Int32.toInt_add, h.toInt_getD]
    have hone : (1 : Int32).toInt = 1 := rfl
    rw [hone]
    exact Int.bmod_eq_of_le (by omega) (by omega)
  have hlookup (k : T) : (c.increment key).counts.lookup k =
      if k = key then some ((c.counts.lookup key).getD 0 + 1) else c.counts.lookup k := by
    split_ifs with hk
    · rw [hk]
      exact AList.lookup_insert _
    · exact AList.lookup_insert_ne hk
  constructor
  · intro k v hv
    rw [hlookup] at hv
    split_ifs at hv with hk
    · obtain rfl := Option.some.inj hv
      omega
    · exact h k v hv
  · funext k
    rw [count, hlookup]
    by_cases hk : k = key
    · subst hk
      rw [if_pos rfl, Option.getD_some, hsum, Function.update_self]
      omega
    · rw [if_neg hk, Function.update_of_ne hk]
      rfl

/-- A merge keeps the greater counts. -/
theorem Good.merge (h : c.Good) (h' : other.Good) :
    (c.merge other).Good ∧
      ∀ key, (c.merge other).count key = max (c.count key) (other.count key) := by
  have hlookup (k : T) : (c.merge other).counts.lookup k =
      HashMap.joined max (c.counts.lookup k) (other.counts.lookup k) :=
    HashMap.lookup_mergeWith max c.counts other.counts k
  constructor
  · intro k v hv
    rw [hlookup] at hv
    cases hc : c.counts.lookup k with
    | none =>
      rw [hc] at hv
      exact h' k v hv
    | some x =>
      cases ho : other.counts.lookup k with
      | none =>
        rw [hc, ho] at hv
        exact h k v (hc.trans hv)
      | some y =>
        rw [hc, ho] at hv
        obtain rfl : max y x = v := Option.some.inj hv
        rw [toInt_max]
        exact lt_max_of_lt_left (h' k y ho)
  · intro k
    rw [count, count, count, hlookup]
    cases hc : c.counts.lookup k with
    | none => simp [HashMap.joined]
    | some x =>
      cases ho : other.counts.lookup k with
      | none => simp [HashMap.joined]
      | some y =>
        simp only [HashMap.joined, Option.getD_some, toInt_max]
        omega

/-- Counters count their increments. -/
def counted : Counts (replicated (T := T)) T (2 ^ 31 - 1) where
  key := id
  count := count
  Good := Good
  good_new := fun key v hv => nomatch hv
  count_new := fun _ => rfl
  update h hlt hy := by
    obtain rfl := Option.some.inj hy
    exact h.increment hlt
  merge h h' := h.merge h'

/-! ### The value of a counter -/

omit [DecidableEq T] in
/-- A sum of integers that does not overflow. -/
theorem toInt_foldl {l : List ((_ : T) × Int32)} (hpos : ∀ e ∈ l, 0 ≤ e.2.toInt) {a : Int32}
    (ha : 0 ≤ a.toInt) (hsum : a.toInt + (l.map fun e => e.2.toInt).sum < 2 ^ 31) :
    (l.foldl (fun sum e => sum + e.2) a).toInt = a.toInt + (l.map fun e => e.2.toInt).sum := by
  induction l generalizing a with
  | nil => simp
  | cons e l ih =>
    rw [List.forall_mem_cons] at hpos
    obtain ⟨he, hl⟩ := hpos
    rw [List.map_cons, List.sum_cons] at hsum ⊢
    have hrest : 0 ≤ (l.map fun e => e.2.toInt).sum := by
      refine List.sum_nonneg fun x hx => ?_
      obtain ⟨e', he', rfl⟩ := List.mem_map.1 hx
      exact hl e' he'
    have hadd : (a + e.2).toInt = a.toInt + e.2.toInt := by
      rw [Int32.toInt_add]
      exact Int.bmod_eq_of_le (by omega) (by omega)
    rw [List.foldl_cons, ih hl (by omega) (by omega), hadd]
    omega

/-- The value of a counter is the sum of its counts. -/
theorem Good.toInt_get (h : c.Good) (hsum : ∑ k ∈ c.counts.keys.toFinset, c.count k < 2 ^ 31) :
    c.get.toInt = ∑ k ∈ c.counts.keys.toFinset, c.count k := by
  have hvalue : ∀ e ∈ c.counts.entries, e.2.toInt = c.count e.1 := by
    intro e he
    rw [← h.toInt_getD, AList.mem_lookup_iff.2 he, Option.getD_some]
  have hlist : ((∑ k ∈ c.counts.keys.toFinset, c.count k : ℕ) : ℤ) =
      (c.counts.entries.map fun e => e.2.toInt).sum := by
    rw [Nat.cast_sum, List.sum_toFinset _ c.counts.keys_nodup, AList.keys, List.keys, List.map_map]
    exact congrArg List.sum (List.map_congr_left fun e he => (hvalue e he).symm)
  have hzero : (0 : Int32).toInt = 0 := rfl
  rw [get, hlist, toInt_foldl, hzero, zero_add]
  · intro e he
    rw [hvalue e he]
    exact Int.natCast_nonneg _
  · exact le_rfl
  · rw [← hlist]
    omega

theorem Good.mem_keys (h : c.Good) (key : T) : key ∈ c.counts.keys.toFinset ↔ 0 < c.count key := by
  rw [List.mem_toFinset, ← AList.mem_keys, ← AList.lookup_isSome, count]
  cases hv : c.counts.lookup key with
  | none => simp
  | some v =>
    have hpos := h key v hv
    simp only [Option.isSome_some, Option.getD_some, true_iff]
    omega

/-- Objects that count the same have the same value. -/
theorem Good.get_eq_of_count (h : c.Good) (h' : other.Good) (hcount : c.count = other.count)
    (hsum : ∑ k ∈ c.counts.keys.toFinset, c.count k < 2 ^ 31) : c.get = other.get := by
  have hkeys : c.counts.keys.toFinset = other.counts.keys.toFinset := by
    ext key
    rw [h.mem_keys, h'.mem_keys, hcount]
  apply Int32.toInt_inj.1
  rw [h.toInt_get hsum, h'.toInt_get (by rwa [← hkeys, ← hcount]), hkeys, hcount]

/-- The value of a counter is the number of the increments it has seen, or less: it is that
    number if, and only if, of every two increments of one key one had seen the other. -/
theorem get_iff (calls : List (Call ι T)) (hbound : (replicated.run calls).log.length < 2 ^ 31)
    (i : ι) :
    let w := replicated.run calls
    (w.objects i).get.toInt ≤ (w.seen i).card ∧
      ((w.objects i).get.toInt = (w.seen i).card ↔
        ∀ key, Ordered w.log (about w.log (· = key) (w.seen i))) := by
  intro w
  have hlog : w.log.length ≤ 2 ^ 31 - 1 := Nat.le_pred_of_lt hbound
  obtain ⟨hclosed, hgood, -⟩ := counted.counted_run hlog i
  obtain ⟨hle, hiff⟩ := counted.sum_iff hlog i (fun _ => True)
    (s := (w.objects i).counts.keys.toFinset)
    fun key => (Good.mem_keys hgood key).trans (iff_of_eq (true_and _)).symm
  have hall : about w.log (fun _ => True) (w.seen i) = w.seen i := by
    refine Finset.filter_true_of_mem fun n hn => ?_
    rw [List.getElem?_eq_getElem (hclosed.lt n hn)]
    rfl
  rw [hall] at hle hiff
  -- the sum does not wrap around, being no more than the number of the increments
  have hvalue := hgood.toInt_get (hle.trans_lt ?_)
  · rw [hvalue, Int.ofNat_le, Int.ofNat_inj]
    exact ⟨hle, hiff.trans (forall_congr' fun key => true_imp_iff)⟩
  · calc (w.seen i).card ≤ w.log.length := hclosed.card_le
      _ < 2 ^ 31 := hbound

/-- Two counters are incremented, and then merged into a third one: the increments of one key
    count as one, those of two keys as two. -/
theorem get_merged :
    let calls : List (Call (Fin 3) Bool) :=
      [.update 0 true, .update 1 true, .update 1 false, .merge 2 0, .merge 2 1]
    let w := replicated.run calls
    (w.objects 2).get.toInt = 2 ∧ (w.seen 2).card = 3 ∧
      ¬ ∀ key, Ordered w.log (about w.log (· = key) (w.seen 2)) := by
  intro calls w
  have hlog : (replicated.run calls).log.length < 2 ^ 31 := by decide +kernel
  have hvalue : (w.objects 2).get.toInt = 2 := by decide +kernel
  have hseen : (w.seen 2).card = 3 := by decide +kernel
  refine ⟨hvalue, hseen, fun hord => ?_⟩
  have heq := (get_iff calls hlog 2).2.2 hord
  rw [hvalue, hseen] at heq
  cases heq

end GCounter

/-! ## Increments and decrements -/

/-- A `PNCounter`: what has been added and what has been taken away. -/
structure PNCounter (T : Type) where
  inc : GCounter T := {}
  dec : GCounter T := {}

namespace PNCounter

/-- The updates of a counter. -/
inductive Update (T : Type)
  | increment (key : T)
  | decrement (key : T)
  deriving DecidableEq

variable (c other : PNCounter T) (key : T)

def increment : PNCounter T := { c with inc := c.inc.increment key }

omit [DecidableEq T] in
def get : Int32 := c.inc.get - c.dec.get

def decrement : PNCounter T := { c with dec := c.dec.increment key }

def merge : PNCounter T where
  inc := c.inc.merge other.inc
  dec := c.dec.merge other.dec

/-- Counters as replicated objects. -/
def replicated : Replicated (PNCounter T) (Update T) where
  new := {}
  update
    | _, .increment key, c => some (c.increment key)
    | _, .decrement key, c => some (c.decrement key)
  merge := merge

/-- The count of the updates of a key. -/
def count : Update T → ℕ
  | .increment key => c.inc.count key
  | .decrement key => c.dec.count key

/-- Counters count their increments, and their decrements. -/
def counted : Counts (replicated (T := T)) (Update T) (2 ^ 31 - 1) where
  key := id
  count := count
  Good c := c.inc.Good ∧ c.dec.Good
  good_new := ⟨GCounter.counted.good_new, GCounter.counted.good_new⟩
  count_new
    | .increment key => GCounter.counted.count_new key
    | .decrement key => GCounter.counted.count_new key
  update := by
    rintro n c (key | key) y h hlt hy
    · obtain rfl := Option.some.inj hy
      obtain ⟨hgood, hcount⟩ := h.1.increment hlt
      refine ⟨⟨hgood, h.2⟩, funext fun u => ?_⟩
      rcases u with key' | key'
      · refine (congrFun hcount key').trans ?_
        simp only [Function.update_apply, count, id, Update.increment.injEq]
      · rfl
    · obtain rfl := Option.some.inj hy
      obtain ⟨hgood, hcount⟩ := h.2.increment hlt
      refine ⟨⟨h.1, hgood⟩, funext fun u => ?_⟩
      rcases u with key' | key'
      · rfl
      · refine (congrFun hcount key').trans ?_
        simp only [Function.update_apply, count, id, Update.decrement.injEq]
  merge h h' := ⟨⟨(h.1.merge h'.1).1, (h.2.merge h'.2).1⟩, fun
    | .increment key => (h.1.merge h'.1).2 key
    | .decrement key => (h.2.merge h'.2).2 key⟩

def Update.isIncrement : Update T → Bool
  | .increment _ => true
  | .decrement _ => false

section

variable {calls : List (Call ι (Update T))} (hbound : (replicated.run calls).log.length < 2 ^ 31)
  (i : ι)

include hbound

theorem counted_run :
    Closed (replicated.run calls).log ((replicated.run calls).seen i) ∧
      counted.Counted (replicated.run calls).log ((replicated.run calls).seen i)
        ((replicated.run calls).objects i) :=
  counted.counted_run (Nat.le_pred_of_lt hbound) i

/-- The sum of the increments, or of the decrements, is what a counter has seen of them, or
    less. -/
theorem sum_part {part : PNCounter T → GCounter T} {u : T → Update T} {b : Bool}
    (hpart : ∀ c : PNCounter T, (c.inc.Good ∧ c.dec.Good) → (part c).Good)
    (hcount : ∀ c key, count c (u key) = (part c).count key) (hu : Function.Injective u)
    (hb : ∀ v, v.isIncrement = b ↔ ∃ key, u key = v) :
    let w := replicated.run calls
    let s := ∑ key ∈ (part (w.objects i)).counts.keys.toFinset, (part (w.objects i)).count key
    let seen := about w.log (fun v => v.isIncrement = b) (w.seen i)
    s ≤ seen.card ∧
      (s = seen.card ↔ ∀ key, Ordered w.log (about w.log (· = u key) (w.seen i))) := by
  intro w s seen
  have hgood : (part (w.objects i)).Good := hpart _ (counted_run hbound i).2.1
  have hkeys (v : Update T) : v ∈ (part (w.objects i)).counts.keys.toFinset.image u ↔
      v.isIncrement = b ∧ 0 < count (w.objects i) v := by
    rw [Finset.mem_image, hb]
    constructor
    · rintro ⟨key, hkey, rfl⟩
      exact ⟨⟨key, rfl⟩, (hcount _ key).symm ▸ (hgood.mem_keys key).1 hkey⟩
    · rintro ⟨⟨key, rfl⟩, hpos⟩
      exact ⟨key, (hgood.mem_keys key).2 (hcount _ key ▸ hpos), rfl⟩
  obtain ⟨hle, hiff⟩ := counted.sum_iff (Nat.le_pred_of_lt hbound) i _ hkeys
  have hsum :
      ∑ v ∈ (part (w.objects i)).counts.keys.toFinset.image u, count (w.objects i) v = s := by
    rw [Finset.sum_image fun a _ b _ h => hu h]
    exact Finset.sum_congr rfl fun key _ => hcount (w.objects i) key
  have hle : s ≤ seen.card := hsum ▸ hle
  have hiff : s = seen.card ↔ ∀ v : Update T, v.isIncrement = b →
      Ordered w.log (about w.log (· = v) (w.seen i)) := hsum ▸ hiff
  refine ⟨hle, hiff.trans ⟨fun h key => h _ ((hb _).2 ⟨key, rfl⟩), fun h v hv => ?_⟩⟩
  obtain ⟨key, rfl⟩ := (hb v).1 hv
  exact h key

theorem sum_inc :
    let w := replicated.run calls
    let s := ∑ key ∈ (w.objects i).inc.counts.keys.toFinset, (w.objects i).inc.count key
    let seen := about w.log (fun u => u.isIncrement = true) (w.seen i)
    s ≤ seen.card ∧ (s = seen.card ↔
      ∀ key, Ordered w.log (about w.log (· = .increment key) (w.seen i))) := by
  refine sum_part hbound i (fun _ h => h.1) (fun _ _ => rfl) (fun _ _ => Update.increment.inj) ?_
  rintro (key | key)
  · exact iff_of_true rfl ⟨key, rfl⟩
  · exact iff_of_false (fun h => by cases h) (by rintro ⟨_, ⟨⟩⟩)

theorem sum_dec :
    let w := replicated.run calls
    let s := ∑ key ∈ (w.objects i).dec.counts.keys.toFinset, (w.objects i).dec.count key
    let seen := about w.log (fun u => u.isIncrement = false) (w.seen i)
    s ≤ seen.card ∧ (s = seen.card ↔
      ∀ key, Ordered w.log (about w.log (· = .decrement key) (w.seen i))) := by
  refine sum_part hbound i (fun _ h => h.2) (fun _ _ => rfl) (fun _ _ => Update.decrement.inj) ?_
  rintro (key | key)
  · exact iff_of_false (fun h => by cases h) (by rintro ⟨_, ⟨⟩⟩)
  · exact iff_of_true rfl ⟨key, rfl⟩

theorem sum_lt {p : Update T → Prop} [DecidablePred p] {s : ℕ}
    (h : s ≤ (about (replicated.run calls).log p ((replicated.run calls).seen i)).card) :
    s < 2 ^ 31 :=
  calc s ≤ _ := h
    _ ≤ ((replicated.run calls).seen i).card := Finset.card_le_card about_subset
    _ ≤ (replicated.run calls).log.length := (counted_run hbound i).1.card_le
    _ < 2 ^ 31 := hbound

/-- If the increments of a key are left to one object, and its decrements too, then the value
    of a counter is the number of the increments it has seen, less that of the decrements. -/
theorem get_of_owner {owner : Update T → ι} (howner : ∀ c ∈ calls, c.Respects id owner) :
    let w := replicated.run calls
    (w.objects i).get.toInt =
      (about w.log (fun u => u.isIncrement = true) (w.seen i)).card -
        (about w.log (fun u => u.isIncrement = false) (w.seen i)).card := by
  intro w
  have hgood : (w.objects i).inc.Good ∧ (w.objects i).dec.Good := (counted_run hbound i).2.1
  have hordered (u : Update T) : Ordered w.log (about w.log (· = u) (w.seen i)) :=
    ordered_of_owner howner i u
  obtain ⟨hle, hiff⟩ := sum_inc hbound i
  obtain ⟨hle', hiff'⟩ := sum_dec hbound i
  have hinc := hgood.1.toInt_get (sum_lt hbound i hle)
  have hdec := hgood.2.toInt_get (sum_lt hbound i hle')
  rw [hiff.2 fun key => hordered _] at hinc
  rw [hiff'.2 fun key => hordered _] at hdec
  have hlt := sum_lt hbound i hle
  have hlt' := sum_lt hbound i hle'
  rw [hiff.2 fun key => hordered _] at hlt
  rw [hiff'.2 fun key => hordered _] at hlt'
  -- both are below `2 ^ 31`, so that their difference does not wrap around
  rw [get, Int32.toInt_sub, hinc, hdec]
  exact Int.bmod_eq_of_le (by omega) (by omega)

/-- Counters that have seen the same updates have the same value, in whatever order the
    updates have come to them. -/
theorem get_congr {j : ι} (hseen : (replicated.run calls).seen i = (replicated.run calls).seen j) :
    ((replicated.run calls).objects i).get = ((replicated.run calls).objects j).get := by
  obtain ⟨-, hgood, hcount⟩ := counted_run hbound i
  obtain ⟨-, hgood', hcount'⟩ := counted_run hbound j
  have hsame (u : Update T) : count ((replicated.run calls).objects i) u =
      count ((replicated.run calls).objects j) u := by
    refine (hcount u).trans ?_
    rw [hseen]
    exact (hcount' u).symm
  rw [get, get,
    hgood.1.get_eq_of_count hgood'.1 (funext fun key => hsame (.increment key))
      (sum_lt hbound i (sum_inc hbound i).1),
    hgood.2.get_eq_of_count hgood'.2 (funext fun key => hsame (.decrement key))
      (sum_lt hbound i (sum_dec hbound i).1)]

end

/-- Each of two counters leaves one key to the other. -/
theorem get_owned :
    let calls : List (Call Bool (Update Bool)) :=
      [.update true (.increment true), .update false (.increment false),
        .update false (.decrement false), .merge true false, .update true (.increment true),
        .merge false true]
    ((replicated.run calls).objects false).get.toInt = 2 := by
  intro calls
  have hlog : (replicated.run calls).log.length < 2 ^ 31 := by decide +kernel
  have howner : ∀ c ∈ calls,
      c.Respects id fun | .increment key => key | .decrement key => key := by
    simp only [calls, List.forall_mem_cons]
    exact ⟨rfl, rfl, rfl, trivial, rfl, trivial, by simp⟩
  refine (get_of_owner hlog false howner).trans ?_
  decide +kernel

/-- Two counters have sent each other their copies, one of which is merged twice. -/
theorem get_exchanged :
    let calls : List (Call (Fin 4) (Update Bool)) :=
      [.update 0 (.increment true), .update 1 (.decrement false), .copy 2 0, .copy 3 1,
        .merge 0 3, .merge 1 2, .merge 0 3]
    ((replicated.run calls).objects 0).get = ((replicated.run calls).objects 1).get :=
  get_congr (by decide +kernel) 0 (by decide +kernel)

end PNCounter

/-! ## States -/

/-- A `GState`: the states of the keys, which are the constants of an enumeration that has `n`
    of them, by their ordinals. -/
structure GState (T : Type) (n : ℕ) where
  state : HashMap T (Fin n) := ∅

namespace GState

variable {n : ℕ} (c other : GState T n) (key : T)

/-- Advances the state of a key, if there is a next one. -/
def increment : Option (GState T n) :=
  let ord := ((c.state.lookup key).map fun s => s.val + 1).getD 0
  if h : ord < n then some { state := c.state.insert key ⟨ord, h⟩ } else none

def merge : GState T n := { state := c.state.mergeWith max other.state }

/-- States as replicated objects. -/
def replicated : Replicated (GState T n) T where
  new := {}
  update _ key c := c.increment key
  merge := merge

/-- The number of the states a key has gone through. -/
def count : ℕ := ((c.state.lookup key).map fun s => s.val + 1).getD 0

variable {c other key}

theorem increment_eq_some {c' : GState T n} (h : c.increment key = some c') :
    c'.count = Function.update c.count key (c.count key + 1) := by
  simp only [increment] at h
  split_ifs at h with hord
  obtain rfl := Option.some.inj h
  funext k
  rw [count, Function.update_apply]
  split_ifs with hk
  · subst hk
    rw [AList.lookup_insert]
    rfl
  · rw [AList.lookup_insert_ne hk]
    rfl

theorem count_merge : (c.merge other).count key = max (c.count key) (other.count key) := by
  have hlookup : (c.merge other).state.lookup key =
      HashMap.joined max (c.state.lookup key) (other.state.lookup key) :=
    HashMap.lookup_mergeWith max c.state other.state key
  rw [count, count, count, hlookup]
  rcases c.state.lookup key with _ | s <;> rcases other.state.lookup key with _ | s'
  · rfl
  · exact (Nat.zero_max _).symm
  · exact (Nat.max_zero _).symm
  · show (max s' s).val + 1 = max (s.val + 1) (s'.val + 1)
    rw [max_comm, Nat.succ_max_succ]
    rfl

/-- States count the advances of a key. -/
def counted (bound : ℕ) : Counts (replicated (T := T) (n := n)) T bound where
  key := id
  count := count
  Good _ := True
  good_new := trivial
  count_new _ := rfl
  update _ _ hy := ⟨trivial, increment_eq_some hy⟩
  merge _ _ := ⟨trivial, fun _ => count_merge⟩

theorem lookup_eq_some_iff {s : Fin n} : c.state.lookup key = some s ↔ c.count key = s.val + 1 := by
  rw [count]
  rcases c.state.lookup key with _ | s'
  · simp
  · simp [Fin.ext_iff]

/-- A key is advanced unless it has gone through all the states. -/
theorem increment_eq_none_iff : c.increment key = none ↔ c.count key = n := by
  have hle : c.count key ≤ n := by
    rw [count]
    rcases c.state.lookup key with _ | s
    · exact Nat.zero_le n
    · exact s.isLt
  simp only [increment, count, dite_eq_right_iff, reduceCtorEq, imp_false] at hle ⊢
  omega

/-- A key has gone through as many states as advances of it have seen each other, among those
    the object has seen, and is advanced until these are all the states there are. -/
theorem lookup_run (calls : List (Call ι T)) (i : ι) (key : T) :
    let w := (replicated (n := n)).run calls
    let advances := chain w.log (about w.log (· = key) (w.seen i))
    (∀ s : Fin n, (w.objects i).state.lookup key = some s ↔ advances = s.val + 1) ∧
      ((w.objects i).increment key = none ↔ advances = n) := by
  intro w advances
  have hcount : (w.objects i).count key = advances :=
    (counted w.log.length).count_eq le_rfl i key
  rw [← hcount]
  exact ⟨fun s => lookup_eq_some_iff, increment_eq_none_iff⟩

/-- A key never goes back, unless its object is assigned a copy. -/
theorem le_of_lookup {calls later : List (Call ι T)} {i : ι} (hcopy : ∀ j, .copy i j ∉ later)
    {s : Fin n} (hs : ((replicated.run calls).objects i).state.lookup key = some s) :
    ∃ s' ≥ s, ((replicated.run (calls ++ later)).objects i).state.lookup key = some s' := by
  have hle := (counted (n := n) (replicated.run (calls ++ later)).log.length).count_mono
    hcopy le_rfl key
  change count _ key ≤ count _ key at hle
  rw [lookup_eq_some_iff.1 hs] at hle
  cases hs' : ((replicated.run (calls ++ later)).objects i).state.lookup key with
  | none =>
    have hzero : count ((replicated (n := n).run (calls ++ later)).objects i) key = 0 := by
      rw [count, hs']
      rfl
    omega
  | some s' =>
    rw [lookup_eq_some_iff.1 hs'] at hle
    exact ⟨s', Nat.succ_le_succ_iff.1 hle, rfl⟩

/-- An object that is merged with one that lags behind. -/
theorem lookup_advanced :
    let calls : List (Call Bool Unit) := [.copy false true, .update true (), .update true ()]
    let later : List (Call Bool Unit) := [.update false (), .merge true false]
    ∃ s' ≥ (1 : Fin 3), ((replicated.run (calls ++ later)).objects true).state.lookup () = some s' :=
  le_of_lookup (by decide) (by decide +kernel)

end GState

end Kvdn
