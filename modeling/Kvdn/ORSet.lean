import Mathlib.Data.Finset.Image

/-!
# Observed-removed sets

The key sets of the `project` tree: `ORSet`, over set multimaps from the items to
the tags they have been added with. A merge unites the observed and the removed
tags of two sets, and is then to remove what has been removed from what has been
observed. But it asks the multimap to remove all values of a *key*, and passes it
the multimap of the removed tags, which is no key: nothing is removed
(`ORSet.observed_merge`).
-/

namespace Kvdn

/-- A `LinkedHashMultimap`, without its order: a set of entries. -/
abbrev Multimap (K V : Type) := Finset (K × V)

/-- An object passed for a key, which may be no key at all. -/
inductive MultimapKey (K V : Type)
  | key (k : K)
  | multimap (m : Multimap K V)

namespace Multimap

variable {K V : Type} [DecidableEq K] [DecidableEq V]

def put (m : Multimap K V) (k : K) (v : V) : Multimap K V := insert (k, v) m

def putAll (m m' : Multimap K V) : Multimap K V := m ∪ m'

/-- `removeAll(Object)`: the multimap left, and the entries removed. -/
def removeAll (m : Multimap K V) : MultimapKey K V → Multimap K V × Multimap K V
  | .key k => (m.filter (·.1 ≠ k), m.filter (·.1 = k))
  | .multimap _ => (m, ∅)

def keySet (m : Multimap K V) : Finset K := m.image Prod.fst

end Multimap

/-- An observed-removed set, with tags `τ`. -/
structure ORSet (T τ : Type) where
  observed : Multimap T τ := ∅
  removed : Multimap T τ := ∅
  deriving DecidableEq

namespace ORSet

variable {T τ : Type} [DecidableEq T] [DecidableEq τ] (s : ORSet T τ)

/-- `add`, with the tag `randomUUID()` has given. -/
def add (item : T) (tag : τ) : ORSet T τ := { s with observed := s.observed.put item tag }

def remove (item : T) : ORSet T τ :=
  let (observed, removedTags) := Multimap.removeAll s.observed (.key item)
  { observed, removed := s.removed.putAll removedTags }

def get : Finset T := s.observed.keySet

def merge (other : ORSet T τ) : ORSet T τ :=
  let observed := s.observed.putAll other.observed
  let removed := s.removed.putAll other.removed
  { observed := (Multimap.removeAll observed (.multimap removed)).1, removed }

variable {s} {item : T} {tag : τ} {p : T × τ} {other : ORSet T τ}

omit [DecidableEq τ] in
theorem mem_get : item ∈ s.get ↔ ∃ tag, (item, tag) ∈ s.observed := by
  simp [get, Multimap.keySet]

theorem mem_observed_add : p ∈ (s.add item tag).observed ↔ p = (item, tag) ∨ p ∈ s.observed :=
  Finset.mem_insert

@[simp] theorem removed_add : (s.add item tag).removed = s.removed := rfl

theorem mem_observed_remove : p ∈ (s.remove item).observed ↔ p ∈ s.observed ∧ p.1 ≠ item :=
  Finset.mem_filter

theorem mem_removed_remove :
    p ∈ (s.remove item).removed ↔ p ∈ s.removed ∨ p ∈ s.observed ∧ p.1 = item := by
  simp [remove, Multimap.putAll, Multimap.removeAll]

/-- Nothing is removed by a merge. -/
theorem observed_merge : (s.merge other).observed = s.observed ∪ other.observed := rfl

theorem removed_merge : (s.merge other).removed = s.removed ∪ other.removed := rfl

end ORSet

end Kvdn
