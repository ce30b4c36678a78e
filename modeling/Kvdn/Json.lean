import Mathlib.Data.Int.Notation
import Mathlib.Data.List.Basic

/-!
# JSON

JSON values over the strings `S` of a language, without the numbers that are not integers:
what may be read of them, and how members are assigned. The members of a value are what
`find` finds; it is all that is said about assignments.
-/

namespace Kvdn

/-- A JSON value. -/
inductive Json (S : Type)
  | null
  | bool (b : Bool)
  | int (n : ℤ)
  | string (s : S)
  | array (items : List (Json S))
  | object (members : List (S × Json S))

namespace Json

variable {S : Type}

def isObject : Json S → Bool
  | object _ => true
  | _ => false

/-- What is `empty()`: null, and what has no elements. -/
def empty : Json S → Bool
  | null | array [] | object [] => true
  | _ => false

/-- The value has members, or is null. -/
def hasMembers : Json S → Bool
  | null | object _ => true
  | _ => false

def getMemberNames : Json S → List S
  | object members => members.map Prod.fst
  | _ => []

variable [DecidableEq S]

/-- The member of an object. -/
def find (json : Json S) (name : S) : Option (Json S) :=
  match json with
  | object members => members.lookup name
  | _ => none

def isMember (json : Json S) (name : S) : Bool := (json.find name).isSome

def get (json : Json S) (name : S) (defaultValue : Json S) : Json S :=
  (json.find name).getD defaultValue

/-- A member of an object assigned; null becomes an object. -/
def set (json : Json S) (name : S) (value : Json S) : Json S :=
  match json with
  | object members =>
    if json.isMember name then
      object (members.map fun m => if m.1 = name then (name, value) else m)
    else object (members ++ [(name, value)])
  | _ => object [(name, value)]

variable {json : Json S}

theorem find_of_not_isObject (h : ¬ json.isObject = true) (name : S) : json.find name = none := by
  cases json with
  | object members => exact absurd rfl h
  | _ => rfl

theorem lookup_map_assign (members : List (S × Json S)) (name name' : S) (value : Json S) :
    (members.map fun m => if m.1 = name then (name, value) else m).lookup name' =
      if name' = name then (members.lookup name).map fun _ => value else members.lookup name' := by
  induction members with
  | nil => simp
  | cons m members ih =>
    rw [List.map_cons, List.lookup_cons, List.lookup_cons, List.lookup_cons, ih]
    by_cases hm : m.1 = name
    · by_cases hname : name' = name <;> simp [hm, hname, beq_eq_false_iff_ne.2]
    · by_cases hname : name' = name
      · simp [hm, hname, beq_eq_false_iff_ne.2 (Ne.symm hm)]
      · simp [hm, hname]

/-- The member assigned is found, and the others are as they were. -/
theorem find_set (name name' : S) (value : Json S) :
    (json.set name value).find name' = if name' = name then some value else json.find name' := by
  have hone : List.lookup name' [(name, value)] = if name' = name then some value else none := by
    rw [List.lookup_cons]
    by_cases hname : name' = name
    · simp [hname]
    · simp [hname, beq_eq_false_iff_ne.2 hname]
  cases json with
  | object members =>
    by_cases hmember : (object members).isMember name = true
    · obtain ⟨old, hold⟩ := Option.isSome_iff_exists.1 hmember
      have hlookup : members.lookup name = some old := hold
      rw [set, if_pos hmember]
      show List.lookup name' (members.map _) = _
      rw [lookup_map_assign, hlookup]
      rfl
    · have hlookup : members.lookup name = none :=
        Option.not_isSome_iff_eq_none.1 hmember
      rw [set, if_neg hmember]
      show (members ++ [(name, value)]).lookup name' = _
      rw [List.lookup_append, hone]
      by_cases hname : name' = name
      · simp [hname, hlookup]
      · simp [hname, find]
  | _ => exact hone

theorem mem_getMemberNames (name : S) :
    name ∈ json.getMemberNames ↔ json.isMember name = true := by
  cases json with
  | object members =>
    show name ∈ members.map Prod.fst ↔ (members.lookup name).isSome = true
    induction members with
    | nil => simp
    | cons m members ih =>
      rw [List.map_cons, List.mem_cons, List.lookup_cons]
      by_cases hname : name = m.1
      · simp [hname]
      · simp [hname, beq_eq_false_iff_ne.2 hname, ih]
  | _ => exact iff_of_false List.not_mem_nil Bool.false_ne_true

/-- The members given a value, where there was none. -/
def setMissing (f : S → Json S) (names : List S) (json : Json S) : Json S :=
  names.foldl (fun json n => if json.isMember n then json else json.set n (f n)) json

theorem find_setMissing (f : S → Json S) (names : List S) (name : S) :
    (json.setMissing f names).find name =
      (json.find name).or (if name ∈ names then some (f name) else none) := by
  induction names generalizing json with
  | nil => simp [setMissing]
  | cons n names ih =>
    rw [setMissing, List.foldl_cons, ← setMissing, ih]
    by_cases hn : json.isMember n = true
    · rw [if_pos hn]
      by_cases hname : name = n
      · -- a member that was there stays
        subst hname
        obtain ⟨value, hvalue⟩ := Option.isSome_iff_exists.1 hn
        rw [hvalue, Option.some_or, Option.some_or]
      · simp [hname]
    · rw [if_neg hn, find_set]
      by_cases hname : name = n
      · have hnone : json.find n = none := by simpa [isMember] using hn
        simp [hname, hnone]
      · simp [hname]

end Json

end Kvdn
