import Mathlib.Data.Finmap
import Mathlib.Data.Nat.Notation

/-!
# Values

What the transactions handle: Java strings, with their UTF-8 bytes and the
hexadecimal digests computed from them; the objects stored in the maps and given
to the handlers; the asynchronous results, successes or failures with a cause.
-/

namespace Kvdn

/-! ## Strings -/

/-- A Java string: its UTF-16 code units, surrogates paired or not. -/
abbrev JString := List UInt16

instance : LawfulBEq JString := inferInstance

/-- The Java string of a literal. -/
def jstr (s : String) : JString :=
  s.toList.flatMap fun c =>
    if c.toNat < 0x10000 then [c.toNat.toUInt16]
    else
      let n := c.toNat - 0x10000
      [(0xD800 + n / 0x400).toUInt16, (0xDC00 + n % 0x400).toUInt16]

namespace JString

def isHighSurrogate (u : UInt16) : Bool := 0xD800 ≤ u && u < 0xDC00

def isLowSurrogate (u : UInt16) : Bool := 0xDC00 ≤ u && u < 0xE000

/-- The UTF-8 bytes of a string (`String.getBytes`, through `Buffer.buffer`): a
    surrogate without its partner is replaced by `'?'`. -/
def getBytes : JString → List UInt8
  | [] => []
  | u :: us =>
    let n := u.toNat
    if n < 0x80 then n.toUInt8 :: getBytes us
    else if n < 0x800 then
      (0xC0 + n / 0x40).toUInt8 :: (0x80 + n % 0x40).toUInt8 :: getBytes us
    else if isHighSurrogate u then
      match us with
      | [] => [0x3F]
      | v :: vs =>
        if isLowSurrogate v then
          let c := 0x10000 + (n - 0xD800) * 0x400 + (v.toNat - 0xDC00)
          (0xF0 + c / 0x40000).toUInt8 :: (0x80 + c / 0x1000 % 0x40).toUInt8 ::
            (0x80 + c / 0x40 % 0x40).toUInt8 :: (0x80 + c % 0x40).toUInt8 :: getBytes vs
        else 0x3F :: getBytes (v :: vs)
    else if isLowSurrogate u then 0x3F :: getBytes us
    else
      (0xE0 + n / 0x1000).toUInt8 :: (0x80 + n / 0x40 % 0x40).toUInt8 ::
        (0x80 + n % 0x40).toUInt8 :: getBytes us

end JString

/-- A lower case hexadecimal digit. -/
def hexDigit (n : ℕ) : UInt16 := (if n < 10 then 0x30 + n else 0x57 + n).toUInt16

/-- `encodeHex`: two digits for every byte. -/
def encodeHex (bytes : List UInt8) : JString :=
  bytes.flatMap fun b => [hexDigit (b.toNat / 16), hexDigit (b.toNat % 16)]

theorem hexDigit_inj : ∀ m < 16, ∀ n < 16, hexDigit m = hexDigit n → m = n := by decide

theorem encodeHex_injective : Function.Injective encodeHex := by
  intro bytes
  induction bytes with
  | nil =>
    rintro (_ | ⟨b, bytes'⟩) h
    · rfl
    · exact nomatch h
  | cons b bytes ih =>
    rintro (_ | ⟨b', bytes'⟩) h
    · exact nomatch h
    · obtain ⟨hhigh, htail⟩ := List.cons.inj h
      obtain ⟨hlow, hrest⟩ := List.cons.inj htail
      have hb := b.toNat_lt
      have hb' := b'.toNat_lt
      have hdiv := hexDigit_inj _ (by omega) _ (by omega) hhigh
      have hmod := hexDigit_inj _ (Nat.mod_lt _ (by decide)) _ (Nat.mod_lt _ (by decide)) hlow
      have hbyte : b = b' := UInt8.toNat_inj.1 (by omega)
      rw [hbyte, ih hrest]

/-! ## Objects -/

/-- Where the maps of a data implementation live. -/
inductive Space
  /-- The `LocalMap`s of the node. -/
  | localMap
  /-- The cluster wide maps. -/
  | clusterWideMap
  /-- The maps of a MapDB database. -/
  | db
  /-- The maps of a data implementation outside the repository. -/
  | other (n : ℕ)
  deriving DecidableEq

/-- A map of a space, by its name. -/
structure AsyncMap where
  space : Space
  name : JString
  deriving DecidableEq

/-- The objects stored in maps and given to handlers. -/
inductive Obj
  | null
  | str (s : JString)
  | bool (b : Bool)
  | uuid (n : ℕ)
  | int (n : ℕ)
  | keys (ks : Finset JString)
  | asyncMap (m : AsyncMap)
  deriving DecidableEq

/-- The contents of a map. -/
abbrev KMap := Finmap fun _ : JString => Obj

namespace KMap

theorem insert_ne_empty (c : KMap) (key : JString) (x : Obj) : c.insert key x ≠ ∅ := by
  intro h
  have hkey : key ∈ c.insert key x := Finmap.mem_insert.2 (.inl rfl)
  rw [h] at hkey
  exact Finmap.notMem_empty hkey

theorem keys_eq_empty {c : KMap} : c.keys = ∅ ↔ c = ∅ := by
  refine ⟨fun h => Finmap.ext_lookup fun key => ?_, fun h => by rw [h, Finmap.keys_empty]⟩
  have hkey : key ∉ c := by rw [← Finmap.mem_keys, h]; exact Finset.notMem_empty key
  rw [Finmap.lookup_eq_none.2 hkey, Finmap.lookup_empty]

theorem keys_insert (c : KMap) (key : JString) (value : Obj) :
    (c.insert key value).keys = insert key c.keys := by
  ext key'
  rw [Finmap.mem_keys, Finmap.mem_insert, Finset.mem_insert, Finmap.mem_keys]

theorem card_keys_eq_zero {c : KMap} : c.keys.card = 0 ↔ c = ∅ := by
  rw [Finset.card_eq_zero, keys_eq_empty]

theorem insert_of_lookup {c : KMap} {key : JString} {value : Obj} (h : c.lookup key = some value) :
    c.insert key value = c := by
  refine Finmap.ext_lookup fun key' => ?_
  by_cases hkey : key' = key
  · rw [hkey, Finmap.lookup_insert, h]
  · rw [Finmap.lookup_insert_of_ne c hkey]

theorem erase_empty (key : JString) : (∅ : KMap).erase key = ∅ := by
  rw [← keys_eq_empty, Finmap.keys_erase, Finmap.keys_empty, Finset.erase_empty]

end KMap

/-! ## Results -/

/-- What can be thrown: exceptions, and errors, which are no exceptions. -/
inductive Throwable
  | exception (msg : JString)
  | error (msg : JString)
  deriving DecidableEq

/-- The result of an asynchronous call. -/
inductive AsyncResult (α : Type)
  | succeededFuture (result : α)
  | failedFuture (cause : Throwable)
  deriving DecidableEq

namespace AsyncResult

variable {α : Type}

def succeeded : AsyncResult α → Bool
  | succeededFuture _ => true
  | failedFuture _ => false

def cause : AsyncResult α → Option Throwable
  | succeededFuture _ => none
  | failedFuture c => some c

@[simp] theorem succeeded_succeededFuture (x : α) : (succeededFuture x).succeeded = true := rfl

@[simp] theorem succeeded_failedFuture (c : Throwable) :
    (failedFuture c : AsyncResult α).succeeded = false := rfl

theorem succeeded_iff {r : AsyncResult α} : r.succeeded = true ↔ ∃ x, r = succeededFuture x := by
  cases r <;> simp

theorem not_succeeded_iff {r : AsyncResult α} :
    r.succeeded = false ↔ ∃ c, r = failedFuture c := by
  cases r <;> simp

theorem exists_of_cause {r : AsyncResult α} (h : r.cause.isSome = false) :
    ∃ x, r = succeededFuture x := by
  cases r with
  | succeededFuture x => exact ⟨x, rfl⟩
  | failedFuture c => exact nomatch h

end AsyncResult

/-- The exceptions thrown by the code itself. -/
inductive Exn
  /-- "kvdnTX has already been invoked, you must create another kvdnTX" -/
  | alreadyInvoked
  /-- "kvdn session needs to be init(cb,ecb) before you use it" -/
  | notInitalized
  | classCast
  | nullPointer
  deriving DecidableEq

end Kvdn
