import Kvdn.Frame
import Kvdn.NullKeys

/-!
# Acknowledgements

Whether the handler of a transaction can rely on the success it is given. The
hooks of the repository report failures (`MapdbPostTXHook` that of `db.commit`,
the metadata hook those of its own transactions), but the hook chain drops them,
as the operations drop those of the key provider; when the flags refuse an
operation, its handler is given the successful result of looking up the map; and
when a `LocalMap` refuses a null key, the handler of the deletion is given the failure
and then a success.

* `honest_iff`: an operation acknowledges honestly exactly in the runs where its map
  answers once and, if some step fails or is refused, then so does the lookup or the
  call of the map (or of the key provider, for the keys);
* `not_honest`: the handler of a `set` whose commit failed is given a success;
* `not_honest_null`: so is that of the deletion of a null key.
-/

namespace Kvdn

open Callback Callback.Sem AsyncResult

/-- The handler is given a success only if no step has failed or been refused. -/
def Honest (tx : KvTx) (tr : List Step) : Prop :=
  ∀ x, ⟨.handle tx.txid (succeededFuture x), ()⟩ ∈ tr → ∀ l ∈ tr, ¬Step.Fails l

/-- The handler of an operation has been called for all answers of its map: for the one, or
    (`twice`) for the two that a `LocalMap` gives to a null key. -/
inductive Acknowledges (txflags : Finset Flag) (dirty : Bool) (tx : KvTx) (op : Op) :
    Bool → List Step → Prop
  | once {tr : List Step} {dirty' : Bool} {p : Prog (AsyncResult Obj)} {res : AsyncResult Obj} :
      (frameSem txflags).Runs dirty (tx.run op) tr dirty' p → ⟨.handle tx.txid res, ()⟩ ∈ tr →
      Acknowledges txflags dirty tx op false tr
  | twice {key : JString} {tr : List (Bool × Step)} {dirty' : Bool} {res res' : AsyncResult Obj} :
      op = .del key → RunsTwice (frameSem txflags) dirty tx key tr dirty' res res' →
      Acknowledges txflags dirty tx op true (tr.map Prod.snd)

variable {tx : KvTx} {op : Op} {tr : List Step} {txflags : Finset Flag} {dirty dirty' : Bool}
  {p : Prog (AsyncResult Obj)} {res : AsyncResult Obj}

/-- The handler is given a success exactly if no deciding step has failed. -/
theorem succeeded_iff_of_runs (h : (frameSem txflags).Runs dirty (tx.run op) tr dirty' p)
    (hres : ⟨.handle tx.txid res, ()⟩ ∈ tr) :
    res.succeeded = true ↔ ¬∃ l ∈ tr, Step.DecidesFailure l := by
  obtain ⟨g, htells, -⟩ := Progress.exists_of_runs h
  exact htells.succeeded_iff (htells.phase_eq hres)

/-- An operation the map of which has answered once. -/
theorem honest_iff_of_runs (h : (frameSem txflags).Runs dirty (tx.run op) tr dirty' p)
    (hres : ⟨.handle tx.txid res, ()⟩ ∈ tr) :
    Honest tx tr ↔ ((∃ l ∈ tr, Step.Fails l) → ∃ l ∈ tr, Step.DecidesFailure l) := by
  constructor
  · rintro hhonest ⟨l, hl, hfails⟩
    by_contra hdecides
    obtain ⟨x, rfl⟩ := AsyncResult.succeeded_iff.1 ((succeeded_iff_of_runs h hres).2 hdecides)
    exact hhonest x hres l hl hfails
  · intro hdecides x hx l hl hfails
    exact (succeeded_iff_of_runs h hx).1 rfl (hdecides ⟨l, hl, hfails⟩)

/-- The deletion of a null key: the second answer is a success, after a failure. -/
theorem RunsTwice.dishonest {key : JString} {tr : List (Bool × Step)} {res' : AsyncResult Obj}
    (h : RunsTwice (frameSem txflags) dirty tx key tr dirty' res res') :
    ¬Honest tx (tr.map Prod.snd) := by
  obtain ⟨n, c, -, hn⟩ := h.failure
  intro hhonest
  exact hhonest _ (List.mem_map_of_mem (h.succeeded fun _ => rfl)) _
    (List.mem_map_of_mem (List.mem_of_getElem? hn)) rfl

/-- Once its handler has been called, an operation has acknowledged honestly if, and only if,
    its map has answered once and a deciding step is among those which have failed, if there
    are any. -/
theorem honest_iff {twice : Bool} (h : Acknowledges txflags dirty tx op twice tr) :
    Honest tx tr ↔
      twice = false ∧ ((∃ l ∈ tr, Step.Fails l) → ∃ l ∈ tr, Step.DecidesFailure l) := by
  cases h with
  | once hruns hres =>
    rw [honest_iff_of_runs hruns hres]
    exact (and_iff_right rfl).symm
  | twice hop htwice => exact iff_of_false htwice.dishonest fun h => by cases h.1

/-- The answers of a frame in which all steps succeed but the commit hook. -/
def commitFails (dirty : Bool) : (a : Act) → a.Res
  | .hook .MapdbPostTXHook _ => failedFuture (.exception (jstr "commit"))
  | .dirty _ => dirty
  | a => ({} : World).succeed a

theorem ok_commitFails (dirty : Bool) (a : Act) :
    (frameSem ∅).ok dirty a (commitFails dirty a) := by
  cases a with
  | dirty | checkFlags => rfl
  | _ => trivial

/-- A `set` on a MapDB session whose commit fails. -/
theorem honest_iff_commitFails :
    let tx : KvTx := { txid := 0, session := .mapdb 0, strAddr := jstr "a" }
    ∃ tr x, (frameSem ∅).Runs false (tx.run (.set (jstr "k") (jstr "v"))) tr true
        (.ret (succeededFuture x)) ∧
      (Honest tx tr ↔
        false = false ∧ ((∃ l ∈ tr, Step.Fails l) → ∃ l ∈ tr, Step.DecidesFailure l)) := by
  intro tx
  have h := runs_of_eval (S := frameSem ∅) ok_commitFails (n := 12) (w := false)
    (p := tx.run (.set (jstr "k") (jstr "v"))) rfl
  exact ⟨_, _, h, honest_iff (.once h (List.mem_iff_getElem?.2 ⟨10, rfl⟩))⟩

/-- It is acknowledged all the same. -/
theorem not_honest :
    let tx : KvTx := { txid := 0, session := .mapdb 0, strAddr := jstr "a" }
    ∃ tr x, (frameSem ∅).Runs false (tx.run (.set (jstr "k") (jstr "v"))) tr true
        (.ret (succeededFuture x)) ∧ ¬Honest tx tr := by
  intro tx
  have h := runs_of_eval (S := frameSem ∅) ok_commitFails (n := 12) (w := false)
    (p := tx.run (.set (jstr "k") (jstr "v"))) rfl
  refine ⟨_, _, h, fun hhonest => ?_⟩
  exact hhonest _ (List.mem_iff_getElem?.2 ⟨10, rfl⟩) ⟨.hook .MapdbPostTXHook _, _⟩
    (List.mem_iff_getElem?.2 ⟨6, rfl⟩) rfl

/-- The answers of a frame in which all steps succeed but the removal of a key. -/
def removeFails (dirty : Bool) : (a : Act) → a.Res
  | .getMap D sa => succeededFuture ⟨D.space, sa⟩
  | .remove _ _ => failedFuture (.exception (jstr "key"))
  | .dirty _ => dirty
  | a => ({} : World).succeed a

theorem ok_removeFails (dirty : Bool) (a : Act) :
    (frameSem ∅).ok dirty a (removeFails dirty a) := by
  cases a with
  | dirty | checkFlags => rfl
  | _ => trivial

/-- A `del` of a null key, on a session of a node that is not clustered. -/
theorem not_honest_null :
    let tx : KvTx := { txid := 0, session := .inMemory 0, strAddr := jstr "a" }
    ∃ tr, Acknowledges ∅ false tx (.del (jstr "k")) true tr ∧ ¬Honest tx tr := by
  intro tx
  have hpool := pool_schedule_init (S := frameSem ∅) ok_removeFails false
    (tx.strands (jstr "k")) (.replicate 10 false ++ .replicate 10 true)
  have htwice : RunsTwice (frameSem ∅) false tx (jstr "k") _ _ _ _ :=
    ⟨rfl, ⟨_, hpool, rfl, rfl⟩, 3, _, by decide +kernel, rfl⟩
  exact ⟨_, .twice rfl htwice, htwice.dishonest⟩

end Kvdn
