import Kvdn.Frame

/-!
# Transactions of a session which are not refused

What the answers are in a `Setting`, the transactions of one session, none of which
the flags refuse (`Known`), and what that says of the progress of its transactions:
they work on their own map, with the right key (`Fits`).

In the runs of `succeedingSem`, no transaction is refused, and none fails.
-/

namespace Kvdn

open Callback AsyncResult

namespace Op

/-- The key of a `submit`, when `md5` is the digest algorithm. -/
def digestOf (md5 : List UInt8 → List UInt8) : Op → Option JString
  | submit content => some (encodeHex (md5 content.getBytes))
  | _ => none

theorem exists_result (md5 : List UInt8 → List UInt8) (op : Op) (x : Obj) :
    ∃ v, op.result (op.digestOf md5) x = some v := by
  cases op <;> exact ⟨_, rfl⟩

end Op

/-- The answers tell which map has been found, and whose transaction has been made. -/
def Located : (a : Act) → a.Res → Prop
  | .getMap D sa, (r : AsyncResult AsyncMap) => ∀ m, r = succeededFuture m → m = ⟨D.space, sa⟩
  | .newTx s sa, (tx : KvTx) => tx.session = s ∧ tx.strAddr = sa
  | _, _ => True

theorem located_of_ok {w : World} {a : Act} {r : a.Res} (h : w.ok a r) : Located a r := by
  cases a with
  | getMap D sa =>
    rintro m rfl
    exact h
  | newTx s sa =>
    obtain rfl := h
    exact ⟨rfl, rfl⟩
  | _ => trivial

namespace Progress

variable {tx : KvTx} {op : Op} {g : Progress}

/-- The map that a transaction has found is its own. -/
def FindsOwn (tx : KvTx) (g : Progress) : Prop :=
  ∀ m, g.phase.map = some m → m = ⟨tx.session.D.space, tx.strAddr⟩

theorem findsOwn_init : FindsOwn tx {} := fun _ h => nomatch h

theorem FindsOwn.step (h : FindsOwn tx g) {a : Act} {r : a.Res} (ha : allow tx op g a)
    (hr : Located a r) : FindsOwn tx (g.step tx op a r) := by
  intro m hm
  cases hres : a.answer r with
  | some res =>
    rw [step_answer hres] at hm
    cases res <;> cases hn : op.notifies <;> simp [answered, hn, Phase.map] at hm
  | none =>
    cases a with
    | put | get | remove | clear | size | getKeys => cases hres
    | getMap D sa =>
      obtain ⟨-, -, -, rfl, rfl⟩ := ha
      cases (r : AsyncResult AsyncMap) with
      | succeededFuture map =>
        obtain rfl : map = m := Option.some.inj hm
        exact hr map rfl
      | failedFuture c => cases hm
    | checkFlags sessionid mode =>
      obtain ⟨⟨map, hg⟩, -⟩ := ha
      rw [step_checkFlags hg] at hm
      cases (r : Bool) with
      | true =>
        refine h m ?_
        rw [hg]
        exact hm
      | false => cases hm
    | hook nxt tx' =>
      obtain ⟨⟨hooks, hg | hg⟩, -⟩ := ha
      · rw [step_hook_starting hg] at hm
        cases hm
      · rw [step_hook_finishing hg] at hm
        cases hm
    | dirty txid => cases (r : Bool) <;> cases hm
    | publish | commit | newTx | op | cacheContains | cacheAdd | cacheRemove | digest =>
      exact h m hm
    | _ => cases hm

/-- The call of a transaction is that of its operation, on its own map. -/
theorem FindsOwn.call (h : FindsOwn tx g) {a : Act} (ha : g.Calls op a) :
    g.outcome = .open ∧ op.call g.digest ⟨tx.session.D.space, tx.strAddr⟩ = some a := by
  obtain ⟨map, hg, hopen, hcall⟩ := ha
  obtain rfl := h map (by rw [hg]; rfl)
  exact ⟨hopen, hcall⟩

end Progress

/-- What is to be known of the session, and of the world. -/
structure Setting where
  session : KvdnSession
  md5 : List UInt8 → List UInt8
  /-- The UUIDs of the nested transactions are not smaller. -/
  uuids : ℕ

/-- What is known of an answer. -/
def Known (S : Setting) : (a : Act) → a.Res → Prop
  | .checkFlags sessionid _, (b : Bool) => sessionid = S.session.sessionid → b = true
  | .getMap D sa, (r : AsyncResult AsyncMap) => ∀ m, r = succeededFuture m → m = ⟨D.space, sa⟩
  | .digest bytes, (r : List UInt8) => r = S.md5 bytes
  | .newTx s sa, (tx : KvTx) => S.uuids ≤ tx.txid ∧ tx.session = s ∧ tx.strAddr = sa
  | _, _ => True

variable {S : Setting} {tx : KvTx} {o : Op} {w : World}

theorem Known.located {a : Act} {r : a.Res} (h : Known S a r) : Located a r := by
  cases a with
  | getMap => exact h
  | newTx => exact h.2
  | _ => trivial

/-- The runs in which no transaction fails, or is refused. -/
def succeedingSem : Sem Act.Res Exn World := sem.restrict fun _ a r => a.Succeeds r

/-- What is known of the answers, from the world. -/
theorem known_of_ok {a : Act} {r : a.Res}
    (hflags : (∀ mode, Sum.inr mode ∉ w.txflags S.session.sessionid) ∨ a.Succeeds r)
    (hmd5 : w.md5 = S.md5) (huuids : S.uuids ≤ w.uuids) (hok : w.ok a r) : Known S a r := by
  cases a with
  | checkFlags sessionid mode =>
    rintro rfl
    rcases hflags with hflags | hallowed
    · exact hok.trans (by simp [hflags mode])
    · exact Bool.not_eq_false' .. ▸ hallowed rfl
  | getMap D sa =>
    rintro m rfl
    exact hok
  | digest bytes => exact hok.trans (by rw [hmd5])
  | newTx s sa =>
    obtain rfl := hok
    exact ⟨huuids, rfl, rfl⟩
  | _ => trivial

/-- A transaction of the session, on its map, whose flags do not refuse it. -/
structure Fits (S : Setting) (tx : KvTx) (o : Op) (g : Progress) : Prop where
  sound : g.Sound tx o
  map : ∀ m, g.phase.map = some m → m = ⟨S.session.D.space, tx.strAddr⟩
  digest : g.digest = none ∨ g.digest = o.digestOf S.md5
  not_refused : ∀ m, g.outcome ≠ .refused m

theorem fits_init : Fits S tx o {} :=
  ⟨Progress.sound_init, fun _ hm => (nomatch hm), .inl rfl, nofun⟩

theorem Fits.step {g : Progress} {a : Act} {r : a.Res} (h : Fits S tx o g)
    (hs : tx.session = S.session) (ha : Progress.allow tx o g a) (hk : Known S a r) :
    Fits S tx o (g.step tx o a r) where
  sound := h.sound.step ha
  map := by
    have hown : Progress.FindsOwn tx g := by simpa only [Progress.FindsOwn, hs] using h.map
    simpa only [Progress.FindsOwn, hs] using hown.step ha hk.located
  digest := by
    cases a with
    | digest bytes =>
      obtain ⟨-, -, content, rfl, rfl⟩ := ha
      obtain rfl : r = S.md5 content.getBytes := hk
      exact .inr rfl
    | _ => rw [Progress.digest_step fun _ hbytes => by cases hbytes]; exact h.digest
  not_refused m := by
    cases a with
    | put | get | remove | clear | size | getKeys =>
      cases (r : AsyncResult Obj) <;> rintro ⟨⟩
    | getMap => cases (r : AsyncResult AsyncMap) with
      | succeededFuture map => exact h.not_refused m
      | failedFuture c => rintro ⟨⟩
    | checkFlags sessionid mode =>
      obtain ⟨⟨map, hg⟩, -, rfl, -⟩ := ha
      obtain rfl : r = true := hk (by rw [hs])
      rw [Progress.step_checkFlags hg]
      exact h.not_refused m
    | _ =>
      rw [Progress.outcome_step rfl fun _ _ hflags => by cases hflags]
      exact h.not_refused m

/-- The call of a transaction is that of its operation on its map. -/
theorem Fits.call {g : Progress} {a : Act} (h : Fits S tx o g) (ha : g.Calls o a) :
    g.outcome = .open ∧ o.call (o.digestOf S.md5) ⟨S.session.D.space, tx.strAddr⟩ = some a := by
  obtain ⟨map, hg, hopen, hcall⟩ := ha
  obtain rfl := h.map map (by rw [hg]; rfl)
  refine ⟨hopen, ?_⟩
  rcases h.digest with hd | hd
  · rw [hd] at hcall
    cases o <;> first | exact hcall | exact nomatch hcall
  · rwa [hd] at hcall

theorem Fits.result {g : Progress} {x v : Obj} (h : Fits S tx o g)
    (hv : o.result g.digest x = some v) : o.result (o.digestOf S.md5) x = some v := by
  rcases h.digest with hd | hd
  · rw [hd] at hv
    cases o <;> first | exact hv | exact nomatch hv
  · rwa [hd] at hv

end Kvdn
