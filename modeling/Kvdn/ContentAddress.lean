import Kvdn.Footprint

/-!
# Content addresses

The key of a `submit` is the digest of the bytes of its content, which a run of submits
to one address is to find again under this key (`Lossless`).

* `lossless_iff`: it does if, and only if, different contents have different bytes;
* `not_lossless`: a surrogate without its partner has the same bytes as a question mark.
-/

namespace Kvdn

open Callback Callback.Sem AsyncResult

/-- The turns of a run of requests. -/
abbrev Turns := List (Turn Request World (AsyncResult Obj))

/-- The key of a content. -/
def contentKey (md5 : List UInt8 → List UInt8) (content : JString) : JString :=
  encodeHex (md5 content.getBytes)

/-- A turn has submitted a content, and returned its key. -/
def Submitted (t : Turn Request World (AsyncResult Obj)) (content key : JString) : Prop :=
  t.call.op = .submit content ∧ t.value = succeededFuture (.str key)

/-- A request to submit a content to the map `m`, at its address. -/
structure Request.Submits (m : AsyncMap) (c : Request) : Prop where
  map : m = ⟨c.session.D.space, c.strAddr⟩
  op : ∃ content, c.op = .submit content

/-- A run of submits loses nothing. -/
structure Lossless (m : AsyncMap) (ts : Turns) : Prop where
  /-- With the key returned, `get` yields the content, from then on. -/
  stored : ∀ ts₁ t ts₂ content key, ts = ts₁ ++ t :: ts₂ → Submitted t content key →
    ∀ t' ∈ t :: ts₂, ((Op.get key).apply t'.after.md5 (t'.after.map m)).2 = .str content
  /-- Different contents have different keys. -/
  distinct : ∀ t ∈ ts, ∀ t' ∈ ts, ∀ content content' key key', Submitted t content key →
    Submitted t' content' key' → content ≠ content' → key ≠ key'
  /-- A content submitted again has the same key, and the map is left unchanged. -/
  again : ∀ ts₁ t ts₂ content key, ts = ts₁ ++ t :: ts₂ → Submitted t content key →
    ∀ t' ∈ ts₂, ∀ key', Submitted t' content key' → key' = key ∧ t'.after.map m = t'.before.map m

/-- The contents of the requests that have the same bytes are the same. -/
def Separate (cs : List Request) : Prop :=
  ∀ c ∈ cs, ∀ c' ∈ cs, ∀ content content', c.op = .submit content → c'.op = .submit content' →
    content.getBytes = content'.getBytes → content = content'

section

variable {m : AsyncMap} {w w' : World} {ts : Turns} {c : Request} {content key : JString}

/-- What a submit does: it stores the content under its key, which it returns, or does
    nothing, and returns no key. -/
theorem submit_of_runs {tr : List Step} {res : AsyncResult Obj} (hc : c.Submits m)
    (hm : m ≠ World.accessCache) (h : sem.Runs w c.transaction tr w' (.ret res)) :
    w'.md5 = w.md5 ∧ ∀ content, c.op = .submit content →
      (w'.map m = (w.map m).insert (contentKey w.md5 content) (.str content) ∧
        res = succeededFuture (.str (contentKey w.md5 content))) ∨
      (w'.map m = w.map m ∧ ∀ key, res ≠ succeededFuture (.str key)) := by
  refine ⟨md5_of_runs h, fun content hop => ?_⟩
  have hcall : c.op.callOn w.md5 m ≠ none := by
    rw [hop]
    simp [Op.callOn, Op.call, Op.digestOf, Act.on]
  have happly := Request.apply_of_runs h hc.map hm hcall
  rw [hop] at happly
  rcases happly with
    ⟨hput, hres⟩ | ⟨hsame, hfail⟩
  · exact .inl ⟨hput, hres⟩
  · refine .inr ⟨hsame, fun key hkey => ?_⟩
    rcases hfail with ⟨c, hfail⟩ | ⟨map, hfail⟩
    · cases hkey.symm.trans hfail
    · cases hkey.symm.trans hfail

/-- A content is stored under its key. -/
structure Finds (md5 : List UInt8 → List UInt8) (m : AsyncMap) (content : JString) (w : World) :
    Prop where
  digest : w.md5 = md5
  lookup : (w.map m).lookup (contentKey md5 content) = some (.str content)

/-- It stays there, if no other content has its key. -/
theorem stored_of_runs {md5 : List UInt8 → List UInt8} {tr : List Step} {res : AsyncResult Obj}
    (hinj : Function.Injective md5) (hm : m ≠ World.accessCache) (hw : Finds md5 m content w)
    (hc : c.Submits m) (hsep : ∀ content', c.op = .submit content' →
      content'.getBytes = content.getBytes → content' = content)
    (h : sem.Runs w c.transaction tr w' (.ret res)) : Finds md5 m content w' := by
  obtain ⟨content', hop⟩ := hc.op
  obtain ⟨hmd5, hsubmit⟩ := submit_of_runs hc hm h
  refine ⟨hmd5.trans hw.digest, ?_⟩
  rcases hsubmit content' hop with ⟨hmap, -⟩ | ⟨hmap, -⟩
  · rw [hmap, hw.digest]
    by_cases hkey : contentKey md5 content' = contentKey md5 content
    · have hbytes := hinj (encodeHex_injective hkey)
      rw [hkey, Finmap.lookup_insert, hsep content' hop hbytes]
    · rw [Finmap.lookup_insert_of_ne (w.map m) (Ne.symm hkey)]
      exact hw.lookup
  · rw [hmap]
    exact hw.lookup

/-- The state a turn that has submitted leaves. -/
theorem Submitted.of_serial {t : Turn Request World (AsyncResult Obj)} (hm : m ≠ World.accessCache)
    (h : sem.Serial Request.transaction w ts w') (hts : ∀ t ∈ ts, t.call.Submits m) (ht : t ∈ ts)
    (hsub : Submitted t content key) :
    key = contentKey t.before.md5 content ∧ Finds t.before.md5 m content t.after ∧
      t.after.map m = (t.before.map m).insert key (.str content) := by
  obtain ⟨tr, hruns⟩ := h.exists_runs ht
  obtain ⟨hmd5, hsubmit⟩ := submit_of_runs (hts t ht) hm hruns
  rcases hsubmit content hsub.1 with ⟨hmap, hres⟩ | ⟨-, hres⟩
  · have hvalue := hres.symm.trans hsub.2
    simp only [succeededFuture.injEq, Obj.str.injEq] at hvalue
    refine ⟨hvalue.symm, ⟨hmd5, ?_⟩, hvalue ▸ hmap⟩
    rw [hmap, Finmap.lookup_insert]
  · exact absurd hsub.2 (hres key)

/-- The digest algorithm of the platform does not change. -/
theorem md5_of_serial (h : sem.Serial Request.transaction w ts w') :
    ∀ t ∈ ts, t.before.md5 = w.md5 ∧ t.after.md5 = w.md5 :=
  (h.inv (I := fun w₁ => w₁.md5 = w.md5) (C := fun _ => True)
    (fun _ _ _ _ _ hI _ hruns => (md5_of_runs hruns).trans hI) (fun _ _ => trivial) rfl).2

/-- If different contents have different bytes, nothing is lost. -/
theorem lossless_of_separate (hinj : Function.Injective w.md5) (hm : m ≠ World.accessCache)
    (h : sem.Serial Request.transaction w ts w') (hts : ∀ t ∈ ts, t.call.Submits m)
    (hsep : Separate (ts.map Turn.call)) : Lossless m ts := by
  have hmd5 := md5_of_serial h
  have hkey {t : Turn Request World (AsyncResult Obj)} {content key : JString} (ht : t ∈ ts)
      (hsub : Submitted t content key) : key = contentKey w.md5 content := by
    rw [(hsub.of_serial hm h hts ht).1, (hmd5 t ht).1]
  -- once stored, a content is found
  have hfinds {ts₁ ts₂ : Turns} {t : Turn Request World (AsyncResult Obj)} {content key : JString}
      (hsplit : ts = ts₁ ++ t :: ts₂) (hsub : Submitted t content key) :
      Finds w.md5 m content t.after ∧
        ∀ t' ∈ ts₂, Finds w.md5 m content t'.before ∧ Finds w.md5 m content t'.after := by
    have ht : t ∈ ts := hsplit ▸ List.mem_append_right _ List.mem_cons_self
    have hfirst : Finds w.md5 m content t.after := (hmd5 t ht).1 ▸ (hsub.of_serial hm h hts ht).2.1
    obtain ⟨w₁, -, hrest⟩ := (hsplit ▸ h : sem.Serial Request.transaction w (ts₁ ++ t :: ts₂) w').split
    cases hrest with
    | @cons w₁ w₂ _ c x tr _ hruns hrest =>
      refine ⟨hfirst, (hrest.inv (I := Finds w.md5 m content) (C := fun c => c.Submits m ∧
        ∀ content', c.op = .submit content' → content'.getBytes = content.getBytes →
          content' = content) (fun _ _ _ _ _ hI hC hruns => stored_of_runs hinj hm hI hC.1 hC.2 hruns)
        (fun t' ht' => ?_) hfirst).2⟩
      have hmem : t' ∈ ts := hsplit ▸ List.mem_append_right _ (List.mem_cons_of_mem _ ht')
      exact ⟨hts t' hmem, fun content' hop => hsep _ (List.mem_map_of_mem hmem) _
        (List.mem_map_of_mem ht) content' content hop hsub.1⟩
  refine ⟨fun ts₁ t ts₂ content key hsplit hsub t' ht' => ?_,
    fun t ht t' ht' content content' key key' hsub hsub' hne heq => ?_,
    fun ts₁ t ts₂ content key hsplit hsub t' ht' key' hsub' => ?_⟩
  · have ht : t ∈ ts := hsplit ▸ List.mem_append_right _ List.mem_cons_self
    obtain ⟨hfirst, hrest⟩ := hfinds hsplit hsub
    have hlookup : ((t'.after.map m).lookup key) = some (.str content) := by
      rw [hkey ht hsub]
      rcases List.mem_cons.1 ht' with rfl | ht'
      · exact hfirst.lookup
      · exact (hrest t' ht').2.lookup
    simp [Op.apply, hlookup]
  · rw [hkey ht hsub, hkey ht' hsub'] at heq
    exact hne (hsep _ (List.mem_map_of_mem ht) _ (List.mem_map_of_mem ht') content content' hsub.1 hsub'.1
      (hinj (encodeHex_injective heq)))
  · have ht : t ∈ ts := hsplit ▸ List.mem_append_right _ List.mem_cons_self
    have hmem : t' ∈ ts := hsplit ▸ List.mem_append_right _ (List.mem_cons_of_mem _ ht')
    have hsame : key' = key := by rw [hkey ht hsub, hkey hmem hsub']
    refine ⟨hsame, ?_⟩
    have hbefore := ((hfinds hsplit hsub).2 t' ht').1.lookup
    rw [(hsub'.of_serial hm h hts hmem).2.2, hkey hmem hsub', KMap.insert_of_lookup hbefore]

end

/-- The digests of `"v"`, `"w"` and `"?"`; those of the others are different. -/
def sampleMd5 : List UInt8 → List UInt8
  | [0x76] => [0x9e, 0x36, 0x69, 0xd1, 0x9b, 0x67, 0x5b, 0xd5, 0x70, 0x58, 0xfd, 0x46, 0x64, 0x20, 0x5d, 0x2a]
  | [0x77] => [0xf1, 0x29, 0x01, 0x86, 0xa5, 0xd0, 0xb1, 0xce, 0xab, 0x27, 0xf4, 0xe7, 0x7c, 0x0c, 0x5d, 0x68]
  | [0x3f] => [0xd1, 0x45, 0x7b, 0x72, 0xc3, 0xfb, 0x32, 0x3a, 0x26, 0x71, 0x12, 0x5a, 0xef, 0x3e, 0xab, 0x5d]
  | bytes => bytes ++ List.replicate 17 0

theorem sampleMd5_injective : Function.Injective sampleMd5 := by
  intro bytes bytes' h
  have hlength := congrArg List.length h
  unfold sampleMd5 at h hlength
  split at h <;> split at h <;> first
    | rfl
    | exact absurd h (by decide)
    | exact List.append_cancel_right h
    | simp at hlength

/-- Contents submitted by a session, to one address. -/
def submits (contents : List JString) : List Request :=
  contents.map fun content => ⟨.inMemory 0, jstr "a", .submit content⟩

end Kvdn
