import Kvdn.World

/-!
# The metadata index

The three things the metadata hook keeps in step, for an address: whether its map
has entries (`Stored`), whether the index lists it (`Indexed`), and whether the
cache of the hook has it (`Cached`); and which actions change them.
-/

namespace Kvdn

open AsyncResult

namespace World

/-- The map stored at an address is not empty. -/
def Stored (w : World) (D : KVData) (sa : JString) : Prop := w.map ⟨D.space, sa⟩ ≠ ∅

/-- The index has an entry for an address. -/
def Indexed (w : World) (D : KVData) (sa : JString) : Prop := sa ∈ w.map ⟨D.space, METADATA_MAP⟩

/-- The cache of the metadata hook of a session has an address. -/
def Cached (w : World) (s : KvdnSession) (sa : JString) : Prop :=
  sa ∈ w.straddrCache s.sessionid

instance (w : World) (D : KVData) (sa : JString) : Decidable (w.Stored D sa) :=
  inferInstanceAs (Decidable (_ ≠ _))

instance (w : World) (D : KVData) (sa : JString) : Decidable (w.Indexed D sa) :=
  inferInstanceAs (Decidable (_ ∈ _))

instance (w : World) (s : KvdnSession) (sa : JString) : Decidable (w.Cached s sa) :=
  inferInstanceAs (Decidable (_ ∈ _))

variable {w : World} {D : KVData} {s : KvdnSession} {sa sa' key : JString} {a : Act} {r : a.Res}

/-! ## Maps of the clients -/

theorem stored_eff_of_ne (h : a.target ≠ some ⟨D.space, sa⟩) :
    (w.eff a r).Stored D sa ↔ w.Stored D sa := by
  rw [Stored, Stored, map_eff_of_ne h]

theorem stored_put (value x : Obj) :
    (w.eff (.put ⟨D.space, sa⟩ key value) (succeededFuture x)).Stored D sa := by
  have hmap : (w.eff (.put ⟨D.space, sa⟩ key value) (succeededFuture x)).map ⟨D.space, sa⟩ =
      (w.map ⟨D.space, sa⟩).insert key value := map_modify_self ..
  rw [Stored, hmap]
  exact KMap.insert_ne_empty _ _ _

theorem stored_of_remove {r : AsyncResult Obj}
    (h : (w.eff (.remove ⟨D.space, sa⟩ key) r).Stored D sa) : w.Stored D sa := by
  intro hempty
  refine h ?_
  have hmap : (w.eff (.remove ⟨D.space, sa⟩ key) r).map ⟨D.space, sa⟩ = _ :=
    map_modify_self (w := w) (m := ⟨D.space, sa⟩) r (·.erase key)
  rw [hmap, hempty, KMap.erase_empty, ite_self]

theorem stored_of_clear {r : AsyncResult Obj}
    (h : (w.eff (.clear ⟨D.space, sa⟩) r).Stored D sa) : w.Stored D sa := by
  intro hempty
  refine h ?_
  have hmap : (w.eff (.clear ⟨D.space, sa⟩) r).map ⟨D.space, sa⟩ = _ :=
    map_modify_self (w := w) (m := ⟨D.space, sa⟩) r fun _ => ∅
  rw [hmap, hempty, ite_self]

/-! ## The index -/

theorem indexed_eff_of_ne (h : a.target ≠ some ⟨D.space, METADATA_MAP⟩) :
    (w.eff a r).Indexed D sa ↔ w.Indexed D sa := by
  rw [Indexed, Indexed, map_eff_of_ne h]

theorem indexed_put (value x : Obj) :
    (w.eff (.put ⟨D.space, METADATA_MAP⟩ key value) (succeededFuture x)).Indexed D sa ↔
      sa = key ∨ w.Indexed D sa := by
  have hmap : (w.eff (.put ⟨D.space, METADATA_MAP⟩ key value) (succeededFuture x)).map
      ⟨D.space, METADATA_MAP⟩ = (w.map ⟨D.space, METADATA_MAP⟩).insert key value :=
    map_modify_self ..
  rw [Indexed, hmap, Finmap.mem_insert, Indexed]

theorem indexed_remove (x : Obj) :
    (w.eff (.remove ⟨D.space, METADATA_MAP⟩ key) (succeededFuture x)).Indexed D sa ↔
      sa ≠ key ∧ w.Indexed D sa := by
  have hmap : (w.eff (.remove ⟨D.space, METADATA_MAP⟩ key) (succeededFuture x)).map
      ⟨D.space, METADATA_MAP⟩ = (w.map ⟨D.space, METADATA_MAP⟩).erase key :=
    map_modify_self ..
  rw [Indexed, hmap, Finmap.mem_erase, Indexed]

/-! ## The cache -/

theorem cached_cacheAdd {tx : KvTx} (hs : tx.session = s) (u : Unit) :
    (w.eff (.cacheAdd tx) u).Cached s sa ↔ sa = tx.strAddr ∨ w.Cached s sa := by
  subst hs
  simp [Cached, eff, or_comm]

theorem cached_cacheRemove {tx : KvTx} (hs : tx.session = s)
    (hnodup : (w.straddrCache s.sessionid).Nodup) (u : Unit) :
    (w.eff (.cacheRemove tx) u).Cached s sa ↔ sa ≠ tx.strAddr ∧ w.Cached s sa := by
  subst hs
  simp [Cached, eff, hnodup.mem_erase_iff]

theorem cached_eff (hadd : ∀ tx, a ≠ .cacheAdd tx) (hremove : ∀ tx, a ≠ .cacheRemove tx) :
    (w.eff a r).Cached s sa ↔ w.Cached s sa := by
  rw [Cached, Cached, straddrCache_eff hadd hremove]

/-! ## What stays as it is -/

/-- What an action on the map `m` does not change. -/
theorem unchanged_eff {m : AsyncMap} (hm : a.target = some m) (hadd : ∀ tx, a ≠ .cacheAdd tx)
    (hremove : ∀ tx, a ≠ .cacheRemove tx) :
    (∀ sa, m ≠ ⟨D.space, sa⟩ → ((w.eff a r).Stored D sa ↔ w.Stored D sa)) ∧
    (∀ sa, m ≠ ⟨D.space, METADATA_MAP⟩ → ((w.eff a r).Indexed D sa ↔ w.Indexed D sa)) ∧
    (∀ sa, (w.eff a r).Cached s sa ↔ w.Cached s sa) ∧
    (w.eff a r).straddrCache = w.straddrCache :=
  ⟨fun _ hne => stored_eff_of_ne fun h => hne (Option.some.inj (hm.symm.trans h)),
    fun _ hne => indexed_eff_of_ne fun h => hne (Option.some.inj (hm.symm.trans h)),
    fun _ => cached_eff hadd hremove, straddrCache_eff hadd hremove⟩

/-- The actions of the transactions on the maps of the session leave those of the
    clients and the index alone, if they have no map, or the access cache. -/
theorem unchanged_eff_of_target (h : a.target = none ∨ a.target = some accessCache)
    (hadd : ∀ tx, a ≠ .cacheAdd tx) (hremove : ∀ tx, a ≠ .cacheRemove tx) :
    (∀ sa, UserAddr sa → ((w.eff a r).map ⟨D.space, sa⟩ = w.map ⟨D.space, sa⟩) ∧
      ((w.eff a r).Indexed D sa ↔ w.Indexed D sa) ∧ ((w.eff a r).Cached s sa ↔ w.Cached s sa)) ∧
    (w.eff a r).straddrCache = w.straddrCache := by
  have hne {sa : JString} (hsa : sa ≠ ACCESS_CACHE_LOC) : a.target ≠ some ⟨D.space, sa⟩ := by
    rcases h with ht | ht
    · rw [ht]
      exact nofun
    · rw [ht]
      exact fun hm => hsa (congrArg AsyncMap.name (Option.some.inj hm)).symm
  exact ⟨fun sa hsa => ⟨map_eff_of_ne (hne hsa.2),
    indexed_eff_of_ne (hne metadata_map_ne_access_cache), cached_eff hadd hremove⟩,
    straddrCache_eff hadd hremove⟩

end World

theorem AsyncMap.mk_ne {space : Space} {sa sa' : JString} (h : sa ≠ sa') :
    (⟨space, sa⟩ : AsyncMap) ≠ ⟨space, sa'⟩ :=
  fun hm => h (congrArg AsyncMap.name hm)

end Kvdn
