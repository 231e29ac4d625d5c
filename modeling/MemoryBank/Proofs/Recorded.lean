import MemoryBank.LiveIndex
import Mathlib.Data.List.Induction
import Mathlib.Data.List.Nodup
import Mathlib.Data.List.Perm.Basic

/-!
# Recorded addresses

A `LiveIndex` is a finite map, whatever buckets its entries lie in: `LiveIndex.Records l es` says
that its entries are `es`. Looking up, recording and forgetting an address are what they should be
for such a list (`Records.get?_eq_some_iff`, `Records.insert`, `Records.remove?`).
`remove?_insert`: forgetting the address recorded last restores the very index.
-/

namespace MemoryBank.LiveIndex

/-- All entries, bucket by bucket. -/
def entries (l : LiveIndex) : List (ℕ × Handle) := l.buckets.toList.flatten

/-- The entries of one bucket. -/
def bucketAt (l : LiveIndex) (k : Fin bucketCount) : List (ℕ × Handle) := l.buckets[k]

/-- The entries of the index are `es`, each in the bucket of its address. -/
structure Records (l : LiveIndex) (es : List (ℕ × Handle)) : Prop where
  home : ∀ k, ∀ e ∈ l.bucketAt k, LiveIndex.home e.1 = k
  nodup : ∀ k, ((l.bucketAt k).map (·.1)).Nodup
  mem : ∀ e, e ∈ l.bucketOf e.1 ↔ e ∈ es
  keys : (es.map (·.1)).Nodup
  length : l.length = es.length

variable {l : LiveIndex} {es es' : List (ℕ × Handle)} {address : ℕ} {i : Handle}

theorem bucketOf_eq (l : LiveIndex) (address : ℕ) :
    l.bucketOf address = l.bucketAt (home address) := rfl

theorem records_empty : empty.Records [] := by
  have hb : ∀ k, empty.bucketAt k = [] := fun k => by simp [empty, bucketAt]
  refine ⟨fun k => by simp [hb], fun k => by simp [hb], fun e => ?_, .nil, rfl⟩
  rw [bucketOf_eq, hb]

/-- A list without the element at a position, in another order. -/
theorem fillGap_perm {α : Type} {entries : List α} {pos : ℕ} (h : pos < entries.length) :
    entries.Perm (entries[pos] :: fillGap entries pos) := by
  cases entries using List.reverseRecOn with
  | nil => simp at h
  | append_singleton init last =>
    simp only [fillGap, List.getLast?_concat]
    rcases Nat.lt_or_ge pos init.length with hp | hp
    · rw [List.set_append_left _ _ hp, List.dropLast_concat, List.getElem_append_left hp]
      -- the last element stands where the other one was
      refine (List.perm_append_singleton last init).trans ?_
      refine (((List.getElem_cons_eraseIdx_perm hp).symm).cons last).trans ?_
      refine (List.Perm.swap _ _ _).trans (List.Perm.cons _ ?_)
      exact (List.set_perm_cons_eraseIdx hp last).symm
    · obtain rfl : pos = init.length := by simp at h; omega
      rw [List.set_append_right _ _ (Nat.le_refl _)]
      simp

/-- The buckets after an address was recorded. -/
theorem buckets_of_insert {l' : LiveIndex} (h : l.insert address i = .ok l') :
    (∀ e ∈ l.bucketOf address, e.1 ≠ address) ∧
      l'.buckets = l.buckets.set (home address) (l.bucketOf address ++ [(address, i)])
        (home address).isLt := by
  obtain ⟨u, he, hl⟩ := bind_eq_ok_iff.1 h
  obtain rfl := Except.ok.inj hl
  exact ⟨ensure_eq_ok_iff.1 he, rfl⟩

/-- **Forgetting the address recorded last** leaves no trace. -/
theorem remove?_insert {l' : LiveIndex} (h : l.insert address i = .ok l') :
    l'.remove? address = some (i, l) := by
  obtain ⟨hnew, hset⟩ := buckets_of_insert h
  have hbucket : l'.bucketOf address = l.bucketOf address ++ [(address, i)] := by
    simp [bucketOf, hset]
  have hpos : (l'.bucketOf address).findIdx? (·.1 = address) =
      some (l.bucketOf address).length := by
    rw [hbucket, List.findIdx?_append,
      List.findIdx?_eq_none_iff.2 fun e he => by simpa using hnew e he]
    simp
  obtain ⟨hlt, l'', hremove, hset', -⟩ := remove?_eq_some hpos
  have hgap : fillGap (l'.bucketOf address) (l.bucketOf address).length = l.bucketOf address := by
    simp [fillGap, hbucket]
  have hback : l'' = l := by
    ext1
    rw [hset', hgap, hset]
    simp [bucketOf]
  rw [hremove, hback]
  simp [hbucket]

namespace Records

theorem perm (h : l.Records es) (hp : es.Perm es') : l.Records es' :=
  ⟨h.home, h.nodup, fun e => (h.mem e).trans hp.mem_iff, (hp.map _).nodup_iff.1 h.keys,
    h.length.trans hp.length_eq⟩

theorem mem_entries (h : l.Records es) {e : ℕ × Handle} : e ∈ l.entries ↔ e ∈ es := by
  rw [← h.mem, entries, List.mem_flatten]
  constructor
  · rintro ⟨b, hb, he⟩
    obtain ⟨k, hk, rfl⟩ := Vector.getElem_of_mem (Vector.mem_toList_iff.1 hb)
    have he' : e ∈ l.bucketAt ⟨k, hk⟩ := he
    rwa [bucketOf_eq, h.home _ e he']
  · intro he
    have hb : l.bucketOf e.1 ∈ l.buckets.toList :=
      Vector.mem_toList_iff.2 (Vector.getElem_mem (LiveIndex.home e.1).isLt)
    exact ⟨l.bucketOf e.1, hb, he⟩

/-- **Looking up an address.** -/
theorem get?_eq_some_iff (h : l.Records es) : l.get? address = some i ↔ (address, i) ∈ es := by
  rw [get?, Option.map_eq_some_iff, ← h.mem]
  constructor
  · rintro ⟨e, he, rfl⟩
    obtain rfl : e.1 = address := by simpa using List.find?_some he
    exact List.mem_of_find?_eq_some he
  · intro hm
    obtain ⟨e, he⟩ := Option.isSome_iff_exists.1
      (List.find?_isSome (p := fun e => decide (e.1 = address)) |>.2 ⟨_, hm, by simp⟩)
    refine ⟨e, he, ?_⟩
    have hk : e.1 = address := by simpa using List.find?_some he
    have := List.inj_on_of_nodup_map (h.nodup _) (List.mem_of_find?_eq_some he) hm hk
    rw [this]

/-- No bucket holds anything else. -/
theorem entries_perm (h : l.Records es) : l.entries.Perm es := by
  refine (List.perm_ext_iff_of_nodup ?_ (.of_map _ h.keys)).2 fun e => h.mem_entries
  have hget : ∀ k (hk : k < l.buckets.toList.length), ∃ hk',
      l.buckets.toList[k] = l.bucketAt ⟨k, hk'⟩ :=
    fun k hk => ⟨by simpa using hk, by simp [bucketAt]⟩
  rw [entries, List.nodup_flatten]
  constructor
  · intro b hb
    obtain ⟨k, hk, rfl⟩ := List.getElem_of_mem hb
    obtain ⟨hk', e⟩ := hget k hk
    rw [e]
    exact .of_map _ (h.nodup _)
  · rw [List.pairwise_iff_getElem]
    intro j k hj hk hjk e he he'
    obtain ⟨hj', ej⟩ := hget j hj
    obtain ⟨hk', ek⟩ := hget k hk
    rw [ej] at he
    rw [ek] at he'
    have := congrArg Fin.val ((h.home _ e he).symm.trans (h.home _ e he'))
    dsimp only at this
    omega

/-- A change of one bucket. -/
theorem set_bucket (h : l.Records es) {l' : LiveIndex} {b : List (ℕ × Handle)}
    (hb : l'.buckets = l.buckets.set (LiveIndex.home address) b (LiveIndex.home address).isLt)
    (hl : l'.length = es'.length)
    (hh : ∀ e ∈ b, LiveIndex.home e.1 = LiveIndex.home address) (hn : (b.map (·.1)).Nodup)
    (hm : ∀ e, LiveIndex.home e.1 = LiveIndex.home address → (e ∈ b ↔ e ∈ es'))
    (ho : ∀ e, LiveIndex.home e.1 ≠ LiveIndex.home address → (e ∈ es ↔ e ∈ es'))
    (hk : (es'.map (·.1)).Nodup) :
    l'.Records es' := by
  have hget : ∀ k, l'.bucketAt k = if LiveIndex.home address = k then b else l.bucketAt k :=
    fun k => by simp [bucketAt, hb, Vector.getElem_set, Fin.ext_iff]
  refine ⟨fun k e he => ?_, fun k => ?_, fun e => ?_, hk, hl⟩
  · rw [hget] at he
    split at he
    case isTrue hk => exact hk ▸ hh e he
    case isFalse => exact h.home k e he
  · rw [hget]
    split
    · exact hn
    · exact h.nodup k
  · rw [bucketOf_eq, hget]
    split
    case isTrue hk => exact hm e hk.symm
    case isFalse hk => exact (h.mem e).trans (ho e (Ne.symm hk))

/-- **Recording an address** that is not recorded yet. -/
theorem insert (h : l.Records es) (ha : ∀ e ∈ es, e.1 ≠ address) (i : Handle) :
    ∃ l', l.insert address i = .ok l' ∧ l'.Records ((address, i) :: es) := by
  have hb : ∀ e ∈ l.bucketOf address, e.1 ≠ address := fun e he hk => by
    subst hk
    exact ha e ((h.mem e).1 he) rfl
  refine ⟨_, by rw [LiveIndex.insert, ensure_of hb, ok_bind]; rfl, ?_⟩
  refine h.set_bucket (l.buckets_setBucket _) (congrArg (· + 1) h.length) ?_ ?_ ?_ ?_ ?_
  · intro e he
    rcases List.mem_append.1 he with he | he
    · exact h.home (LiveIndex.home address) e he
    · rw [List.mem_singleton.1 he]
  · rw [List.map_append, List.nodup_append]
    refine ⟨h.nodup _, by simp, ?_⟩
    rintro k hk k' hk' rfl
    obtain ⟨e, he, rfl⟩ := List.mem_map.1 hk
    exact hb e he (by simpa using hk')
  · intro e he
    rw [List.mem_append, bucketOf_eq, ← he, List.mem_singleton, List.mem_cons, or_comm]
    exact or_congr .rfl (h.mem e)
  · intro e he
    have : e ≠ (address, i) := fun h => he (by rw [h])
    simp [this]
  · refine List.nodup_cons.2 ⟨fun hm => ?_, h.keys⟩
    obtain ⟨e, he, hk⟩ := List.mem_map.1 hm
    exact ha e he hk

/-- An address is recorded once. -/
theorem insert_eq_error (h : l.Records es) {j : Handle} (he : (address, j) ∈ es) (i : Handle) :
    l.insert address i = .error (.breach (.addressTaken address)) := by
  have hb : ¬∀ e ∈ l.bucketOf address, e.1 ≠ address := fun ha =>
    ha (address, j) ((h.mem (address, j)).2 he) rfl
  rw [LiveIndex.insert, ensure_of_not hb, error_bind]

/-- What is left when an address is forgotten. -/
theorem mem_erase (h : l.Records es) (he : (address, i) ∈ es) {e : ℕ × Handle} :
    e ∈ es.erase (address, i) ↔ e.1 ≠ address ∧ e ∈ es := by
  rw [(List.Nodup.of_map _ h.keys).mem_erase_iff]
  refine and_congr_left fun hm => not_congr ⟨congrArg Prod.fst, fun hk => ?_⟩
  exact List.inj_on_of_nodup_map h.keys hm he hk

/-- **Forgetting an address** that is recorded. -/
theorem remove? (h : l.Records es) (he : (address, i) ∈ es) :
    ∃ l', l.remove? address = some (i, l') ∧ l'.Records (es.erase (address, i)) := by
  have hm := (h.mem _).2 he
  cases hf : (l.bucketOf address).findIdx? (·.1 = address) with
  | none =>
    have := List.findIdx?_eq_none_iff.1 hf _ hm
    simp at this
  | some pos =>
    obtain ⟨hlt, hpos, -⟩ := List.findIdx?_eq_some_iff_getElem.1 hf
    have hget : (l.bucketOf address)[pos] = (address, i) :=
      List.inj_on_of_nodup_map (h.nodup _) (List.getElem_mem hlt) hm (by simpa using hpos)
    have hp := fillGap_perm hlt
    rw [hget] at hp
    have hn := (hp.map (·.1)).nodup_iff.1 (h.nodup _)
    rw [List.map_cons, List.nodup_cons] at hn
    obtain ⟨_, l', hremove, hbuckets, hlength⟩ := remove?_eq_some hf
    have hlen : l'.length = (es.erase (address, i)).length := by
      rw [hlength, List.length_erase_of_mem he, h.length]
    refine ⟨l', by rw [hremove, hget], ?_⟩
    have hes : es.Nodup := .of_map _ h.keys
    refine h.set_bucket hbuckets hlen ?_ hn.2 ?_ ?_ (h.keys.sublist (List.erase_sublist.map _))
    · exact fun e he => h.home (LiveIndex.home address) e (hp.mem_iff.2 (List.mem_cons_of_mem _ he))
    · intro e hhome
      rw [hes.mem_erase_iff, ← h.mem, bucketOf_eq l e.1, hhome, ← bucketOf_eq, hp.mem_iff,
        List.mem_cons]
      constructor
      · exact fun he => ⟨fun h => hn.1 (h ▸ List.mem_map_of_mem he), .inr he⟩
      · exact fun he => he.2.resolve_left he.1
    · intro e hhome
      have : e ≠ (address, i) := fun h => hhome (by rw [h])
      simp [hes.mem_erase_iff, this]

/-- There is nothing to forget about an address that is not recorded. -/
theorem remove?_eq_none (h : l.Records es) (ha : ∀ e ∈ es, e.1 ≠ address) :
    l.remove? address = none := by
  have hf : (l.bucketOf address).findIdx? (·.1 = address) = none := by
    rw [List.findIdx?_eq_none_iff]
    intro e he
    have : e.1 ≠ address := fun hk => by
      subst hk
      exact ha e ((h.mem e).1 he) rfl
    simpa using this
  exact LiveIndex.remove?_eq_none hf

end Records

end MemoryBank.LiveIndex
