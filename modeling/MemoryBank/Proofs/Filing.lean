import MemoryBank.FreeIndex
import MemoryBank.Proofs.ClassBounds
import Mathlib.Data.List.Nodup

/-!
# Filing in order

The buckets of a `FreeIndex` are one list of filed handles, in the order of filing, split by size
class: `FreeIndex.ofEntries`. Filing appends to that list, withdrawing and taking erase from it,
whatever the classes are.

The main statement is `findFit_ofEntries`: the search finds the entry that is `BestFit`, which is
said of the list alone. So the classes have no influence on what is found.
-/

namespace MemoryBank

/-- Among the filed handles and sizes, `e` is the smallest that is large enough, and the first of
its size. -/
structure BestFit (n : ℕ) (es : List (Handle × ℕ)) (e : Handle × ℕ) : Prop where
  fits : n ≤ e.2
  least : ∀ e' ∈ es, n ≤ e'.2 → e.2 ≤ e'.2
  first : es.find? (·.2 = e.2) = some e

namespace BestFit

variable {n : ℕ} {es : List (Handle × ℕ)} {e e' : Handle × ℕ}

theorem mem (h : BestFit n es e) : e ∈ es := List.mem_of_find?_eq_some h.first

theorem unique (h : BestFit n es e) (h' : BestFit n es e') : e = e' := by
  have hs : e.2 = e'.2 := le_antisymm (h.least e' h'.mem h'.fits) (h'.least e h.mem h.fits)
  have := h.first
  rw [hs, h'.first] at this
  exact (Option.some.inj this).symm

/-- An entry before all others is no match for a better one among them. -/
theorem cons (h : BestFit n es e) (hb : n ≤ e'.2 → e.2 < e'.2) : BestFit n (e' :: es) e := by
  refine ⟨h.fits, ?_, ?_⟩
  · intro a ha hn
    rcases List.mem_cons.1 ha with rfl | ha
    · exact (hb hn).le
    · exact h.least a ha hn
  · have hne : e'.2 ≠ e.2 := fun he => by
      have := hb (he ▸ h.fits)
      omega
    rw [List.find?_cons_of_neg (by simpa using hne)]
    exact h.first

theorem head (hf : n ≤ e.2) (hl : ∀ a ∈ es, n ≤ a.2 → e.2 ≤ a.2) : BestFit n (e :: es) e := by
  refine ⟨hf, ?_, by simp⟩
  intro a ha hn
  rcases List.mem_cons.1 ha with rfl | ha
  · exact le_rfl
  · exact hl a ha hn

end BestFit

namespace FreeIndex

/-! ## The index of a list of filed handles -/

/-- The handles filed in a class. -/
def bucketAt (classes : SizeClasses) (es : List (Handle × ℕ)) (c : ℕ) : List Handle :=
  (es.filter (classes.classOf ·.2 = c)).map (·.1)

/-- The index where `es` was filed, in this order. -/
def ofEntries (classes : SizeClasses) (es : List (Handle × ℕ)) : FreeIndex where
  classes := classes
  buckets := (List.range classes.count).map (bucketAt classes es)
  length_buckets := by simp

variable {classes : SizeClasses} {es es' : List (Handle × ℕ)} {e : Handle × ℕ} {c n : ℕ}

@[simp] theorem classes_ofEntries : (ofEntries classes es).classes = classes := rfl

theorem ofEntries_nil : ofEntries classes [] = empty classes := by
  have : bucketAt classes [] = fun _ => [] := rfl
  simp only [ofEntries, empty, FreeIndex.mk.injEq, true_and, this]
  rw [List.map_const', List.length_range]

theorem getElem?_buckets (h : c < classes.count) :
    (ofEntries classes es).buckets[c]? = some (bucketAt classes es c) := by
  simp [ofEntries, h]

theorem bucket_ofEntries (h : c < classes.count) :
    (ofEntries classes es).bucket c = .ok (bucketAt classes es c) := by
  rw [bucket, getElem?_buckets h]

theorem bucketOf_ofEntries (size : ℕ) :
    (ofEntries classes es).bucketOf size = bucketAt classes es (classes.classOf size) := by
  rw [bucketOf, classes_ofEntries, getElem?_buckets (classes.classOf_lt size)]
  rfl

theorem mem_bucketAt {i : Handle} :
    i ∈ bucketAt classes es c ↔ ∃ e ∈ es, classes.classOf e.2 = c ∧ e.1 = i := by
  simp [bucketAt]

theorem nodup_bucketAt (hn : (es.map (·.1)).Nodup) : (bucketAt classes es c).Nodup :=
  hn.sublist (List.filter_sublist.map _)

/-- A change of one bucket, told as a change of the list. -/
theorem modify_ofEntries {g : List Handle → List Handle}
    (hc : g (bucketAt classes es c) = bucketAt classes es' c)
    (ho : ∀ d, d ≠ c → bucketAt classes es d = bucketAt classes es' d) :
    (ofEntries classes es).modify c g = ofEntries classes es' := by
  simp only [modify, ofEntries, FreeIndex.mk.injEq, true_and]
  apply List.ext_getElem?
  intro d
  rw [List.getElem?_modify, List.getElem?_map, List.getElem?_map]
  by_cases hd : d < classes.count
  · rw [List.getElem?_range hd]
    rcases eq_or_ne c d with rfl | hcd
    · simpa using hc
    · simpa [hcd] using ho d hcd.symm
  · have : (List.range classes.count)[d]? = none := by simpa using hd
    simp [this]

/-- What the index lists is what was filed, each handle in the class of its size. -/
theorem entries_ofEntries (hn : (es.map (·.1)).Nodup) :
    (ofEntries classes es).entries.Perm (es.map fun e => (classes.classOf e.2, e.1)) := by
  have hzip : (ofEntries classes es).buckets.zipIdx =
      (List.range classes.count).map fun c => (bucketAt classes es c, c) :=
    List.ext_getElem (by simp [ofEntries]) (by simp [ofEntries])
  have hentries : (ofEntries classes es).entries =
      (List.range classes.count).flatMap fun c => (bucketAt classes es c).map (c, ·) := by
    rw [entries, hzip, List.flatMap_map]
  rw [hentries, List.perm_ext_iff_of_nodup]
  · intro e
    simp only [List.mem_flatMap, List.mem_range, List.mem_map, mem_bucketAt]
    constructor
    · rintro ⟨c, -, i, ⟨e', he', rfl, rfl⟩, rfl⟩
      exact ⟨e', he', rfl⟩
    · rintro ⟨e', he', rfl⟩
      exact ⟨_, classes.classOf_lt e'.2, e'.1, ⟨e', he', rfl, rfl⟩, rfl⟩
  · rw [List.nodup_flatMap]
    constructor
    · intro c _
      exact (nodup_bucketAt hn).map fun i j h => (Prod.mk.inj h).2
    · refine List.pairwise_lt_range.imp fun {c d} hcd => ?_
      change List.Disjoint _ _
      intro e hc hd
      obtain ⟨i, -, rfl⟩ := List.mem_map.1 hc
      obtain ⟨j, -, h⟩ := List.mem_map.1 hd
      have := (Prod.mk.inj h).1
      omega
  · refine List.Nodup.of_map (·.2) ?_
    rw [List.map_map]
    exact hn

/-! ## Filing, withdrawing and taking -/

theorem file_ofEntries (i : Handle) (size : ℕ) :
    ((ofEntries classes es).file i size).result = .ok (ofEntries classes (es ++ [(i, size)])) := by
  unfold file
  simp only [Traced.result_bind, Traced.result_note, ok_bind, Traced.result_pure,
    classes_ofEntries]
  rw [modify_ofEntries]
  · simp [bucketAt]
  · intro d hd
    simp [bucketAt, hd.symm]

theorem map_fst_erase {l : List (Handle × ℕ)} (hn : (l.map (·.1)).Nodup) (he : e ∈ l) :
    (l.erase e).map (·.1) = (l.map (·.1)).erase e.1 := by
  induction l with
  | nil => rfl
  | cons a l ih =>
    rw [List.map_cons, List.nodup_cons] at hn
    by_cases ha : a = e
    · subst ha
      simp
    · have he' : e ∈ l := (List.mem_cons.1 he).resolve_left (Ne.symm ha)
      have hne : a.1 ≠ e.1 := fun h => hn.1 (h ▸ List.mem_map_of_mem he')
      rw [List.erase_cons_tail (by simpa using ha), List.map_cons, List.map_cons, ih hn.2 he',
        List.erase_cons_tail (by simpa using hne)]

/-- Erasing an entry from the list erases its handle from the bucket of its class alone. -/
theorem bucketAt_erase (hn : (es.map (·.1)).Nodup) (he : e ∈ es) :
    bucketAt classes (es.erase e) c =
      if c = classes.classOf e.2 then (bucketAt classes es c).erase e.1
      else bucketAt classes es c := by
  unfold bucketAt
  rw [← List.erase_filter]
  split
  case isTrue h =>
    exact map_fst_erase (hn.sublist (List.filter_sublist.map _)) (by simp [he, h])
  case isFalse h =>
    rw [List.erase_of_not_mem (by simp [Ne.symm h])]

theorem modify_erase (hn : (es.map (·.1)).Nodup) (he : e ∈ es) {g : List Handle → List Handle}
    (hg : g (bucketAt classes es (classes.classOf e.2)) =
      (bucketAt classes es (classes.classOf e.2)).erase e.1) :
    (ofEntries classes es).modify (classes.classOf e.2) g = ofEntries classes (es.erase e) := by
  refine modify_ofEntries ?_ fun d hd => ?_
  · rw [hg, bucketAt_erase hn he, if_pos rfl]
  · rw [bucketAt_erase hn he, if_neg hd]

/-- A handle is found under any size of its class. -/
theorem withdraw?_ofEntries {size : ℕ} (hn : (es.map (·.1)).Nodup) (he : e ∈ es)
    (hc : classes.classOf size = classes.classOf e.2) :
    (ofEntries classes es).withdraw? e.1 size = some (ofEntries classes (es.erase e)) := by
  have hm : e.1 ∈ bucketAt classes es (classes.classOf e.2) := mem_bucketAt.2 ⟨e, he, rfl, rfl⟩
  rw [withdraw?, bucketOf_ofEntries, hc, if_pos hm, classes_ofEntries, hc,
    modify_erase hn he rfl]

theorem withdraw?_ofEntries_eq_none {i : Handle} {size : ℕ}
    (h : ∀ e ∈ es, e.1 = i → classes.classOf size ≠ classes.classOf e.2) :
    (ofEntries classes es).withdraw? i size = none := by
  rw [withdraw?, bucketOf_ofEntries, if_neg]
  rintro hm
  obtain ⟨e, he, hc, hi⟩ := mem_bucketAt.1 hm
  exact h e he hi hc.symm

theorem withdraw_ofEntries (hn : (es.map (·.1)).Nodup) (he : e ∈ es) :
    (ofEntries classes es).withdraw e.1 e.2 = .ok (ofEntries classes (es.erase e)) := by
  rw [withdraw, withdraw?_ofEntries hn he rfl]

theorem entry_ofEntries {pos : ℕ} (hc : c < classes.count)
    (hp : (bucketAt classes es c)[pos]? = some e.1) :
    (ofEntries classes es).entry c pos = .ok e.1 := by
  rw [entry, bucket_ofEntries hc, ok_bind, hp]
  rfl

theorem take_ofEntries {pos : ℕ} (hn : (es.map (·.1)).Nodup) (he : e ∈ es)
    (hp : (bucketAt classes es (classes.classOf e.2))[pos]? = some e.1) :
    (ofEntries classes es).take (classes.classOf e.2) pos =
      .ok (e.1, ofEntries classes (es.erase e)) := by
  rw [take, entry_ofEntries (classes.classOf_lt _) hp, ok_bind, modify_erase hn he]
  · rfl
  · obtain ⟨hlt, hget⟩ := List.getElem?_eq_some_iff.1 hp
    rw [← hget, (nodup_bucketAt hn).erase_getElem _ hlt]

/-! ## The search -/

variable {sizeOf : Handle → Except Failure ℕ}

/-- What a scan of one bucket finds. `best` is the best so far; what is found beats it. -/
theorem scan_spec (hs : ∀ e ∈ es, sizeOf e.1 = .ok e.2) (pos : ℕ) (best : Option (ℕ × ℕ)) :
    (∃ k e, es[k]? = some e ∧ BestFit n es e ∧ (∀ b ∈ best, e.2 < b.2 ∨ e.2 = n) ∧
      scan n sizeOf pos best (es.map (·.1)) = .ok (some (pos + k))) ∨
    ((∀ e ∈ es, n ≤ e.2 → e.2 ≠ n ∧ ∃ b ∈ best, b.2 ≤ e.2) ∧
      scan n sizeOf pos best (es.map (·.1)) = .ok (best.map (·.1))) := by
  induction es generalizing pos best with
  | nil => exact .inr ⟨by simp, rfl⟩
  | cons e es ih =>
    have hs' : ∀ e ∈ es, sizeOf e.1 = .ok e.2 := fun a ha => hs a (by simp [ha])
    rw [List.map_cons, scan, hs e (by simp), ok_bind]
    by_cases hexact : e.2 = n
    · rw [if_pos hexact]
      exact .inl ⟨0, e, rfl, .head hexact.ge fun a _ ha => hexact.le.trans ha,
        fun _ _ => .inr hexact, rfl⟩
    rw [if_neg hexact]
    dsimp only
    split
    case isTrue hbetter =>
      rcases ih hs' (pos + 1) (some (pos, e.2)) with ⟨k, a, hk, hf, hb, hr⟩ | ⟨hall, hr⟩
      · have hae : a.2 < e.2 := by
          have := hb _ rfl
          have := hf.fits
          dsimp only at *
          omega
        refine .inl ⟨k + 1, a, by simpa using hk, hf.cons fun _ => hae, fun b hb' => ?_, ?_⟩
        · have := hbetter.2 b hb'
          omega
        · rw [hr]
          congr 2
          omega
      · refine .inl ⟨0, e, rfl, .head hbetter.1.le fun a ha hn => ?_, fun b hb' => ?_, ?_⟩
        · obtain ⟨-, b, hb, hle⟩ := hall a ha hn
          cases hb
          exact hle
        · exact .inl (hbetter.2 b hb')
        · rw [hr]
          rfl
    case isFalse hbetter =>
      have hworse : n ≤ e.2 → ∃ b ∈ best, b.2 ≤ e.2 := by
        intro hn
        by_contra hno
        push Not at hno
        exact hbetter ⟨by omega, hno⟩
      rcases ih hs' (pos + 1) best with ⟨k, a, hk, hf, hb, hr⟩ | ⟨hall, hr⟩
      · refine .inl ⟨k + 1, a, by simpa using hk, hf.cons fun hn => ?_, hb, ?_⟩
        · have hf' := hf.fits
          obtain ⟨b, hbm, hle⟩ := hworse hn
          have := hb b hbm
          omega
        · rw [hr]
          congr 2
          omega
      · refine .inr ⟨fun a ha hn => ?_, hr⟩
        rcases List.mem_cons.1 ha with rfl | ha
        · exact ⟨hexact, hworse hn⟩
        · exact hall a ha hn

/-- What the search finds in the buckets of the classes from `c` on. -/
theorem search_spec (classes : SizeClasses) (hs : ∀ e ∈ es, sizeOf e.1 = .ok e.2) (m c : ℕ) :
    (∃ d pos e, c ≤ d ∧ d < c + m ∧ (bucketAt classes es d)[pos]? = some e.1 ∧
      BestFit n (es.filter (classes.classOf ·.2 = d)) e ∧
      (∀ a ∈ es, n ≤ a.2 → c ≤ classes.classOf a.2 → d ≤ classes.classOf a.2) ∧
      search n sizeOf c ((List.range' c m).map (bucketAt classes es)) = .ok (some (d, pos))) ∨
    ((∀ a ∈ es, n ≤ a.2 → c ≤ classes.classOf a.2 → c + m ≤ classes.classOf a.2) ∧
      search n sizeOf c ((List.range' c m).map (bucketAt classes es)) = .ok none) := by
  induction m generalizing c with
  | zero => exact .inr ⟨fun _ _ _ h => h, rfl⟩
  | succ m ih =>
    have hs' : ∀ e ∈ es.filter (classes.classOf ·.2 = c), sizeOf e.1 = .ok e.2 :=
      fun e he => hs e (List.mem_of_mem_filter he)
    rw [List.range'_succ, List.map_cons, search]
    rcases scan_spec (n := n) hs' 0 none with ⟨k, e, hk, hf, -, hr⟩ | ⟨hall, hr⟩
    · refine .inl ⟨c, k, e, le_rfl, by omega, ?_, hf, fun _ _ _ h => h, ?_⟩
      · rw [bucketAt, List.getElem?_map, hk]
        rfl
      · rw [bucketAt, hr, ok_bind, Nat.zero_add]
        rfl
    · have hnone : ∀ a ∈ es, n ≤ a.2 → classes.classOf a.2 ≠ c := fun a ha hn hc => by
        obtain ⟨-, b, hb, -⟩ := hall a (by simp [ha, hc]) hn
        cases hb
      have next : ∀ a ∈ es, n ≤ a.2 → c ≤ classes.classOf a.2 → c + 1 ≤ classes.classOf a.2 :=
        fun a ha hn hc => by
          have := hnone a ha hn
          omega
      rcases ih (c + 1) with ⟨d, pos, e, hcd, hdm, hp, hf, hl, hr'⟩ | ⟨hl, hr'⟩
      · refine .inl ⟨d, pos, e, by omega, by omega, hp, hf,
          fun a ha hn hc => hl a ha hn (next a ha hn hc), ?_⟩
        rw [bucketAt, hr, ok_bind]
        exact hr'
      · refine .inr ⟨fun a ha hn hc => ?_, ?_⟩
        · have := hl a ha hn (next a ha hn hc)
          omega
        · rw [bucketAt, hr, ok_bind]
          exact hr'

/-- **The search finds the best fit of all that is filed**, or nothing if nothing fits. -/
theorem findFit_ofEntries (classes : SizeClasses) (hs : ∀ e ∈ es, sizeOf e.1 = .ok e.2) (n : ℕ) :
    (∃ e pos, BestFit n es e ∧
      (bucketAt classes es (classes.classOf e.2))[pos]? = some e.1 ∧
      (ofEntries classes es).findFit n sizeOf = .ok (some (classes.classOf e.2, pos))) ∨
    ((∀ e ∈ es, e.2 < n) ∧ (ofEntries classes es).findFit n sizeOf = .ok none) := by
  have hlt := classes.classOf_lt n
  have hdrop : (ofEntries classes es).findFit n sizeOf = search n sizeOf (classes.classOf n)
      ((List.range' (classes.classOf n) (classes.count - classes.classOf n)).map
        (bucketAt classes es)) := by
    rw [findFit, classes_ofEntries]
    simp only [ofEntries]
    rw [← List.map_drop, List.range_eq_range', List.drop_range', Nat.zero_add, Nat.mul_one]
  have hclass : ∀ a ∈ es, n ≤ a.2 → classes.classOf n ≤ classes.classOf a.2 :=
    fun a _ hn => classes.classOf_mono hn
  rw [hdrop]
  rcases search_spec (n := n) classes hs (classes.count - classes.classOf n)
    (classes.classOf n) with ⟨d, pos, e, hcd, hdm, hp, hf, hl, hr⟩ | ⟨hl, hr⟩
  · obtain ⟨he, rfl⟩ : e ∈ es ∧ classes.classOf e.2 = d := by simpa using hf.mem
    refine .inl ⟨e, pos, ⟨hf.fits, fun a ha hn => ?_, ?_⟩, hp, hr⟩
    · -- a better entry would have a lower class, and those have nothing that fits
      have hda := hl a ha hn (hclass a ha hn)
      by_contra hlt
      have := classes.classOf_mono (not_le.1 hlt).le
      exact hlt (hf.least a (by simp [ha]; omega) hn)
    · have := hf.first
      rw [List.find?_filter] at this
      rw [← this]
      congr 1
      funext a
      by_cases hae : a.2 = e.2 <;> simp [hae]
  · refine .inr ⟨fun a ha => ?_, hr⟩
    by_contra hn
    have hn := not_lt.1 hn
    have := hl a ha hn (hclass a ha hn)
    have := classes.classOf_lt a.2
    omega

end FreeIndex

end MemoryBank
