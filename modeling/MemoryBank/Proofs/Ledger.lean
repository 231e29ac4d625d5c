import MemoryBank.Proofs.Arrival
import MemoryBank.Proofs.BankSteps
import MemoryBank.Proofs.Effect
import MemoryBank.Proofs.Filing
import MemoryBank.Proofs.Recorded

/-!
# The indexed allocator without its classes

A `Ledger` is an indexed allocator whose free blocks are filed in one list, in the order of filing.
`Ledger.grouped` splits that list into size classes. `Ledger.Holds c bs` says that bank, filed
blocks and recorded addresses tell the same of the blocks `bs`.

The steps of an indexed allocator are described by what they make of a ledger, which is the same
for all classes.

* `effect_fileAll`, `effect_withdrawAll` and `effect_unfile`: filing and withdrawing.
* `Holds.choose?_spec` and `Sound.choose?_least`: which free block is chosen.
* `Holds.allocateIn` and `Holds.release`: allocating in a block and freeing one. What is filed
  keeps the order of its arrival.
-/

namespace MemoryBank

/-- A free block has one handle. -/
theorem Table.Holds.nodup_freeEntries {t : Table} {bs : List Block} (h : t.Holds bs) :
    ((freeEntries bs).map (·.1)).Nodup := by
  rw [freeEntries, List.map_map]
  exact h.nodup.sublist (List.filter_sublist.map _)

/-- Under a block's handle there is no other size than the block's, and only if it is free. -/
theorem Table.Holds.of_mem_freeEntries {t : Table} {bs : List Block} {k : Block} {n : ℕ}
    (h : t.Holds bs) (hk : k ∈ bs) (hm : (k.index, n) ∈ freeEntries bs) :
    k.allocated = false ∧ k.size = n := by
  obtain ⟨d, hd, hf, hi, hs⟩ := mem_freeEntries.1 hm
  obtain rfl := h.eq_of_index hd hk hi
  exact ⟨hf, hs⟩

/-- The free block that the size classes offer for `size` bytes. -/
def Indexed.choose? (a : Indexed) (size : ℕ) : Option Block :=
  match a.free.findFit size a.bank.table.size with
  | .ok (some (sizeClass, pos)) => (a.free.entry sizeClass pos >>= a.bank.table.block).toOption
  | _ => none

/-- An indexed allocator whose free blocks are filed in one list. -/
structure Ledger where
  bank : Bank
  /-- The free blocks with their sizes, in the order of filing. -/
  filed : List (Handle × ℕ)
  /-- The allocated blocks, by address. -/
  live : LiveIndex

namespace Ledger

open MemoryBank.Action MemoryBank.Indexed

/-- The allocator that groups the filed blocks by these classes. -/
def grouped (c : Ledger) (classes : SizeClasses) : Indexed :=
  ⟨c.bank, .ofEntries classes c.filed, c.live⟩

/-- Bank and indexes tell the same of the blocks `bs`. -/
structure Holds (c : Ledger) (bs : List Block) : Prop where
  bank : c.bank.Holds bs
  filed : c.filed.Perm (freeEntries bs)
  live : c.live.Records (liveEntries bs)

/-- Bank and indexes agree. -/
def Sound (c : Ledger) : Prop := c.Holds c.bank.table.blocks

variable {c : Ledger} {classes : SizeClasses} {bs xs ys : List Block} {k : Block} {i : Handle}
  {n : ℕ}

@[simp] theorem bank_grouped : (c.grouped classes).bank = c.bank := rfl

@[simp] theorem live_grouped : (c.grouped classes).live = c.live := rfl

theorem free_grouped : (c.grouped classes).free = .ofEntries classes c.filed := rfl

theorem Holds.sound (h : c.Holds bs) : c.Sound := by
  rw [Sound, h.bank.table.blocks_eq]
  exact h

/-! ## Putting things in place -/

theorem effect_setTable (t : Table) : (setTable t).effect (c.grouped classes) =
    (.ok (), grouped { c with bank := { c.bank with table := t } } classes) := rfl

theorem effect_setBank (b : Bank) : (setBank b).effect (c.grouped classes) =
    (.ok (), grouped { c with bank := b } classes) := rfl

theorem effect_setLive (l : LiveIndex) : (setLive l).effect (c.grouped classes) =
    (.ok (), grouped { c with live := l } classes) := rfl

theorem effect_setFree (es : List (Handle × ℕ)) :
    (setFree (.ofEntries classes es)).effect (c.grouped classes) =
      (.ok (), grouped { c with filed := es } classes) := rfl

/-! ## Filing and withdrawing -/

theorem effect_file (h : c.bank.table.size i = .ok n) : (file i).effect (c.grouped classes) =
    (.ok (), grouped { c with filed := c.filed ++ [(i, n)] } classes) := by
  simp only [file, effect_bind, effect_get, bank_grouped, effect_lift_except, h, effect_lift,
    free_grouped, FreeIndex.file_ofEntries, effect_setFree]

/-- Filing blocks appends them in the order given. -/
theorem effect_fileAll (h : ∀ b ∈ bs, c.bank.table.size b.index = .ok b.size) :
    (fileAll (handles bs)).effect (c.grouped classes) =
      (.ok (), grouped { c with filed := c.filed ++ bs.map fun b => (b.index, b.size) }
        classes) := by
  induction bs generalizing c with
  | nil => simp [fileAll]
  | cons b bs ih =>
    have hb : (file b.index).effect (c.grouped classes) = _ := effect_file (h b (by simp))
    have hbs := ih (c := { c with filed := c.filed ++ [(b.index, b.size)] })
      fun b hb => h b (List.mem_cons_of_mem _ hb)
    rw [handles_cons, fileAll, effect_bind_ok hb, hbs]
    simp

theorem effect_withdraw {e : Handle × ℕ} (hn : (c.filed.map (·.1)).Nodup) (he : e ∈ c.filed) :
    (withdraw e.1 e.2).effect (c.grouped classes) =
      (.ok (), grouped { c with filed := c.filed.erase e } classes) := by
  simp only [withdraw, effect_bind, effect_get, free_grouped, effect_lift_except,
    FreeIndex.withdraw_ofEntries hn he, effect_setFree]

/-- Withdrawing blocks leaves the others, and their order. -/
theorem effect_withdrawAll {ws rest : List (Handle × ℕ)} (hn : (c.filed.map (·.1)).Nodup)
    (hp : c.filed.Perm (ws ++ rest)) : ∃ filed, filed.Perm rest ∧ filed.Sublist c.filed ∧
      ∀ classes, (withdrawAll ws).effect (c.grouped classes) =
        (.ok (), grouped { c with filed } classes) := by
  induction ws generalizing c with
  | nil => exact ⟨c.filed, hp, .refl _, fun classes => rfl⟩
  | cons w ws ih =>
    obtain ⟨hw, hp'⟩ := List.cons_perm_iff_perm_erase.1 hp.symm
    obtain ⟨filed, hf, hsub, he⟩ := ih (c := { c with filed := c.filed.erase w })
      (hn.sublist (List.erase_sublist.map _)) hp'.symm
    refine ⟨filed, hf, hsub.trans List.erase_sublist, fun classes => ?_⟩
    rw [withdrawAll, effect_bind_ok (effect_withdraw hn hw), he]

/-- Taking a free block out of the index. -/
theorem effect_unfile (hb : k ∈ bs) (ht : c.bank.table.Holds bs)
    (hn : (c.filed.map (·.1)).Nodup) (hk : (k.index, k.size) ∈ c.filed) :
    (unfile k.index).effect (c.grouped classes) =
      (.ok (), grouped { c with filed := c.filed.erase (k.index, k.size) } classes) := by
  simp only [unfile, effect_bind, effect_get, bank_grouped, effect_lift_except, ht.size hb,
    effect_withdraw hn hk]

/-! ## The choice of a block -/

/-- The free block that is taken for `n` bytes. -/
def choose? (c : Ledger) : ℕ → Option Block := (c.grouped .standard).choose?

/-- Where the search of the classes ends. -/
def Offers (c : Ledger) (n : ℕ) (k : Block) (classes : SizeClasses) (pos : ℕ) : Prop :=
  (FreeIndex.ofEntries classes c.filed).findFit n c.bank.table.size =
      .ok (some (classes.classOf k.size, pos)) ∧
    (FreeIndex.bucketAt classes c.filed (classes.classOf k.size))[pos]? = some k.index

namespace Holds

theorem nodup_filed (h : c.Holds bs) : (c.filed.map (·.1)).Nodup :=
  (h.filed.map _).nodup_iff.2 h.bank.table.nodup_freeEntries

/-- Every free block is filed. -/
theorem mem_filed (h : c.Holds bs) (hk : k ∈ bs) (hf : k.allocated = false) :
    (k.index, k.size) ∈ c.filed :=
  h.filed.mem_iff.2 (mem_freeEntries.2 ⟨k, hk, hf, rfl, rfl⟩)

/-- Under a block's handle nothing is filed but its size. -/
theorem of_mem_filed (h : c.Holds bs) (hk : k ∈ bs) (hm : (k.index, n) ∈ c.filed) :
    k.allocated = false ∧ k.size = n :=
  h.bank.table.of_mem_freeEntries hk (h.filed.mem_iff.1 hm)

/-- Nothing is filed under handles that no block has. -/
theorem mem_handles_of_filed (h : c.Holds bs) {e : Handle × ℕ} (he : e ∈ c.filed) :
    e.1 ∈ handles bs := by
  obtain ⟨d, hd, -, hi, -⟩ := mem_freeEntries.1 (h.filed.mem_iff.1 he)
  exact hi ▸ index_mem_handles hd

/-- What is filed beside one free block. -/
theorem filed_erase (h : c.Holds (xs ++ k :: ys)) (hf : k.allocated = false) :
    (c.filed.erase (k.index, k.size)).Perm (freeEntries (xs ++ ys)) := by
  have hp : ((k.index, k.size) :: freeEntries (xs ++ ys)).Perm c.filed := by
    refine .trans ?_ h.filed.symm
    rw [freeEntries_append, freeEntries_append, freeEntries_cons_free hf]
    exact List.perm_middle.symm
  exact (List.cons_perm_iff_perm_erase.1 hp).2.symm

/-- A free block is not recorded. -/
theorem live_erase (h : c.Holds (xs ++ k :: ys)) (hf : k.allocated = false) :
    c.live.Records (liveEntries (xs ++ ys)) := by
  have := h.live
  rwa [liveEntries_append, liveEntries_cons_free hf, ← liveEntries_append] at this

theorem size_of_filed (h : c.Holds bs) : ∀ e ∈ c.filed, c.bank.table.size e.1 = .ok e.2 := by
  intro e he
  obtain ⟨k, hk, -, hi, hs⟩ := mem_freeEntries.1 (h.filed.mem_iff.1 he)
  rw [← hi, ← hs]
  exact h.bank.table.size hk

/-- **The search finds the block that fits best**, the same for all classes. -/
theorem search_spec (h : c.Holds bs) (n : ℕ) :
    (∃ k ∈ bs, k.allocated = false ∧ BestFit n c.filed (k.index, k.size) ∧
      ∀ classes, ∃ pos, c.Offers n k classes pos) ∨
    ((∀ e ∈ c.filed, e.2 < n) ∧ ∀ classes,
      (FreeIndex.ofEntries classes c.filed).findFit n c.bank.table.size = .ok none) := by
  rcases FreeIndex.findFit_ofEntries .standard h.size_of_filed n with ⟨e, -, hb, -⟩ | ⟨hno, -⟩
  · obtain ⟨k, hk, hf, hi, hs⟩ := mem_freeEntries.1 (h.filed.mem_iff.1 hb.mem)
    obtain rfl : (k.index, k.size) = e := Prod.ext hi hs
    refine .inl ⟨k, hk, hf, hb, fun classes => ?_⟩
    rcases FreeIndex.findFit_ofEntries classes h.size_of_filed n with
      ⟨e', pos, hb', hp, hr⟩ | ⟨hno, -⟩
    · obtain rfl := hb.unique hb'
      exact ⟨pos, hr, hp⟩
    · have := hno _ hb.mem
      have := hb.fits
      omega
  · refine .inr ⟨hno, fun classes => ?_⟩
    rcases FreeIndex.findFit_ofEntries classes h.size_of_filed n with ⟨e', pos, hb', -⟩ | ⟨-, hr⟩
    · have := hno _ hb'.mem
      have := hb'.fits
      omega
    · exact hr

theorem choose?_of_offers (h : c.Holds bs) (hk : k ∈ bs) {pos : ℕ} (ho : c.Offers n k classes pos) :
    (c.grouped classes).choose? n = some k := by
  have he := FreeIndex.entry_ofEntries (e := (k.index, k.size)) (classes.classOf_lt k.size) ho.2
  simp only [Indexed.choose?, bank_grouped, free_grouped, ho.1, he, ok_bind,
    h.bank.table.block hk]
  rfl

/-- **The classes have no influence on which block is taken.** -/
theorem choose?_grouped (h : c.Holds bs) (classes : SizeClasses) :
    (c.grouped classes).choose? = c.choose? := by
  funext n
  rcases h.search_spec n with ⟨k, hk, -, -, ho⟩ | ⟨-, hr⟩
  · obtain ⟨pos, hpos⟩ := ho classes
    obtain ⟨pos', hpos'⟩ := ho .standard
    rw [h.choose?_of_offers hk hpos]
    exact (h.choose?_of_offers hk hpos').symm
  · simp only [choose?, Indexed.choose?, bank_grouped, free_grouped, hr]

/-- What is chosen is a free block, and it fits best. -/
theorem choose?_spec (h : c.Holds bs) (n : ℕ) :
    (∃ k ∈ bs, k.allocated = false ∧ BestFit n c.filed (k.index, k.size) ∧ c.choose? n = some k ∧
      ∀ classes, ∃ pos, c.Offers n k classes pos) ∨
    ((∀ e ∈ c.filed, e.2 < n) ∧ c.choose? n = none ∧ ∀ classes,
      (FreeIndex.ofEntries classes c.filed).findFit n c.bank.table.size = .ok none) := by
  rcases h.search_spec n with ⟨k, hk, hf, hb, ho⟩ | ⟨hno, hr⟩
  · obtain ⟨pos, hpos⟩ := ho .standard
    exact .inl ⟨k, hk, hf, hb, h.choose?_of_offers hk hpos, ho⟩
  · refine .inr ⟨hno, ?_, hr⟩
    simp only [choose?, Indexed.choose?, bank_grouped, free_grouped, hr]

end Holds

/-- **The smallest of the free blocks that are large enough is chosen**, if there is one. -/
theorem Sound.choose?_least (h : c.Sound) (n : ℕ) :
    (∃ k ∈ c.bank.candidates n, c.choose? n = some k ∧
      ∀ d ∈ c.bank.candidates n, k.size ≤ d.size) ∨
    (c.choose? n = none ∧ c.bank.candidates n = []) := by
  have hentry : ∀ d ∈ c.bank.candidates n, (d.index, d.size) ∈ c.filed ∧ n ≤ d.size := by
    intro d hd
    obtain ⟨hm, hf, hn⟩ := Bank.mem_candidates.1 hd
    exact ⟨h.mem_filed hm hf, hn⟩
  rcases h.choose?_spec n with ⟨k, hk, hf, hbest, hchoose, -⟩ | ⟨hno, hchoose, -⟩
  · refine .inl ⟨k, Bank.mem_candidates.2 ⟨hk, hf, hbest.fits⟩, hchoose, fun d hd => ?_⟩
    exact hbest.least _ (hentry d hd).1 (hentry d hd).2
  · refine .inr ⟨hchoose, List.eq_nil_iff_forall_not_mem.2 fun d hd => ?_⟩
    exact absurd (hno _ (hentry d hd).1) (not_lt.2 (hentry d hd).2)

/-! ## Allocating in a block and freeing one -/

/-- The indexes once a part of a free block is in use, and what is left of it is filed. -/
theorem Holds.carved {b : Bank} {left right : List Block} {a : ℕ} (h : c.Holds (xs ++ k :: ys))
    (hf : k.allocated = false)
    (hb : b.Holds (xs ++ (left ++ ⟨k.index, a, n, true⟩ :: right) ++ ys))
    (hl : ∀ d ∈ left, d.allocated = false) (hr : ∀ d ∈ right, d.allocated = false) :
    ∃ live, c.live.insert a k.index = .ok live ∧
      Holds ⟨b, c.filed.erase (k.index, k.size) ++ (left ++ right).map fun d => (d.index, d.size),
        live⟩ (xs ++ (left ++ ⟨k.index, a, n, true⟩ :: right) ++ ys) := by
  -- the layout holds one more live entry, at an address not recorded so far
  have hentries : liveEntries (xs ++ (left ++ ⟨k.index, a, n, true⟩ :: right) ++ ys) =
      liveEntries xs ++ (a, k.index) :: liveEntries ys := by
    simp only [liveEntries_append, liveEntries_cons_live, liveEntries_of_free hl,
      liveEntries_of_free hr, List.nil_append, List.append_assoc, List.cons_append]
  have hnew := hb.tiles.nodup_liveEntries
  rw [hentries, List.map_append, List.map_cons, List.nodup_middle, List.nodup_cons,
    ← List.map_append, ← liveEntries_append] at hnew
  have habsent : ∀ e ∈ liveEntries (xs ++ ys), e.1 ≠ a := fun e he h =>
    hnew.1 (List.mem_map.2 ⟨e, he, h⟩)
  obtain ⟨live, hins, hrec⟩ := (h.live_erase hf).insert habsent k.index
  refine ⟨live, hins, hb, ?_, ?_⟩
  · have hfree : ∀ d ∈ left ++ right, d.allocated = false := fun d hd =>
      (List.mem_append.1 hd).elim (hl d) (hr d)
    have hc : ∀ zs, freeEntries (⟨k.index, a, n, true⟩ :: zs) = freeEntries zs :=
      fun zs => freeEntries_cons_live rfl
    rw [← freeEntries_of_free hfree]
    refine ((h.filed_erase hf).append_right _).trans ?_
    simp only [freeEntries_append, hc, List.append_assoc]
    rw [← List.append_assoc (freeEntries left)]
    exact List.perm_append_comm.append_left _
  · refine hrec.perm ?_
    rw [hentries, liveEntries_append]
    exact List.perm_middle.symm

/-- What is left of a block in use lies in slots that no block had, and is filed last. -/
theorem Holds.refiled_carved {c' : Ledger} {left right : List Block} {a : ℕ}
    (h : c.Holds (xs ++ k :: ys))
    (h' : c'.Holds (xs ++ (left ++ ⟨k.index, a, n, true⟩ :: right) ++ ys))
    (hl : ∀ d ∈ left, d.allocated = false) (hr : ∀ d ∈ right, d.allocated = false)
    (hfiled : c'.filed =
      c.filed.erase (k.index, k.size) ++ (left ++ right).map fun d => (d.index, d.size)) :
    c'.filed = refiled c.filed
      (freeEntries (xs ++ (left ++ ⟨k.index, a, n, true⟩ :: right) ++ ys)) := by
  have hfree : ∀ d ∈ left ++ right, d.allocated = false := fun d hd =>
    (List.mem_append.1 hd).elim (hl d) (hr d)
  have hperm : (handles (xs ++ (left ++ ⟨k.index, a, n, true⟩ :: right) ++ ys)).Perm
      (handles (xs ++ k :: ys) ++ handles (left ++ right)) := by
    simp only [List.perm_iff_count, handles_append, handles_cons, List.count_append,
      List.count_cons]
    omega
  have hdisjoint := (List.nodup_append.1 (hperm.nodup_iff.1 h'.bank.table.nodup)).2.2
  have hp := h'.filed
  rw [hfiled] at hp ⊢
  refine eq_refiled (.of_map _ h.nodup_filed) (.of_map _ h'.bank.table.nodup_freeEntries)
    List.erase_sublist ?_ hp fun e he hold => ?_
  · rw [← freeEntries_of_free hfree]
    simp only [freeEntries_append, freeEntries_cons_live (b := ⟨k.index, a, n, true⟩) rfl]
    exact (List.sublist_append_right _ _).trans (List.sublist_append_left _ _)
  · obtain ⟨d, hd, rfl⟩ := List.mem_map.1 he
    exact hdisjoint _ (h.mem_handles_of_filed hold) _ (index_mem_handles hd) rfl

/-- **Allocating in a free block** that has been withdrawn. -/
theorem Holds.allocateIn {inset : ℕ} (h : c.Holds (xs ++ k :: ys)) (hf : k.allocated = false)
    (hn : 0 < n) (ha : inset + n ≤ k.size) :
    ∃ (c' : Ledger) (carving : Carving) (t : Table),
      (c.bank.table.carve k.index inset n).result = .ok (carving, t) ∧
      c'.bank = { c.bank with table := t } ∧ c'.Sound ∧
      c'.filed = refiled c.filed (freeEntries t.blocks) ∧
      ⟨k.index, k.address + inset, n, true⟩ ∈ t.blocks ∧
      c.live.insert (k.address + inset) k.index = .ok c'.live ∧
      ∀ classes, (Indexed.allocateIn k.index inset n).effect
        (grouped { c with filed := c.filed.erase (k.index, k.size) } classes) =
          (.ok (k.address + inset), c'.grouped classes) := by
  obtain ⟨carving, t, j, hc, hrem, hb, -⟩ := h.bank.carve hf hn ha
  have hleft : ∀ d ∈ leftover c.bank.table.fresh k.address inset, d.allocated = false :=
    fun d hd => by rw [(mem_leftover.1 hd).2]
  have hright : ∀ d ∈ leftover j (k.address + inset + n) (k.size - inset - n),
      d.allocated = false := fun d hd => by rw [(mem_leftover.1 hd).2]
  unfold MemoryBank.carved at hb
  generalize leftover c.bank.table.fresh k.address inset = left at hrem hb hleft
  generalize leftover j (k.address + inset + n) (k.size - inset - n) = right at hrem hb hright
  rw [← handles_append] at hrem
  obtain ⟨live, hins, hnext⟩ := h.carved hf hb hleft hright
  have hfiled := h.refiled_carved hnext hleft hright rfl
  rw [← hb.table.blocks_eq] at hfiled
  refine ⟨_, carving, t, hc, rfl, hnext.sound, hfiled, ?_, hins, fun classes => ?_⟩
  · rw [show t.blocks = _ from hb.table.blocks_eq]
    simp
  have hsize : ∀ d ∈ left ++ right, t.size d.index = .ok d.size := fun d hd => by
    refine hb.table.size ?_
    simp only [List.mem_append, List.mem_cons] at hd ⊢
    tauto
  have haddr : t.address k.index = .ok (k.address + inset) :=
    hb.table.address (b := ⟨k.index, k.address + inset, n, true⟩) (by simp)
  have hfile : (fileAll (handles (left ++ right))).effect (grouped
      ⟨{ c.bank with table := t }, c.filed.erase (k.index, k.size), c.live⟩ classes) = _ :=
    effect_fileAll hsize
  simp only [Indexed.allocateIn, effect_bind, effect_get, bank_grouped, effect_lift, hc,
    effect_setTable, hrem, hfile, effect_lift_except, haddr, live_grouped, hins, effect_setLive,
    effect_pure]

/-- A block that was merged was not filed under its new size. -/
theorem Holds.merged_not_filed {us vs ls rs : List Block} {m : Block}
    (h : c.Holds (xs ++ k :: ys)) (hl : k.allocated = true)
    (hm : Merged xs ys us vs ls rs k m) : (m.index, m.size) ∉ c.filed := by
  intro hfiled
  obtain ⟨d, hd, hi⟩ := List.mem_map.1 (mem_handles_of_firstHandle hm.handle)
  rw [← hi] at hfiled
  rcases List.mem_append.1 hd with hd | hd
  · have hmem : d ∈ xs ++ k :: ys := by simp [hm.below, hd]
    obtain ⟨hlow, hpos, hhigh⟩ := Tiles.middle_iff.1 hm.covers
    have := hlow.bounds hd
    have := hhigh.le
    have := (h.of_mem_filed hmem hfiled).2
    omega
  · obtain rfl := List.mem_singleton.1 hd
    have := (h.of_mem_filed List.mem_append_cons_self hfiled).1
    simp [hl] at this

/-- **Freeing the block** that is allocated at an address. -/
theorem Holds.release (h : c.Holds (xs ++ k :: ys)) (hl : k.allocated = true) :
    ∃ (c' : Ledger) (merging : Merging) (t : Table),
      (c.bank.table.coalesce k.index).result = .ok (merging, t) ∧
      c'.bank = { c.bank with table := t } ∧ c'.Sound ∧
      c'.filed = refiled c.filed (freeEntries t.blocks) ∧
      c.live.remove? k.address = some (k.index, c'.live) ∧
      ∀ classes, (Indexed.release k.address).effect (c.grouped classes) =
        (.ok (), c'.grouped classes) := by
  have hmem : (k.address, k.index) ∈ liveEntries (xs ++ k :: ys) :=
    mem_liveEntries.2 ⟨k, by simp, hl, rfl, rfl⟩
  obtain ⟨live, hrem, hrec⟩ := h.live.remove? hmem
  obtain ⟨us, vs, ls, rs, m, t, hc, hm, hb, -⟩ := h.bank.coalesce
  -- the absorbed neighbours are filed, the merged block is not
  have hfree : freeEntries (xs ++ k :: ys) =
      freeEntries us ++ freeEntries (ls ++ rs) ++ freeEntries vs := by
    rw [hm.below, hm.above]
    simp only [freeEntries_append, freeEntries_cons_live hl, List.append_assoc]
  have hfiled : c.filed.Perm (freeEntries (ls ++ rs) ++ freeEntries (us ++ vs)) := by
    refine (hfree ▸ h.filed).trans ?_
    have hcomm : (freeEntries us ++ freeEntries (ls ++ rs)).Perm (freeEntries (ls ++ rs) ++
        freeEntries us) := List.perm_append_comm
    simpa only [freeEntries_append, List.append_assoc] using hcomm.append_right (freeEntries vs)
  obtain ⟨filed, hrest, hsub, hwith⟩ := effect_withdrawAll
    (c := ⟨{ c.bank with table := t }, c.filed, live⟩) h.nodup_filed hfiled
  have hnext : (filed ++ [(m.index, m.size)]).Perm (freeEntries (us ++ m :: vs)) := by
    refine (hrest.append_right _).trans ?_
    rw [freeEntries_append, freeEntries_append, freeEntries_cons_free hm.free, List.append_assoc]
    exact (List.perm_append_singleton _ _).append_left _
  refine ⟨⟨{ c.bank with table := t }, filed ++ [(m.index, m.size)], live⟩, _, t, hc, rfl,
    Holds.sound ⟨hb, hnext, ?_⟩, ?_, hrem, fun classes => ?_⟩
  · refine hrec.perm ?_
    have hls := liveEntries_of_free fun a ha => hm.absorbed a (List.mem_append_left rs ha)
    have hrs := liveEntries_of_free fun a ha => hm.absorbed a (List.mem_append_right ls ha)
    rw [hm.below, hm.above]
    simp only [liveEntries_append, liveEntries_cons_live hl, liveEntries_cons_free hm.free, hls,
      hrs, List.append_nil, List.nil_append]
    have hmid : (liveEntries us ++ (k.address, k.index) :: liveEntries vs).Perm
        ((k.address, k.index) :: (liveEntries us ++ liveEntries vs)) := List.perm_middle
    simpa using hmid.erase (k.address, k.index)
  · rw [show t.blocks = _ from hb.table.blocks_eq]
    refine eq_refiled (.of_map _ h.nodup_filed) (.of_map _ hb.table.nodup_freeEntries) hsub ?_ hnext
      fun e he => ?_
    · rw [List.singleton_sublist]
      exact mem_freeEntries.2 ⟨m, by simp, hm.free, rfl, rfl⟩
    · rw [List.mem_singleton.1 he]
      exact h.merged_not_filed hl hm
  · have hsize : t.size m.index = .ok m.size := hb.table.size (by simp)
    have hfile : (file m.index).effect (grouped ⟨{ c.bank with table := t }, filed, live⟩ classes) =
        _ := effect_file hsize
    simp only [Indexed.release, effect_bind, effect_get, live_grouped, hrem, effect_setLive,
      bank_grouped, effect_lift, hc, effect_setTable, hwith, hfile]

/-- Where no block is allocated, nothing is freed. -/
theorem Holds.release_of_none (h : c.Holds bs) {address : ℕ}
    (hno : ∀ e ∈ liveEntries bs, e.1 ≠ address)
    (hlt : address + c.bank.geometry.offset < Address.limit) :
    (Indexed.release address).effect (c.grouped classes) =
      (.error (.misuse (.invalidDeallocation (address + c.bank.geometry.offset))),
        c.grouped classes) := by
  simp only [Indexed.release, effect_bind, effect_get, live_grouped, h.live.remove?_eq_none hno,
    effect_lift_except, bank_grouped, Geometry.toAbsolute, Address.add_of_lt hlt, effect_refuse]

end Ledger

end MemoryBank
