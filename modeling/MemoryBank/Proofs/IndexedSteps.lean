import MemoryBank.Proofs.Ledger

/-!
# The indexed allocator keeps the contract

`Ledger.perform_spec`: from a sound ledger, a request is answered as the contract says, with the
block that fits best, and leads to a sound ledger with the view that the contract says. What is
refused changes nothing. Answer and ledger are the same for all classes.

The contract does not see the indexes. `Ledger.Follows` says how the blocks determine them: what is
filed is what was, in the order of its arrival (`refiled`), and what is recorded changes by the one
address that is asked for (`recordedAfter`).
-/

namespace MemoryBank.Ledger

open MemoryBank.Action MemoryBank.Indexed

variable {c : Ledger} {n : ℕ} {k : Block} {bs : List Block}

/-- The index of the allocated blocks, once the one of the blocks `bs` that begins at a caller's
address is recorded. -/
def recordAt (offset : ℕ) (bs : List Block) (l : LiveIndex) (address : ℕ) : Option LiveIndex :=
  (bs.find? (·.address + offset = address)).bind fun k => (l.insert k.address k.index).toOption

/-- The index of the allocated blocks after an answer that has led to the blocks `bs`. -/
def recordedAfter (offset : ℕ) (bs : List Block) (l : LiveIndex) :
    Request → Except Failure Reply → Option LiveIndex
  | .allocate _ _, .ok (.placed address) => recordAt offset bs l address
  | .allocateAt _ _, .ok (.placed address) => recordAt offset bs l address
  | .deallocate address, .ok .done => (l.remove? (address - offset)).map (·.2)
  | .clear, .ok .done => some .empty
  | _, _ => some l

theorem recordAt_eq {start stop offset : ℕ} {l l' : LiveIndex} (ht : Tiles start bs stop)
    (hk : k ∈ bs) (hl : l.insert k.address k.index = .ok l') :
    recordAt offset bs l (k.address + offset) = some l' := by
  obtain ⟨d, hd⟩ := Option.isSome_iff_exists.1 (List.find?_isSome
    (p := fun d => decide (d.address + offset = k.address + offset)) |>.2 ⟨k, hk, by simp⟩)
  have hda : d.address + offset = k.address + offset := by simpa using List.find?_some hd
  obtain rfl := ht.eq_of_address (List.mem_of_find?_eq_some hd) hk (by omega)
  rw [recordAt, hd, Option.bind_some, hl]
  rfl

theorem recordedAfter_of_refused {offset : ℕ} {l : LiveIndex} {r : Request}
    {reply : Except Failure Reply} (h : Refused reply) :
    recordedAfter offset bs l r reply = some l := by
  obtain rfl | ⟨e, rfl⟩ := h <;> cases r <;> rfl

/-- What the contract asks of a request with this answer. Beside that, the blocks that there are
then determine both indexes: what is filed keeps the order of its arrival. -/
structure Follows (r : Request) (reply : Except Failure Reply) (c c' : Ledger) : Prop where
  sound : c'.Sound
  step : c.bank.Step r reply c'.bank
  view : c'.bank.view = c.bank.view.after r reply
  kept : Refused reply → c' = c
  filed : c'.filed = refiled c.filed (freeEntries c'.bank.table.blocks)
  live : recordedAfter c.bank.geometry.offset c'.bank.table.blocks c.live r reply = some c'.live

/-- A request is answered as the contract says, and leads to what the contract says, whatever the
classes are. -/
def Serves (r : Request) (c : Ledger) : Prop :=
  ∃ c', c.Follows r (c.bank.view.answer c.choose? r) c' ∧ ∀ classes,
    (perform r).effect (c.grouped classes) = (c.bank.view.answer c.choose? r, c'.grouped classes)

/-- A request that is refused has to leave everything as it was. -/
theorem Serves.refuses (h : c.Sound) {r : Request} {reply : Except Failure Reply}
    (hr : Refused reply) (ha : c.bank.view.answer c.choose? r = reply)
    (he : ∀ classes, (perform r).effect (c.grouped classes) = (reply, c.grouped classes)) :
    c.Serves r := by
  subst ha
  exact ⟨c, ⟨h, .refused hr, (View.after_of_refused hr).symm, fun _ => rfl,
    (refiled_of_perm h.filed).symm, recordedAfter_of_refused hr⟩, he⟩

/-- A request that is done has to lead to a sound ledger, to change the bank by a step, and to
change the indexes as the step asks. -/
theorem Serves.changes (h : c.Sound) {r : Request} {reply : Except Failure Reply} {c' : Ledger}
    (hn : ¬Refused reply) (hs : c'.Sound) (hb : c.bank.Step r reply c'.bank)
    (hf : c'.filed = refiled c.filed (freeEntries c'.bank.table.blocks))
    (hl : recordedAfter c.bank.geometry.offset c'.bank.table.blocks c.live r reply = some c'.live)
    (ha : c.bank.view.answer c.choose? r = reply)
    (he : ∀ classes, (perform r).effect (c.grouped classes) = (reply, c'.grouped classes)) :
    c.Serves r := by
  subst ha
  exact ⟨c', ⟨hs, hb, (hb.follows h.bank.sound).view, fun h => absurd h hn, hf, hl⟩, he⟩

/-- A request for which there is a free block gets a part of it, if the limit admits that. -/
theorem serves_allocate_of_choose? (h : c.Sound) {size : ℕ} {p : Placement}
    (hg : c.bank.view.grant size = .ok (some n)) (hkm : k ∈ c.bank.table.blocks)
    (hkf : k.allocated = false) (hbest : BestFit n c.filed (k.index, k.size))
    (hk : c.choose? n = some k) (ho : ∀ classes, ∃ pos, c.Offers n k classes pos) :
    c.Serves (.allocate size p) := by
  have hkn : n ≤ k.size := hbest.fits
  have hi := Block.inset_add_le hkn p.direction
  have hr := h.bank.in_range hkm
  have hfree := h.bank.table.isAllocated hkm
  rw [hkf] at hfree
  have hentry : ∀ classes pos, c.Offers n k classes pos →
      (FreeIndex.ofEntries classes c.filed).entry (classes.classOf k.size) pos =
        .ok k.index := fun classes pos hpos =>
    FreeIndex.entry_ofEntries (e := (k.index, k.size)) (classes.classOf_lt _) hpos.2
  rcases h.bank.placeIn hkm hkn p with ⟨hp, hans⟩ | ⟨e, hp, hans⟩
  · obtain ⟨xs, ys, hbs⟩ := List.append_of_mem hkm
    have h' : c.Holds (xs ++ k :: ys) := hbs ▸ h
    obtain ⟨c', carving, t, hc, hb, hs, hfiled, hmem, hins, he⟩ :=
      h'.allocateIn hkf (h.bank.grant_bounds hg).1 hi
    rw [show t = c'.bank.table by rw [hb]] at hfiled hmem
    have hrecorded : recordedAfter c.bank.geometry.offset c'.bank.table.blocks c.live
        (.allocate size p) (.ok (.placed
          (k.address + k.inset n p.direction + c.bank.geometry.offset))) = some c'.live :=
      recordAt_eq hs.bank.tiles hmem hins
    have hstep : c.bank.Step (.allocate size p) (.ok (.placed
        (k.address + k.inset n p.direction + c.bank.geometry.offset))) c'.bank := by
      rw [hb]
      exact .placed h'.bank hkf hg hkn hc
    apply Serves.changes h not_refused_placed hs hstep hfiled hrecorded
    · rw [View.answer_allocate_of_some hg, hk]
      exact hans
    · intro classes
      obtain ⟨pos, hpos⟩ := ho classes
      have htake : (FreeIndex.ofEntries classes c.filed).take (classes.classOf k.size) pos =
          .ok (k.index, .ofEntries classes (c.filed.erase (k.index, k.size))) :=
        FreeIndex.take_ofEntries h.nodup_filed hbest.mem hpos.2
      simp only [perform, allocate, effect_bind, effect_get, bank_grouped, effect_lift,
        h.bank.grant, hg, effect_lift_except, free_grouped, hpos.1, hentry classes pos hpos,
        hfree, ensure_of, hp, htake, effect_setFree, he, Geometry.toAbsolute,
        Address.add_of_lt (show k.address + k.inset n p.direction +
          c.bank.geometry.offset < _ by omega), effect_note, effect_pure, Reply.ofAddress?]
  · apply Serves.refuses h (refused_error e)
    · rw [View.answer_allocate_of_some hg, hk]
      exact hans
    · intro classes
      obtain ⟨pos, hpos⟩ := ho classes
      simp only [perform, allocate, effect_bind, effect_get, bank_grouped, effect_lift,
        h.bank.grant, hg, effect_lift_except, free_grouped, hpos.1, hentry classes pos hpos,
        hfree, ensure_of, hp]

theorem serves_allocate (h : c.Sound) (size : ℕ) (p : Placement) : c.Serves (.allocate size p) := by
  cases hg : c.bank.view.grant size with
  | error e =>
    apply Serves.refuses h (refused_error e)
    · exact View.answer_allocate_of_error hg
    · intro classes
      simp only [perform, allocate, effect_bind, effect_get, bank_grouped, effect_lift,
        h.bank.grant, hg]
  | ok o =>
    cases o with
    | none =>
      apply Serves.refuses h refused_noRoom
      · exact View.answer_allocate_of_none hg
      · intro classes
        simp only [perform, allocate, effect_bind, effect_get, bank_grouped, effect_lift,
          h.bank.grant, hg, effect_pure, Reply.ofAddress?]
    | some n =>
      rcases h.choose?_spec n with ⟨k, hkm, hkf, hbest, hk, ho⟩ | ⟨-, hk, ho⟩
      · exact serves_allocate_of_choose? h hg hkm hkf hbest hk ho
      · apply Serves.refuses h refused_noRoom
        · rw [View.answer_allocate_of_some hg, hk]
        · intro classes
          simp only [perform, allocate, effect_bind, effect_get, bank_grouped, effect_lift,
            h.bank.grant, hg, effect_lift_except, free_grouped, ho classes, effect_note,
            effect_pure, Reply.ofAddress?]

theorem serves_allocateAt (h : c.Sound) (address size : ℕ) :
    c.Serves (.allocateAt address size) := by
  cases hg : c.bank.view.grant size with
  | error e =>
    apply Serves.refuses h (refused_error e)
    · exact View.answer_allocateAt_of_error hg
    · intro classes
      simp only [perform, allocateAt, effect_bind, effect_get, bank_grouped, effect_lift,
        h.bank.grant, hg]
  | ok o =>
    cases o with
    | none =>
      apply Serves.refuses h refused_noRoom
      · exact View.answer_allocateAt_of_none hg
      · intro classes
        simp only [perform, allocateAt, effect_bind, effect_get, bank_grouped, effect_lift,
          h.bank.grant, hg, effect_pure, Reply.ofAddress?]
    | some n =>
      have hn := (h.bank.grant_bounds hg).1
      rcases h.bank.locate hn address with ⟨k, hk, i, hf, hka, hak, hi, hl, hans⟩ | ⟨hl, hans⟩
      · obtain ⟨xs, ys, hbs⟩ := List.append_of_mem hk
        have h' : c.Holds (xs ++ k :: ys) := hbs ▸ h
        have hr := h.bank.in_range hk
        have hfit : i - k.address + n ≤ k.size := by omega
        obtain ⟨c', carving, t, hc, hb, hs, hfiled, hmem, hins, he⟩ := h'.allocateIn hf hn hfit
        rw [show k.address + (i - k.address) = i by omega] at hmem hins he
        rw [show t = c'.bank.table by rw [hb]] at hfiled hmem
        have hrecorded : recordedAfter c.bank.geometry.offset c'.bank.table.blocks c.live
            (.allocateAt address size) (.ok (.placed address)) = some c'.live :=
          hi ▸ recordAt_eq hs.bank.tiles hmem hins
        have hstep : c.bank.Step (.allocateAt address size) (.ok (.placed address)) c'.bank := by
          rw [hb]
          exact .placedAt h'.bank hf hg hfit (by omega) hc
        apply Serves.changes h not_refused_placed hs hstep hfiled hrecorded
        · rw [View.answer_allocateAt_of_some hg, hans]
        · intro classes
          simp only [perform, allocateAt, effect_bind, effect_get, bank_grouped, effect_lift,
            h.bank.grant, hg, hl, effect_unfile hk h.bank.table h.nodup_filed (h.mem_filed hk hf),
            effect_lift_except, Address.sub_of_le hka, he, effect_note, Geometry.toAbsolute,
            Address.add_of_lt (show i + c.bank.geometry.offset < _ by omega), hi, effect_pure,
            Reply.ofAddress?]
      · apply Serves.refuses h refused_noRoom
        · rw [View.answer_allocateAt_of_some hg, hans]
        · intro classes
          simp only [perform, allocateAt, effect_bind, effect_get, bank_grouped, effect_lift,
            h.bank.grant, hg, hl, effect_pure, Reply.ofAddress?]

theorem serves_deallocate (h : c.Sound) {address : ℕ} (hr : address < Address.limit) :
    c.Serves (.deallocate address) := by
  have hlive : (∃ r ∈ c.bank.view.live, r.1 = address) ↔ _ := h.bank.exists_live_iff
  by_cases hex : ∃ k ∈ c.bank.table.blocks, k.allocated = true ∧
      k.address + c.bank.geometry.offset = address
  · obtain ⟨k, hk, hl, hka⟩ := id hex
    obtain ⟨xs, ys, hbs⟩ := List.append_of_mem hk
    have h' : c.Holds (xs ++ k :: ys) := hbs ▸ h
    have hrel : c.bank.geometry.toRelative? address = some k.address :=
      Address.sub?_eq_some_iff.2 (by omega)
    obtain ⟨c', m, t, hc, hb, hs, hfiled, hrem, he⟩ := h'.release hl
    rw [show t = c'.bank.table by rw [hb]] at hfiled
    have hrecorded : recordedAfter c.bank.geometry.offset c'.bank.table.blocks c.live
        (.deallocate address) (.ok .done) = some c'.live := by
      rw [recordedAfter, ← hka, Nat.add_sub_cancel, hrem]
      rfl
    apply Serves.changes h not_refused_done hs (hb ▸ .freed h'.bank hl hka hc) hfiled
      hrecorded
    · exact if_pos (hlive.2 hex)
    · intro classes
      simp only [perform, deallocate, effect_bind, effect_get, bank_grouped, hrel, he, effect_note,
        effect_pure]
  · apply Serves.refuses h (refused_error (.misuse (.invalidDeallocation address)))
    · exact if_neg (mt hlive.1 hex)
    · intro classes
      cases hrel : c.bank.geometry.toRelative? address with
      | none =>
        simp only [perform, deallocate, effect_bind, effect_get, bank_grouped, hrel, effect_refuse]
      | some i =>
        have hi : c.bank.geometry.offset + i = address := Address.sub?_eq_some_iff.1 hrel
        have hno : ∀ e ∈ liveEntries c.bank.table.blocks, e.1 ≠ i := fun e he hei => by
          obtain ⟨k, hk, hl, hka, -⟩ := mem_liveEntries.1 he
          exact hex ⟨k, hk, hl, by omega⟩
        simp only [perform, deallocate, effect_bind, effect_get, bank_grouped, hrel,
          h.release_of_none hno (show i + c.bank.geometry.offset < _ by omega),
          Nat.add_comm i, hi]

/-- What a fresh ledger makes of a bank's geometry. -/
def fresh (g : Geometry) : Ledger :=
  ⟨.fresh g, freeEntries (leftover 0 0 g.size), .empty⟩

theorem holds_fresh {g : Geometry} (hg : g.Sound) : (fresh g).Holds (leftover 0 0 g.size) := by
  refine ⟨Bank.holds_fresh hg, .rfl, ?_⟩
  rw [liveEntries_of_free fun a ha => by rw [(mem_leftover.1 ha).2]]
  exact LiveIndex.records_empty

/-- Clearing files the one free block of the fresh bank. -/
theorem effect_clear (a : Indexed) (hg : a.bank.geometry.Sound) :
    clear.effect a = (.ok (), (fresh a.bank.geometry).grouped a.free.classes) := by
  have hb := Bank.holds_fresh hg
  have hstate : (⟨a.bank.reset, a.free.clear, a.live.clear⟩ : Indexed) =
      grouped ⟨.fresh a.bank.geometry, [], .empty⟩ a.free.classes := by
    rw [grouped, FreeIndex.ofEntries_nil, LiveIndex.clear_eq_empty]
    rfl
  have hhead : (Bank.fresh a.bank.geometry).table.head.toList =
      handles (leftover 0 0 a.bank.geometry.size) := by
    rw [hb.table.head, toList_firstHandle_leftover]
  have hfile : (fileAll (handles (leftover 0 0 a.bank.geometry.size))).effect
      (grouped ⟨.fresh a.bank.geometry, [], .empty⟩ a.free.classes) = _ :=
    effect_fileAll fun b hb' => hb.table.size hb'
  simp only [clear, effect_bind, effect_modify, effect_get, hstate, bank_grouped, hhead, hfile]
  rw [List.nil_append, ← freeEntries_of_free fun a ha => by rw [(mem_leftover.1 ha).2]]
  rfl

theorem serves_clear (h : c.Sound) : c.Serves .clear := by
  have hg := h.bank.geometry
  have hfiled : freeEntries (leftover 0 0 c.bank.geometry.size) = refiled c.filed
      (freeEntries (Bank.fresh c.bank.geometry).table.blocks) := by
    rw [(Bank.holds_fresh hg).table.blocks_eq]
    refine (refiled_of_length_le_one (.of_map _ h.nodup_filed) ?_).symm
    unfold leftover
    split <;> simp [freeEntries]
  apply Serves.changes h not_refused_done (holds_fresh hg).sound .cleared hfiled rfl
  · rfl
  · intro classes
    have he := effect_clear (c.grouped classes) hg
    simp only [perform, effect_bind, he, effect_pure]
    rfl

theorem serves_shrink (h : c.Sound) (amount : ℕ) (d : Direction) :
    c.Serves (.shrink amount d) := by
  rcases Nat.eq_zero_or_pos amount with rfl | hpos
  · exact .changes h not_refused_done h .uncut (refiled_of_perm h.filed).symm rfl rfl fun _ => rfl
  have hz : amount ≠ 0 := by omega
  rcases h.bank.shrinkTarget hpos d with ⟨k, ys, hbs, hf, ha, hst, hans⟩ | ⟨e, hst, hans⟩
  · have h' : c.Holds ([] ++ k :: ys) := hbs ▸ h
    obtain rfl := View.bottomUp_of_answerCut hans
    obtain ⟨t, b, hcut, hhold, hb, ht, -⟩ := h'.bank.cut hf ha
    have hk : k ∈ c.bank.table.blocks := by simp [hbs]
    have hshort : ∀ a ∈ shortened k amount, a.allocated = false := fun a ha => by
      rw [(mem_shortened.1 ha).2]
      exact hf
    have hfiled : (c.filed.erase (k.index, k.size) ++
        (shortened k amount).map fun b => (b.index, b.size)).Perm
          (freeEntries (shortened k amount ++ ys)) := by
      rw [← freeEntries_of_free hshort, freeEntries_append]
      exact ((h'.filed_erase hf).append_right _).trans List.perm_append_comm
    have hnext : Sound ⟨b, c.filed.erase (k.index, k.size) ++
        (shortened k amount).map fun b => (b.index, b.size), c.live⟩ := by
      refine Holds.sound ⟨hb, hfiled, ?_⟩
      rw [liveEntries_append, liveEntries_of_free hshort]
      exact h'.live_erase hf
    have horder : c.filed.erase (k.index, k.size) ++
        ((shortened k amount).map fun b => (b.index, b.size)) =
          refiled c.filed (freeEntries b.table.blocks) := by
      rw [hb.table.blocks_eq]
      refine eq_refiled (.of_map _ h.nodup_filed) (.of_map _ hb.table.nodup_freeEntries)
        List.erase_sublist ?_ hfiled fun e he hold => ?_
      · rw [← freeEntries_of_free hshort, freeEntries_append]
        exact List.sublist_append_left _ _
      · obtain ⟨d, hd, rfl⟩ := List.mem_map.1 he
        obtain ⟨-, rfl⟩ := mem_shortened.1 hd
        have := (h.of_mem_filed hk hold).2
        dsimp only at this
        omega
    apply Serves.changes h not_refused_done hnext (.cut hpos h'.bank hf ha hcut hhold) horder rfl
    · simp only [View.answer, if_neg hz, hans]
    · intro classes
      have hsize : ∀ b ∈ shortened k amount, t.size b.index = .ok b.size := fun a ha =>
        ht ▸ hb.table.size (List.mem_append_left _ ha)
      have hfile : (fileAll (handles (shortened k amount))).effect (grouped
          ⟨{ c.bank with table := t }, c.filed.erase (k.index, k.size), c.live⟩ classes) = _ :=
        effect_fileAll hsize
      simp only [perform, shrink, if_neg hz, effect_bind, effect_get, bank_grouped, effect_lift,
        hst, effect_unfile hk h.bank.table h.nodup_filed (h.mem_filed hk hf), effect_lift_except,
        hcut, effect_setTable, toList_firstHandle_shortened, hfile, hhold, effect_setBank,
        effect_note, effect_pure]
  · apply Serves.refuses h (refused_error e)
    · simp only [View.answer, if_neg hz, hans]
    · intro classes
      simp only [perform, shrink, if_neg hz, effect_bind, effect_get, bank_grouped, effect_lift,
        hst]

theorem serves_restore (h : c.Sound) : c.Serves .restore := by
  rcases Nat.eq_zero_or_pos c.bank.shrunk with hz | hpos
  · apply Serves.changes h not_refused_done h (.whole hz) (refiled_of_perm h.filed).symm rfl rfl
    intro classes
    simp only [perform, restore, effect_bind, effect_get, bank_grouped, hz, ↓reduceIte,
      effect_pure]
  · have hz : c.bank.shrunk ≠ 0 := by omega
    obtain ⟨t, b, hpush, hgive, hb, -⟩ := h.bank.pushed hpos
    have habsent : ∀ e ∈ liveEntries c.bank.table.blocks, e.1 ≠ 0 := fun e he he0 => by
      obtain ⟨k, hk, -, hka, -⟩ := mem_liveEntries.1 he
      have := h.bank.bounds hk
      omega
    obtain ⟨live, hins, hrec⟩ := h.live.insert habsent c.bank.table.fresh
    -- for a moment, what was cut off is a block in use like any other
    have h' : Holds ⟨b, c.filed, live⟩
        ([] ++ ⟨c.bank.table.fresh, 0, c.bank.shrunk, true⟩ :: c.bank.table.blocks) := by
      refine ⟨hb, ?_, ?_⟩
      · rw [List.nil_append, freeEntries_cons_live rfl]
        exact h.filed
      · rw [List.nil_append, liveEntries_cons_live rfl]
        exact hrec
    obtain ⟨c', m, t', hc, hb', hs, hfiled, hrem, he⟩ := h'.release rfl
    rw [show t' = c'.bank.table by rw [hb']] at hfiled
    have hrecorded : recordedAfter c.bank.geometry.offset c'.bank.table.blocks c.live .restore
        (.ok .done) = some c'.live := by
      have hback := Option.some.inj (hrem.symm.trans (LiveIndex.remove?_insert hins))
      have hsame : c'.live = c.live := congrArg Prod.snd hback
      rw [hsame]
      rfl
    apply Serves.changes h not_refused_done hs (hb' ▸ .restored hpos hpush hgive hc) hfiled
      hrecorded rfl
    intro classes
    simp only [perform, restore, effect_bind, effect_get, bank_grouped, if_neg hz,
      effect_lift_except, hpush, effect_setTable, live_grouped, hins, effect_setLive, hgive,
      effect_setBank, he, effect_note, effect_pure]

/-- **The indexed allocator keeps the contract**, and does the same for all classes. -/
theorem perform_spec (h : c.Sound) {r : Request} (hr : r.InRange) : c.Serves r := by
  cases r with
  | allocate size p => exact serves_allocate h size p
  | allocateAt address size => exact serves_allocateAt h address size
  | deallocate address => exact serves_deallocate h hr
  | clear => exact serves_clear h
  | shrink amount d => exact serves_shrink h amount d
  | restore => exact serves_restore h

end MemoryBank.Ledger
