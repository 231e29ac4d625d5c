import MemoryBank.Proofs.Moved
import MemoryBank.Proofs.Tracking

/-!
# Steps at another place

Each operation of an allocator and the same one of an allocator `d` bytes higher change their states
alike, down to the links, the pool and the indexes (`Linear.tracks_perform`,
`Indexed.tracks_perform`). Nothing is assumed of the states: the two sides are followed step by
step, as long as neither of them fails.
-/

namespace MemoryBank

open MemoryBank.Action

variable {d : ℕ}

/-! ## The steps of a bank -/

theorem Geometry.toRelative?_moved (g : Geometry) (address : ℕ) :
    (g.moved d).toRelative? (address + d) = g.toRelative? address := by
  simp only [toRelative?, moved, Address.sub?, Nat.add_le_add_iff_right, Nat.add_sub_add_right]

namespace Bank

variable {b : Bank}

theorem placeIn_ok {i : Handle} {n m : ℕ} {p : Placement}
    (h : (b.placeIn i n p).result = .ok m) : b.offsetIn i n p.direction = .ok m := by
  unfold placeIn at h
  simp only [Traced.result_bind, Traced.result_lift] at h
  obtain ⟨offset, ho, h⟩ := bind_eq_ok_iff.1 h
  rw [ho]
  cases hl : p.limit with
  | none =>
    rw [hl] at h
    exact h
  | some limit =>
    rw [hl] at h
    simp only [Traced.result_bind, Traced.result_lift] at h
    obtain ⟨start, -, h⟩ := bind_eq_ok_iff.1 h
    obtain ⟨sum, -, h⟩ := bind_eq_ok_iff.1 h
    obtain ⟨address, -, h⟩ := bind_eq_ok_iff.1 h
    split at h
    · exact h
    · cases h

theorem placeIn_moved {i : Handle} {n m m' : ℕ} {p : Placement}
    (h : (b.placeIn i n p).result = .ok m)
    (h' : ((b.moved d).placeIn i n (p.moved d)).result = .ok m') : m = m' := by
  have ho' : b.offsetIn i n p.direction = .ok m' :=
    placeIn_ok (b := b.moved d) (p := p.moved d) h'
  exact Except.ok.inj ((placeIn_ok h).symm.trans ho')

theorem locate_moved (b : Bank) (address n : ℕ) :
    ((b.moved d).locate (address + d) n).result = (b.locate address n).result := by
  have hrel : (b.moved d).geometry.toRelative? (address + d) = b.geometry.toRelative? address :=
    b.geometry.toRelative?_moved address
  unfold locate
  rw [hrel]
  cases b.geometry.toRelative? address with
  | none => rfl
  | some i =>
    have hmod : Address.mod i (b.moved d).geometry.alignment =
      Address.mod i b.geometry.alignment := rfl
    simp only [Traced.result_bind, Traced.result_lift, hmod]
    cases Address.mod i b.geometry.alignment with
    | error e => rfl
    | ok r =>
      by_cases hr : r ≠ 0
      · simp only [ok_bind, if_pos hr]
        rfl
      · simp only [ok_bind, if_neg hr]
        rfl

theorem locate_agrees {address n : ℕ} {o o' : Option (Block × ℕ)}
    (h : (b.locate address n).result = .ok o)
    (h' : ((b.moved d).locate (address + d) n).result = .ok o') : o = o' :=
  Except.ok.inj (h.symm.trans ((b.locate_moved address n).symm.trans h'))

theorem shrinkTarget_ok {amount : ℕ} {direction : Direction} {i : Handle}
    (h : (b.shrinkTarget amount direction).result = .ok i) :
    b.table.frontCut amount = .ok (.lands i) := by
  cases direction with
  | topDown => cases h
  | bottomUp =>
    unfold shrinkTarget at h
    dsimp only at h
    split at h
    · rw [Traced.result_bind, Traced.result_lift] at h
      obtain ⟨cut, hc, h⟩ := bind_eq_ok_iff.1 h
      cases cut with
      | lands j =>
        cases h
        exact hc
      | blocked address =>
        rw [Traced.result_bind] at h
        obtain ⟨x, -, h⟩ := bind_eq_ok_iff.1 h
        cases h
    · cases h

theorem shrinkTarget_moved {amount : ℕ} {direction : Direction} {i j : Handle}
    (h : (b.shrinkTarget amount direction).result = .ok i)
    (h' : ((b.moved d).shrinkTarget amount direction).result = .ok j) : i = j := by
  have hi := shrinkTarget_ok h
  have hj : b.table.frontCut amount = .ok (.lands j) := shrinkTarget_ok (b := b.moved d) h'
  exact FrontCut.lands.inj (Except.ok.inj (hi.symm.trans hj))

theorem holdBack_moved (b : Bank) (amount : ℕ) :
    (b.moved d).holdBack amount = (b.holdBack amount).map (·.moved d) := by
  change (Address.sub b.usable amount >>= fun _ => Address.add b.shrunk amount >>= _) =
    Except.map _ (Address.sub b.usable amount >>= fun _ => Address.add b.shrunk amount >>= _)
  cases Address.sub b.usable amount with
  | error e => rfl
  | ok usable => cases Address.add b.shrunk amount <;> rfl

theorem giveBack_moved (b : Bank) : (b.moved d).giveBack = b.giveBack.map (·.moved d) := by
  change (Address.add b.usable b.shrunk >>= _) =
    Except.map _ (Address.add b.usable b.shrunk >>= _)
  cases Address.add b.usable b.shrunk <;> rfl

end Bank

/-! ## The linear allocator -/

namespace Linear

theorem findAllocated_moved (a : Linear) (address : ℕ) :
    (a.moved d).findAllocated (address + d) = a.findAllocated address := by
  have hrel : (a.moved d).bank.geometry.toRelative? (address + d) =
      a.bank.geometry.toRelative? address := a.bank.geometry.toRelative?_moved address
  unfold findAllocated
  rw [hrel]
  rfl

theorem tracks_setTable (t : Table) : Tracks (moved · d) Eq (setTable t) (setTable t) :=
  .modify fun _ => rfl

theorem tracks_setBank (b : Bank) : Tracks (moved · d) Eq (setBank b) (setBank (b.moved d)) :=
  .modify fun _ => rfl

theorem tracks_allocate (size : ℕ) (p : Placement) :
    Tracks (moved · d) (fun _ _ => True) (allocate size p) (allocate size (p.moved d)) := by
  unfold allocate
  refine .get_bind fun a => .bind_eq (.same (a.bank.grant size)) fun o => ?_
  cases o with
  | none => exact .pure trivial
  | some n =>
    refine .bind_eq (.same_except (a.search n)) fun found => ?_
    cases found with
    | none => exact .bind_eq (.note _ _) fun _ => .pure trivial
    | some k =>
      refine .bind_eq (.lift fun _ _ => Bank.placeIn_moved) fun m => ?_
      refine .bind_eq (.same (a.bank.table.carve k.index m n)) fun ⟨c, t⟩ => ?_
      refine .bind_eq (tracks_setTable t) fun _ => ?_
      refine .bind_eq (.same_except (Address.add k.address m)) fun x => ?_
      exact .except_bind fun _ _ => .bind_eq (.note _ _) fun _ => .pure trivial

theorem tracks_allocateAt (address size : ℕ) : Tracks (moved · d) (fun _ _ => True)
    (allocateAt address size) (allocateAt (address + d) size) := by
  unfold allocateAt
  refine .get_bind fun a => .bind_eq (.same (a.bank.grant size)) fun o => ?_
  cases o with
  | none => exact .pure trivial
  | some n =>
    refine .bind_eq (.lift fun _ _ => Bank.locate_agrees) fun o => ?_
    cases o with
    | none => exact .pure trivial
    | some found =>
      obtain ⟨k, i⟩ := found
      refine .bind_eq (.same_except (Address.sub i k.address)) fun m => ?_
      refine .bind_eq (.same (a.bank.table.carve k.index m n)) fun ⟨c, t⟩ => ?_
      refine .bind_eq (tracks_setTable t) fun _ => ?_
      exact .bind_eq (.note _ _) fun _ => .pure trivial

theorem tracks_deallocate (address : ℕ) :
    Tracks (moved · d) Eq (deallocate address) (deallocate (address + d)) := by
  unfold deallocate
  refine .get_bind fun a => ?_
  rw [findAllocated_moved]
  refine .bind_eq (.same_except (a.findAllocated address)) fun found => ?_
  cases found with
  | none => exact .refuse _ _
  | some k =>
    refine .bind_eq (.same (a.bank.table.coalesce k.index)) fun ⟨m, t⟩ => ?_
    exact .bind_eq (tracks_setTable t) fun _ => .note _ _

theorem tracks_shrink (amount : ℕ) (direction : Direction) :
    Tracks (moved · d) Eq (shrink amount direction) (shrink amount direction) := by
  unfold shrink
  refine .ite (.pure rfl) (.get_bind fun a => ?_)
  refine .bind_eq (.lift fun _ _ => Bank.shrinkTarget_moved) fun i => ?_
  refine .bind_eq (.same_except (a.bank.table.truncateFront i amount)) fun ⟨o, t⟩ => ?_
  refine .bind_map (.lift_map (Bank.holdBack_moved { a.bank with table := t } amount)) fun b => ?_
  exact .bind_eq (tracks_setBank b) fun _ => .note _ _

theorem tracks_restore : Tracks (moved · d) Eq restore restore := by
  unfold restore
  refine .get_bind fun a => .ite (.pure rfl) ?_
  refine .bind_eq (.same_except (a.bank.table.pushFront 0 a.bank.shrunk true)) fun ⟨i, t⟩ => ?_
  refine .bind_map (.lift_map (Bank.giveBack_moved { a.bank with table := t })) fun b => ?_
  refine .bind_eq (.same (b.table.coalesce i)) fun ⟨m, t'⟩ => ?_
  exact .bind_eq (tracks_setBank { b with table := t' }) fun _ => .note _ _

theorem tracks_clear : Tracks (moved · d) Eq clear clear := .modify fun _ => rfl

/-- **The states of linear allocators remain alike.** -/
theorem tracks_perform (r : Request) :
    Tracks (moved · d) (fun _ _ => True) (perform r) (perform (r.moved d)) := by
  cases r with
  | allocate size p => exact (tracks_allocate size p).bind fun _ _ _ => .pure trivial
  | allocateAt address size =>
    exact (tracks_allocateAt address size).bind fun _ _ _ => .pure trivial
  | deallocate address => exact (tracks_deallocate address).bind_eq fun _ => .pure trivial
  | clear => exact tracks_clear.bind_eq fun _ => .pure trivial
  | shrink amount direction =>
    exact (tracks_shrink amount direction).bind_eq fun _ => .pure trivial
  | restore => exact tracks_restore.bind_eq fun _ => .pure trivial

end Linear

/-! ## The indexed allocator -/

namespace Indexed

theorem tracks_setTable (t : Table) : Tracks (moved · d) Eq (setTable t) (setTable t) :=
  .modify fun _ => rfl

theorem tracks_setBank (b : Bank) : Tracks (moved · d) Eq (setBank b) (setBank (b.moved d)) :=
  .modify fun _ => rfl

theorem tracks_setFree (f : FreeIndex) : Tracks (moved · d) Eq (setFree f) (setFree f) :=
  .modify fun _ => rfl

theorem tracks_setLive (l : LiveIndex) : Tracks (moved · d) Eq (setLive l) (setLive l) :=
  .modify fun _ => rfl

theorem tracks_file (i : Handle) : Tracks (moved · d) Eq (file i) (file i) := by
  unfold file
  refine .get_bind fun a => .bind_eq (.same_except (a.bank.table.size i)) fun n => ?_
  exact .bind_eq (.same (a.free.file i n)) fun f => tracks_setFree f

theorem tracks_fileAll (is : List Handle) : Tracks (moved · d) Eq (fileAll is) (fileAll is) := by
  induction is with
  | nil => exact .pure rfl
  | cons i is ih => exact (tracks_file i).bind_eq fun _ => ih

theorem tracks_withdraw (i : Handle) (n : ℕ) :
    Tracks (moved · d) Eq (withdraw i n) (withdraw i n) := by
  unfold withdraw
  exact .get_bind fun a => .bind_eq (.same_except (a.free.withdraw i n)) fun f => tracks_setFree f

theorem tracks_withdrawAll (es : List (Handle × ℕ)) :
    Tracks (moved · d) Eq (withdrawAll es) (withdrawAll es) := by
  induction es with
  | nil => exact .pure rfl
  | cons e es ih => exact (tracks_withdraw e.1 e.2).bind_eq fun _ => ih

theorem tracks_unfile (i : Handle) : Tracks (moved · d) Eq (unfile i) (unfile i) := by
  unfold unfile
  refine .get_bind fun a => .bind_eq (.same_except (a.bank.table.size i)) fun n => ?_
  exact tracks_withdraw i n

theorem tracks_allocateIn (i : Handle) (offset n : ℕ) :
    Tracks (moved · d) Eq (allocateIn i offset n) (allocateIn i offset n) := by
  unfold allocateIn
  refine .get_bind fun a => .bind_eq (.same (a.bank.table.carve i offset n)) fun ⟨c, t⟩ => ?_
  refine .bind_eq (tracks_setTable t) fun _ => ?_
  refine .bind_eq (tracks_fileAll c.remainders) fun _ => ?_
  refine .bind_eq (.same_except (t.address i)) fun address => ?_
  refine .bind_eq (.same_except (a.live.insert address i)) fun l => ?_
  exact .bind_eq (tracks_setLive l) fun _ => .pure rfl

theorem tracks_release (address : ℕ) :
    Tracks (moved · d) Eq (release address) (release address) := by
  unfold release
  refine .get_bind fun a => ?_
  cases hl : a.live.remove? address with
  | none =>
    have hl' : (a.moved d).live.remove? address = none := hl
    rw [hl']
    exact .except_bind fun _ _ => .refuse _ _
  | some e =>
    have hl' : (a.moved d).live.remove? address = some e := hl
    rw [hl']
    obtain ⟨i, l⟩ := e
    refine .bind_eq (tracks_setLive l) fun _ => ?_
    refine .bind_eq (.same (a.bank.table.coalesce i)) fun ⟨m, t⟩ => ?_
    refine .bind_eq (tracks_setTable t) fun _ => ?_
    exact .bind_eq (tracks_withdrawAll m.absorbed) fun _ => tracks_file m.merged

theorem tracks_clear : Tracks (moved · d) Eq clear clear := by
  unfold clear
  refine .bind_eq (.modify fun _ => rfl) fun _ => ?_
  exact .get_bind fun a => tracks_fileAll a.bank.table.head.toList

theorem tracks_allocate (size : ℕ) (p : Placement) :
    Tracks (moved · d) (fun _ _ => True) (allocate size p) (allocate size (p.moved d)) := by
  unfold allocate
  refine .get_bind fun a => .bind_eq (.same (a.bank.grant size)) fun o => ?_
  cases o with
  | none => exact .pure trivial
  | some n =>
    refine .bind_eq (.same_except (a.free.findFit n a.bank.table.size)) fun o => ?_
    cases o with
    | none => exact .bind_eq (.note _ _) fun _ => .pure trivial
    | some place =>
      obtain ⟨sizeClass, pos⟩ := place
      refine .bind_eq (.same_except (a.free.entry sizeClass pos)) fun i => ?_
      refine .bind_eq (.same_except (a.bank.table.isAllocated i)) fun l => ?_
      refine .bind_eq (.same_except (ensure (l = false) (.blockTaken i))) fun _ => ?_
      refine .bind_eq (.lift fun _ _ => Bank.placeIn_moved) fun m => ?_
      refine .bind_eq (.same_except (a.free.take sizeClass pos)) fun ⟨j, f⟩ => ?_
      refine .bind_eq (tracks_setFree f) fun _ => ?_
      refine .bind_eq (tracks_allocateIn i m n) fun address => ?_
      exact .except_bind fun _ _ => .bind_eq (.note _ _) fun _ => .pure trivial

theorem tracks_allocateAt (address size : ℕ) : Tracks (moved · d) (fun _ _ => True)
    (allocateAt address size) (allocateAt (address + d) size) := by
  unfold allocateAt
  refine .get_bind fun a => .bind_eq (.same (a.bank.grant size)) fun o => ?_
  cases o with
  | none => exact .pure trivial
  | some n =>
    refine .bind_eq (.lift fun _ _ => Bank.locate_agrees) fun o => ?_
    cases o with
    | none => exact .pure trivial
    | some found =>
      obtain ⟨k, i⟩ := found
      refine .bind_eq (tracks_unfile k.index) fun _ => ?_
      refine .bind_eq (.same_except (Address.sub i k.address)) fun m => ?_
      refine .bind_eq (tracks_allocateIn k.index m n) fun x => ?_
      exact .bind_eq (.note _ _) fun _ => .except_bind fun _ _ => .pure trivial

theorem tracks_deallocate (address : ℕ) :
    Tracks (moved · d) Eq (deallocate address) (deallocate (address + d)) := by
  unfold deallocate
  refine .get_bind fun a => ?_
  have hrel : (a.moved d).bank.geometry.toRelative? (address + d) =
      a.bank.geometry.toRelative? address := a.bank.geometry.toRelative?_moved address
  rw [hrel]
  cases a.bank.geometry.toRelative? address with
  | none => exact .refuse _ _
  | some i => exact .bind_eq (tracks_release i) fun _ => .note _ _

theorem tracks_shrink (amount : ℕ) (direction : Direction) :
    Tracks (moved · d) Eq (shrink amount direction) (shrink amount direction) := by
  unfold shrink
  refine .ite (.pure rfl) (.get_bind fun a => ?_)
  refine .bind_eq (.lift fun _ _ => Bank.shrinkTarget_moved) fun i => ?_
  refine .bind_eq (tracks_unfile i) fun _ => ?_
  refine .bind_eq (.same_except (a.bank.table.truncateFront i amount)) fun ⟨o, t⟩ => ?_
  refine .bind_eq (tracks_setTable t) fun _ => ?_
  refine .bind_eq (tracks_fileAll o.toList) fun _ => ?_
  refine .bind_map (.lift_map (Bank.holdBack_moved { a.bank with table := t } amount)) fun b => ?_
  exact .bind_eq (tracks_setBank b) fun _ => .note _ _

theorem tracks_restore : Tracks (moved · d) Eq restore restore := by
  unfold restore
  refine .get_bind fun a => .ite (.pure rfl) ?_
  refine .bind_eq (.same_except (a.bank.table.pushFront 0 a.bank.shrunk true)) fun ⟨i, t⟩ => ?_
  refine .bind_eq (tracks_setTable t) fun _ => ?_
  refine .bind_eq (.same_except (a.live.insert 0 i)) fun l => ?_
  refine .bind_eq (tracks_setLive l) fun _ => ?_
  refine .bind_map (.lift_map (Bank.giveBack_moved { a.bank with table := t })) fun b => ?_
  refine .bind_eq (tracks_setBank b) fun _ => ?_
  exact .bind_eq (tracks_release 0) fun _ => .note _ _

/-- **The states of indexed allocators remain alike.** -/
theorem tracks_perform (r : Request) :
    Tracks (moved · d) (fun _ _ => True) (perform r) (perform (r.moved d)) := by
  cases r with
  | allocate size p => exact (tracks_allocate size p).bind fun _ _ _ => .pure trivial
  | allocateAt address size =>
    exact (tracks_allocateAt address size).bind fun _ _ _ => .pure trivial
  | deallocate address => exact (tracks_deallocate address).bind_eq fun _ => .pure trivial
  | clear => exact tracks_clear.bind_eq fun _ => .pure trivial
  | shrink amount direction =>
    exact (tracks_shrink amount direction).bind_eq fun _ => .pure trivial
  | restore => exact tracks_restore.bind_eq fun _ => .pure trivial

end Indexed

end MemoryBank
