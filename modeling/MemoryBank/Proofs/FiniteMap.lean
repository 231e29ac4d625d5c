import MemoryBank.Proofs.Recorded
import Mathlib.Data.Finset.Card

/-!
# The index is a finite map

Callers ask an index for one thing after another: `LiveIndex.run` collects what they ask and what
they are told. By `LiveIndex.run_isMapOf` the answers are those of a finite map from addresses to
handles: what an address maps to is what was last recorded for it and not forgotten since
(`LiveIndex.Standing`), no matter which addresses share a bucket.

The invariant of a run is `LiveIndex.Reflects`: the entries are what stands in the log. One request
keeps it (`Reflects.perform`), and so a run does (`Reflects.run`).
-/

namespace MemoryBank.LiveIndex

/-- What callers ask of an index. -/
inductive Request
  | insert (address : ℕ) (i : Handle)
  | remove (address : ℕ)
  | get (address : ℕ)
  | contains (address : ℕ)
  | clear
  deriving DecidableEq

/-- What callers are told. -/
inductive Reply
  | done
  | handle (i : Option Handle)
  | flag (b : Bool)
  deriving DecidableEq

/-- What was asked and what was answered, the earliest first. -/
abbrev Log := List (Request × Except Failure Reply)

/-- The answer to a request, and what it makes of the index. An insertion that fails leaves the
index alone. -/
def perform (l : LiveIndex) : Request → Except Failure Reply × LiveIndex
  | .insert address i =>
    match l.insert address i with
    | .ok l' => (.ok .done, l')
    | .error e => (.error e, l)
  | .remove address =>
    match l.remove? address with
    | some (i, l') => (.ok (.handle (some i)), l')
    | none => (.ok (.handle none), l)
  | .get address => (.ok (.handle (l.get? address)), l)
  | .contains address => (.ok (.flag (l.contains address)), l)
  | .clear => (.ok .done, l.clear)

/-- A run: the log of all answers, and the index in the end. -/
def run : List Request → LiveIndex → Log × LiveIndex
  | [], l => ([], l)
  | r :: rs, l =>
    let (reply, l₁) := l.perform r
    let (log, l₂) := run rs l₁
    ((r, reply) :: log, l₂)

/-! ## What is present -/

/-- An address is recorded or it is not. -/
theorem mem_or_absent (es : List (ℕ × Handle)) (address : ℕ) :
    (∃ i, (address, i) ∈ es) ∨ ∀ e ∈ es, e.1 ≠ address := by
  by_cases h : ∃ i, (address, i) ∈ es
  · exact .inl h
  · refine .inr fun e he hk => h ⟨e.2, ?_⟩
    rwa [← hk]

namespace Records

variable {l : LiveIndex} {es : List (ℕ × Handle)} {address : ℕ} {i : Handle}

theorem contains_iff (h : l.Records es) :
    l.contains address = true ↔ ∃ i, (address, i) ∈ es := by
  rw [LiveIndex.contains, Option.isSome_iff_exists]
  exact exists_congr fun i => h.get?_eq_some_iff

theorem contains_eq_false_iff (h : l.Records es) :
    l.contains address = false ↔ ∀ e ∈ es, e.1 ≠ address := by
  rw [← Bool.not_eq_true, h.contains_iff]
  constructor
  · rintro hn ⟨_, i⟩ he rfl
    exact hn ⟨i, he⟩
  · rintro ha ⟨i, hi⟩
    exact ha _ hi rfl

theorem get?_eq_none_iff (h : l.Records es) :
    l.get? address = none ↔ ∀ e ∈ es, e.1 ≠ address := by
  rw [← h.contains_eq_false_iff, LiveIndex.contains, Option.isSome_eq_false_iff,
    Option.isNone_iff_eq_none]

theorem insert_eq_error_iff (h : l.Records es) :
    l.insert address i = .error (.breach (.addressTaken address)) ↔
      l.contains address = true := by
  rw [h.contains_iff]
  constructor
  · intro he
    refine (mem_or_absent es address).resolve_right fun ha => ?_
    obtain ⟨l', hl', -⟩ := h.insert ha i
    simp [hl'] at he
  · exact fun ⟨_, hj⟩ => h.insert_eq_error hj i

theorem insert_eq_ok_iff (h : l.Records es) :
    (∃ l', l.insert address i = .ok l') ↔ l.contains address = false := by
  rw [h.contains_eq_false_iff]
  constructor
  · rintro ⟨l', hl'⟩
    refine (mem_or_absent es address).resolve_left fun ⟨j, hj⟩ => ?_
    simp [h.insert_eq_error hj] at hl'
  · intro ha
    obtain ⟨l', hl', -⟩ := h.insert ha i
    exact ⟨l', hl'⟩

theorem perform_remove (h : l.Records es) (address : ℕ) :
    ∃ l', l.perform (.remove address) = (.ok (.handle (l.get? address)), l') ∧
      l'.get? address = none ∧ ∀ b ≠ address, l'.get? b = l.get? b := by
  rcases mem_or_absent es address with ⟨i, hi⟩ | ha
  · obtain ⟨l', hl', h'⟩ := h.remove? hi
    refine ⟨l', by simp [LiveIndex.perform, hl', h.get?_eq_some_iff.2 hi], ?_, fun b hb => ?_⟩
    · exact h'.get?_eq_none_iff.2 fun e he => ((h.mem_erase hi).1 he).1
    · refine Option.ext fun j => ?_
      rw [h'.get?_eq_some_iff, h.get?_eq_some_iff, h.mem_erase hi, and_iff_right hb]
  · have hn := h.get?_eq_none_iff.2 ha
    exact ⟨l, by simp [LiveIndex.perform, h.remove?_eq_none ha, hn], hn, fun _ _ => rfl⟩

theorem isEmpty_iff (h : l.Records es) :
    l.isEmpty = true ↔ ∀ address, l.contains address = false := by
  simp only [isEmpty, h.length, List.length_eq_zero_iff, decide_eq_true_eq,
    h.contains_eq_false_iff]
  constructor
  · rintro rfl address e he
    simp at he
  · exact fun ha => List.eq_nil_iff_forall_not_mem.2 fun e he => ha e.1 e he rfl

end Records

/-! ## What stands in a log -/

/-- The address was forgotten, alone or with all others, or something was recorded for it. -/
def Overrides (address : ℕ) (e : Request × Except Failure Reply) : Prop :=
  e.1 = .remove address ∨ e.1 = .clear ∨ ∃ i, e = (.insert address i, .ok .done)

/-- The handle was the last to be recorded for the address, and neither the address nor everything
was forgotten since. -/
def Standing (log : Log) (address : ℕ) (i : Handle) : Prop :=
  ∃ before after, log = before ++ (.insert address i, .ok .done) :: after ∧
    ∀ e ∈ after, ¬Overrides address e

section Standing

variable {log : Log} {r : Request} {reply : Except Failure Reply} {address b : ℕ} {i j : Handle}

theorem not_standing_nil : ¬Standing [] address i := by
  rintro ⟨before, after, h, -⟩
  simp at h

theorem standing_concat {e : Request × Except Failure Reply} :
    Standing (log ++ [e]) address i ↔
      e = (.insert address i, .ok .done) ∨ Standing log address i ∧ ¬Overrides address e := by
  constructor
  · rintro ⟨before, after, h, ha⟩
    rcases List.eq_nil_or_concat after with rfl | ⟨init, last, rfl⟩
    · exact .inl (by simpa using (List.append_inj' h rfl).2)
    · rw [List.concat_eq_append] at h ha
      rw [← List.cons_append, ← List.append_assoc] at h
      obtain ⟨hlog, hlast⟩ := List.append_inj' h rfl
      obtain rfl : e = last := by simpa using hlast
      exact .inr ⟨⟨before, init, hlog, fun e he => ha e (List.mem_append_left _ he)⟩,
        ha e (by simp)⟩
  · rintro (rfl | ⟨⟨before, after, rfl, ha⟩, he⟩)
    · exact ⟨log, [], rfl, by simp⟩
    · refine ⟨before, after ++ [e], by simp, fun e' he' => ?_⟩
      rcases List.mem_append.1 he' with he' | he'
      · exact ha e' he'
      · exact List.mem_singleton.1 he' ▸ he

@[simp] theorem standing_insert_ok : Standing (log ++ [(.insert b j, .ok .done)]) address i ↔
    b = address ∧ j = i ∨ Standing log address i ∧ b ≠ address := by
  simp [standing_concat, Overrides]

@[simp] theorem standing_insert_error {e : Failure} :
    Standing (log ++ [(.insert b j, .error e)]) address i ↔ Standing log address i := by
  simp [standing_concat, Overrides]

@[simp] theorem standing_remove : Standing (log ++ [(.remove b, reply)]) address i ↔
    Standing log address i ∧ b ≠ address := by
  simp [standing_concat, Overrides]

@[simp] theorem standing_get :
    Standing (log ++ [(.get b, reply)]) address i ↔ Standing log address i := by
  simp [standing_concat, Overrides]

@[simp] theorem standing_contains :
    Standing (log ++ [(.contains b, reply)]) address i ↔ Standing log address i := by
  simp [standing_concat, Overrides]

@[simp] theorem not_standing_clear : ¬Standing (log ++ [(.clear, reply)]) address i := by
  simp [standing_concat, Overrides]

end Standing

/-! ## Runs -/

/-- The entries of the index are what stands in the log. -/
def Reflects (l : LiveIndex) (log : Log) : Prop :=
  ∃ es, l.Records es ∧ ∀ address i, (address, i) ∈ es ↔ Standing log address i

namespace Reflects

variable {l : LiveIndex} {log : Log}

theorem start : empty.Reflects [] :=
  ⟨[], records_empty, fun _ _ => iff_of_false (List.not_mem_nil) not_standing_nil⟩

/-- **One request.** -/
theorem perform (h : l.Reflects log) (r : Request) :
    (l.perform r).2.Reflects (log ++ [(r, (l.perform r).1)]) := by
  obtain ⟨es, hr, hes⟩ := h
  cases r with
  | insert a i =>
    rcases mem_or_absent es a with ⟨j, hj⟩ | ha
    · simp only [LiveIndex.perform, hr.insert_eq_error hj]
      exact ⟨es, hr, fun b k => by rw [standing_insert_error, hes]⟩
    · obtain ⟨l', hl', hr'⟩ := hr.insert ha i
      simp only [LiveIndex.perform, hl']
      refine ⟨_, hr', fun b k => ?_⟩
      have hb : (b, k) ∈ es → a ≠ b := fun hm => Ne.symm (ha _ hm)
      rw [standing_insert_ok, ← hes, List.mem_cons, Prod.mk.injEq, eq_comm, @eq_comm _ k,
        and_iff_left_of_imp hb]
  | remove a =>
    rcases mem_or_absent es a with ⟨j, hj⟩ | ha
    · obtain ⟨l', hl', hr'⟩ := hr.remove? hj
      simp only [LiveIndex.perform, hl']
      exact ⟨_, hr', fun b k => by rw [standing_remove, ← hes, hr.mem_erase hj, and_comm, ne_comm]⟩
    · simp only [LiveIndex.perform, hr.remove?_eq_none ha]
      refine ⟨es, hr, fun b k => ?_⟩
      rw [standing_remove, ← hes, and_iff_left_of_imp fun hm => Ne.symm (ha _ hm)]
  | get a => exact ⟨es, hr, fun b j => by rw [LiveIndex.perform, standing_get, hes]⟩
  | contains a => exact ⟨es, hr, fun b j => by rw [LiveIndex.perform, standing_contains, hes]⟩
  | clear =>
    refine ⟨[], ?_, fun b j => iff_of_false List.not_mem_nil not_standing_clear⟩
    rw [LiveIndex.perform, clear_eq_empty]
    exact records_empty

/-- **A run.** -/
theorem run (h : l.Reflects log) (rs : List Request) :
    (run rs l).2.Reflects (log ++ (run rs l).1) := by
  induction rs generalizing l log with
  | nil => rwa [LiveIndex.run, List.append_nil]
  | cons r rs ih => simpa [LiveIndex.run] using ih (h.perform r)

end Reflects

/-! ## The map -/

/-- Whatever is asked next, the index answers as the finite map that the log tells of. -/
structure IsMapOf (l : LiveIndex) (log : Log) : Prop where
  get : ∀ address i, l.get? address = some i ↔ Standing log address i
  contains : ∀ address, l.contains address = true ↔ ∃ i, Standing log address i
  /-- Recording fails just for an address that is present. -/
  insert_fails : ∀ address i,
    l.insert address i = .error (.breach (.addressTaken address)) ↔ l.contains address = true
  insert_succeeds : ∀ address i,
    (∃ l', l.insert address i = .ok l') ↔ l.contains address = false
  /-- Forgetting answers what the address mapped to, and leaves all other addresses alone. -/
  remove : ∀ address, ∃ l', l.perform (.remove address) = (.ok (.handle (l.get? address)), l') ∧
    l'.get? address = none ∧ ∀ b ≠ address, l'.get? b = l.get? b
  /-- The length is the number of addresses that are present. -/
  length : ∃ present : Finset ℕ,
    (∀ address, address ∈ present ↔ l.contains address = true) ∧ l.length = present.card
  isEmpty : l.isEmpty = true ↔ ∀ address, l.contains address = false
  home_lt : ∀ address, (home address : ℕ) < bucketCount

theorem Reflects.isMapOf {l : LiveIndex} {log : Log} (h : l.Reflects log) : l.IsMapOf log := by
  obtain ⟨es, hr, hes⟩ := h
  exact {
    get := fun a i => hr.get?_eq_some_iff.trans (hes a i)
    contains := fun a => hr.contains_iff.trans (exists_congr (hes a))
    insert_fails := fun a i => hr.insert_eq_error_iff
    insert_succeeds := fun a i => hr.insert_eq_ok_iff
    remove := hr.perform_remove
    length := by
      refine ⟨(es.map (·.1)).toFinset, fun a => ?_, ?_⟩
      · rw [List.mem_toFinset, hr.contains_iff, List.mem_map]
        exact ⟨fun ⟨e, he, hk⟩ => ⟨e.2, hk ▸ he⟩, fun ⟨i, hi⟩ => ⟨_, hi, rfl⟩⟩
      · rw [hr.length, List.toFinset_card_of_nodup hr.keys, List.length_map]
    isEmpty := hr.isEmpty_iff
    home_lt := fun a => (home a).isLt }

/-- **The index is a finite map.** -/
theorem run_isMapOf (rs : List Request) : (run rs empty).2.IsMapOf (run rs empty).1 :=
  (Reflects.start.run rs).isMapOf

end MemoryBank.LiveIndex
