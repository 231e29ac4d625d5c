import MemoryBank.Proofs.Filing

/-!
# Size classes as a best-fit store

Callers file handles under sizes, withdraw them, take them out of a bucket and clear the index.
`FreeIndex.Log` has what they ask and what they are told. It tells what is still filed and in which
order it was filed (`FreeIndex.filed`), without any mention of classes.

By `FreeIndex.Reached.isStoreOf` the index shows no more and no less than that: the buckets are that
order split by class, and the search finds the smallest size that is large enough, and of equal
sizes the one that was filed first.

The invariant of a run is `FreeIndex.Shows`. One request keeps it (`Shows.perform`), because what
the log tells after one more entry is told by `filed_concat`.
-/

namespace MemoryBank.FreeIndex

/-- What callers ask of an index. -/
inductive Request
  | file (i : Handle) (size : ℕ)
  | withdraw (i : Handle) (size : ℕ)
  | take (sizeClass pos : ℕ)
  | clear
  deriving DecidableEq

/-- What callers are told. -/
inductive Reply
  | done
  | flag (b : Bool)
  | handle (i : Handle)
  deriving DecidableEq

/-- What was asked and what was answered, the earliest first. -/
abbrev Log := List (Request × Reply)

/-- The answer to a request, and what it makes of the index. -/
def perform (f : FreeIndex) : Request → Except Failure (Reply × FreeIndex)
  | .file i size => do
    let f' ← (f.file i size).result
    return (.done, f')
  | .withdraw i size =>
    match f.withdraw? i size with
    | some f' => return (.flag true, f')
    | none => return (.flag false, f)
  | .take sizeClass pos => do
    let (i, f') ← f.take sizeClass pos
    return (.handle i, f')
  | .clear => return (.done, f.clear)

/-- A handle is filed when it is not filed already, and taken from a position that there is. -/
def Legal (f : FreeIndex) : Request → Prop
  | .file i _ => ∀ e ∈ f.entries, e.2 ≠ i
  | .take sizeClass pos => ∃ b ∈ f.buckets[sizeClass]?, pos < b.length
  | .withdraw _ _ | .clear => True

instance (f : FreeIndex) : DecidablePred f.Legal
  | .file i _ => inferInstanceAs (Decidable (∀ e ∈ f.entries, e.2 ≠ i))
  | .take sizeClass pos => inferInstanceAs (Decidable (∃ b ∈ f.buckets[sizeClass]?, pos < b.length))
  | .withdraw _ _ | .clear => .isTrue trivial

/-- Where legal requests lead from an empty index, and what was asked and answered on the way. -/
inductive Reached (classes : SizeClasses) : Log → FreeIndex → Prop
  | start : Reached classes [] (empty classes)
  | step {log : Log} {f f' : FreeIndex} {r : Request} {reply : Reply}
      (h : Reached classes log f) (hl : f.Legal r) (hp : f.perform r = .ok (reply, f')) :
      Reached classes (log ++ [(r, reply)]) f'

/-! ## What the log tells -/

/-- The handle was withdrawn or taken, or everything was cleared. -/
def removes (i : Handle) : Request × Reply → Bool
  | (.withdraw j _, .flag true) => j = i
  | (.take _ _, .handle j) => j = i
  | (.clear, _) => true
  | _ => false

/-- What was filed and not removed since, with its size, in the order of filing. -/
def filed : Log → List (Handle × ℕ)
  | [] => []
  | (.file i size, _) :: later =>
    if later.any (removes i) then filed later else (i, size) :: filed later
  | (.withdraw _ _, _) :: later | (.take _ _, _) :: later | (.clear, _) :: later => filed later

/-- The size is the one under which the handle was last filed. -/
def LastFiled (log : Log) (i : Handle) (size : ℕ) : Prop :=
  ∃ before reply later, log = before ++ (.file i size, reply) :: later ∧
    ∀ e ∈ later, ∀ s, e.1 ≠ .file i s

/-- The handle is filed, and the size has the class of the one under which it was filed. -/
def Withdrawable (classes : SizeClasses) (log : Log) (i : Handle) (size : ℕ) : Prop :=
  ∃ s, (i, s) ∈ filed log ∧ LastFiled log i s ∧ classes.classOf size = classes.classOf s

variable {classes : SizeClasses} {log : Log} {f f' : FreeIndex} {r : Request} {reply : Reply}
  {i : Handle} {size n : ℕ}

theorem filed_concat (log : Log) (e : Request × Reply) :
    filed (log ++ [e]) = (filed log).filter (!removes ·.1 e) ++ filed [e] := by
  induction log with
  | nil => rfl
  | cons e₀ log ih =>
    obtain ⟨r₀, reply₀⟩ := e₀
    cases r₀ with
    | file i size =>
      by_cases hlater : log.any (removes i)
      · simp [filed, ih, hlater]
      · by_cases he : removes i e <;> simp [filed, ih, hlater, he]
    | withdraw | take | clear => exact ih

@[simp] theorem filed_file : filed (log ++ [(.file i size, reply)]) = filed log ++ [(i, size)] := by
  simp [filed_concat, filed, removes]

@[simp] theorem filed_withdraw_true :
    filed (log ++ [(.withdraw i size, .flag true)]) = (filed log).filter (·.1 ≠ i) := by
  simp [filed_concat, filed, removes, eq_comm]

@[simp] theorem filed_withdraw_false :
    filed (log ++ [(.withdraw i size, .flag false)]) = filed log := by
  simp [filed_concat, filed, removes]

@[simp] theorem filed_take {sizeClass pos : ℕ} :
    filed (log ++ [(.take sizeClass pos, .handle i)]) = (filed log).filter (·.1 ≠ i) := by
  simp [filed_concat, filed, removes, eq_comm]

@[simp] theorem filed_clear : filed (log ++ [(.clear, reply)]) = [] := by
  simp [filed_concat, filed, removes]

theorem LastFiled.concat (h : LastFiled log i size) (hr : ∀ s, r ≠ .file i s) :
    LastFiled (log ++ [(r, reply)]) i size := by
  obtain ⟨before, reply₀, later, rfl, hlater⟩ := h
  refine ⟨before, reply₀, later ++ [(r, reply)], by simp, fun e he => ?_⟩
  rcases List.mem_append.1 he with he | he
  · exact hlater e he
  · exact List.mem_singleton.1 he ▸ hr

theorem lastFiled_file : LastFiled (log ++ [(.file i size, reply)]) i size :=
  ⟨log, reply, [], rfl, by simp⟩

/-! ## Removing one handle -/

/-- One handle is gone from all buckets, and what is left is in the same order. -/
structure Loses (f : FreeIndex) (i : Handle) (f' : FreeIndex) : Prop where
  classes : f'.classes = f.classes
  buckets : f'.buckets = f.buckets.map (·.filter (· ≠ i))

/-- Handles are filed once, so erasing an entry drops all that has its handle. -/
theorem erase_eq_filter {es : List (Handle × ℕ)} {e : Handle × ℕ} (hn : (es.map (·.1)).Nodup)
    (he : e ∈ es) : es.erase e = es.filter (·.1 ≠ e.1) := by
  rw [(List.Nodup.of_map _ hn).erase_eq_filter]
  refine List.filter_congr fun a ha => ?_
  have hinj : a.1 = e.1 ↔ a = e :=
    ⟨fun h => List.inj_on_of_nodup_map hn ha he h, congrArg Prod.fst⟩
  rw [Bool.eq_iff_iff, bne_iff_ne, decide_eq_true_iff]
  exact not_congr hinj.symm

theorem ofEntries_loses (classes : SizeClasses) (es : List (Handle × ℕ)) (i : Handle) :
    (ofEntries classes es).Loses i (ofEntries classes (es.filter (·.1 ≠ i))) where
  classes := rfl
  buckets := by
    rw [ofEntries, ofEntries, List.map_map]
    refine List.map_congr_left fun c _ => ?_
    rw [Function.comp_apply, bucketAt, bucketAt, List.filter_comm, List.filter_map]
    rfl

/-! ## Runs -/

/-- The index has what is still filed, in the order of filing. -/
structure Shows (f : FreeIndex) (classes : SizeClasses) (log : Log) : Prop where
  eq_ofEntries : f = ofEntries classes (filed log)
  once : ((filed log).map (·.1)).Nodup
  sizes : ∀ e ∈ filed log, LastFiled log e.1 e.2

namespace Shows

theorem start : (empty classes).Shows classes [] :=
  ⟨ofEntries_nil.symm, .nil, nofun⟩

theorem fresh (h : f.Shows classes log) (hl : f.Legal (.file i size)) :
    ∀ e ∈ filed log, e.1 ≠ i := fun e he => by
  obtain ⟨rfl, hn, -⟩ := h
  exact hl (classes.classOf e.2, e.1) ((entries_ofEntries hn).mem_iff.2 (List.mem_map_of_mem he))

/-- A position of a bucket has something that is still filed. -/
theorem of_bucket (h : f.Shows classes log) {c pos : ℕ} {b : List Handle}
    (hb : f.bucket c = .ok b) (hp : pos < b.length) :
    ∃ e ∈ filed log, classes.classOf e.2 = c ∧
      (bucketAt classes (filed log) c)[pos]? = some e.1 := by
  obtain ⟨rfl, -, -⟩ := h
  have hc : c < classes.count := by
    by_contra hc
    simp [bucket, ofEntries, hc] at hb
  obtain rfl := Except.ok.inj ((bucket_ofEntries hc).symm.trans hb)
  obtain ⟨e, he, hclass, hi⟩ := mem_bucketAt.1 (List.getElem_mem hp)
  exact ⟨e, he, hclass, by rw [hi, List.getElem?_eq_getElem hp]⟩

/-- Without one handle, the rest is still filed as it was. -/
theorem without (h : f.Shows classes log) (hr : ∀ j s, r ≠ .file j s)
    (hlog : filed (log ++ [(r, reply)]) = (filed log).filter (·.1 ≠ i)) :
    (ofEntries classes ((filed log).filter (·.1 ≠ i))).Shows classes (log ++ [(r, reply)]) where
  eq_ofEntries := by rw [hlog]
  once := by
    rw [hlog]
    exact h.once.sublist (List.filter_sublist.map _)
  sizes e he := by
    rw [hlog] at he
    exact (h.sizes e (List.mem_of_mem_filter he)).concat (hr e.1)

theorem withdraw (h : f.Shows classes log) (i : Handle) (size : ℕ) :
    Withdrawable classes log i size ∧
      f.withdraw? i size = some (ofEntries classes ((filed log).filter (·.1 ≠ i))) ∨
    ¬Withdrawable classes log i size ∧ f.withdraw? i size = none := by
  obtain ⟨rfl, hn, hsizes⟩ := h
  by_cases hs : Withdrawable classes log i size
  · refine .inl ⟨hs, ?_⟩
    obtain ⟨s, hmem, -, hc⟩ := hs
    rw [withdraw?_ofEntries hn hmem hc, erase_eq_filter hn hmem]
  · refine .inr ⟨hs, withdraw?_ofEntries_eq_none ?_⟩
    rintro ⟨_, s⟩ hmem rfl hc
    exact hs ⟨s, hmem, hsizes _ hmem, hc⟩

theorem loses (h : f.Shows classes log) (i : Handle) :
    f.Loses i (ofEntries classes ((filed log).filter (·.1 ≠ i))) := by
  have hloses := ofEntries_loses classes (filed log) i
  rwa [← h.eq_ofEntries] at hloses

theorem take (h : f.Shows classes log) {c pos : ℕ} {b : List Handle}
    (hb : f.bucket c = .ok b) (hp : pos < b.length) :
    f.take c pos = .ok (b[pos], ofEntries classes ((filed log).filter (·.1 ≠ b[pos]))) := by
  obtain ⟨e, he, rfl, hpos⟩ := h.of_bucket hb hp
  obtain ⟨rfl, hn, -⟩ := h
  obtain rfl := Except.ok.inj ((bucket_ofEntries (classes.classOf_lt _)).symm.trans hb)
  have hget : (bucketAt classes (filed log) (classes.classOf e.2))[pos] = e.1 :=
    (List.getElem?_eq_some_iff.1 hpos).2
  rw [take_ofEntries hn he hpos, erase_eq_filter hn he, hget]

/-- **One request.** -/
theorem perform (h : f.Shows classes log) (hl : f.Legal r) :
    ∃ reply f', f.perform r = .ok (reply, f') ∧ f'.Shows classes (log ++ [(r, reply)]) := by
  cases r with
  | file i size =>
    have hfresh := h.fresh hl
    obtain ⟨rfl, hn, hsizes⟩ := h
    refine ⟨.done, _, by rw [FreeIndex.perform, file_ofEntries]; rfl, by rw [filed_file], ?_, ?_⟩
    · rw [filed_file, List.map_append, List.nodup_append]
      exact ⟨hn, by simp, by simpa using hfresh⟩
    · intro e he
      rw [filed_file, List.mem_append, List.mem_singleton] at he
      rcases he with he | rfl
      · exact (hsizes e he).concat fun s hs => hfresh e he (Request.file.inj hs).1.symm
      · exact lastFiled_file
  | withdraw i size =>
    rcases h.withdraw i size with ⟨-, hw⟩ | ⟨-, hw⟩
    · exact ⟨.flag true, _, by rw [FreeIndex.perform, hw]; rfl,
        h.without (by simp) filed_withdraw_true⟩
    · refine ⟨.flag false, f, by rw [FreeIndex.perform, hw]; rfl, ?_⟩
      refine ⟨by rw [filed_withdraw_false, ← h.eq_ofEntries], by simpa using h.once, ?_⟩
      rw [filed_withdraw_false]
      exact fun e he => (h.sizes e he).concat (by simp)
  | take c pos =>
    obtain ⟨b, hmem, hp⟩ := hl
    have hb : f.bucket c = .ok b := by rw [bucket, Option.mem_def.1 hmem]
    exact ⟨.handle b[pos], _, by rw [FreeIndex.perform, h.take hb hp]; rfl,
      h.without (by simp) filed_take⟩
  | clear =>
    refine ⟨.done, f.clear, rfl, ?_, by simp, by simp⟩
    rw [filed_clear, ofEntries_nil, FreeIndex.clear, h.eq_ofEntries, classes_ofEntries]

end Shows

/-- **A run.** -/
theorem Reached.shows (h : Reached classes log f) : f.Shows classes log := by
  induction h with
  | start => exact .start
  | step _ hl hp ih =>
    obtain ⟨reply, f', hp', h'⟩ := ih.perform hl
    obtain ⟨rfl, rfl⟩ := Prod.mk.inj (Except.ok.inj (hp'.symm.trans hp))
    exact h'

/-! ## The store -/

/-- What a search for `n` bytes finds: the place of the best fit of all that is filed, or nothing if
nothing fits. -/
structure Found (f : FreeIndex) (classes : SizeClasses) (log : Log) (n : ℕ)
    (found : Option (ℕ × ℕ)) : Prop where
  none_iff : found = none ↔ ∀ e ∈ filed log, e.2 < n
  best : ∀ c pos, found = some (c, pos) → ∃ e, BestFit n (filed log) e ∧
    classes.classOf e.2 = c ∧ f.entry c pos = .ok e.1

/-- The index is the store that the log tells of. -/
structure IsStoreOf (f : FreeIndex) (classes : SizeClasses) (log : Log) : Prop where
  serves : ∀ r, f.Legal r → ∃ reply f', f.perform r = .ok (reply, f')
  /-- No handle is filed twice. -/
  once : ((filed log).map (·.1)).Nodup
  /-- Each bucket lists what is filed in its class, in the order of filing. -/
  bucket : ∀ c < classes.count,
    f.bucket c = .ok (((filed log).filter (classes.classOf ·.2 = c)).map (·.1))
  /-- A handle is withdrawn under a size of its class, and nothing else is. -/
  withdraw : ∀ i size, ∃ b f', f.perform (.withdraw i size) = .ok (.flag b, f') ∧
    (b = true ↔ Withdrawable classes log i size) ∧
    (b = true → f.Loses i f') ∧ (b = false → f' = f)
  take : ∀ c pos b, f.bucket c = .ok b → ∀ h : pos < b.length,
    ∃ f', f.perform (.take c pos) = .ok (.handle b[pos], f') ∧ f.Loses b[pos] f'
  finds : ∀ n (sizeOf : Handle → Except Failure ℕ),
    (∀ i s, LastFiled log i s → sizeOf i = .ok s) →
    ∃ found, f.findFit n sizeOf = .ok found ∧ f.Found classes log n found

theorem Shows.finds (h : f.Shows classes log) (n : ℕ) {sizeOf : Handle → Except Failure ℕ}
    (hs : ∀ i s, LastFiled log i s → sizeOf i = .ok s) :
    ∃ found, f.findFit n sizeOf = .ok found ∧ f.Found classes log n found := by
  have hsizes : ∀ e ∈ filed log, sizeOf e.1 = .ok e.2 := fun e he => hs _ _ (h.sizes e he)
  obtain ⟨rfl, -, -⟩ := h
  rcases findFit_ofEntries classes hsizes n with ⟨e, pos, hbest, hpos, hfind⟩ | ⟨hno, hfind⟩
  · refine ⟨_, hfind, iff_of_false nofun fun hall => ?_, ?_⟩
    · have := hall e hbest.mem
      have := hbest.fits
      omega
    · rintro _ _ ⟨⟩
      exact ⟨e, hbest, rfl, entry_ofEntries (classes.classOf_lt _) hpos⟩
  · exact ⟨none, hfind, iff_of_true rfl hno, nofun⟩

/-- **Size classes are a first-in best-fit store**, whatever the base and the number of classes
are. -/
theorem Reached.isStoreOf (h : Reached classes log f) : f.IsStoreOf classes log where
  serves r hl := by
    obtain ⟨reply, f', hp, -⟩ := h.shows.perform hl
    exact ⟨reply, f', hp⟩
  once := h.shows.once
  bucket c hc := by
    rw [h.shows.eq_ofEntries, bucket_ofEntries hc]
    rfl
  withdraw i size := by
    rcases h.shows.withdraw i size with ⟨hs, hw⟩ | ⟨hs, hw⟩
    · exact ⟨true, _, by rw [FreeIndex.perform, hw]; rfl, iff_of_true rfl hs,
        fun _ => h.shows.loses i, nofun⟩
    · exact ⟨false, f, by rw [FreeIndex.perform, hw]; rfl, iff_of_false Bool.false_ne_true hs,
        nofun, fun _ => rfl⟩
  take c pos b hb hp :=
    ⟨_, by rw [FreeIndex.perform, h.shows.take hb hp]; rfl, h.shows.loses b[pos]⟩
  finds n _ hs := h.shows.finds n hs

/-- Of two blocks of one size the earlier is found, after others were withdrawn and taken. -/
theorem isStoreOf_after_withdrawal :
    ∃ log f, Reached ⟨10, 3, by decide, by decide, by decide⟩ log f ∧
      f.IsStoreOf ⟨10, 3, by decide, by decide, by decide⟩ log ∧
      filed log = [(1, 35), (2, 25), (4, 25)] ∧
      f.findFit 20 (fun i => .ok ([12, 35, 25, 70, 25].getD i 0)) = .ok (some (1, 1)) ∧
      f.entry 1 1 = .ok 2 := by
  have h₀ : Reached ⟨10, 3, by decide, by decide, by decide⟩ [] (empty _) := .start
  have h₁ := h₀.step (r := .file 0 12) (by decide) rfl
  have h₂ := h₁.step (r := .file 1 35) (by decide) rfl
  have h₃ := h₂.step (r := .file 2 25) (by decide) rfl
  have h₄ := h₃.step (r := .file 3 70) (by decide) rfl
  have h₅ := h₄.step (r := .file 4 25) (by decide) rfl
  have h₆ := h₅.step (r := .withdraw 0 19) (by decide) rfl
  have h₇ := h₆.step (r := .take 2 0) (by decide) rfl
  exact ⟨_, _, h₇, h₇.isStoreOf, rfl, rfl, rfl⟩

end MemoryBank.FreeIndex
