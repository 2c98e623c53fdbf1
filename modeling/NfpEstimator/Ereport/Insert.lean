import Mathlib

/-!
# Expected maps are inserted

`ereport_insert` fills the map of a program from an expected-map report: the offsets are divided into slots, a slot for
each key, of the value size rounded up to a power of two. Entries come in the order of their offsets, so that a key is
complete when the next one begins. Positions that a slot has beyond the value size are refused, but for the first of
them, and there a byte is written behind the buffer (`ereport_insert_iff`).
-/

namespace NfpEstimator

namespace Ereport

/-- `struct ereport_map`, when it has been parsed. -/
structure Entry where
  offset : ℕ
  value : ℕ
  deriving DecidableEq

/-- What is used of a `struct mapdef`. -/
structure Mapdef where
  keySize : ℕ
  valueSize : ℕ

/-- How `ereport_insert` ends. -/
inductive Status where
  | done
  /-- Not exactly one map, or its key does not have four bytes. -/
  | unexpectedMap
  /-- `beyond value size` -/
  | beyond (offset : ℕ)
  | divisionByZero
  deriving DecidableEq

/-- What `ereport_insert` does: which positions of `value` it writes, and what `bpf_map_insert` is called with. -/
structure Outcome where
  status : Status
  writes : List ℕ
  inserted : List (ℕ × List ℕ)
  deriving DecidableEq

/-- `__builtin_clzl`, of a positive word. -/
def clzl (x : ℕ) : ℕ := 63 - Nat.log2 x

/-- `NEXT_POW_OF_TWO`, of a word greater than one. -/
def nextPowOfTwo (x : ℕ) : ℕ := (1 <<< (1 + (63 - clzl (x - 1)))) % 2 ^ 64

/-- The next entry does not exist or belongs to another key. -/
def flushes (slot key : ℕ) : List Entry → Bool
  | [] => true
  | e :: _ => e.offset / slot != key

/-- The loop over the entries, with `value_size` as `slot` and the bytes in `value`. -/
def insertLoop (valueSize slot : ℕ) : List Entry → (ℕ → ℕ) → Outcome
  | [], _ => ⟨.done, [], []⟩
  | e :: es, value =>
    if slot = 0 then ⟨.divisionByZero, [], []⟩
    else
      let key := e.offset / slot
      let offset := e.offset % slot
      if offset > valueSize then ⟨.beyond e.offset, [], []⟩
      else
        let value := Function.update value offset e.value
        if flushes slot key es then
          let rest := insertLoop valueSize slot es fun p => if p < valueSize then 0 else value p
          ⟨rest.status, offset :: rest.writes, (key, (List.range valueSize).map value) :: rest.inserted⟩
        else
          let rest := insertLoop valueSize slot es value
          ⟨rest.status, offset :: rest.writes, rest.inserted⟩

/-- `ereport_insert`, with the entries from `ereport_map_parse`. It returns `NULL` if the input is empty. For any other
text without entries it returns the pointer that it has just freed; the maps are then checked although nothing is
inserted, which is left out here. -/
def ereportInsert (mapdefs : List Mapdef) (em : List Entry) : Outcome :=
  if em = [] then ⟨.done, [], []⟩
  else match mapdefs with
    | [m] =>
      if m.keySize ≠ 4 then ⟨.unexpectedMap, [], []⟩
      else insertLoop m.valueSize (nextPowOfTwo m.valueSize % 2 ^ 32) em fun _ => 0
    | _ => ⟨.unexpectedMap, [], []⟩

/-! ### What it is for -/

/-- The value size, rounded up to a power of two. -/
def slotSize (valueSize : ℕ) : ℕ := 2 ^ Nat.clog 2 valueSize

/-- The byte that is listed at an offset, and zero where there is none. -/
def byteAt (em : List Entry) (o : ℕ) : ℕ := ((em.find? fun e => e.offset == o).map Entry.value).getD 0

/-- Each key that has an entry is inserted once, with the bytes of its entries. -/
structure Inserted (slot valueSize : ℕ) (em : List Entry) (l : List (ℕ × List ℕ)) : Prop where
  once : (l.map Prod.fst).Nodup
  keys : ∀ k, k ∈ l.map Prod.fst ↔ ∃ e ∈ em, e.offset / slot = k
  bytes : ∀ kv ∈ l, kv.2 = (List.range valueSize).map fun p => byteAt em (kv.1 * slot + p)

/-- Nothing is written behind the buffer; an entry that lies behind it is refused, and all are inserted if there is
none. -/
structure Correct (slot valueSize : ℕ) (em : List Entry) (o : Outcome) : Prop where
  writes : ∀ p ∈ o.writes, p < valueSize
  refuses : (∃ e ∈ em, valueSize ≤ e.offset % slot) →
    ∃ e ∈ em, valueSize ≤ e.offset % slot ∧ o.status = .beyond e.offset
  inserts : (∀ e ∈ em, e.offset % slot < valueSize) → o.status = .done ∧ Inserted slot valueSize em o.inserted

section
variable {valueSize slot o k : ℕ} {es es' pend : List Entry} {e : Entry} {value : ℕ → ℕ}

/-! ### The slots -/

theorem clog_eq_log2 {x : ℕ} (h : 2 ≤ x) : Nat.clog 2 x = Nat.log2 (x - 1) + 1 := by
  have hne : x - 1 ≠ 0 := by omega
  refine le_antisymm ?_ ?_
  · rw [Nat.clog_le_iff_le_pow (by decide)]
    have hlt := Nat.lt_log2_self (n := x - 1)
    omega
  · rw [Nat.succ_le_iff, Nat.lt_clog_iff_pow_lt (by decide)]
    have hle := Nat.log2_self_le hne
    omega

/-- Up to half of the 32 bits the slots have the size that is meant, and above it is lost. -/
theorem nextPowOfTwo_eq (h : 2 ≤ valueSize) :
    nextPowOfTwo valueSize % 2 ^ 32 = if valueSize ≤ 2 ^ 31 then slotSize valueSize else 0 := by
  have hne : valueSize - 1 ≠ 0 := by omega
  rw [nextPowOfTwo, clzl, Nat.shiftLeft_eq, Nat.one_mul, Nat.mod_mod_of_dvd _ (Nat.pow_dvd_pow 2 (by decide))]
  split_ifs with hle
  · have hlog : Nat.log2 (valueSize - 1) < 31 := (Nat.log2_lt hne).mpr (by omega)
    rw [slotSize, clog_eq_log2 h,
      show 1 + (63 - (63 - Nat.log2 (valueSize - 1))) = Nat.log2 (valueSize - 1) + 1 by omega]
    exact Nat.mod_eq_of_lt (Nat.pow_lt_pow_right (by decide) (by omega))
  · have hlog : 31 ≤ Nat.log2 (valueSize - 1) := (Nat.le_log2 hne).mpr (by omega)
    exact Nat.mod_eq_zero_of_dvd (Nat.pow_dvd_pow 2 (by omega))

theorem slotSize_pos : 0 < slotSize valueSize := Nat.pow_pos (by decide)

theorem le_slotSize : valueSize ≤ slotSize valueSize := Nat.le_pow_clog (by decide) _

/-! ### What is listed -/

theorem find?_eq_none (h : ∀ e ∈ es, e.offset ≠ o) : es.find? (fun e => e.offset == o) = none :=
  List.find?_eq_none.mpr fun e he => by simpa using h e he

theorem byteAt_append_left (h : ∀ e ∈ es', e.offset ≠ o) : byteAt (es ++ es') o = byteAt es o := by
  rw [byteAt, List.find?_append, find?_eq_none h, Option.or_none, byteAt]

theorem byteAt_append_right (h : ∀ e ∈ es, e.offset ≠ o) : byteAt (es ++ es') o = byteAt es' o := by
  rw [byteAt, List.find?_append, find?_eq_none h, Option.none_or, byteAt]

theorem byteAt_singleton : byteAt [e] o = if e.offset = o then e.value else 0 := by
  by_cases h : e.offset = o <;> simp [byteAt, h]

/-- One more entry is listed. -/
theorem byteAt_snoc (h : ∀ e' ∈ pend, e'.offset ≠ e.offset) :
    byteAt (pend ++ [e]) o = if e.offset = o then e.value else byteAt pend o := by
  split_ifs with heq
  · rw [byteAt_append_right (fun e' he' => heq ▸ h e' he'), byteAt_singleton, if_pos heq]
  · exact byteAt_append_left fun e' he' => by rwa [List.mem_singleton.mp he']

/-! ### The loop -/

theorem insertLoop_cons (hslot : 0 < slot) (hle : e.offset % slot ≤ valueSize) :
    insertLoop valueSize slot (e :: es) value =
      let value := Function.update value (e.offset % slot) e.value
      let rest := insertLoop valueSize slot es
        (if flushes slot (e.offset / slot) es then fun p => if p < valueSize then 0 else value p else value)
      ⟨rest.status, e.offset % slot :: rest.writes,
        if flushes slot (e.offset / slot) es then
          (e.offset / slot, (List.range valueSize).map value) :: rest.inserted
        else rest.inserted⟩ := by
  rw [insertLoop, if_neg (Nat.ne_of_gt hslot)]
  dsimp only
  rw [if_neg (Nat.not_lt.mpr hle)]
  split_ifs <;> rfl

theorem insertLoop_beyond (hslot : 0 < slot) (hlt : valueSize < e.offset % slot) :
    insertLoop valueSize slot (e :: es) value = ⟨.beyond e.offset, [], []⟩ := by
  rw [insertLoop, if_neg (Nat.ne_of_gt hslot)]
  exact if_pos hlt

/-- Entries that lie in the value. -/
theorem insertLoop_done (value : ℕ → ℕ) (hslot : 0 < slot) (hes : ∀ e ∈ es, e.offset % slot < valueSize) :
    (insertLoop valueSize slot es value).status = .done ∧
      ∀ p ∈ (insertLoop valueSize slot es value).writes, p < valueSize := by
  induction es generalizing value with
  | nil => exact ⟨rfl, nofun⟩
  | cons e es ih =>
    obtain ⟨he, hes⟩ := List.forall_mem_cons.mp hes
    rw [insertLoop_cons hslot he.le]
    exact ⟨(ih _ hes).1, List.forall_mem_cons.mpr ⟨he, (ih _ hes).2⟩⟩

/-- The first entry that lies behind the value, and not right behind it. -/
theorem insertLoop_refuses (value : ℕ → ℕ) (es' : List Entry) (hslot : 0 < slot)
    (hes : ∀ e ∈ es, e.offset % slot < valueSize) (he : valueSize < e.offset % slot) :
    (insertLoop valueSize slot (es ++ e :: es') value).status = .beyond e.offset ∧
      ∀ p ∈ (insertLoop valueSize slot (es ++ e :: es') value).writes, p < valueSize := by
  induction es generalizing value with
  | nil =>
    rw [List.nil_append, insertLoop_beyond hslot he]
    exact ⟨rfl, nofun⟩
  | cons e₀ es ih =>
    obtain ⟨he₀, hes⟩ := List.forall_mem_cons.mp hes
    rw [List.cons_append, insertLoop_cons hslot he₀.le]
    exact ⟨(ih _ hes).1, List.forall_mem_cons.mpr ⟨he₀, (ih _ hes).2⟩⟩

/-- The first entry that lies behind the value, right behind it. -/
theorem insertLoop_writesBehind (hslot : 0 < slot) (hes : ∀ e ∈ es, e.offset % slot < valueSize)
    (he : e.offset % slot = valueSize) :
    valueSize ∈ (insertLoop valueSize slot (es ++ e :: es') value).writes := by
  induction es generalizing value with
  | nil =>
    rw [List.nil_append, insertLoop_cons hslot he.le]
    exact he ▸ List.mem_cons_self
  | cons e₀ es ih =>
    obtain ⟨he₀, hes⟩ := List.forall_mem_cons.mp hes
    rw [List.cons_append, insertLoop_cons hslot he₀.le]
    exact List.mem_cons_of_mem _ (ih hes)

/-! ### What is inserted -/

/-- In the order of the offsets. -/
def Increasing (es : List Entry) : Prop := es.Pairwise fun e e' => e.offset < e'.offset

/-- After a flush only greater keys are left. -/
theorem flushes_lt (hs : Increasing (e :: es)) (h : flushes slot (e.offset / slot) es = true) :
    ∀ e' ∈ es, e.offset / slot < e'.offset / slot := by
  obtain ⟨he, hes⟩ := List.pairwise_cons.mp hs
  cases es with
  | nil => nofun
  | cons e₁ es =>
    have hne : e₁.offset / slot ≠ e.offset / slot := by simpa [flushes] using h
    have hle : e.offset / slot ≤ e₁.offset / slot := Nat.div_le_div_right (he e₁ List.mem_cons_self).le
    have hfirst : e.offset / slot < e₁.offset / slot := lt_of_le_of_ne hle hne.symm
    refine List.forall_mem_cons.mpr ⟨hfirst, fun e' he' => lt_of_lt_of_le hfirst ?_⟩
    exact Nat.div_le_div_right ((List.pairwise_cons.mp hes).1 e' he').le

/-- Without one the next entry is one of the same key. -/
theorem exists_of_not_flushes (h : ¬ flushes slot k es = true) :
    ∃ e es', es = e :: es' ∧ e.offset / slot = k := by
  cases es with
  | nil => exact absurd rfl h
  | cons e es' => exact ⟨e, es', rfl, by simpa [flushes] using h⟩

/-- A key is complete. -/
theorem inserted_flush (hslot : 0 < slot) (hle : e.offset % slot ≤ valueSize)
    (h : flushes slot (e.offset / slot) es = true) :
    (insertLoop valueSize slot (e :: es) value).inserted =
      (e.offset / slot, (List.range valueSize).map (Function.update value (e.offset % slot) e.value)) ::
        (insertLoop valueSize slot es fun p =>
          if p < valueSize then 0 else Function.update value (e.offset % slot) e.value p).inserted := by
  rw [insertLoop_cons hslot hle]
  simp only [h, if_true]

theorem inserted_keep (hslot : 0 < slot) (hle : e.offset % slot ≤ valueSize)
    (h : ¬ flushes slot (e.offset / slot) es = true) :
    (insertLoop valueSize slot (e :: es) value).inserted =
      (insertLoop valueSize slot es (Function.update value (e.offset % slot) e.value)).inserted := by
  rw [insertLoop_cons hslot hle]
  simp only [h, if_false, Bool.false_eq_true]

theorem insertLoop_keys (value : ℕ → ℕ) (hslot : 0 < slot) (hes : ∀ e ∈ es, e.offset % slot < valueSize)
    (hs : Increasing es) :
    ((insertLoop valueSize slot es value).inserted.map Prod.fst).Nodup ∧
      ∀ k, k ∈ (insertLoop valueSize slot es value).inserted.map Prod.fst ↔ ∃ e ∈ es, e.offset / slot = k := by
  induction es generalizing value with
  | nil => simp [insertLoop]
  | cons e es ih =>
    obtain ⟨he, hes⟩ := List.forall_mem_cons.mp hes
    have hs' : Increasing es := (List.pairwise_cons.mp hs).2
    by_cases h : flushes slot (e.offset / slot) es = true
    · rw [inserted_flush hslot he.le h, List.map_cons]
      generalize (fun p => if p < valueSize then 0 else Function.update value (e.offset % slot) e.value p) = zeros
      obtain ⟨hnodup, hmem⟩ := ih zeros hes hs'
      refine ⟨List.nodup_cons.mpr ⟨fun hk => ?_, hnodup⟩, fun k => ?_⟩
      · obtain ⟨e', he', hkey⟩ := (hmem _).mp hk
        exact absurd hkey.symm (Nat.ne_of_lt (flushes_lt hs h e' he'))
      · rw [List.mem_cons, hmem]
        constructor
        · rintro (rfl | ⟨e', he', hk⟩)
          · exact ⟨e, List.mem_cons_self, rfl⟩
          · exact ⟨e', List.mem_cons_of_mem _ he', hk⟩
        · rintro ⟨e', he', rfl⟩
          rcases List.mem_cons.mp he' with rfl | he'
          · exact Or.inl rfl
          · exact Or.inr ⟨e', he', rfl⟩
    · obtain ⟨e₁, es₁, rfl, hkey⟩ := exists_of_not_flushes h
      rw [inserted_keep hslot he.le h]
      obtain ⟨hnodup, hmem⟩ := ih (Function.update value (e.offset % slot) e.value) hes hs'
      refine ⟨hnodup, fun k => ?_⟩
      rw [hmem]
      constructor
      · exact fun ⟨e', he', hk⟩ => ⟨e', List.mem_cons_of_mem _ he', hk⟩
      · rintro ⟨e', he', hk⟩
        rcases List.mem_cons.mp he' with rfl | he'
        · exact ⟨e₁, List.mem_cons_self, hkey.trans hk⟩
        · exact ⟨e', he', hk⟩

/-- The entries `pend`, of the same key as the next one, have been put into the value. -/
structure Pending (slot valueSize : ℕ) (pend : List Entry) (e : Entry) (es : List Entry) (value : ℕ → ℕ) : Prop where
  sorted : Increasing (pend ++ e :: es)
  key : ∀ e' ∈ pend, e'.offset / slot = e.offset / slot
  value : ∀ p < valueSize, value p = byteAt pend (e.offset / slot * slot + p)

/-- So has the next one. -/
theorem Pending.update (h : Pending slot valueSize pend e es value) :
    ∀ p < valueSize, Function.update value (e.offset % slot) e.value p =
      byteAt (pend ++ [e]) (e.offset / slot * slot + p) := by
  intro p hp
  have hlt := (List.pairwise_append.mp h.sorted).2.2
  have hoffset := Nat.div_add_mod' e.offset slot
  rw [byteAt_snoc fun e' he' => (hlt e' he' e List.mem_cons_self).ne, Function.update_apply, h.value p hp]
  refine if_congr ?_ rfl rfl
  omega

/-- Entries of smaller keys are not listed for a key. -/
theorem byteAt_later {p : ℕ} (hle : valueSize ≤ slot) (hes : ∀ e ∈ es, e.offset / slot < k) (hp : p < valueSize) :
    byteAt (es ++ es') (k * slot + p) = byteAt es' (k * slot + p) := by
  refine byteAt_append_right fun e he heq => ?_
  have hlt := hes e he
  rw [heq, Nat.div_lt_iff_lt_mul (by omega)] at hlt
  omega

/-- Entries of greater keys are not either. -/
theorem byteAt_earlier {p : ℕ} (hle : valueSize ≤ slot) (hes : ∀ e ∈ es', k < e.offset / slot) (hp : p < valueSize) :
    byteAt (es ++ es') (k * slot + p) = byteAt es (k * slot + p) := by
  refine byteAt_append_left fun e he heq => ?_
  have hlt := hes e he
  rw [heq, ← Nat.succ_le_iff, Nat.le_div_iff_mul_le (by omega), Nat.succ_mul] at hlt
  omega

/-- **What is inserted for a key are the bytes that are listed for it.** -/
theorem insertLoop_bytes (hle : valueSize ≤ slot) (hslot : 0 < slot)
    (hes : ∀ e' ∈ e :: es, e'.offset % slot < valueSize) (h : Pending slot valueSize pend e es value) :
    ∀ kv ∈ (insertLoop valueSize slot (e :: es) value).inserted,
      kv.2 = (List.range valueSize).map fun p => byteAt (pend ++ e :: es) (kv.1 * slot + p) := by
  induction es generalizing e pend value with
  | nil =>
    have he := hes e List.mem_cons_self
    rw [inserted_flush hslot he.le rfl]
    intro kv hkv
    rcases List.mem_cons.mp hkv with rfl | hkv
    · exact List.map_congr_left fun p hp => h.update p (List.mem_range.mp hp)
    · exact absurd hkv List.not_mem_nil
  | cons e₁ es ih =>
    obtain ⟨he, hes⟩ := List.forall_mem_cons.mp hes
    have hsorted := h.sorted
    rw [List.append_cons] at hsorted
    have hes' : Increasing (e :: e₁ :: es) := (List.pairwise_append.mp h.sorted).2.1
    by_cases hflush : flushes slot (e.offset / slot) (e₁ :: es) = true
    · have hlater := flushes_lt hes' hflush
      rw [inserted_flush hslot he.le hflush]
      intro kv hkv
      rcases List.mem_cons.mp hkv with rfl | hkv
      · refine List.map_congr_left fun p hp => ?_
        rw [h.update p (List.mem_range.mp hp), List.append_cons pend e (e₁ :: es)]
        exact (byteAt_earlier hle hlater (List.mem_range.mp hp)).symm
      · have hzeros : Pending slot valueSize [] e₁ es fun p =>
            if p < valueSize then 0 else Function.update value (e.offset % slot) e.value p :=
          ⟨(List.pairwise_cons.mp hes').2, nofun, fun p hp => if_pos hp⟩
        obtain ⟨e', he', hkey⟩ :=
          ((insertLoop_keys _ hslot hes (List.pairwise_cons.mp hes').2).2 _).mp (List.mem_map_of_mem hkv)
        have hbefore : ∀ e'' ∈ pend ++ [e], e''.offset / slot < kv.1 := by
          intro e'' he''
          rw [← hkey]
          refine lt_of_le_of_lt (le_of_eq ?_) (hlater e' he')
          rcases List.mem_append.mp he'' with he'' | he''
          · exact h.key e'' he''
          · rw [List.mem_singleton.mp he'']
        rw [ih hes hzeros kv hkv]
        refine List.map_congr_left fun p hp => ?_
        rw [List.append_cons pend e, byteAt_later hle hbefore (List.mem_range.mp hp), List.nil_append]
    · have hkey : e.offset / slot = e₁.offset / slot := by
        obtain ⟨e', es', heq, hkey⟩ := exists_of_not_flushes hflush
        rw [← hkey, (List.cons.inj heq).1]
      rw [inserted_keep hslot he.le hflush, List.append_cons]
      refine ih hes ⟨hsorted, fun e' he' => ?_, fun p hp => ?_⟩
      · rcases List.mem_append.mp he' with he' | he'
        · exact (h.key e' he').trans hkey
        · rw [List.mem_singleton.mp he', hkey]
      · rw [h.update p hp, hkey]

/-! ### When it is correct -/

theorem ereportInsert_eq {m : Mapdef} {em : List Entry} (hkey : m.keySize = 4) (hem : em ≠ []) :
    ereportInsert [m] em = insertLoop m.valueSize (nextPowOfTwo m.valueSize % 2 ^ 32) em fun _ => 0 := by
  rw [ereportInsert, if_neg hem]
  exact if_neg (not_not_intro hkey)

end

theorem ereportInsert_nil {slot valueSize : ℕ} (mapdefs : List Mapdef) :
    Correct slot valueSize [] (ereportInsert mapdefs []) :=
  ⟨nofun, nofun, fun _ => ⟨rfl, List.nodup_nil, by simp [ereportInsert], nofun⟩⟩

/-- All entries lie in the value. -/
theorem insertLoop_correct {slot valueSize : ℕ} {em : List Entry} (hle : valueSize ≤ slot) (hslot : 0 < slot)
    (hem : Increasing em) (hlt : ∀ e ∈ em, e.offset % slot < valueSize) :
    Correct slot valueSize em (insertLoop valueSize slot em fun _ => 0) := by
  obtain ⟨hstatus, hwrites⟩ := insertLoop_done (fun _ => 0) hslot hlt
  refine ⟨hwrites, fun ⟨e, he, hbeyond⟩ => absurd (hlt e he) (Nat.not_lt.mpr hbeyond), fun _ => ⟨hstatus, ?_⟩⟩
  obtain ⟨hnodup, hkeys⟩ := insertLoop_keys (fun _ => 0) hslot hlt hem
  refine ⟨hnodup, hkeys, ?_⟩
  cases em with
  | nil => nofun
  | cons e es =>
    have hpending : Pending slot valueSize [] e es fun _ => 0 := ⟨hem, nofun, fun _ _ => rfl⟩
    exact insertLoop_bytes hle hslot hlt hpending

/-- **It is correct exactly if a slot has at most half of the 32 bits and the first entry that lies behind the value
does not lie right behind it.** -/
theorem ereport_insert_iff {m : Mapdef} {em : List Entry} (hkey : m.keySize = 4) (hsize : 2 ≤ m.valueSize)
    (hem : Increasing em) :
    Correct (slotSize m.valueSize) m.valueSize em (ereportInsert [m] em) ↔
      (em = [] ∨ m.valueSize ≤ 2 ^ 31) ∧
        ∀ e, em.find? (fun e => m.valueSize ≤ e.offset % slotSize m.valueSize) = some e →
          e.offset % slotSize m.valueSize ≠ m.valueSize := by
  by_cases hnil : em = []
  · subst hnil
    exact iff_of_true (ereportInsert_nil [m]) ⟨Or.inl rfl, nofun⟩
  rw [ereportInsert_eq hkey hnil, nextPowOfTwo_eq hsize]
  by_cases hlarge : m.valueSize ≤ 2 ^ 31
  · rw [if_pos hlarge, and_iff_right (Or.inr hlarge)]
    have hslot : 0 < slotSize m.valueSize := slotSize_pos
    cases hfind : em.find? fun e => m.valueSize ≤ e.offset % slotSize m.valueSize with
    | none =>
      have hlt : ∀ e ∈ em, e.offset % slotSize m.valueSize < m.valueSize := fun e he => by
        simpa using List.find?_eq_none.mp hfind e he
      exact iff_of_true (insertLoop_correct le_slotSize hslot hem hlt) nofun
    | some e =>
      obtain ⟨hbeyond, pre, post, rfl, hpre⟩ := List.find?_eq_some_iff_append.mp hfind
      have hge : m.valueSize ≤ e.offset % slotSize m.valueSize := of_decide_eq_true hbeyond
      have hlt : ∀ e ∈ pre, e.offset % slotSize m.valueSize < m.valueSize := fun e he => by
        simpa using hpre e he
      simp only [Option.some.injEq, forall_eq']
      constructor
      · intro hcorrect heq
        exact absurd (hcorrect.writes _ (insertLoop_writesBehind hslot hlt heq)) (Nat.lt_irrefl _)
      · intro hne
        obtain ⟨hstatus, hwrites⟩ := insertLoop_refuses (fun _ => 0) post hslot hlt
          (Nat.lt_of_le_of_ne hge (Ne.symm hne))
        refine ⟨hwrites, fun _ => ⟨e, by simp, hge, hstatus⟩, fun hall => ?_⟩
        exact absurd (hall e (by simp)) (Nat.not_lt.mpr hge)
  · rw [if_neg hlarge]
    refine iff_of_false (fun hcorrect => ?_) fun h => h.1.elim hnil hlarge
    obtain ⟨e, es, rfl⟩ := List.exists_cons_of_ne_nil hnil
    have hstatus : (insertLoop m.valueSize 0 (e :: es) fun _ => 0).status = .divisionByZero := rfl
    by_cases hbeyond : ∃ e' ∈ e :: es, m.valueSize ≤ e'.offset % slotSize m.valueSize
    · obtain ⟨e', -, -, hrefused⟩ := hcorrect.refuses hbeyond
      exact absurd (hrefused.symm.trans hstatus) nofun
    · have hall : ∀ e' ∈ e :: es, e'.offset % slotSize m.valueSize < m.valueSize :=
        fun e' he' => Nat.lt_of_not_le fun hge => hbeyond ⟨e', he', hge⟩
      exact absurd ((hcorrect.inserts hall).1.symm.trans hstatus) nofun

/-- Two keys with values of three bytes; the fourth position of a slot is not used. -/
theorem ereport_insert_iff_three :
    Correct (slotSize 3) 3 [⟨0, 5⟩, ⟨2, 7⟩, ⟨5, 9⟩] (ereportInsert [⟨4, 3⟩] [⟨0, 5⟩, ⟨2, 7⟩, ⟨5, 9⟩]) := by
  refine (ereport_insert_iff (m := ⟨4, 3⟩) rfl (by decide) (by simp [Increasing])).mpr ⟨Or.inr (by decide), ?_⟩
  intro e he
  have hnone : [(⟨0, 5⟩ : Entry), ⟨2, 7⟩, ⟨5, 9⟩].find? (fun e => 3 ≤ e.offset % slotSize 3) = none := by
    decide +kernel
  exact absurd (hnone.symm.trans he) nofun

/-- A byte at the fourth position is written behind the value and is lost; nothing is refused. -/
theorem ereport_insert_behind :
    ereportInsert [⟨4, 3⟩] [⟨3, 5⟩] = ⟨.done, [3], [(0, [0, 0, 0])]⟩ ∧
      ¬ Correct (slotSize 3) 3 [⟨3, 5⟩] (ereportInsert [⟨4, 3⟩] [⟨3, 5⟩]) := by
  have heq : ereportInsert [⟨4, 3⟩] [⟨3, 5⟩] = ⟨.done, [3], [(0, [0, 0, 0])]⟩ := by decide +kernel
  refine ⟨heq, fun h => ?_⟩
  rw [heq] at h
  exact absurd (h.writes 3 List.mem_cons_self) (by decide)

end Ereport

end NfpEstimator
