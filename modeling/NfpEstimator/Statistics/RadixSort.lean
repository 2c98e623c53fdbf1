import NfpEstimator.Segment

/-!
# Sorting the samples

`radix_sort` sorts 32-bit numbers in place. First every number is brought to the bucket of its upper half: a number
that is in the way is taken along to its own bucket, until one belongs where the first was taken from. Then each bucket
is written anew, from how often each lower half occurs in it.
-/

namespace NfpEstimator

namespace Statistics

/-- `(value >> 16) & 0xFFFF` -/
def bucket (v : UInt32) : ℕ := ((v >>> 16) &&& 0xFFFF).toNat

/-- `value & 0xFFFF` -/
def low (v : UInt32) : ℕ := (v &&& 0xFFFF).toNat

/-! ### The program -/

/-- The loop that counts keys, over `n` elements from `i` on. -/
def countKeys (key : UInt32 → ℕ) (array : ℕ → UInt32) : ℕ → ℕ → (ℕ → ℕ) → ℕ → ℕ
  | 0, _, count => count
  | n + 1, i, count =>
    countKeys key array n (i + 1) (Function.update count (key (array i)) (count (key (array i)) + 1))

/-- A number is written as often as it occurs. -/
def writeRun (v : UInt32) : ℕ → ℕ → (ℕ → UInt32) → ℕ × (ℕ → UInt32)
  | 0, ptr, array => (ptr, array)
  | n + 1, ptr, array => writeRun v n (ptr + 1) (Function.update array ptr v)

/-- The numbers with the lower halves from `x` on are written. -/
def writeRuns (base : UInt32) (frequency : ℕ → ℕ) : ℕ → ℕ → ℕ → (ℕ → UInt32) → ℕ → UInt32
  | 0, _, _, array => array
  | n + 1, x, ptr, array =>
    let (ptr, array) := writeRun (base + UInt32.ofNat x) (frequency x) ptr array
    writeRuns base frequency n (x + 1) ptr array

/-- `radix_sort16` -/
def radixSort16 (array : ℕ → UInt32) (offset e : ℕ) : ℕ → UInt32 :=
  let base := array offset &&& 0xFFFF0000
  let frequency := countKeys low array (e - offset) offset fun _ => 0
  writeRuns base frequency 65536 0 offset array

/-- The loop that adds up the counts, from `x` on. -/
def addUp : ℕ → ℕ → (ℕ → ℕ) → (ℕ → ℕ) → (ℕ → ℕ) × (ℕ → ℕ)
  | 0, _, pointer, last => (pointer, last)
  | n + 1, x, pointer, last =>
    addUp n (x + 1) (Function.update pointer x (last (x - 1))) (Function.update last x (last x + last (x - 1)))

/-- The innermost loop: `value` is put into its bucket, until it belongs into the bucket `x`. -/
def moveAlong (x : ℕ) :
    ℕ → UInt32 → (ℕ → UInt32) → (ℕ → ℕ) → Option (UInt32 × (ℕ → UInt32) × (ℕ → ℕ))
  | 0, _, _, _ => none
  | fuel + 1, value, array, pointer =>
    let y := bucket value
    if x = y then some (value, array, pointer)
    else
      moveAlong x fuel (array (pointer y)) (Function.update array (pointer y) value)
        (Function.update pointer y (pointer y + 1))

/-- The loop that fills the bucket `x`. -/
def fillBucket (x : ℕ) (last : ℕ → ℕ) :
    ℕ → (ℕ → UInt32) → (ℕ → ℕ) → Option ((ℕ → UInt32) × (ℕ → ℕ))
  | 0, _, _ => none
  | fuel + 1, array, pointer =>
    if pointer x = last x then some (array, pointer)
    else do
      let (value, array, pointer) ← moveAlong x (fuel + 1) (array (pointer x)) array pointer
      fillBucket x last fuel (Function.update array (pointer x) value) (Function.update pointer x (pointer x + 1))

/-- The loop over the buckets, from `x` on. -/
def fillBuckets (fuel : ℕ) (last : ℕ → ℕ) :
    ℕ → ℕ → (ℕ → UInt32) → (ℕ → ℕ) → Option ((ℕ → UInt32) × (ℕ → ℕ))
  | 0, _, array, pointer => some (array, pointer)
  | n + 1, x, array, pointer => do
    let (array, pointer) ← fillBucket x last fuel array pointer
    fillBuckets fuel last n (x + 1) array pointer

/-- The loop that sorts the buckets, from `x` on. -/
def sortBuckets (pointer : ℕ → ℕ) : ℕ → ℕ → (ℕ → UInt32) → ℕ → UInt32
  | 0, _, array => array
  | n + 1, x, array =>
    sortBuckets pointer n (x + 1)
      (if pointer x ≠ pointer (x - 1) then radixSort16 array (pointer (x - 1)) (pointer x) else array)

/-- `radix_sort`; `none` if the loops are not done after so many rounds. -/
def radixSort (fuel : ℕ) (data : List UInt32) : Option (List UInt32) := do
  let size := data.length
  let array := fun i => data.getD i 0
  let last := countKeys bucket array size 0 fun _ => 0
  let (pointer, last) := addUp 65535 1 (fun _ => 0) last
  let (array, pointer) ← fillBuckets fuel last 65536 0 array pointer
  let array := if pointer 0 ≠ 0 then radixSort16 array 0 (pointer 0) else array
  return segment (sortBuckets pointer 65535 1 array) 0 size

/-! ### Halves -/

section
variable {v w : UInt32} {x : ℕ}

theorem low_eq (v : UInt32) : low v = v.toNat % 65536 := by
  rw [low, UInt32.toNat_and]
  exact Nat.and_two_pow_sub_one_eq_mod v.toNat 16

theorem bucket_eq (v : UInt32) : bucket v = v.toNat / 65536 := by
  have hlt := v.toNat_lt
  rw [bucket, UInt32.toNat_and, UInt32.toNat_shiftRight]
  refine (Nat.and_two_pow_sub_one_eq_mod _ 16).trans ?_
  rw [show (UInt32.toNat 16 % 32) = 16 from rfl, Nat.shiftRight_eq_div_pow, Nat.mod_eq_of_lt (by omega)]

theorem base_eq (v : UInt32) : (v &&& 0xFFFF0000).toNat = bucket v * 65536 := by
  have hmask : (0xFFFF0000 : UInt32).toNat = (2 ^ 16 - 1) <<< 16 := rfl
  have hhigh : v.toNat / 65536 * 65536 = (v.toNat >>> 16) <<< 16 := by
    rw [Nat.shiftRight_eq_div_pow, Nat.shiftLeft_eq]
  rw [UInt32.toNat_and, bucket_eq, hmask, hhigh]
  refine Nat.eq_of_testBit_eq fun i => ?_
  rw [Nat.testBit_and, Nat.testBit_shiftLeft, Nat.testBit_shiftLeft, Nat.testBit_two_pow_sub_one,
    Nat.testBit_shiftRight]
  by_cases hi : 16 ≤ i
  · rw [Nat.add_sub_cancel' hi]
    by_cases hlt : i - 16 < 16
    · simp [hi, hlt]
    · -- there are no more bits
      have hbit : v.toNat.testBit i = false :=
        Nat.testBit_lt_two_pow (Nat.lt_of_lt_of_le v.toNat_lt (Nat.pow_le_pow_right (by decide) (by omega)))
      simp [hbit]
  · simp [hi]

theorem bucket_lt (v : UInt32) : bucket v < 65536 := by
  have hlt := v.toNat_lt
  rw [bucket_eq]
  omega

theorem low_lt (v : UInt32) : low v < 65536 := by
  rw [low_eq]
  omega

/-- A number is put together from its halves. -/
theorem base_add_low (h : bucket v = bucket w) : (v &&& 0xFFFF0000) + UInt32.ofNat (low w) = w := by
  have hlt := w.toNat_lt
  have hbucket := bucket_eq w
  have hlow := low_eq w
  refine UInt32.toNat_inj.mp ?_
  rw [UInt32.toNat_add, base_eq, h, UInt32.toNat_ofNat', Nat.mod_eq_of_lt (b := 2 ^ 32) (by omega)]
  omega

theorem le_of_bucket_lt (h : bucket v < bucket w) : v ≤ w := by
  rw [bucket_eq, bucket_eq] at h
  rw [UInt32.le_iff_toNat_le]
  omega

theorem le_of_low_le (h : bucket v = bucket w) (hle : low v ≤ low w) : v ≤ w := by
  rw [bucket_eq, bucket_eq] at h
  rw [low_eq, low_eq] at hle
  rw [UInt32.le_iff_toNat_le]
  omega

/-! ### One bucket -/

variable {array : ℕ → UInt32} {f : ℕ → ℕ} {seg : List UInt32} {base : UInt32} {n b : ℕ}

theorem countKeys_eq (key : UInt32 → ℕ) (array : ℕ → UInt32) (n i : ℕ) (count : ℕ → ℕ) (k : ℕ) :
    countKeys key array n i count k = count k + (segment array i n).countP fun v => key v == k := by
  induction n generalizing i count with
  | zero => rfl
  | succ n ih =>
    rw [countKeys, ih, segment_succ, List.countP_cons]
    by_cases hk : key (array i) = k
    · rw [hk, Function.update_self, beq_self_eq_true, if_pos rfl]
      omega
    · rw [Function.update_of_ne (Ne.symm hk), beq_false_of_ne hk, if_neg Bool.false_ne_true]
      rfl

/-- A number several times in a row. -/
theorem writeRun_eq (v : UInt32) (n ptr : ℕ) (array : ℕ → UInt32) :
    writeRun v n ptr array = (ptr + n, fun i => if ptr ≤ i ∧ i < ptr + n then v else array i) := by
  induction n generalizing ptr array with
  | zero =>
    rw [writeRun]
    refine Prod.ext rfl (funext fun i => (if_neg ?_).symm)
    omega
  | succ n ih =>
    rw [writeRun, ih]
    refine Prod.ext (by omega) (funext fun i => ?_)
    dsimp only
    by_cases hi : i = ptr
    · rw [hi, if_neg (by omega), Function.update_self, if_pos (by omega)]
    · rw [Function.update_of_ne hi]
      exact if_congr (by omega) rfl rfl

/-- What is written of a bucket. -/
def runs (base : UInt32) (f : ℕ → ℕ) : ℕ → ℕ → List UInt32
  | 0, _ => []
  | n + 1, x => List.replicate (f x) (base + UInt32.ofNat x) ++ runs base f n (x + 1)

theorem writeRuns_other {i ptr : ℕ} (h : i < ptr ∨ ptr + (runs base f n x).length ≤ i) :
    writeRuns base f n x ptr array i = array i := by
  induction n generalizing x ptr array with
  | zero => rfl
  | succ n ih =>
    rw [runs, List.length_append, List.length_replicate] at h
    rw [writeRuns, writeRun_eq]
    dsimp only
    rw [ih (by omega), if_neg (by omega)]

theorem segment_writeRuns (base : UInt32) (f : ℕ → ℕ) (n x ptr : ℕ) (array : ℕ → UInt32) :
    segment (writeRuns base f n x ptr array) ptr (runs base f n x).length = runs base f n x := by
  induction n generalizing x ptr array with
  | zero => rfl
  | succ n ih =>
    rw [runs, List.length_append, List.length_replicate, segment_add, writeRuns, writeRun_eq]
    dsimp only
    rw [ih]
    refine congrArg (· ++ _) (List.eq_replicate_iff.mpr ⟨length_segment _ _ _, fun v hv => ?_⟩)
    obtain ⟨i, hlo, hhi, rfl⟩ := mem_segment.mp hv
    rw [writeRuns_other (Or.inl hhi), if_pos ⟨hlo, hhi⟩]

/-- Numbers of the same bucket are written in order, as often as they occur. -/
theorem runs_sorts (hseg : ∀ v ∈ seg, base + UInt32.ofNat (low v) = v ∧ bucket v = b ∧ x ≤ low v ∧ low v < x + n)
    (hf : ∀ k, x ≤ k → f k = seg.countP fun v => low v == k) :
    (runs base f n x).Perm seg ∧ (runs base f n x).Pairwise (· ≤ ·) := by
  induction n generalizing x seg with
  | zero =>
    have hnil : seg = [] := by
      refine List.eq_nil_iff_forall_not_mem.mpr fun v hv => ?_
      obtain ⟨-, -, hlo, hhi⟩ := hseg v hv
      omega
    rw [hnil]
    exact ⟨.refl _, .nil⟩
  | succ n ih =>
    -- the numbers with this lower half are all the same
    have hrun : List.replicate (f x) (base + UInt32.ofNat x) = seg.filter fun v => low v == x := by
      refine (List.eq_replicate_iff.mpr ⟨?_, fun v hv => ?_⟩).symm
      · rw [hf x (Nat.le_refl x), List.countP_eq_length_filter]
      · obtain ⟨hv, hx⟩ := List.mem_filter.mp hv
        rw [← beq_iff_eq.mp hx]
        exact (hseg v hv).1.symm
    have hrest : ∀ v ∈ seg.filter fun v => !(low v == x),
        base + UInt32.ofNat (low v) = v ∧ bucket v = b ∧ x + 1 ≤ low v ∧ low v < x + 1 + n := by
      intro v hv
      obtain ⟨hv, hx⟩ := List.mem_filter.mp hv
      obtain ⟨hbase, hb, hlo, hhi⟩ := hseg v hv
      have hne : low v ≠ x := by simpa using hx
      exact ⟨hbase, hb, by omega, by omega⟩
    have hcount : ∀ k, x + 1 ≤ k → f k = (seg.filter fun v => !(low v == x)).countP fun v => low v == k := by
      intro k hk
      rw [hf k (by omega), List.countP_filter]
      refine List.countP_congr fun v _ => ?_
      simp only [beq_iff_eq, Bool.and_eq_true, Bool.not_eq_eq_eq_not, Bool.not_true, beq_eq_false_iff_ne]
      omega
    obtain ⟨hperm, hsorted⟩ := ih hrest hcount
    rw [runs, hrun]
    refine ⟨(hperm.append_left _).trans (List.filter_append_perm _ seg),
      List.pairwise_append.mpr ⟨?_, hsorted, fun v hv w hw => ?_⟩⟩
    · rw [← hrun]
      exact List.pairwise_replicate.mpr (Or.inr (UInt32.le_refl _))
    · obtain ⟨hv, hvx⟩ := List.mem_filter.mp hv
      obtain ⟨hw, hwx⟩ := List.mem_filter.mp (hperm.mem_iff.mp hw)
      have hne : low w ≠ x := by simpa using hwx
      have heq := beq_iff_eq.mp hvx
      obtain ⟨-, hvb, -, -⟩ := hseg v hv
      obtain ⟨-, hwb, hlo, -⟩ := hseg w hw
      exact le_of_low_le (hvb.trans hwb.symm) (by omega)

/-- **A bucket is sorted**, and nothing else is written. -/
theorem radixSort16_sorts {offset e : ℕ} (hlt : offset < e)
    (hbucket : ∀ i, offset ≤ i → i < e → bucket (array i) = b) :
    (segment (radixSort16 array offset e) offset (e - offset)).Perm (segment array offset (e - offset)) ∧
      (segment (radixSort16 array offset e) offset (e - offset)).Pairwise (· ≤ ·) ∧
      ∀ i, i < offset ∨ e ≤ i → radixSort16 array offset e i = array i := by
  have hseg : ∀ v ∈ segment array offset (e - offset),
      (array offset &&& 0xFFFF0000) + UInt32.ofNat (low v) = v ∧ bucket v = b ∧ 0 ≤ low v ∧ low v < 0 + 65536 := by
    intro v hv
    obtain ⟨i, hlo, hhi, rfl⟩ := mem_segment.mp hv
    have hb := hbucket i hlo (by omega)
    refine ⟨base_add_low ?_, hb, Nat.zero_le _, (Nat.zero_add _).symm ▸ low_lt _⟩
    rw [hb, hbucket offset (Nat.le_refl _) hlt]
  obtain ⟨hperm, hsorted⟩ := runs_sorts hseg
    (f := countKeys low array (e - offset) offset fun _ => 0) fun k _ => by rw [countKeys_eq, Nat.zero_add]
  have hlength := hperm.length_eq
  rw [length_segment] at hlength
  have hwritten := segment_writeRuns (array offset &&& 0xFFFF0000) (countKeys low array (e - offset) offset fun _ => 0)
    65536 0 offset array
  rw [hlength] at hwritten
  rw [radixSort16, hwritten]
  exact ⟨hperm, hsorted, fun i hi => writeRuns_other (by rw [hlength]; omega)⟩

end

/-! ### Bringing numbers to their buckets -/

section
variable {data : List UInt32} {array : ℕ → UInt32} {pointer last : ℕ → ℕ} {value : UInt32} {x y k i : ℕ}

/-- Where the bucket `k` begins. -/
def start (data : List UInt32) (k : ℕ) : ℕ := data.countP fun v => decide (bucket v < k)

theorem start_succ (data : List UInt32) (k : ℕ) :
    start data (k + 1) = start data k + data.countP fun v => bucket v == k := by
  induction data with
  | nil => rfl
  | cons v data ih =>
    simp only [start, List.countP_cons] at ih ⊢
    rw [ih]
    by_cases hlt : bucket v < k
    · simp [hlt, Nat.lt_succ_of_lt hlt, Nat.ne_of_lt hlt]
      omega
    · by_cases heq : bucket v = k
      · simp [heq]
        omega
      · have hnot : ¬bucket v < k + 1 := by omega
        simp [hlt, heq, hnot]

theorem start_zero (data : List UInt32) : start data 0 = 0 := List.countP_eq_zero.mpr (by simp)

theorem start_mono (h : x ≤ y) : start data x ≤ start data y :=
  List.countP_mono_left fun _ _ hv => decide_eq_true (Nat.lt_of_lt_of_le (of_decide_eq_true hv) h)

theorem start_le (data : List UInt32) (k : ℕ) : start data k ≤ data.length := List.countP_le_length

theorem start_end (data : List UInt32) : start data 65536 = data.length :=
  List.countP_eq_length.mpr fun v _ => decide_eq_true (bucket_lt v)

/-- The bucket that a place belongs to. -/
theorem exists_bucket (h : i < start data x) : ∃ k < x, start data k ≤ i ∧ i < start data (k + 1) := by
  induction x with
  | zero => exact absurd h (by rw [start_zero]; omega)
  | succ x ih =>
    by_cases hlt : i < start data x
    · obtain ⟨k, hk, hin⟩ := ih hlt
      exact ⟨k, Nat.lt_succ_of_lt hk, hin⟩
    · exact ⟨x, Nat.lt_succ_self x, Nat.le_of_not_lt hlt, h⟩

theorem addUp_eq (n : ℕ) (hx : 0 < x) (hpointer : ∀ k < x, pointer k = start data k ∧ last k = start data (k + 1))
    (hlast : ∀ k, x ≤ k → last k = data.countP fun v => bucket v == k) :
    ∀ k < x + n, (addUp n x pointer last).1 k = start data k ∧ (addUp n x pointer last).2 k = start data (k + 1) := by
  induction n generalizing x pointer last with
  | zero => exact hpointer
  | succ n ih =>
    have hprev : last (x - 1) = start data x := by
      rw [(hpointer (x - 1) (by omega)).2, Nat.sub_add_cancel hx]
    rw [addUp, ← Nat.add_assoc, Nat.add_right_comm]
    refine ih (Nat.succ_pos x) (fun k hk => ?_) fun k hk => ?_
    · by_cases heq : k = x
      · rw [heq, Function.update_self, Function.update_self, hlast x (Nat.le_refl x), hprev, start_succ, Nat.add_comm]
        exact ⟨rfl, rfl⟩
      · rw [Function.update_of_ne heq, Function.update_of_ne heq]
        exact hpointer k (by omega)
    · rw [Function.update_of_ne (by omega)]
      exact hlast k (by omega)

/-- The numbers up to the pointers are where they belong. -/
structure Placed (data : List UInt32) (array : ℕ → UInt32) (pointer : ℕ → ℕ) : Prop where
  perm : (segment array 0 data.length).Perm data
  lower : ∀ k < 65536, start data k ≤ pointer k
  upper : ∀ k < 65536, pointer k ≤ start data (k + 1)
  placed : ∀ k < 65536, ∀ i, start data k ≤ i → i < pointer k → bucket (array i) = k

/-- Different buckets do not overlap. -/
theorem disjoint_buckets (hne : x ≠ y) (hx : start data x ≤ i) (hi : i < start data (x + 1)) :
    i < start data y ∨ start data (y + 1) ≤ i := by
  rcases Nat.lt_or_gt_of_ne hne with hlt | hlt
  · exact Or.inl (Nat.lt_of_lt_of_le hi (start_mono hlt))
  · exact Or.inr (Nat.le_trans (start_mono hlt) hx)

/-- In the bucket of a number that is somewhere else, there is room for it. -/
theorem Placed.room (h : Placed data array pointer) (hx : x < 65536) (hlt : pointer x < start data (x + 1))
    (hne : bucket (array (pointer x)) ≠ x) :
    pointer (bucket (array (pointer x))) < start data (bucket (array (pointer x)) + 1) := by
  have hy := bucket_lt (array (pointer x))
  have hupper := h.upper _ hy
  have hlower := h.lower _ hy
  have hout := disjoint_buckets hne.symm (h.lower x hx) hlt
  have hcount := lt_countP_segment (a := array) (n := data.length) (j := pointer x)
    (p := fun v => bucket v == bucket (array (pointer x)))
    (fun i hlo hhi => beq_iff_eq.mpr (h.placed _ hy i hlo hhi)) (Nat.le_trans hupper (start_le _ _))
    (Nat.lt_of_lt_of_le hlt (start_le _ _)) (by omega) (beq_self_eq_true _)
  rw [h.perm.countP_eq] at hcount
  rw [start_succ]
  omega

/-- How many numbers have not been placed. -/
def unplaced (data : List UInt32) (pointer : ℕ → ℕ) : ℕ :=
  ∑ k ∈ Finset.range 65536, (start data (k + 1) - pointer k)

theorem unplaced_update (hy : y < 65536) (hlt : pointer y < start data (y + 1)) :
    unplaced data (Function.update pointer y (pointer y + 1)) + 1 = unplaced data pointer := by
  have hmem : y ∈ Finset.range 65536 := Finset.mem_range.mpr hy
  rw [unplaced, unplaced, ← Finset.add_sum_erase _ _ hmem, ← Finset.add_sum_erase _ _ hmem, Function.update_self]
  have hother : ∀ k ∈ (Finset.range 65536).erase y,
      start data (k + 1) - Function.update pointer y (pointer y + 1) k = start data (k + 1) - pointer k := by
    intro k hk
    rw [Function.update_of_ne (Finset.ne_of_mem_erase hk)]
  rw [Finset.sum_congr rfl hother]
  omega

/-- A number belongs where it is held. -/
theorem Placed.keep (h : Placed data array pointer) (hx : x < 65536) (hlt : pointer x < start data (x + 1))
    (hkey : bucket (array (pointer x)) = x) : Placed data array (Function.update pointer x (pointer x + 1)) := by
  refine ⟨h.perm, fun k hk => ?_, fun k hk => ?_, fun k hk i hlo hhi => ?_⟩
  · by_cases hkx : k = x
    · rw [hkx, Function.update_self]
      exact Nat.le_succ_of_le (h.lower x hx)
    · rw [Function.update_of_ne hkx]
      exact h.lower k hk
  · by_cases hkx : k = x
    · rw [hkx, Function.update_self]
      exact hlt
    · rw [Function.update_of_ne hkx]
      exact h.upper k hk
  · by_cases hkx : k = x
    · rw [hkx, Function.update_self] at hhi
      rcases Nat.lt_or_eq_of_le (Nat.le_of_lt_succ hhi) with hhi | rfl
      · exact h.placed k hk i hlo (hkx ▸ hhi)
      · rw [hkey, hkx]
    · rw [Function.update_of_ne hkx] at hhi
      exact h.placed k hk i hlo hhi

/-- The number that is held and the one that is in the way change places. -/
theorem Placed.swap (h : Placed data array pointer) (hx : x < 65536) (hlt : pointer x < start data (x + 1))
    (hy : bucket (array (pointer x)) = y) (hne : y ≠ x) :
    Placed data (Function.update (Function.update array (pointer x) (array (pointer y))) (pointer y)
      (array (pointer x))) (Function.update pointer y (pointer y + 1)) := by
  subst hy
  have hy := bucket_lt (array (pointer x))
  have hroom := h.room hx hlt hne
  generalize hbucket : bucket (array (pointer x)) = y at hne hy hroom ⊢
  have hlowx := h.lower x hx
  have hlowy := h.lower y hy
  have hfirst : pointer x < data.length := Nat.lt_of_lt_of_le hlt (start_le _ _)
  have hsecond : pointer y < data.length := Nat.lt_of_lt_of_le hroom (start_le _ _)
  have hplaces : pointer y ≠ pointer x := by
    have hout := disjoint_buckets hne hlowy hroom
    omega
  refine Placed.mk ((segment_swap hfirst hsecond).trans h.perm) (fun k hk => ?_) (fun k hk => ?_)
    fun k hk i hlo hhi => ?_
  · by_cases hky : k = y
    · rw [hky, Function.update_self]
      exact Nat.le_succ_of_le hlowy
    · rw [Function.update_of_ne hky]
      exact h.lower k hk
  · by_cases hky : k = y
    · rw [hky, Function.update_self]
      exact hroom
    · rw [Function.update_of_ne hky]
      exact h.upper k hk
  · by_cases hiy : i = pointer y
    · -- no other bucket has this place
      have hky : k = y := by
        by_contra hky
        rw [Function.update_of_ne hky] at hhi
        have hout := disjoint_buckets hky (hiy ▸ hlo) (Nat.lt_of_lt_of_le (hiy ▸ hhi) (h.upper k hk))
        omega
      rw [hiy, Function.update_self, hky]
      exact hbucket
    · have hhi' : i < pointer k := by
        by_cases hky : k = y
        · rw [hky, Function.update_self] at hhi
          rw [hky]
          omega
        · rwa [Function.update_of_ne hky] at hhi
      have hix : i ≠ pointer x := by
        rintro rfl
        by_cases hkx : k = x
        · rw [hkx] at hhi'
          omega
        · have hout := disjoint_buckets hkx hlo (Nat.lt_of_lt_of_le hhi' (h.upper k hk))
          omega
      rw [Function.update_of_ne hiy, Function.update_of_ne hix]
      exact h.placed k hk i hlo hhi'

/-- **One number after the other is brought to its bucket**, until one belongs into the bucket `x`. -/
theorem moveAlong_placed {fuel : ℕ} (h : Placed data (Function.update array (pointer x) value) pointer)
    (hx : x < 65536) (hlt : pointer x < start data (x + 1)) (hfuel : unplaced data pointer < fuel) :
    ∃ value' array' pointer', moveAlong x fuel value array pointer = some (value', array', pointer') ∧
      Placed data (Function.update array' (pointer' x) value') pointer' ∧ bucket value' = x ∧
      pointer' x = pointer x ∧ unplaced data pointer' ≤ unplaced data pointer ∧ ∀ k, pointer k ≤ pointer' k := by
  induction fuel generalizing value array pointer with
  | zero => exact absurd hfuel (Nat.not_lt_zero _)
  | succ fuel ih =>
    by_cases hxy : x = bucket value
    · exact ⟨value, array, pointer, by rw [moveAlong]; exact if_pos hxy, h, hxy.symm, rfl, Nat.le_refl _,
        fun k => Nat.le_refl _⟩
    · have hvalue : Function.update array (pointer x) value (pointer x) = value := Function.update_self ..
      have hroom := h.room hx hlt (by rw [hvalue]; exact Ne.symm hxy)
      have hswap := h.swap hx hlt (by rw [hvalue]) (Ne.symm hxy)
      rw [hvalue] at hroom hswap
      have hy := bucket_lt value
      generalize hkey : bucket value = y at hxy hroom hswap hy
      have hplaces : pointer y ≠ pointer x := by
        have hout := disjoint_buckets (Ne.symm hxy) (h.lower y hy) hroom
        have hlow := h.lower x hx
        omega
      have hkeep : Function.update pointer y (pointer y + 1) x = pointer x := Function.update_of_ne hxy _ _
      have hless := unplaced_update hy hroom
      have hheld : Function.update (Function.update array (pointer y) value)
          (Function.update pointer y (pointer y + 1) x) (array (pointer y)) =
          Function.update (Function.update (Function.update array (pointer x) value) (pointer x)
            (Function.update array (pointer x) value (pointer y))) (pointer y) value := by
        rw [hkeep, Function.update_of_ne hplaces, Function.update_idem, Function.update_comm hplaces]
      rw [← hheld] at hswap
      have hless' : unplaced data (Function.update pointer y (pointer y + 1)) < fuel := by omega
      have hlt' : Function.update pointer y (pointer y + 1) x < start data (x + 1) := hkeep.trans_lt hlt
      obtain ⟨value', array', pointer', hmove, hplaced, hbucket, hsame, hle, hmono⟩ := ih hswap hlt' hless'
      refine ⟨value', array', pointer', ?_, hplaced, hbucket, hsame.trans hkeep, by omega, fun k => ?_⟩
      · rw [moveAlong, hkey, if_neg hxy]
        exact hmove
      · refine Nat.le_trans ?_ (hmono k)
        by_cases hky : k = y
        · rw [hky, Function.update_self]
          exact Nat.le_succ _
        · rw [Function.update_of_ne hky]

/-- **A bucket is filled.** -/
theorem fillBucket_placed {fuel : ℕ} (h : Placed data array pointer) (hx : x < 65536)
    (hlast : last x = start data (x + 1)) (hfuel : unplaced data pointer < fuel) :
    ∃ array' pointer', fillBucket x last fuel array pointer = some (array', pointer') ∧
      Placed data array' pointer' ∧ pointer' x = start data (x + 1) ∧
      unplaced data pointer' ≤ unplaced data pointer ∧ ∀ k, pointer k ≤ pointer' k := by
  induction fuel generalizing array pointer with
  | zero => exact absurd hfuel (Nat.not_lt_zero _)
  | succ fuel ih =>
    by_cases hfull : pointer x = last x
    · exact ⟨array, pointer, by rw [fillBucket]; exact if_pos hfull, h, hfull.trans hlast, Nat.le_refl _,
        fun k => Nat.le_refl _⟩
    · have hlt : pointer x < start data (x + 1) :=
        Nat.lt_of_le_of_ne (h.upper x hx) fun heq => hfull (heq.trans hlast.symm)
      have hheld : Placed data (Function.update array (pointer x) (array (pointer x))) pointer := by
        rwa [Function.update_eq_self]
      obtain ⟨value', array', pointer', hmove, hplaced, hbucket, hsame, hle, hmono⟩ :=
        moveAlong_placed hheld hx hlt hfuel
      have hlt' : pointer' x < start data (x + 1) := hsame.trans_lt hlt
      have hkeep := hplaced.keep hx hlt' (by rw [Function.update_self]; exact hbucket)
      have hless := unplaced_update hx hlt'
      obtain ⟨array'', pointer'', hfill, hplaced', hfull', hle', hmono'⟩ := ih hkeep (by omega)
      refine ⟨array'', pointer'', ?_, hplaced', hfull', by omega, fun k => ?_⟩
      · rw [fillBucket, if_neg hfull, hmove]
        exact hfill
      · refine Nat.le_trans (hmono k) (Nat.le_trans ?_ (hmono' k))
        by_cases hkx : k = x
        · rw [hkx, Function.update_self]
          exact Nat.le_succ _
        · rw [Function.update_of_ne hkx]

/-- **All buckets are filled**, one after the other. -/
theorem fillBuckets_placed {fuel : ℕ} (n : ℕ) (hn : x + n = 65536) (h : Placed data array pointer)
    (hlast : ∀ k < 65536, last k = start data (k + 1)) (hfull : ∀ k < x, pointer k = start data (k + 1))
    (hfuel : unplaced data pointer < fuel) :
    ∃ array' pointer', fillBuckets fuel last n x array pointer = some (array', pointer') ∧
      Placed data array' pointer' ∧ ∀ k < 65536, pointer' k = start data (k + 1) := by
  induction n generalizing x array pointer with
  | zero => exact ⟨array, pointer, rfl, h, fun k hk => hfull k (by omega)⟩
  | succ n ih =>
    have hx : x < 65536 := by omega
    obtain ⟨array', pointer', hfill, hplaced, hx', hle, hmono⟩ := fillBucket_placed h hx (hlast x hx) hfuel
    have hfull' : ∀ k < x + 1, pointer' k = start data (k + 1) := by
      intro k hk
      rcases Nat.lt_or_eq_of_le (Nat.le_of_lt_succ hk) with hk | rfl
      · have hupper := hplaced.upper k (by omega)
        have hgrown := hmono k
        rw [hfull k hk] at hgrown
        omega
      · exact hx'
    obtain ⟨array'', pointer'', hrest, hplaced', hall⟩ := ih (by omega) hplaced hfull' (by omega)
    exact ⟨array'', pointer'', by rw [fillBuckets, hfill]; exact hrest, hplaced', hall⟩

/-! ### All buckets -/

/-- The buckets before `x` are sorted. -/
structure SortedTo (data : List UInt32) (x : ℕ) (array : ℕ → UInt32) : Prop where
  perm : (segment array 0 data.length).Perm data
  placed : ∀ k < 65536, ∀ i, start data k ≤ i → i < start data (k + 1) → bucket (array i) = k
  sorted : ∀ i j, i < j → j < start data x → array i ≤ array j

/-- What sorts the bucket `x` and writes nothing else. -/
theorem SortedTo.next (h : SortedTo data x array) {array' : ℕ → UInt32} (hx : x < 65536)
    (hperm : (segment array' (start data x) (start data (x + 1) - start data x)).Perm
      (segment array (start data x) (start data (x + 1) - start data x)))
    (hsorted : (segment array' (start data x) (start data (x + 1) - start data x)).Pairwise (· ≤ ·))
    (hother : ∀ i, i < start data x ∨ start data (x + 1) ≤ i → array' i = array i) :
    SortedTo data (x + 1) array' := by
  have hle : start data x ≤ start data (x + 1) := start_mono (Nat.le_succ x)
  have hend := start_le data (x + 1)
  have hplaced : ∀ k < 65536, ∀ i, start data k ≤ i → i < start data (k + 1) → bucket (array' i) = k := by
    intro k hk i hlo hhi
    by_cases hkx : k = x
    · subst hkx
      have hmem : array' i ∈ segment array (start data k) (start data (k + 1) - start data k) :=
        hperm.mem_iff.mp (mem_segment.mpr ⟨i, hlo, by omega, rfl⟩)
      obtain ⟨j, hjlo, hjhi, hj⟩ := mem_segment.mp hmem
      rw [← hj]
      exact h.placed k hk j hjlo (by omega)
    · rw [hother i (disjoint_buckets hkx hlo hhi)]
      exact h.placed k hk i hlo hhi
  refine ⟨?_, hplaced, fun i j hij hj => ?_⟩
  · exact (segment_perm hperm (by omega) fun i hi => hother i (by omega)).trans h.perm
  · by_cases hjx : j < start data x
    · rw [hother i (by omega), hother j (by omega)]
      exact h.sorted i j hij hjx
    · have hbj := hplaced x hx j (Nat.le_of_not_lt hjx) hj
      by_cases hix : i < start data x
      · obtain ⟨k, hk, hlo, hhi⟩ := exists_bucket hix
        refine le_of_bucket_lt ?_
        rw [hbj, hplaced k (by omega) i hlo hhi]
        exact hk
      · have hi' : i - start data x < (segment array' (start data x) (start data (x + 1) - start data x)).length := by
          rw [length_segment]
          omega
        have hj' : j - start data x < (segment array' (start data x) (start data (x + 1) - start data x)).length := by
          rw [length_segment]
          omega
        have hpair := List.pairwise_iff_getElem.mp hsorted _ _ hi' hj' (by omega)
        rwa [getElem_segment, getElem_segment, Nat.add_sub_cancel' (by omega), Nat.add_sub_cancel' (by omega)] at hpair

/-- A bucket of which there is nothing is not sorted. -/
theorem SortedTo.step (h : SortedTo data x array) (hx : x < 65536) {lo hi : ℕ} (hlo : lo = start data x)
    (hhi : hi = start data (x + 1)) : SortedTo data (x + 1) (if hi ≠ lo then radixSort16 array lo hi else array) := by
  have hle : start data x ≤ start data (x + 1) := start_mono (Nat.le_succ x)
  subst hlo hhi
  split_ifs with hne
  · have hlt : start data x < start data (x + 1) := by omega
    obtain ⟨hperm, hsorted, hother⟩ := radixSort16_sorts hlt (h.placed x hx)
    exact h.next hx hperm hsorted hother
  · have hnone : start data (x + 1) - start data x = 0 := by omega
    refine h.next hx (.refl _) ?_ fun i _ => rfl
    rw [hnone]
    exact .nil

theorem sortBuckets_sorted (n : ℕ) (hx : 0 < x) (hn : x + n = 65536) (h : SortedTo data x array)
    (hpointer : ∀ k < 65536, pointer k = start data (k + 1)) :
    SortedTo data 65536 (sortBuckets pointer n x array) := by
  induction n generalizing x array with
  | zero =>
    obtain rfl : x = 65536 := by omega
    exact h
  | succ n ih =>
    have hprev : pointer (x - 1) = start data x := by rw [hpointer (x - 1) (by omega), Nat.sub_add_cancel hx]
    exact ih (Nat.succ_pos x) (by omega) (h.step (by omega) hprev (hpointer x (by omega)))

theorem unplaced_start (h : ∀ k < 65536, pointer k = start data k) : unplaced data pointer = data.length := by
  have hcongr : unplaced data pointer = ∑ k ∈ Finset.range 65536, (start data (k + 1) - start data k) :=
    Finset.sum_congr rfl fun k hk => by rw [h k (Finset.mem_range.mp hk)]
  have hmono : Monotone (start data) := fun x y hxy => start_mono hxy
  rw [hcongr, Finset.sum_range_tsub hmono, start_end, start_zero, Nat.sub_zero]

theorem radixSort_eq_some {fuel : ℕ} (hfuel : data.length < fuel) :
    ∃ sorted, radixSort fuel data = some sorted ∧ sorted.Perm data ∧ sorted.Pairwise (· ≤ ·) := by
  let array : ℕ → UInt32 := fun i => data.getD i 0
  have hcount (k : ℕ) :
      countKeys bucket array data.length 0 (fun _ => 0) k = data.countP fun v => bucket v == k := by
    rw [countKeys_eq, segment_getD, Nat.zero_add]
  obtain ⟨⟨pointer, last⟩, hsum⟩ :
      ∃ sums, addUp 65535 1 (fun _ => 0) (countKeys bucket array data.length 0 fun _ => 0) = sums := ⟨_, rfl⟩
  have hpointers : ∀ k < 65536, pointer k = start data k ∧ last k = start data (k + 1) := by
    have hzero : ∀ k < 1, 0 = start data k ∧
        countKeys bucket array data.length 0 (fun _ => 0) k = start data (k + 1) := by
      intro k hk
      obtain rfl : k = 0 := by omega
      rw [hcount, start_succ, start_zero, Nat.zero_add]
      exact ⟨rfl, rfl⟩
    have hadd := addUp_eq 65535 Nat.one_pos hzero fun k _ => hcount k
    rwa [hsum] at hadd
  have hplaced : Placed data array pointer := by
    refine ⟨by rw [segment_getD], fun k hk => ?_, fun k hk => ?_, fun k hk i hlo hhi => ?_⟩
    · rw [(hpointers k hk).1]
    · rw [(hpointers k hk).1]
      exact start_mono (Nat.le_succ k)
    · rw [(hpointers k hk).1] at hhi
      omega
  have hleft : unplaced data pointer = data.length := unplaced_start fun k hk => (hpointers k hk).1
  have hless : unplaced data pointer < fuel := by omega
  obtain ⟨array', pointer', hfill, hplaced', hfull⟩ := fillBuckets_placed (x := 0) 65536 rfl hplaced
    (fun k hk => (hpointers k hk).2) (fun k hk => absurd hk (Nat.not_lt_zero k)) hless
  have hnone : SortedTo data 0 array' := by
    refine ⟨hplaced'.perm, fun k hk i hlo hhi => hplaced'.placed k hk i hlo (by rwa [hfull k hk]), fun i j hij hj => ?_⟩
    rw [start_zero] at hj
    omega
  have hfirst := hnone.step (by decide) (start_zero data).symm (hfull 0 (by decide))
  have hall := sortBuckets_sorted (x := 1) 65535 Nat.one_pos rfl hfirst hfull
  obtain ⟨array'', hsort⟩ : ∃ array'', sortBuckets pointer' 65535 1
      (if pointer' 0 ≠ 0 then radixSort16 array' 0 (pointer' 0) else array') = array'' := ⟨_, rfl⟩
  rw [hsort] at hall
  refine ⟨segment array'' 0 data.length, ?_, hall.perm, List.pairwise_iff_getElem.mpr fun i j hi hj hij => ?_⟩
  · unfold radixSort
    -- without `-iota` the sums would be worked out
    simp -iota only
    rw [show (fun i => data.getD i 0) = array from rfl, hsum]
    dsimp only
    rw [hfill]
    exact congrArg (fun a => some (segment a 0 data.length)) hsort
  · rw [length_segment] at hj
    rw [getElem_segment, getElem_segment, Nat.zero_add, Nat.zero_add]
    exact hall.sorted i j hij (by rwa [start_end])

/-- **`radix_sort` sorts**: what is left is in order, and has every number as often as before. -/
theorem radix_sort_sorts (data : List UInt32) :
    ∃ sorted, (∀ fuel > data.length, radixSort fuel data = some sorted) ∧ sorted.Perm data ∧
      sorted.Pairwise (· ≤ ·) := by
  obtain ⟨sorted, -, hperm, hsorted⟩ := radixSort_eq_some (Nat.lt_succ_self data.length)
  refine ⟨sorted, fun fuel hfuel => ?_, hperm, hsorted⟩
  obtain ⟨sorted', hsort, hperm', hsorted'⟩ := radixSort_eq_some hfuel
  rw [hsort, (hperm'.trans hperm.symm).eq_of_pairwise (fun _ _ _ _ h h' => UInt32.le_antisymm h h') hsorted' hsorted]

end

end Statistics

end NfpEstimator
