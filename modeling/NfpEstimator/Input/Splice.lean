import Mathlib

/-!
# Copying from one descriptor to another

`input_splice` copies with `splice`, and with `read` and `write` where the descriptors do not allow it. The first loop
counts the bytes it has copied in `s`; the second one does not, so it ends at the end of the input only, copies what
comes after the bytes it was asked for, and returns the count of the first one (`input_splice_iff`).

There is a second slip in it. When `write` has taken only some of the bytes, those that it has left are to be moved to
the front of the buffer, but they are looked for behind as many bytes as are left, and not behind those that have been
written (`input_splice_wrong`).

How many bytes a call transfers is up to the system, as long as it is one at least.
-/

namespace NfpEstimator

namespace Input

/-- What the system does in the `k`th call of each kind: it transfers so many bytes, if it has been asked for them and
they are there. -/
structure System where
  /-- There is none if `splice` fails with `EINVAL`. -/
  splice : ℕ → Option ℕ
  read : ℕ → ℕ
  write : ℕ → ℕ
  splice_pos : ∀ k n, splice k = some n → 0 < n
  /-- A call never transfers more than 0x7ffff000 bytes, so that the result is an `int`. -/
  splice_lt : ∀ k n, splice k = some n → n < 2 ^ 31
  read_pos : ∀ k, 0 < read k
  write_pos : ∀ k, 0 < write k

/-- The result of a copy: what is returned, what is left of the input, and what has been written. -/
structure Copied (α : Type*) where
  count : ℕ
  rest : List α
  out : List α
  deriving DecidableEq

section
variable {α : Type*} (sys : System) (size : ℕ)

/-- How many bytes are read while there are `bsize` in the buffer. -/
def readSize (k s bsize : ℕ) (rest : List α) : ℕ :=
  let rsize := if 65536 - bsize > size - s then size - s else 65536 - bsize
  if rsize ≠ 0 then min (min (sys.read k) rsize) rest.length else 0

/-- Not more is read than there is, and than there is room for. -/
theorem readSize_le (k s bsize : ℕ) (rest : List α) :
    readSize sys size k s bsize rest ≤ rest.length ∧ readSize sys size k s bsize rest ≤ 65536 - bsize := by
  simp only [readSize]
  split_ifs <;> omega

/-- What `read` leaves in a buffer that holds `bsize` bytes already. -/
def fill (buf : ℕ → α) (bsize : ℕ) (bytes : List α) : ℕ → α :=
  fun i => if i < bsize then buf i else bytes.getD (i - bsize) (buf i)

/-- What `memmove(buf, buf + bsize, bsize)` leaves in the buffer. -/
def move (buf : ℕ → α) (bsize : ℕ) : ℕ → α := fun i => if i < bsize then buf (i + bsize) else buf i

/-- The loop behind `no_splice`. `buf` is the memory from the address `buf` on, the first `bsize` bytes of which are
yet to be written. After a partial `write` the loop may look behind the 65536 bytes of the buffer, and `buf` says what
it finds there. -/
def noSplice (k s : ℕ) (rest out : List α) (buf : ℕ → α) (bsize : ℕ) : Copied α :=
  if s < size then
    let r := readSize sys size k s bsize rest
    let filled := fill buf bsize (rest.take r)
    if bsize + r = 0 then ⟨s, rest, out⟩
    else
      let w := min (sys.write k) (bsize + r)
      let left := bsize + r - w
      noSplice (k + 1) s (rest.drop r) (out ++ (List.range w).map filled)
        (if left ≠ 0 then move filled left else filled) left
  else ⟨s, rest, out⟩
termination_by 2 * rest.length + bsize
decreasing_by
  have hw := sys.write_pos k
  have hr := readSize_le sys size k s bsize rest
  simp only [List.length_drop]
  omega

/-- The loop with `splice`; `buf` is what the buffer of the other loop holds when it is entered. -/
def spliceLoop (buf : ℕ → α) (k s : ℕ) (rest out : List α) : Copied α :=
  if s < size then
    match sys.splice k with
    | none => noSplice sys size 0 s rest out buf 0
    | some n =>
      let r := min (min n (size - s)) rest.length
      if r = 0 then ⟨s, rest, out⟩
      else spliceLoop buf (k + 1) (s + r) (rest.drop r) (out ++ rest.take r)
  else ⟨s, rest, out⟩
termination_by rest.length
decreasing_by
  simp only [List.length_drop]
  omega

/-- `input_splice`, with the bytes that the input has left. -/
def inputSplice (buf : ℕ → α) (input : List α) : Copied α := spliceLoop sys size buf 0 0 input []

end

/-- The first `size` bytes have been copied, or all if there are not so many. -/
structure Exact {α : Type*} (size : ℕ) (input : List α) (c : Copied α) : Prop where
  count : c.count = min size input.length
  out : c.out = input.take size
  rest : c.rest = input.drop size

section
variable {α : Type*} {sys : System} {size k s bsize : ℕ} {input rest out : List α} {buf : ℕ → α}

/-! ### Without `splice` -/

/-- It reads nothing only if nothing is left to read, or the buffer is full. -/
theorem readSize_eq_zero (hs : s < size) (h : readSize sys size k s 0 rest = 0) : rest = [] := by
  have hread := sys.read_pos k
  rw [← List.length_eq_zero_iff]
  simp only [readSize] at h
  split_ifs at h <;> omega

/-- Whatever it copies, it does not count it. -/
theorem noSplice_count : (noSplice sys size k s rest out buf bsize).count = s := by
  induction hn : 2 * rest.length + bsize using Nat.strongRecOn generalizing k rest out buf bsize with
  | _ n ih =>
    rw [noSplice]
    by_cases hs : s < size
    · rw [if_pos hs]
      dsimp only
      by_cases hzero : bsize + readSize sys size k s bsize rest = 0
      · rw [if_pos hzero]
      · rw [if_neg hzero]
        have hw := sys.write_pos k
        have hr := readSize_le sys size k s bsize rest
        refine ih _ ?_ rfl
        rw [List.length_drop]
        omega
    · rw [if_neg hs]

/-- Where nothing is left, nothing is copied. -/
theorem noSplice_nil : noSplice sys size k s [] out buf 0 = ⟨s, [], out⟩ := by
  have hzero : readSize sys size k s 0 ([] : List α) = 0 :=
    Nat.le_zero.mp (readSize_le sys size k s 0 []).1
  rw [noSplice]
  simp only [hzero, Nat.add_zero, if_true, ite_self]

/-- What is written first is what has been read. -/
theorem map_fill {w : ℕ} {bytes : List α} (h : w = bytes.length) : (List.range w).map (fill buf 0 bytes) = bytes := by
  refine List.ext_getElem (by simp [h]) fun i h₁ h₂ => ?_
  simp [fill, h₂]

/-- Where `write` takes all that it is given, everything is copied, whatever the size. -/
theorem noSplice_whole (hwrite : ∀ k, 65536 ≤ sys.write k) (hs : s < size) :
    noSplice sys size k s rest out buf 0 = ⟨s, [], out ++ rest⟩ := by
  induction hn : rest.length using Nat.strongRecOn generalizing k rest out buf with
  | _ n ih =>
    have hr := readSize_le sys size k s 0 rest
    have hw := hwrite k
    rw [noSplice, if_pos hs]
    dsimp only
    by_cases hzero : 0 + readSize sys size k s 0 rest = 0
    · have hread : readSize sys size k s 0 rest = 0 := by omega
      have hrest : rest = [] := readSize_eq_zero hs hread
      rw [if_pos hzero, hrest, List.append_nil]
    · have hleft : 0 + readSize sys size k s 0 rest - min (sys.write k) (0 + readSize sys size k s 0 rest) = 0 := by
        omega
      rw [if_neg hzero, hleft, ih _ ?_ rfl, map_fill, List.append_assoc, List.take_append_drop]
      · rw [List.length_take]
        omega
      · rw [List.length_drop]
        omega

/-! ### With `splice` -/

/-- How many bytes `n` calls of `splice` are ready to transfer, from the `k`th on. -/
def System.ready (sys : System) (k n : ℕ) : ℕ := ((List.range n).map fun i => (sys.splice (k + i)).getD 0).sum

/-- No call fails, from the `k`th on, before `n` bytes have been transferred. -/
def System.Splices (sys : System) (k n : ℕ) : Prop := ∀ j, sys.splice (k + j) = none → n ≤ sys.ready k j

theorem ready_succ (n : ℕ) : sys.ready k (n + 1) = (sys.splice k).getD 0 + sys.ready (k + 1) n := by
  simp only [System.ready, List.range_succ_eq_map, List.map_cons, List.map_map, List.sum_cons, Nat.add_zero,
    Function.comp_def, Nat.add_assoc, Nat.add_comm 1]

theorem splices_zero : sys.Splices k 0 := fun _ _ => Nat.zero_le _

/-- What one call transfers is not needed of the later ones. -/
theorem splices_succ {n r : ℕ} (h : sys.splice k = some r) : sys.Splices (k + 1) (n - r) ↔ sys.Splices k n := by
  constructor
  · intro hs j hj
    cases j with
    | zero => exact absurd (h.symm.trans hj) nofun
    | succ j =>
      have hle := hs j (by rwa [Nat.add_assoc, Nat.add_comm 1])
      rw [ready_succ, h, Option.getD_some]
      omega
  · intro hs j hj
    have hle := hs (j + 1) (by rwa [← Nat.add_assoc, Nat.add_right_comm])
    rw [ready_succ, h, Option.getD_some] at hle
    omega

/-- One call of `splice` that transfers something. -/
theorem spliceLoop_some {r : ℕ} (hs : s < size) (hr : sys.splice k = some r) (hlen : s < input.length) :
    spliceLoop sys size buf k s (input.drop s) (input.take s) =
      spliceLoop sys size buf (k + 1) (s + min r (min size input.length - s))
        (input.drop (s + min r (min size input.length - s))) (input.take (s + min r (min size input.length - s))) := by
  have hpos := sys.splice_pos k r hr
  have hmin : min (min r (size - s)) (input.drop s).length = min r (min size input.length - s) := by
    rw [List.length_drop]
    omega
  rw [spliceLoop, if_pos hs]
  simp only [hr]
  rw [hmin, if_neg (by omega), List.drop_drop, List.take_add]

/-- Everything has been copied. -/
theorem spliceLoop_end (hs : s = min size input.length) :
    spliceLoop sys size buf k s (input.drop s) (input.take s) =
      ⟨min size input.length, input.drop size, input.take size⟩ := by
  have hexact : (⟨s, input.drop s, input.take s⟩ : Copied α) =
      ⟨min size input.length, input.drop size, input.take size⟩ := by
    rw [hs, ← List.drop_eq_drop_min, ← List.take_eq_take_min]
  rw [← hexact, spliceLoop]
  by_cases hsize : s < size
  · have hrest : input.drop s = [] := List.drop_eq_nil_of_le (by omega)
    rw [if_pos hsize, hrest]
    cases hr : sys.splice k with
    | none =>
      simp only
      exact noSplice_nil
    | some r => simp only [List.length_nil, Nat.min_zero, if_true]
  · rw [if_neg hsize]

/-- The loop, when the first `s` bytes have been copied and no call fails. -/
theorem spliceLoop_exact (hs : s ≤ min size input.length) (h : sys.Splices k (min size input.length - s)) :
    spliceLoop sys size buf k s (input.drop s) (input.take s) =
      ⟨min size input.length, input.drop size, input.take size⟩ := by
  induction hn : min size input.length - s using Nat.strongRecOn generalizing k s with
  | _ n ih =>
    rcases Nat.eq_or_lt_of_le hs with heq | hlt
    · exact spliceLoop_end heq
    · cases hr : sys.splice k with
      | none =>
        have hle := h 0 hr
        simp only [System.ready, List.range_zero, List.map_nil, List.sum_nil] at hle
        omega
      | some r =>
        have hpos := sys.splice_pos k r hr
        rw [spliceLoop_some (by omega) hr (by omega)]
        refine ih _ ?_ (by omega) ?_ rfl
        · omega
        · rw [← splices_succ hr] at h
          rwa [show min size input.length - (s + min r (min size input.length - s)) =
            min size input.length - s - r by omega]

/-- If one fails, the rest is not counted. -/
theorem spliceLoop_short (hs : s ≤ min size input.length) (h : ¬ sys.Splices k (min size input.length - s)) :
    (spliceLoop sys size buf k s (input.drop s) (input.take s)).count < min size input.length := by
  induction hn : min size input.length - s using Nat.strongRecOn generalizing k s with
  | _ n ih =>
    rcases Nat.eq_or_lt_of_le hs with heq | hlt
    · rw [heq, Nat.sub_self] at h
      exact absurd splices_zero h
    · cases hr : sys.splice k with
      | none =>
        have hsize : s < size := by omega
        rw [spliceLoop, if_pos hsize]
        simp only [hr]
        rw [noSplice_count]
        exact hlt
      | some r =>
        have hpos := sys.splice_pos k r hr
        rw [spliceLoop_some (by omega) hr (by omega)]
        refine ih _ ?_ (by omega) ?_ rfl
        · omega
        · rw [← splices_succ hr] at h
          rwa [show min size input.length - (s + min r (min size input.length - s)) =
            min size input.length - s - r by omega]

/-- **It copies what it is asked for, exactly if no call of `splice` fails before all of it has been copied.** -/
theorem input_splice_iff {α : Type*} (sys : System) (size : ℕ) (buf : ℕ → α) (input : List α) :
    Exact size input (inputSplice sys size buf input) ↔ sys.Splices 0 (min size input.length) := by
  have hstart : inputSplice sys size buf input = spliceLoop sys size buf 0 0 (input.drop 0) (input.take 0) := rfl
  rw [hstart]
  constructor
  · intro h
    by_contra hne
    exact absurd h.count (Nat.ne_of_lt (spliceLoop_short (Nat.zero_le _) hne))
  · intro h
    rw [spliceLoop_exact (Nat.zero_le _) h]
    exact ⟨rfl, rfl, rfl⟩

/-- Descriptors that do not allow `splice`; reading gives all that is asked for, and writing takes `w` bytes. -/
def noSplices (w : ℕ) (hw : 0 < w) : System where
  splice _ := none
  read _ := 65536
  write _ := w
  splice_pos _ _ h := absurd h (by simp)
  splice_lt _ _ h := absurd h (by simp)
  read_pos _ := by decide
  write_pos _ := hw

/-- Two of three bytes are to be copied, and all three are. Where `write` takes one byte at a time, the second of three
bytes is lost, and a byte is written that has never been read. -/
theorem input_splice_wrong :
    (inputSplice (noSplices 65536 (by decide)) 2 (fun _ => 0) [1, 2, 3] = ⟨0, [], [1, 2, 3]⟩ ∧
      ¬ Exact 2 [1, 2, 3] (inputSplice (noSplices 65536 (by decide)) 2 (fun _ => 0) [1, 2, 3])) ∧
    (inputSplice (noSplices 1 (by decide)) 3 (fun _ => 0) [1, 2, 3] = ⟨0, [], [1, 3, 0]⟩ ∧
      ¬ Exact 3 [1, 2, 3] (inputSplice (noSplices 1 (by decide)) 3 (fun _ => 0) [1, 2, 3])) := by
  have hall : inputSplice (noSplices 65536 (by decide)) 2 (fun _ => 0) [1, 2, 3] = ⟨0, [], [1, 2, 3]⟩ := by
    rw [inputSplice, spliceLoop, if_pos (by decide)]
    exact noSplice_whole (fun _ => le_rfl) (by decide)
  have hone : inputSplice (noSplices 1 (by decide)) 3 (fun _ => 0) [1, 2, 3] = ⟨0, [], [1, 3, 0]⟩ := by
    rw [inputSplice, spliceLoop, if_pos (by decide)]
    simp [noSplices, noSplice, readSize, fill, move, List.range_succ]
  refine ⟨⟨hall, fun h => ?_⟩, hone, fun h => ?_⟩
  · rw [hall] at h
    exact absurd h.count (by decide)
  · rw [hone] at h
    exact absurd h.out (by decide)

end

end Input

end NfpEstimator
