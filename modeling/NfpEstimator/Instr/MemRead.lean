import NfpEstimator.Expr.Sharing
import NfpEstimator.Instr.MemWrite

/-!
# Reads of memory

`mem` with `read32_swap` puts words of memory into transfer registers. With `indirect_ref` the count is symbolic:
every register that could be read gets a conditional expression.

The main result is that the registers below the count get their words, and that all others keep what they have
(`indirect_read`).
-/

namespace NfpEstimator

open Bytes

variable {A B V : ℕ} {a b offset src ref x' y : Bvexpr} {env : Env} {array : String} {n k x : ℕ} {st : Exec} {s : Step}
  {count : ℕ × Bool}

/-! ### Addresses -/

theorem bvadd_pointer (h : bvaddRule B a b = .pointer V array x' y) :
    bvadd B a b = .pointer B V array (bvadd B x' y) := by
  conv_lhs => unfold bvadd
  split <;> simp_all

/-- A constant is added to the offset of an address. -/
theorem castPtr_bvadd (ho : Typed 32 offset) (hp : offset.extPointer = false) (c : ℕ) :
    ∃ o, castPtr 32 8 (bvadd 32 (.pointer 32 8 array offset) (constant 32 c)) = some (array, o) ∧
      Computes 32 (fun env => (offset.eval env + c) % 2 ^ 32) o := by
  have hnone : castConstant 32 (.pointer 32 8 array offset) = none := rfl
  have hptr : castPtr 32 8 (constant 32 c) = none := rfl
  have hself : castPtr 32 8 (.pointer 32 8 array offset) = some (array, offset) := rfl
  by_cases hzero : castConstant 32 (constant 32 c) = some 0
  · have hrule : bvaddRule 32 (.pointer 32 8 array offset) (constant 32 c) = .done (.pointer 32 8 array offset) := by
      simp [bvaddRule, bvaddConstant, hnone, hzero]
    have hc : c % 2 ^ 32 = 0 := Option.some.inj hzero
    refine ⟨offset, by rw [bvadd_done hrule]; rfl, ho.computes.congr fun env => ?_⟩
    rw [← Nat.add_mod_mod, hc, Nat.add_zero, Nat.mod_eq_of_lt (ho.eval_lt env)]
  · have hrule : bvaddRule 32 (.pointer 32 8 array offset) (constant 32 c) =
        .pointer 8 array offset (constant 32 c) := by
      simp [bvaddRule, bvaddConstant, bvaddPointer, hnone, hzero, hptr, hself]
    exact ⟨_, by rw [bvadd_pointer hrule]; rfl, offset_computes ho hp c⟩

/-! ### Words -/

/-- The word of memory at an address. -/
def wordAt (m : ℕ → ℕ) (i : ℕ) : ℕ := word fun r => m ((i + r) % 2 ^ 32)

/-- Four bytes, one in front of the other. -/
theorem concatBytes_computes {s : ℕ → Bvexpr} {b : Env → ℕ → ℕ} (h : ∀ r < 4, Computes 8 (fun env => b env r) (s r)) :
    Computes 32 (fun env => word (b env)) (concat 8 24 (s 3) (concat 8 16 (s 2) (concat 8 8 (s 1) (s 0)))) := by
  have h0 := h 0 (by decide)
  have h1 := h 1 (by decide)
  have h2 := h 2 (by decide)
  have h3 := h 3 (by decide)
  have h10 := concat_computes h1.typed h0.typed
  have h210 := concat_computes h2.typed h10.typed
  refine (concat_computes h3.typed h210.typed).congr fun env => ?_
  rw [word, h3.eval, h210.eval, h2.eval, h10.eval, h1.eval, h0.eval]

/-- **What is read is a word of memory.** -/
theorem read32Swap_spec {o : Obj} {i : ℕ} (ho : Typed 32 offset) (hp : offset.extPointer = false)
    (ha : (st.array8 o array).Typed 32 8) :
    Computes 32 (fun env => wordAt ((st.array8 o array).bytes env) (offset.eval env + 4 * i))
        (read32Swap (.pointer 32 8 array offset) i st o).1 ∧
      (read32Swap (.pointer 32 8 array offset) i st o).2 = i + 1 := by
  have hk : ∀ k, ∃ o, castPtr 32 8 (bvadd 32 (.pointer 32 8 array offset) (constant 32 (i * 4 + k))) = some (array, o) ∧
      Computes 32 (fun env => (offset.eval env + (i * 4 + k)) % 2 ^ 32) o := fun k => castPtr_bvadd ho hp (i * 4 + k)
  choose c hc hcomputes using hk
  simp only [read32Swap, hc]
  refine ⟨?_, trivial⟩
  refine (concatBytes_computes (s := fun r => select 32 8 (st.array8 o array) (c r)) fun r _ => ?_)
  refine (select_computes ha (hcomputes r).typed).congr fun env => ?_
  rw [(hcomputes r).eval, Bvarray.bytes, Nat.mul_comm, Nat.add_assoc]

/-! ### Transfer registers -/

theorem xferInLocation_injective : Function.Injective xferInLocation := by
  intro x y h
  exact Defs.toString_injective (by simpa [xferInLocation] using h)

/-- The last update of a register is what it holds. -/
theorem storeAll_registers_last {us : List Update} {q : ℕ} {l : String} {e : Bvexpr} (hq : us[q]? = some (.reg l e))
    (h : ∀ q' u, q < q' → us[q']? = some u → ∀ e, u ≠ .reg l e) (st : Exec) :
    (st.storeAll us).registers l = some e := by
  induction us generalizing st q with
  | nil => exact nomatch hq
  | cons u us ih =>
    cases q with
    | zero =>
      obtain rfl := Option.some.inj hq
      have hrest : ∀ u ∈ us, ∀ e, u ≠ .reg l e := by
        intro u hu
        obtain ⟨q', hq'⟩ := List.mem_iff_getElem?.mp hu
        exact h (q' + 1) u (Nat.succ_pos _) hq'
      rw [Exec.storeAll_cons, storeAll_registers _ hrest]
      exact Function.update_self ..
    | succ q => exact ih hq (fun q' u hlt hu => h (q' + 1) u (Nat.succ_lt_succ hlt) hu) _

/-- What the transfer register gets that is the `k`-th one. -/
def readValue (f : Fresh) (src : Bvexpr) (indirectRef : Bool) (st : Exec) (k x : ℕ) : Bvexpr :=
  let r := (read32Swap src k st (f.obj (16 + 3 * k))).1
  if indirectRef then
    Bvexpr.ite 32 (bvugt 32 (indirectCount st (f.obj (17 + 3 * k))) (constant 32 k)) r
      (st.reg (f.obj (18 + 3 * k)) (xferInLocation x))
  else r

/-- The loop over the transfer registers. -/
theorem readXfers_eq {f : Fresh} {indirectRef : Bool} (h : ∀ k o, (read32Swap src k st o).2 = k + 1) (xs : List ℕ) :
    readXfers f src indirectRef st k k xs =
      xs.mapIdx fun q x => .reg (xferInLocation x) (readValue f src indirectRef st (k + q) x) := by
  induction xs generalizing k with
  | nil => rfl
  | cons x xs ih =>
    rw [readXfers, List.mapIdx_cons, h, ih]
    simp only [readValue, Nat.add_zero, Nat.add_right_comm k 1, Nat.add_assoc]

/-- The value of a transfer register after it has been read. -/
theorem readValue_eval {f : Fresh} (ho : Typed 32 offset) (hp : offset.extPointer = false)
    (hprev : ∀ o, Typed 32 (st.reg o Hreg.prevAlu.location)) (ha : ∀ o, (st.array8 o array).Typed 32 8)
    (hk : k < 2 ^ 32) : (readValue f (.pointer 32 8 array offset) count.2 st k x).eval env =
      if count.2 = false ∨ k < (st.reg (f.obj (17 + 3 * k)) Hreg.prevAlu.location).eval env >>> 8 + 1 then
        wordAt ((st.array8 (f.obj (16 + 3 * k)) array).bytes env) (offset.eval env + 4 * k)
      else (st.reg (f.obj (18 + 3 * k)) (xferInLocation x)).eval env := by
  have hread := (read32Swap_spec (i := k) ho hp (ha (f.obj (16 + 3 * k)))).1.eval env
  obtain ⟨refCnt, indirectRef⟩ := count
  cases indirectRef with
  | false => exact hread
  | true =>
    have hcount := indirectCount_computes (hprev (f.obj (17 + 3 * k)))
    have hgt := (bvugt_decides hcount.typed (typed_constant 32 k)).eval env
    rw [hcount.eval, constant_eval, Nat.mod_eq_of_lt hk] at hgt
    rw [readValue, if_pos rfl, Bvexpr.ite_eval, hgt, hread]
    by_cases hlt : k < (st.reg (f.obj (17 + 3 * k)) Hreg.prevAlu.location).eval env >>> 8 + 1 <;> simp [hlt]

/-! ### The instruction -/

/-- The first transfer register, the count and the address of a read of memory. -/
def Operation.memReads (f : Fresh) (st : Exec) : Operation → Option (ℕ × (ℕ × Bool) × Bvexpr)
  | .memRead _ xfer src1 sc1 src2 sc2 refCnt indirectRef _ =>
    some (xfer, (refCnt, indirectRef), memAddress f src1 sc1 src2 sc2 st)
  | _ => none

theorem apply_memReads [PastEnd] (hsat : st.isUnsat = false)
    (hs : s.n.memReads s.fresh st = some (x, count, src)) :
    st.apply s = (st.elapse s.n.instr s.i s.branchtrue).storeDue.storeAll
      (readXfers s.fresh src count.2 st 0 0 (xfers x (if count.2 then refCntMax else count.1))) := by
  obtain ⟨n, i, l, b, f⟩ := s
  cases n with
  | memRead id x' src1 sc1 src2 sc2 refCnt indirectRef ctxSwap =>
    obtain ⟨rfl, rfl, rfl⟩ : x' = x ∧ (refCnt, indirectRef) = count ∧ memAddress f src1 sc1 src2 sc2 st = src := by
      simpa [Operation.memReads] using hs
    rw [apply_eq hsat (by simp [Operation.instr, Instr.type])]
    rfl
  | _ => cases hs

/-- A register that no other one overwrites. -/
theorem apply_memReads_reg [PastEnd] {q : ℕ} (hsat : st.isUnsat = false)
    (hs : s.n.memReads s.fresh st = some (x, count, src)) (hsrc : ∀ k o, (read32Swap src k st o).2 = k + 1)
    (hq : q < Nat.max 1 (if count.2 then refCntMax else count.1))
    (hlast : Nat.max 1 (if count.2 then refCntMax else count.1) ≤ q + 2 ^ 8) (o : Obj) :
    (st.apply s).reg o (xferInLocation ((x + q) % 2 ^ 8)) =
      readValue s.fresh src count.2 st q ((x + q) % 2 ^ 8) := by
  have hget : ∀ q < Nat.max 1 (if count.2 then refCntMax else count.1),
      (xfers x (if count.2 then refCntMax else count.1))[q]? = some ((x + q) % 2 ^ 8) := by
    intro q hq
    simp [xfers, hq]
  rw [Exec.reg, apply_memReads hsat hs, readXfers_eq hsrc]
  rw [storeAll_registers_last (q := q) (e := readValue s.fresh src count.2 st q ((x + q) % 2 ^ 8))]
  · rfl
  · rw [List.getElem?_mapIdx, hget q hq, Option.map_some, Nat.zero_add]
  · intro q' u hlt hu e he
    rw [List.getElem?_mapIdx, Option.map_eq_some_iff] at hu
    obtain ⟨y, hy, rfl⟩ := hu
    have hq' := (List.getElem?_eq_some_iff.mp hy).1
    rw [length_xfers] at hq'
    have hsame := xferInLocation_injective (Update.reg.inj he).1
    rw [getElem?_xfers hy] at hsame
    omega

/-- **With `indirect_ref` the registers below the count get the words of memory**, and everything else that is no
register of its own keeps what it holds. -/
theorem indirect_read [PastEnd] {refCnt prevAlu : ℕ} (hsat : st.isUnsat = false) (hst : st.DefersHreg)
    (hs : s.n.memReads s.fresh st = some (x, (refCnt, true), .pointer 32 8 array offset)) (ho : Typed 32 offset)
    (hp : offset.extPointer = false) (hprev : ∀ o, Typed 32 (st.reg o Hreg.prevAlu.location))
    (ha : ∀ o, (st.array8 o array).Typed 32 8) (env : Env)
    (hvalue : ∀ k, (st.reg (s.fresh.obj k) Hreg.prevAlu.location).eval env = prevAlu) :
    (∀ q < refCntMax, ∀ o, ((st.apply s).reg o (xferInLocation ((x + q) % 2 ^ 8))).eval env =
      if q < prevAlu >>> 8 + 1 then
        wordAt ((st.array8 (s.fresh.obj (16 + 3 * q)) array).bytes env) (offset.eval env + 4 * q)
      else (st.reg (s.fresh.obj (18 + 3 * q)) (xferInLocation ((x + q) % 2 ^ 8))).eval env) ∧
    ∀ l, (∀ h : Hreg, l ≠ h.location) → (∀ q < refCntMax, l ≠ xferInLocation ((x + q) % 2 ^ 8)) →
      (st.apply s).registers l = st.registers l := by
  have hsrc : ∀ k o, (read32Swap (.pointer 32 8 array offset) k st o).2 = k + 1 :=
    fun k o => (read32Swap_spec ho hp (ha o)).2
  refine ⟨fun q hq o => ?_, fun l hl hx => ?_⟩
  · have h32 : q < 32 := hq
    rw [apply_memReads_reg hsat hs hsrc hq (by simp [refCntMax]) o, readValue_eval ho hp hprev ha (by omega), hvalue]
    simp
  · have hst' : (st.elapse s.n.instr s.i s.branchtrue).DefersHreg := hst
    rw [apply_memReads hsat hs, readXfers_eq hsrc, storeAll_registers, hst'.storeDue_registers fun h _ => hl h]
    · rfl
    · intro u hu e he
      obtain ⟨q, hq, rfl⟩ := List.mem_mapIdx.mp hu
      have hlt : q < refCntMax := by rwa [length_xfers] at hq
      have hget := getElem?_xfers (List.getElem?_eq_getElem hq)
      exact hx q hlt ((Update.reg.inj he).1.symm.trans (by rw [hget]))

/-- A read from the address of the packet. -/
def packetRead (count : ℕ × Bool) : Step :=
  ⟨.memRead 0 0 (.gpr ⟨.A, 0⟩) none (.constant 0) none count.1 count.2 none, ⟨0, 0⟩, 0, false, .numbered 0⟩

theorem packetRead_memReads (prevAlu : ℕ) (count : ℕ × Bool) :
    (packetRead count).n.memReads (packetRead count).fresh (packetState prevAlu) =
      some (0, count, .pointer 32 8 "packet" (constant 32 16)) := by
  simp only [packetRead, Operation.memReads, memAddress, Src.read, packetState_reg, ShiftCntl.calculateOpt]
  rw [bvadd_done rfl]

/-- Two words of a memory that holds 0, 1, 2 and so on are read. -/
theorem indirect_read_second :
    let _ : PastEnd := ⟨fun _ => true⟩
    let env := { Env.const 0 with undefArray := fun _ _ _ i => i }
    ∀ o, (((packetState 0x100).apply (packetRead (0, true))).reg o (xferInLocation 1)).eval env = 0x17161514 := by
  intro _ env o
  have h := @indirect_read (constant 32 16) "packet" 0 (packetState 0x100) (packetRead (0, true)) _ 0 0x100 rfl
    (initialState_defersHreg _ _ (by simp)) (packetRead_memReads ..) (typed_constant 32 16) rfl
    (fun o => packetState_typed 0x100 o _) (fun o => ⟨trivial, rfl⟩) env
    (fun k => by rw [(packetState_reg _ _).2]; rfl)
  exact (h.1 1 (by decide) o).trans (by decide)

/-! ### Words that are written and read -/

/-- Which bytes `write32_swap` leaves out, or writes besides: it takes the count for one of bytes. -/
theorem written32_ne_iff {i : ℕ} (hdirect : count.2 = false → n = count.1 ∧ 1 ≤ n)
    (hindirect : count.2 = true → n ≤ refCntMax) :
    written (Nat.max 1 (MemWriteOp.write32Swap.xfers (if count.2 then refCntMax else count.1))) n i ≠
        decide (i < 4 * n) ↔
      n ≤ i ∧ i < 4 * n ∧ i % 4 ≠ 0 ∨ count.2 = true ∧ 4 * n ≤ i ∧ i < 4 * refCntMax ∧ i % 4 = 0 := by
  have hbool : ∀ {p q : Bool}, p ≠ q ↔ ¬ (p = true ↔ q = true) := by decide
  rw [hbool]
  simp only [written, Bool.and_eq_true, Bool.or_eq_true, decide_eq_true_eq, beq_iff_eq]
  obtain ⟨refCnt, indirectRef⟩ := count
  cases indirectRef with
  | true =>
    have hle := hindirect rfl
    have hR : Nat.max 1 (MemWriteOp.write32Swap.xfers refCntMax) = 32 := by decide
    simp only [if_true, hR, true_and]
    unfold refCntMax at hle ⊢
    omega
  | false =>
    obtain ⟨rfl, h1⟩ := hdirect rfl
    have hR : Nat.max 1 (MemWriteOp.write32Swap.xfers n) = n := Nat.max_eq_right h1
    simp only [Bool.false_eq_true, if_false, hR, false_and, or_false]
    omega

/-- A word whose bytes are in a row is there. -/
theorem wordAt_patch {v : ℕ → ℕ} {m : ℕ → ℕ} {o q : ℕ} (hv : v q < 2 ^ 32) (hq : q < n) (hn : 4 * n ≤ 2 ^ 32) :
    wordAt (patch (2 ^ 32) o (fun i => decide (i < 4 * n)) (fun i => byte (v (i / 4)) (i % 4)) m) (o + 4 * q) =
      v q := by
  refine (word_congr fun r hr => ?_).trans (word_byte hv)
  rw [Nat.add_assoc, patch_address (by omega), if_pos (decide_eq_true (by omega)),
    show (4 * q + r) / 4 = q by omega, show (4 * q + r) % 4 = r by omega]

/-- **Words that are written to memory are there, and are read again, exactly if the bytes that are left out, or are
written besides, are there already.** -/
theorem write32_read32_iff [PastEnd] {s' : Step} {count' : ℕ × Bool} {offset' : Bvexpr} (hsat : st.isUnsat = false)
    (hs : s.n.memWritten s.fresh st = some (.write32Swap, x, count, .pointer 32 8 array offset))
    (hs' : s'.n.memReads s'.fresh (st.apply s) = some (k, count', .pointer 32 8 array offset'))
    (ho : Typed 32 offset ∧ Typed 32 offset') (hp : offset.extPointer = false ∧ offset'.extPointer = false)
    (hregs : ∀ o l, Typed 32 (st.reg o l)) (hprev' : ∀ o, Typed 32 ((st.apply s).reg o Hreg.prevAlu.location))
    (ha : ∀ o, (st.array8 o array).Typed 32 8) (env : Env) :
    let n := transfers ((st.reg (s.fresh.obj 4) Hreg.prevAlu.location).eval env) count.1 count.2
    let m := (st.array8 (s.fresh.obj 5) array).bytes env
    let v := fun q => (st.reg (s.fresh.obj (16 + 2 * q)) (xferOutLocation ((x + q) % 2 ^ 8))).eval env
    let b := fun i => byte (v (i / 4)) (i % 4)
    -- the same address and the same count
    offset'.eval env = offset.eval env → count'.2 = count.2 →
    (∀ o, transfers (((st.apply s).reg o Hreg.prevAlu.location).eval env) count'.1 count'.2 = n) →
    (count.2 = false → 1 ≤ n ∧ 4 * n < 2 ^ 32) → (count.2 = true → n ≤ refCntMax) →
    (((∀ o, ((st.apply s).array8 o array).bytes env =
          patch (2 ^ 32) (offset.eval env) (fun i => decide (i < 4 * n)) b m) ∧
        -- a register of which there are several is the last one of them
        ∀ q < n, n ≤ q + 2 ^ 8 → ∀ o,
          (((st.apply s).apply s').reg o (xferInLocation ((k + q) % 2 ^ 8))).eval env = v q) ↔
      ∀ i < 2 ^ 32,
        n ≤ i ∧ i < 4 * n ∧ i % 4 ≠ 0 ∨ count.2 = true ∧ 4 * n ≤ i ∧ i < 4 * refCntMax ∧ i % 4 = 0 →
          m ((offset.eval env + i) % 2 ^ 32) = b i) := by
  intro n m v b hsame hkind hcount hdirect hindirect
  have hn : count.2 = false → n = count.1 := fun h => if_neg (by rw [h]; decide)
  have hR : 4 * Nat.max 1 (MemWriteOp.write32Swap.xfers (if count.2 then refCntMax else count.1)) < 2 ^ 32 := by
    show 4 * max 1 (if count.2 then refCntMax else count.1) < 2 ^ 32
    split_ifs with h
    · decide
    · have hd := hdirect (Bool.not_eq_true _ ▸ h)
      have hd' := hn (Bool.not_eq_true _ ▸ h)
      omega
  have hlt : count.2 = false → count.1 < 2 ^ 32 := by
    intro h
    have hfit := hdirect h
    have hcount := hn h
    omega
  have hiff := apply_memWritten_iff (v := v) (W := fun i => decide (i < 4 * n)) hsat hs (by decide) ho.1 hp.1 hregs
    hlt (fun q => rfl) hR
  have hwritten := hiff.trans (forall₂_congr fun i _ => by
    rw [written32_ne_iff (fun h => ⟨hn h, (hdirect h).1⟩) hindirect])
  rw [← hwritten]
  refine and_iff_left_of_imp fun h q hq hlast o => ?_
  have hfit : 4 * n < 2 ^ 32 := by
    cases hc : count.2 with
    | false => exact (hdirect hc).2
    | true =>
      have hle : n ≤ 32 := hindirect hc
      omega
  have hsat' := apply_isUnsat hsat (memWritten_type hs)
  have ha' : ∀ o, ((st.apply s).array8 o array).Typed 32 8 := by
    intro o
    rw [apply_memWritten_array hsat hs]
    exact writeXfers_typed (by decide) hregs ho.1 hp.1 (refCount_computes (hregs _ _) hlt).typed (ha _)
  have hsrc : ∀ k o, (read32Swap (.pointer 32 8 array offset') k (st.apply s) o).2 = k + 1 :=
    fun k o => (read32Swap_spec ho.2 hp.2 (ha' o)).2
  have hcount' : ∀ o, count'.2 = false ∧ n = count'.1 ∨
      count'.2 = true ∧ n = ((st.apply s).reg o Hreg.prevAlu.location).eval env >>> 8 + 1 := by
    intro o
    have ho := hcount o
    cases hc : count'.2 with
    | false => exact .inl ⟨rfl, by simpa [transfers, hc] using ho.symm⟩
    | true => exact .inr ⟨rfl, by simpa [transfers, hc] using ho.symm⟩
  have hmax : q < Nat.max 1 (if count'.2 then refCntMax else count'.1) ∧
      Nat.max 1 (if count'.2 then refCntMax else count'.1) ≤ q + 2 ^ 8 := by
    rcases hcount' (s'.fresh.obj 0) with ⟨hc, heq⟩ | ⟨hc, -⟩
    · rw [hc, if_neg Bool.false_ne_true, ← heq]
      exact ⟨hq.trans_le (Nat.le_max_right ..), Nat.max_le.mpr ⟨by omega, hlast⟩⟩
    · have hle : n ≤ 32 := hindirect (hkind ▸ hc)
      have hR : Nat.max 1 refCntMax = 32 := rfl
      rw [hc, if_pos rfl, hR]
      omega
  rw [apply_memReads_reg hsat' hs' hsrc hmax.1 hmax.2, readValue_eval ho.2 hp.2 hprev' ha' (by omega), if_pos, hsame, h]
  · exact wordAt_patch ((hregs _ _).eval_lt env) hq hfit.le
  · rcases hcount' (s'.fresh.obj (17 + 3 * q)) with ⟨hc, -⟩ | ⟨-, hc⟩
    · exact .inl hc
    · exact .inr (hc ▸ hq)

/-- A write leaves the registers alone, if nothing is under way. -/
theorem packetWrite_reg [PastEnd] (prevAlu : ℕ) {op : MemWriteOp} (count : ℕ × Bool) (o : Obj) (l : String) :
    ((packetState prevAlu).apply (packetWrite op count)).reg o l = (packetState prevAlu).reg o l := by
  have hregs : ∀ us : List Update, (∀ u ∈ us, ∀ e, u ≠ .reg l e) → ∀ st : Exec, st.defered = [] →
      (st.storeDue.storeAll us).registers l = st.registers l := by
    intro us hus st hst
    rw [storeAll_registers _ hus]
    simp [Exec.storeDue, hst]
  rw [Exec.reg, apply_memWritten rfl (packetWrite_memWritten ..), hregs _ (by simp)]
  · rfl
  · rfl

theorem packetRead_after [PastEnd] (prevAlu : ℕ) {op : MemWriteOp} (count count' : ℕ × Bool) :
    (packetRead count').n.memReads (packetRead count').fresh ((packetState prevAlu).apply (packetWrite op count)) =
      some (0, count', .pointer 32 8 "packet" (constant 32 16)) := by
  rw [← packetRead_memReads prevAlu count']
  simp only [packetRead, Operation.memReads, memAddress, Src.read, packetWrite_reg, ShiftCntl.calculateOpt]

/-- A 7 that is written to a memory of zeros is read again. -/
theorem write32_read32_iff_seven :
    let _ : PastEnd := ⟨fun _ => true⟩
    let st := (packetState 0).apply (packetWrite .write32Swap (1, false))
    ∀ o, ((st.apply (packetRead (1, false))).reg o (xferInLocation 0)).eval sevens = 7 := by
  intro _ st o
  have h := @write32_read32_iff (constant 32 16) "packet" 0 0 (packetState 0) (packetWrite .write32Swap (1, false))
    (1, false) _ (packetRead (1, false)) (1, false) (constant 32 16) rfl (packetWrite_memWritten ..)
    (packetRead_after ..) ⟨typed_constant 32 16, typed_constant 32 16⟩ ⟨rfl, rfl⟩ (packetState_typed 0)
    (fun o => packetWrite_reg 0 _ o _ ▸ packetState_typed 0 o _) (fun o => ⟨trivial, rfl⟩) sevens rfl rfl
    (fun _ => rfl) (by decide) (by decide)
  have hread := h.mpr fun i _ hi => ?_
  · exact (hread.2 0 (by decide) (by decide) o).trans (packetState_sevens 0 _ _)
  · -- the bytes that are left out are 0 in the register and in memory
    have hi : i = 1 ∨ i = 2 ∨ i = 3 := by
      rcases hi with hi | ⟨hi, -⟩
      · have hn : transfers (((packetState 0).reg ((Fresh.numbered 0).obj 4) Hreg.prevAlu.location).eval sevens) 1
            false = 1 := rfl
        simp only [packetWrite, hn] at hi
        omega
      · cases hi
    rcases hi with rfl | rfl | rfl <;>
      · simp only [packetState_sevens]
        rfl

/-- A 7 that is written to a memory of 0, 1, 2 and so on is not read again: only one byte has been written. -/
theorem write32_read32_wrong :
    let _ : PastEnd := ⟨fun _ => true⟩
    let env := { sevens with undefArray := fun _ _ _ i => i }
    let st := (packetState 0).apply (packetWrite .write32Swap (1, false))
    (∀ o, ((packetState 0).reg o (xferOutLocation 0)).eval env = 7) ∧
      ∀ o, ((st.apply (packetRead (1, false))).reg o (xferInLocation 0)).eval env = 0x13121107 := by
  intro _ env st
  have hreg : ∀ o q, ((packetState 0).reg o (xferOutLocation q)).eval env = 7 := fun o q => by
    rw [packetState_xferOut]
    rfl
  have hs := packetWrite_memWritten 0 .write32Swap (1, false)
  have hbytes : ∀ o, (st.array8 o "packet").bytes env = _ := fun o =>
    apply_memWritten_bytes (v := fun _ => 7) rfl hs (by decide) (typed_constant 32 16) rfl (packetState_typed 0)
      (fun _ => by decide) (fun q => hreg _ _) (by decide) o
  have ha : ∀ o, (st.array8 o "packet").Typed 32 8 := fun o => by
    rw [apply_memWritten_array rfl hs]
    exact writeXfers_typed (by decide) (packetState_typed 0) (typed_constant 32 16) rfl (typed_constant 32 1)
      ⟨trivial, rfl⟩
  refine ⟨fun o => hreg o 0, fun o => ?_⟩
  have hread := apply_memReads_reg (q := 0) (apply_isUnsat rfl (memWritten_type hs))
    (packetRead_after 0 (1, false) (1, false)) (fun k o => (read32Swap_spec (typed_constant 32 16) rfl (ha o)).2)
    (by decide) (by decide) o
  refine (congrArg (Bvexpr.eval env) hread).trans ?_
  rw [readValue_eval (typed_constant 32 16) rfl (fun o => packetWrite_reg 0 _ o _ ▸ packetState_typed 0 o _) ha
    (by decide), if_pos (.inl rfl), hbytes]
  decide

end NfpEstimator
