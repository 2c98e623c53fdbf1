import NfpEstimator.Bytes
import NfpEstimator.Instr.Addition
import NfpEstimator.State.Registers

/-!
# Writes to memory

`mem` with `write8_swap` and `write32_swap`. Both take the transfer registers one after the other and write four bytes
of each: the first one always, the others as far as the count goes (`written`). With `indirect_ref` the count is
symbolic, and there are as many registers as there could be.

The main result is when `write8_swap` writes just the bytes that it is to write (`write8_swap_iff`).
-/

namespace NfpEstimator

open Bytes

variable {a : Bvarray} {o v e offset ref : Bvexpr} {env : Env} {n k M : ℕ} {W : ℕ → Bool} {b m : ℕ → ℕ}

/-! ### Bytes of arrays -/

/-- The bytes of an array. -/
def Bvarray.bytes (env : Env) (a : Bvarray) : ℕ → ℕ := fun j => a.eval env j % 2 ^ 8

theorem store_bytes (ho : Typed 32 o) (hv : Typed 8 v) :
    (store 32 8 a o v).bytes env = Function.update (a.bytes env) (o.eval env) (v.eval env) := by
  funext j
  simp only [Bvarray.bytes, store_eval ho, Function.update_apply]
  split_ifs
  · exact Nat.mod_eq_of_lt (hv.eval_lt env)
  · rfl

theorem ite_bytes {l : Lexpr} {p : Prop} [Decidable p] {a' : Bvarray} (h : l.eval env = decide p) :
    (Bvarray.ite 32 8 l a a').bytes env = if p then a.bytes env else a'.bytes env := by
  funext j
  rw [Bvarray.bytes, Bvarray.ite_eval, h]
  by_cases hp : p <;> simp [hp, Bvarray.bytes]

theorem arrayIte_typed {l : Lexpr} {a' : Bvarray} (hl : l.WF) (ha : a.Typed 32 8) (ha' : a'.Typed 32 8) :
    (Bvarray.ite 32 8 l a a').Typed 32 8 := by
  cases l with
  | boolean p =>
    cases p with
    | true => exact ha
    | false => exact ha'
  | _ => exact ⟨⟨hl, ha, ha'⟩, rfl⟩

/-! ### Counts and offsets -/

/-- How many transfers there are to be, with what `PREV_ALU` holds. -/
def transfers (prevAlu refCnt : ℕ) (indirectRef : Bool) : ℕ := if indirectRef then prevAlu >>> 8 + 1 else refCnt

/-- No address is taken for a number that is shifted. -/
theorem extPointer_bvlshr (e : Bvexpr) : (bvlshr 32 e (constant 32 8)).extPointer = false := by
  have hextend : ∀ e, (extend 8 24 e).extPointer = false := fun e =>
    extPointer_extend (by decide) (by decide) (by decide)
  show (bvlshrConstant 8 32 e).extPointer = false
  fun_cases bvlshrConstant 8 32 e with
  | case1 | case2 | case6 | case8 => rfl
  | case3 X Y a₁ a₂ _ h => exact extPointer_extend (by decide) (by omega) (by omega)
  | case4 | case5 | case7 => exact hextend _

/-- The count of an access with `indirect_ref`. -/
theorem indirectCount_computes {st : Exec} {k : Obj} (hp : Typed 32 (st.reg k Hreg.prevAlu.location)) :
    Computes 32 (fun env => (st.reg k Hreg.prevAlu.location).eval env >>> 8 + 1) (indirectCount st k) := by
  have hshift := bvlshr_computes hp (typed_constant 32 8)
  refine (bvadd_computes hshift.typed (typed_constant 32 1) (extPointer_bvlshr _) rfl).congr fun env => ?_
  have hlt := hp.eval_lt env
  have hone : (constant 32 1).eval env = 1 := constant_eval ..
  have height : (constant 32 8).eval env = 8 := constant_eval ..
  rw [hshift.eval, hone, height, Nat.shiftRight_eq_div_pow]
  omega

theorem offset_computes (ho : Typed 32 offset) (hp : offset.extPointer = false) (k : ℕ) :
    Computes 32 (fun env => (offset.eval env + k) % 2 ^ 32) (bvadd 32 offset (constant 32 k)) :=
  (bvadd_computes ho (typed_constant 32 k) hp rfl).congr fun env => by rw [constant_eval, Nat.add_mod_mod]

/-! ### Four bytes -/

/-- The places of a row of bytes that are written from `R` registers if the count is `n`. -/
def written (R n : ℕ) : ℕ → Bool := fun i => decide (i < 4 * R) && (i % 4 == 0 || decide (i < n))

/-- A byte that is written if the count is large enough. -/
theorem enough_bytes {c : ℕ} (ho : Typed 32 offset) (hp : offset.extPointer = false) (hv : Typed 8 v)
    (hr : Typed 32 ref) (hn : ref.eval env = n) (hk : k < 2 ^ 32) (hc : c < 2 ^ 32) (hb : b k = v.eval env)
    (ha : a.bytes env = patch (2 ^ 32) (offset.eval env) W b m) :
    (Bvarray.ite 32 8 (bvuge 32 ref (constant 32 c)) (store 32 8 a (bvadd 32 offset (constant 32 k)) v) a).bytes env =
      patch (2 ^ 32) (offset.eval env) (fun i => W i || (decide (c ≤ n) && i == k)) b m := by
  have hoff := offset_computes ho hp k
  have hle : (bvuge 32 ref (constant 32 c)).eval env = decide (c ≤ n) := by
    rw [(bvuge_decides hr (typed_constant 32 c)).eval, constant_eval, Nat.mod_eq_of_lt hc, hn]
  rw [ite_bytes hle, store_bytes hoff.typed hv, hoff.eval, ha, ← hb, ite_update_patch hk]

/-- A byte of a register. -/
theorem byte_computes (hv : Typed 32 v) {r : ℕ} (hr : r < 4) :
    Computes 8 (fun env => byte (v.eval env) r) (extract (8 * r + 7) (8 * r) 32 v) := by
  have h := extract_computes (S := 8 * r + 7) (E := 8 * r) hv (by omega) (by omega)
  rwa [show 8 * r + 7 - 8 * r + 1 = 8 by omega] at h

/-- **Four bytes of a register**: the first one is always written. -/
theorem writeBytes_bytes (ho : Typed 32 offset) (hp : offset.extPointer = false) (hv : Typed 32 v)
    (hr : Typed 32 ref) (hn : ref.eval env = n) (hk : 4 * k + 4 < 2 ^ 32)
    (hb : ∀ r < 4, b (4 * k + r) = byte (v.eval env) r)
    (ha : a.bytes env = patch (2 ^ 32) (offset.eval env) (written k n) b m) :
    (writeBytes a offset v (4 * k) ref).1.bytes env =
      patch (2 ^ 32) (offset.eval env) (written (k + 1) n) b m := by
  have hbyte : ∀ r < 4, Computes 8 (fun env => byte (v.eval env) r) (extract (8 * r + 7) (8 * r) 32 v) :=
    fun r hr => byte_computes hv hr
  have hfirst :
      (store 32 8 a (bvadd 32 offset (constant 32 (4 * k + 0))) (extract (8 * 0 + 7) (8 * 0) 32 v)).bytes env =
      patch (2 ^ 32) (offset.eval env) (fun i => written k n i || i == 4 * k + 0) b m := by
    have hoff := offset_computes ho hp (4 * k + 0)
    rw [store_bytes hoff.typed (hbyte 0 (by decide)).typed, hoff.eval, (hbyte 0 (by decide)).eval, ha,
      ← hb 0 (by decide), update_patch (by omega)]
  have hrest : ∀ {r c W a}, r < 4 → c < 2 ^ 32 → a.bytes env = patch (2 ^ 32) (offset.eval env) W b m →
      (Bvarray.ite 32 8 (bvuge 32 ref (constant 32 c))
        (store 32 8 a (bvadd 32 offset (constant 32 (4 * k + r))) (extract (8 * r + 7) (8 * r) 32 v)) a).bytes env =
      patch (2 ^ 32) (offset.eval env) (fun i => W i || (decide (c ≤ n) && i == 4 * k + r)) b m := by
    intro r c W a hlt hc ha
    exact enough_bytes ho hp (hbyte r hlt).typed hr hn (by omega) hc ((hb r hlt).trans ((hbyte r hlt).eval env).symm) ha
  have hlast := hrest (by decide : 3 < 4) hk (hrest (by decide : 2 < 4) (by omega : 4 * k + 3 < 2 ^ 32)
    (hrest (by decide : 1 < 4) (by omega : 4 * k + 2 < 2 ^ 32) hfirst))
  refine hlast.trans (patch_congr fun i _ => ?_)
  rw [Bool.eq_iff_iff]
  simp only [written, Bool.or_eq_true, Bool.and_eq_true, decide_eq_true_eq, beq_iff_eq]
  omega

theorem writeBytes_typed {i : ℕ} (ho : Typed 32 offset) (hp : offset.extPointer = false) (hv : Typed 32 v)
    (hr : Typed 32 ref) (ha : a.Typed 32 8) : (writeBytes a offset v i ref).1.Typed 32 8 := by
  have hstore : ∀ {r a}, r < 4 → Bvarray.Typed 32 8 a →
      (store 32 8 a (bvadd 32 offset (constant 32 (i + r))) (extract (8 * r + 7) (8 * r) 32 v)).Typed 32 8 :=
    fun hlt ha => store_typed ha (offset_computes ho hp _).typed (byte_computes hv hlt).typed
  have hite : ∀ {r c a}, r < 4 → Bvarray.Typed 32 8 a → (Bvarray.ite 32 8 (bvuge 32 ref (constant 32 c))
      (store 32 8 a (bvadd 32 offset (constant 32 (i + r))) (extract (8 * r + 7) (8 * r) 32 v)) a).Typed 32 8 :=
    fun hlt ha => arrayIte_typed (bvuge_decides hr (typed_constant _ _)).wf (hstore hlt ha) ha
  exact hite (by decide) (hite (by decide) (hite (by decide) (hstore (by decide) ha)))

/-! ### All registers -/

/-- **The loop over the transfer registers**, with the values `v` of the registers. -/
theorem writeXfers_bytes {op : MemWriteOp} {f : Fresh} {st : Exec} {v : ℕ → ℕ} {xs : List ℕ} (hop : op ≠ .addImm)
    (hregs : ∀ o l, Typed 32 (st.reg o l)) (ho : Typed 32 offset) (hp : offset.extPointer = false)
    (hr : Typed 32 ref) (hn : ref.eval env = n) (hk : 4 * (k + xs.length) < 2 ^ 32)
    (hv : ∀ q x, xs[q]? = some x → (st.reg (f.obj (16 + 2 * (k + q))) (xferOutLocation x)).eval env = v (k + q))
    (ha : a.bytes env = patch (2 ^ 32) (offset.eval env) (written k n) (fun i => byte (v (i / 4)) (i % 4)) m) :
    (writeXfers f op offset ref st k (4 * k) a xs).bytes env =
      patch (2 ^ 32) (offset.eval env) (written (k + xs.length) n) (fun i => byte (v (i / 4)) (i % 4)) m := by
  induction xs generalizing k a with
  | nil => exact ha
  | cons x xs ih =>
    have hwrite : ∀ a i e o, op.write a offset e i ref o = writeBytes a offset e i ref := by
      intro a i e o
      cases op with
      | addImm => exact absurd rfl hop
      | _ => rfl
    rw [List.length_cons] at hk ⊢
    have hx : (st.reg (f.obj (16 + 2 * k)) (xferOutLocation x)).eval env = v k := hv 0 x rfl
    simp only [writeXfers, hwrite]
    have hstep := writeBytes_bytes (b := fun i => byte (v (i / 4)) (i % 4)) ho hp (hregs (f.obj (16 + 2 * k))
      (xferOutLocation x)) hr hn (by omega) (fun r hr => ?_) ha
    · have ih := ih (k := k + 1) (by omega) (fun q y hq => ?_) hstep
      · rwa [show k + 1 + xs.length = k + (xs.length + 1) by omega] at ih
      · have hy := hv (q + 1) y hq
        rwa [show k + (q + 1) = k + 1 + q by omega] at hy
    · show byte (v ((4 * k + r) / 4)) ((4 * k + r) % 4) = _
      rw [show (4 * k + r) / 4 = k by omega, show (4 * k + r) % 4 = r by omega, hx]


theorem writeXfers_typed {op : MemWriteOp} {f : Fresh} {st : Exec} {i : ℕ} {xs : List ℕ} (hop : op ≠ .addImm)
    (hregs : ∀ o l, Typed 32 (st.reg o l)) (ho : Typed 32 offset) (hp : offset.extPointer = false)
    (hr : Typed 32 ref) (ha : a.Typed 32 8) : (writeXfers f op offset ref st k i a xs).Typed 32 8 := by
  induction xs generalizing k i a with
  | nil => exact ha
  | cons x xs ih =>
    refine ih ?_
    cases op with
    | addImm => exact absurd rfl hop
    | _ => exact writeBytes_typed ho hp (hregs _ _) hr ha

/-! ### The instruction -/

/-- The operation, the first transfer register, the count and the address of a write to memory. -/
def Operation.memWritten (f : Fresh) (st : Exec) : Operation → Option (MemWriteOp × ℕ × (ℕ × Bool) × Bvexpr)
  | .memWrite _ op xfer src1 sc1 src2 sc2 refCnt indirectRef _ =>
    some (op, xfer, (refCnt, indirectRef), memAddress f src1 sc1 src2 sc2 st)
  | _ => none

/-- `ref` of `instr::mem_write::perform`. -/
def refCount (f : Fresh) (st : Exec) (count : ℕ × Bool) : Bvexpr :=
  if count.2 then indirectCount st (f.obj 4) else constant 32 count.1

variable {st : Exec} {s : Step} {op : MemWriteOp} {x : ℕ} {count : ℕ × Bool} {array : String}

theorem memWritten_type {f : Fresh} {address : Bvexpr}
    (hs : s.n.memWritten f st = some (op, x, count, address)) : s.n.instr.type ≠ .BRANCH := by
  obtain ⟨n, i, l, b, f⟩ := s
  cases n with
  | memWrite => simp [Operation.instr, Instr.type]
  | _ => cases hs

theorem apply_memWritten [PastEnd] (hsat : st.isUnsat = false)
    (hs : s.n.memWritten s.fresh st = some (op, x, count, .pointer 32 8 array offset)) :
    st.apply s = (st.elapse s.n.instr s.i s.branchtrue).storeDue.storeAll
      [.mem8 array (writeXfers s.fresh op offset (refCount s.fresh st count) st 0 0 (st.array8 (s.fresh.obj 5) array)
        (xfers x (op.xfers (if count.2 then refCntMax else count.1))))] := by
  obtain ⟨n, i, l, b, f⟩ := s
  cases n with
  | memWrite id op' x' src1 sc1 src2 sc2 refCnt indirectRef ctxSwap =>
    obtain ⟨rfl, rfl, rfl, haddress⟩ : op' = op ∧ x' = x ∧ (refCnt, indirectRef) = count ∧
        memAddress f src1 sc1 src2 sc2 st = .pointer 32 8 array offset := by
      simpa [Operation.memWritten] using hs
    rw [apply_eq hsat (by simp [Operation.instr, Instr.type])]
    simp only [Operation.perform, performWrite, haddress, castPtr, and_self, if_true, refCount]
  | _ => cases hs

/-- The array after a write. -/
theorem apply_memWritten_array [PastEnd] (hsat : st.isUnsat = false)
    (hs : s.n.memWritten s.fresh st = some (op, x, count, .pointer 32 8 array offset)) (k : Obj) :
    (st.apply s).array8 k array = writeXfers s.fresh op offset (refCount s.fresh st count) st 0 0
      (st.array8 (s.fresh.obj 5) array) (xfers x (op.xfers (if count.2 then refCntMax else count.1))) := by
  rw [apply_memWritten hsat hs]
  simp [Exec.array8, Update.store]

theorem refCount_computes {f : Fresh} (hp : Typed 32 (st.reg (f.obj 4) Hreg.prevAlu.location))
    (hcount : count.2 = false → count.1 < 2 ^ 32) :
    Computes 32 (fun env => transfers ((st.reg (f.obj 4) Hreg.prevAlu.location).eval env) count.1 count.2)
      (refCount f st count) := by
  obtain ⟨refCnt, indirectRef⟩ := count
  cases indirectRef with
  | true => exact indirectCount_computes hp
  | false => exact computes_constant (hcount rfl)

theorem length_xfers (x max : ℕ) : (xfers x max).length = Nat.max 1 max := by simp [xfers]

/-- The transfer registers follow each other. -/
theorem getElem?_xfers {max q y : ℕ} (h : (xfers x max)[q]? = some y) : y = (x + q) % 2 ^ 8 := by
  obtain ⟨hq, rfl⟩ := List.getElem?_eq_some_iff.mp h
  simp [xfers]

/-- The bytes after a write from the values `v` of the registers. -/
theorem apply_memWritten_bytes [PastEnd] {v : ℕ → ℕ} (hsat : st.isUnsat = false)
    (hs : s.n.memWritten s.fresh st = some (op, x, count, .pointer 32 8 array offset)) (hop : op ≠ .addImm)
    (ho : Typed 32 offset) (hp : offset.extPointer = false) (hregs : ∀ o l, Typed 32 (st.reg o l))
    (hcount : count.2 = false → count.1 < 2 ^ 32)
    (hv : ∀ q, (st.reg (s.fresh.obj (16 + 2 * q)) (xferOutLocation ((x + q) % 2 ^ 8))).eval env = v q)
    (hR : 4 * Nat.max 1 (op.xfers (if count.2 then refCntMax else count.1)) < 2 ^ 32) (k : Obj) :
    ((st.apply s).array8 k array).bytes env =
      patch (2 ^ 32) (offset.eval env)
        (written (Nat.max 1 (op.xfers (if count.2 then refCntMax else count.1)))
          (transfers ((st.reg (s.fresh.obj 4) Hreg.prevAlu.location).eval env) count.1 count.2))
        (fun i => byte (v (i / 4)) (i % 4)) ((st.array8 (s.fresh.obj 5) array).bytes env) := by
  have href := refCount_computes (f := s.fresh) (hregs _ _) hcount
  have hnone : written 0 (transfers ((st.reg (s.fresh.obj 4) Hreg.prevAlu.location).eval env) count.1 count.2) =
      fun _ => false := by
    funext i
    simp [written]
  rw [apply_memWritten_array hsat hs]
  refine (writeXfers_bytes (k := 0) (v := v) (m := (st.array8 (s.fresh.obj 5) array).bytes env) hop hregs ho hp
    href.typed (href.eval env) (by rwa [Nat.zero_add, length_xfers]) (fun q y hq => ?_)
    (by rw [hnone, patch_none])).trans ?_
  · rw [getElem?_xfers hq, Nat.zero_add]
    exact hv q
  · rw [Nat.zero_add, length_xfers]

/-- **Just the bytes of `W` have been written exactly if those that are wrong are there already.** -/
theorem apply_memWritten_iff [PastEnd] {v : ℕ → ℕ} (hsat : st.isUnsat = false)
    (hs : s.n.memWritten s.fresh st = some (op, x, count, .pointer 32 8 array offset)) (hop : op ≠ .addImm)
    (ho : Typed 32 offset) (hp : offset.extPointer = false) (hregs : ∀ o l, Typed 32 (st.reg o l))
    (hcount : count.2 = false → count.1 < 2 ^ 32)
    (hv : ∀ q, (st.reg (s.fresh.obj (16 + 2 * q)) (xferOutLocation ((x + q) % 2 ^ 8))).eval env = v q)
    (hR : 4 * Nat.max 1 (op.xfers (if count.2 then refCntMax else count.1)) < 2 ^ 32) :
    (∀ k, ((st.apply s).array8 k array).bytes env =
        patch (2 ^ 32) (offset.eval env) W (fun i => byte (v (i / 4)) (i % 4))
          ((st.array8 (s.fresh.obj 5) array).bytes env)) ↔
      ∀ i < 2 ^ 32, written (Nat.max 1 (op.xfers (if count.2 then refCntMax else count.1)))
          (transfers ((st.reg (s.fresh.obj 4) Hreg.prevAlu.location).eval env) count.1 count.2) i ≠ W i →
        (st.array8 (s.fresh.obj 5) array).bytes env ((offset.eval env + i) % 2 ^ 32) = byte (v (i / 4)) (i % 4) := by
  have : Nonempty Obj := ⟨.fresh 0⟩
  simp only [apply_memWritten_bytes hsat hs hop ho hp hregs hcount hv hR, forall_const, patch_eq_iff]

/-! ### Bytes -/

/-- Which bytes `write8_swap` writes besides, or instead of, the first `n`. -/
theorem written8_ne_iff {i : ℕ} (hdirect : count.2 = false → 1 ≤ count.1 ∧ count.1 < 2 ^ 32)
    (hindirect : count.2 = true → n ≤ refCntMax) (hn : count.2 = false → n = count.1) :
    written (Nat.max 1 (MemWriteOp.write8Swap.xfers (if count.2 then refCntMax else count.1))) n i ≠ decide (i < n) ↔
      if count.2 then n ≤ i ∧ i < 32 ∧ i % 4 = 0 else 2 ^ 32 ≤ n + 3 ∧ 4 ≤ i ∧ i < n := by
  have hbool : ∀ {p q : Bool}, p ≠ q ↔ ¬ (p = true ↔ q = true) := by decide
  rw [hbool]
  simp only [written, Bool.and_eq_true, Bool.or_eq_true, decide_eq_true_eq, beq_iff_eq]
  obtain ⟨refCnt, indirectRef⟩ := count
  cases indirectRef with
  | true =>
    have hle := hindirect rfl
    have hR : Nat.max 1 (MemWriteOp.write8Swap.xfers refCntMax) = 8 := by decide
    simp only [if_true, hR]
    unfold refCntMax at hle
    omega
  | false =>
    obtain ⟨h1, h32⟩ := hdirect rfl
    obtain rfl : n = refCnt := hn rfl
    simp only [Bool.false_eq_true, if_false, MemWriteOp.xfers]
    have hmax : Nat.max 1 ((n + 3) % 2 ^ 32 / 4) = max 1 ((n + 3) % 2 ^ 32 / 4) := rfl
    rw [hmax]
    omega

/-- **`write8_swap` writes exactly the bytes that it is to write, exactly if those that it writes besides are there
already**: with `indirect_ref` the first bytes of the registers behind the length. -/
theorem write8_swap_iff [PastEnd] (hsat : st.isUnsat = false)
    (hs : s.n.memWritten s.fresh st = some (.write8Swap, x, count, .pointer 32 8 array offset))
    (ho : Typed 32 offset) (hp : offset.extPointer = false) (hregs : ∀ o l, Typed 32 (st.reg o l)) (env : Env) :
    let n := transfers ((st.reg (s.fresh.obj 4) Hreg.prevAlu.location).eval env) count.1 count.2
    let m := (st.array8 (s.fresh.obj 5) array).bytes env
    let v := fun q => (st.reg (s.fresh.obj (16 + 2 * q)) (xferOutLocation ((x + q) % 2 ^ 8))).eval env
    let b := fun i => byte (v (i / 4)) (i % 4)
    (count.2 = false → 1 ≤ count.1 ∧ count.1 < 2 ^ 32) → (count.2 = true → n ≤ refCntMax) →
    ((∀ o, ((st.apply s).array8 o array).bytes env =
        patch (2 ^ 32) (offset.eval env) (fun i => decide (i < n)) b m) ↔
      ∀ i < 2 ^ 32, (if count.2 then n ≤ i ∧ i < 32 ∧ i % 4 = 0 else 2 ^ 32 ≤ n + 3 ∧ 4 ≤ i ∧ i < n) →
        m ((offset.eval env + i) % 2 ^ 32) = b i) := by
  intro n m v b hdirect hindirect
  have hR : 4 * Nat.max 1 (MemWriteOp.write8Swap.xfers (if count.2 then refCntMax else count.1)) < 2 ^ 32 := by
    have hmax : ∀ k, 4 * Nat.max 1 (MemWriteOp.write8Swap.xfers k) < 2 ^ 32 := by
      intro k
      show 4 * max 1 ((k + 3) % 2 ^ 32 / 4) < 2 ^ 32
      omega
    exact hmax _
  have hn : count.2 = false → n = count.1 := fun h => if_neg (by rw [h]; decide)
  have hiff := apply_memWritten_iff (v := v) (W := fun i => decide (i < n)) hsat hs (by decide) ho hp hregs
    (fun h => (hdirect h).2) (fun q => rfl) hR
  refine hiff.trans (forall₂_congr fun i _ => ?_)
  rw [written8_ne_iff hdirect hindirect hn]

/-- A state with the address of a byte in a packet in a register, and with `PREV_ALU`. -/
def packetState (prevAlu : ℕ) : Exec :=
  initialState 0 1500
    [.reg (Gpr.location ⟨.A, 0⟩) (.pointer 32 8 "packet" (constant 32 16)),
      .reg Hreg.prevAlu.location (constant 32 prevAlu)]

/-- A write to this address. -/
def packetWrite (op : MemWriteOp) (count : ℕ × Bool) : Step :=
  ⟨.memWrite 0 op 0 (.gpr ⟨.A, 0⟩) none (.constant 0) none count.1 count.2 none, ⟨0, 0⟩, 0, false, .numbered 0⟩

theorem packetState_reg (prevAlu : ℕ) (o : Obj) :
    (packetState prevAlu).reg o (Gpr.location ⟨.A, 0⟩) = .pointer 32 8 "packet" (constant 32 16) ∧
      (packetState prevAlu).reg o Hreg.prevAlu.location = constant 32 prevAlu := by
  have hne : Gpr.location ⟨.A, 0⟩ ≠ Hreg.prevAlu.location := by decide
  constructor <;>
    simp [Exec.reg, packetState, initialState, Exec.make, Update.store, Function.update, hne]

theorem packetState_typed (prevAlu : ℕ) (o : Obj) (l : String) : Typed 32 ((packetState prevAlu).reg o l) := by
  simp only [Exec.reg, packetState, initialState, Exec.make, Update.store, List.foldl_cons, List.foldl_nil,
    Function.update_apply]
  split_ifs
  · exact typed_constant _ _
  · exact typed_pointer.mpr ⟨rfl, typed_constant _ _⟩
  · exact ⟨trivial, rfl⟩

theorem packetWrite_memWritten (prevAlu : ℕ) (op : MemWriteOp) (count : ℕ × Bool) :
    (packetWrite op count).n.memWritten (packetWrite op count).fresh (packetState prevAlu) =
      some (op, 0, count, .pointer 32 8 "packet" (constant 32 16)) := by
  simp only [packetWrite, Operation.memWritten, memAddress, Src.read, packetState_reg, ShiftCntl.calculateOpt]
  rw [bvadd_done rfl]

theorem packetState_xferOut (prevAlu : ℕ) (o : Obj) (q : ℕ) :
    (packetState prevAlu).reg o (xferOutLocation q) = .undefined 32 o := by
  have hgpr : Gpr.location ⟨.A, 0⟩ ≠ xferOutLocation q := by
    intro he
    have hg : (Gpr.location ⟨.A, 0⟩).toList.head? = some 'g' := by decide
    simp [he, xferOutLocation] at hg
  have hprev := Hreg.prevAlu.location_ne_xferOut q
  simp [Exec.reg, packetState, initialState, Exec.make, Update.store, hgpr.symm, hprev.symm]

/-- Where nothing is known, transfer registers hold 7 and memory holds 0. -/
def sevens : Env := { Env.const 0 with undef := fun _ _ => 7 }

theorem packetState_sevens (prevAlu : ℕ) (o : Obj) (q : ℕ) :
    ((packetState prevAlu).reg o (xferOutLocation q)).eval sevens = 7 := by
  rw [packetState_xferOut]
  rfl

/-- Five bytes are written, and the next one is not. -/
theorem write8_swap_iff_direct :
    let _ : PastEnd := ⟨fun _ => true⟩
    ∀ o, let m := (((packetState 0).apply (packetWrite .write8Swap (5, false))).array8 o "packet").bytes sevens
      m 16 = 7 ∧ m 21 = 0 := by
  intro _ o m
  have h := @write8_swap_iff (constant 32 16) (packetState 0) (packetWrite .write8Swap (5, false)) 0 (5, false)
    "packet" _ rfl (packetWrite_memWritten ..) (typed_constant 32 16) rfl (packetState_typed 0) sevens (by decide) (by decide)
  have hm := h.mpr (fun i _ hi => absurd hi (by simp [transfers])) o
  have hplace : place (2 ^ 32) ((constant 32 16).eval sevens) 16 = 0 ∧
      place (2 ^ 32) ((constant 32 16).eval sevens) 21 = 5 := by
    decide
  constructor
  · refine (congrFun hm 16).trans ?_
    simp only [patch, hplace, packetState_sevens]
    decide
  · refine (congrFun hm 21).trans ?_
    simp only [patch, hplace]
    decide

/-- With `indirect_ref` and a length of 1 only the first byte is to be written, but the fifth is too. -/
theorem write8_swap_wrong :
    let _ : PastEnd := ⟨fun _ => true⟩
    let st := packetState 0
    (∀ o, ((st.apply (packetWrite .write8Swap (0, true))).array8 o "packet").bytes sevens 20 = 7) ∧
      (∀ o, (st.array8 o "packet").bytes sevens 20 = 0) ∧
      ∀ o, transfers ((st.reg o Hreg.prevAlu.location).eval sevens) 0 true = 1 := by
  intro _ st
  refine ⟨fun o => ?_, fun o => rfl, fun o => ?_⟩
  · have h : ((st.apply (packetWrite .write8Swap (0, true))).array8 o "packet").bytes sevens = _ :=
      apply_memWritten_bytes (v := fun _ => 7) rfl (packetWrite_memWritten 0 .write8Swap (0, true)) (by decide)
        (typed_constant 32 16) rfl (packetState_typed 0) nofun (fun q => packetState_sevens 0 _ _) (by decide) o
    rw [h, (packetState_reg _ _).2]
    decide
  · rw [(packetState_reg _ _).2]
    decide

end NfpEstimator
