import NfpEstimator.Instr.Addition
import NfpEstimator.State.Registers

/-!
# Results of `alu` and `alu_shf`

What the operators without carry are for (`AluOp.reference`), on words of 32 bits, after the second operand has gone
through a shift or a rotation (`ShiftCntl.shift`), and when the expressions that the instructions compute have
these values (`alu_result_iff`).

`plus8` masks its operand as `plus16` does, and the operators that mask one operand with the other inherit from
`expr::bvand` that it may drop bits of a mask. Everything else is right.
-/

namespace NfpEstimator

variable {A B a b e : Bvexpr} {w m X Y : ℕ} {env : Env}

/-! ### References -/

/-- What the shifts are for, where `prevA` is what `PREV_A` holds. -/
def ShiftCntl.shift (prevA : BitVec 32) (b : BitVec 32) : ShiftCntl → BitVec 32
  | .leftim amount => b <<< amount
  | .rotleftim amount => b.rotateLeft amount
  | .rotrightim amount => b.rotateRight amount
  | .leftindirect => b <<< (prevA &&& 0x1f#32).toNat
  | .aright (.rightim amount) => b >>> amount
  | .aright .rightindirect => b >>> (prevA &&& 0x1f#32).toNat

/-- A shift that may be left out. -/
def ShiftCntl.shiftOpt (prevA b : BitVec 32) : Option ShiftCntl → BitVec 32
  | some sc => sc.shift prevA b
  | none => b

/-- A shift of 64 bits or more has no meaning in the source. -/
def ShiftCntl.Meaningful : ShiftCntl → Prop
  | .leftim amount | .aright (.rightim amount) => amount < 64
  | _ => True

/-- The operators that look at the flag `C`. -/
def AluOp.withCarry : AluOp → Bool
  | plusCarry | minusCarry => true
  | _ => false

/-- What the operators without carry are for. -/
def AluOp.reference (a b : BitVec 32) : AluOp → BitVec 32
  | plus | plusCarry => a + b
  | plus16 => a + (b &&& 0xffff#32)
  | plus8 => a + (b &&& 0xff#32)
  | minus | minusCarry => a - b
  | negMinus => b - a
  | .B => b
  | invB => ~~~b
  | opAnd => a &&& b
  | invAnd => ~~~a &&& b
  | andInv => a &&& ~~~b
  | opOr => a ||| b
  | opXor => a ^^^ b

/-! ### Shifts -/

theorem word_toNat (he : Typed w e) (env : Env) : (e.word w env).toNat = e.eval env := by
  rw [Bvexpr.word, BitVec.toNat_ofNat, Nat.mod_eq_of_lt (he.eval_lt env)]

theorem word_eq_iff_toNat (he : Typed w e) (env : Env) (x : BitVec w) : e.word w env = x ↔ e.eval env = x.toNat := by
  rw [← word_toNat he, BitVec.toNat_inj]

theorem word_eq (he : Typed w e) {x : BitVec w} (h : e.eval env = x.toNat) : e.word w env = x :=
  (word_eq_iff_toNat he env x).mpr h

/-- A mask of less than 8 bits has nothing in common with what is dropped. -/
theorem maskKept_small {ranges : List (ℕ × ℕ)} (hm : m < 2 ^ 8) (h8 : 8 ∣ w) : MaskKept env ranges w m e := by
  fun_induction MaskKept env ranges w m e with
  | case1 ranges w m X Y b₁ b₂ ih =>
    intro _ _ hpull
    have hXY := pullConcat_width hpull
    simp only [bvandPullConcat, Bool.and_eq_true, Bool.or_eq_true, beq_iff_eq, decide_eq_true_eq] at hpull
    have hY : 8 ≤ Y ∧ 8 ∣ Y := by omega
    have hlt : m < 2 ^ Y := hm.trans_le (Nat.pow_le_pow_right (by decide) hY.1)
    rw [Nat.mod_eq_of_lt hlt] at ih
    rw [Nat.shiftRight_eq_div_pow, Nat.div_eq_of_lt hlt, Nat.zero_and, Nat.mod_eq_of_lt hlt]
    exact ⟨rfl, ih hm hY.2⟩
  | case2 => exact trivial

/-- The amount of an indirect shift. -/
theorem prevAmount_computes {st : Exec} {o : Obj} (hp : Typed 32 (st.reg o Hreg.prevA.location)) :
    Computes 32 (fun env => ((st.reg o Hreg.prevA.location).word 32 env &&& 0x1f#32).toNat) (prevAmount 32 st o) := by
  refine ⟨bvand_typed hp (typed_constant 32 0x1f), fun env => ?_⟩
  have hkept : AndKept env 32 (st.reg o Hreg.prevA.location) (constant 32 0x1f) := by
    unfold AndKept
    split
    · exact trivial
    · next vb _ hvb =>
      obtain rfl := Option.some.inj (hvb.symm.trans (rfl : castConstant 32 (constant 32 0x1f) = some 0x1f))
      exact maskKept_small (by decide) (by decide)
    · exact trivial
  rw [BitVec.toNat_and, word_toNat hp]
  exact (bvand_spec hp (typed_constant 32 0x1f)).2.mpr hkept

theorem numeric_bvshl (ha : a.Numeric) : (bvshl w a b).Numeric := by
  cases h : castConstant w b with
  | some v =>
    rw [castConstant_eq_some h]
    exact numeric_closed.bvshl ha (numeric_closed.constant _ _)
  | none =>
    unfold bvshl
    rw [h]
    split
    · exact trivial
    · exact nomatch ‹none = some _›
    · exact trivial

theorem numeric_bvlshr (ha : a.Numeric) : (bvlshr w a b).Numeric := by
  unfold bvlshr
  split
  · exact numeric_closed.bvlshrConstant ha
  · exact trivial

/-- **A shift or a rotation is what it is for.** -/
theorem shift_spec {st : Exec} {o : Obj} (sc : Option ShiftCntl) (hB : Typed 32 B) (hnB : B.Numeric)
    (hp : Typed 32 (st.reg o Hreg.prevA.location)) (hsc : ∀ c ∈ sc, c.Meaningful) :
    (Typed 32 (ShiftCntl.calculateOpt 32 B st o sc) ∧ (ShiftCntl.calculateOpt 32 B st o sc).Numeric) ∧
      ∀ env, (ShiftCntl.calculateOpt 32 B st o sc).word 32 env =
        ShiftCntl.shiftOpt ((st.reg o Hreg.prevA.location).word 32 env) (B.word 32 env) sc := by
  have hprev := prevAmount_computes hp
  have hamount : ∀ {n}, n < 64 → n % 2 ^ 32 = n := fun h => Nat.mod_eq_of_lt (by omega)
  cases sc with
  | none => exact ⟨⟨hB, hnB⟩, fun env => rfl⟩
  | some c =>
    have hc : c.Meaningful := hsc c rfl
    cases c with
    | leftim n =>
      have h := bvshl_computes hB (typed_constant 32 n) hnB.isPointer
      refine ⟨⟨h.typed, numeric_bvshl hnB⟩, fun env => word_eq h.typed ?_⟩
      rw [h.eval, constant_eval, hamount hc]
      simp [ShiftCntl.shiftOpt, ShiftCntl.shift, word_toNat hB]
    | leftindirect =>
      have h := bvshl_computes hB hprev.typed hnB.isPointer
      refine ⟨⟨h.typed, numeric_bvshl hnB⟩, fun env => word_eq h.typed ?_⟩
      rw [h.eval, hprev.eval]
      simp [ShiftCntl.shiftOpt, ShiftCntl.shift, word_toNat hB]
    | rotleftim n =>
      have h : Typed 32 (.bvrotationl 32 n B) := ⟨hB, rfl⟩
      exact ⟨⟨h, trivial⟩, fun env => word_eq h rfl⟩
    | rotrightim n =>
      have h : Typed 32 (.bvrotationr 32 n B) := ⟨hB, rfl⟩
      exact ⟨⟨h, trivial⟩, fun env => word_eq h rfl⟩
    | aright c =>
      cases c with
      | rightim n =>
        have h := bvlshr_computes hB (typed_constant 32 n)
        have hn : (bvlshr 32 B (constant 32 n)).Numeric := numeric_bvlshr hnB
        refine ⟨⟨h.typed, hn⟩, fun env => word_eq h.typed ?_⟩
        rw [h.eval, constant_eval, hamount hc]
        simp [ShiftCntl.shiftOpt, ShiftCntl.shift, word_toNat hB]
      | rightindirect =>
        have h := bvlshr_computes hB hprev.typed
        have hn : (bvlshr 32 B (prevAmount 32 st o)).Numeric := numeric_bvlshr hnB
        refine ⟨⟨h.typed, hn⟩, fun env => word_eq h.typed ?_⟩
        rw [h.eval, hprev.eval]
        simp [ShiftCntl.shiftOpt, ShiftCntl.shift, word_toNat hB]

/-! ### Operators -/

/-- Where an operator does what it is for: `plus8` if nothing is in the bits that it should have masked, and a mask
if no bit of it is dropped. -/
def AluOp.Exact (env : Env) (A B : Bvexpr) : AluOp → Prop
  | plus8 => B.word 32 env &&& 0xff00#32 = 0
  | opAnd => AndKept env 32 A B
  | invAnd => AndKept env 32 (bvnot 32 A) B
  | andInv => AndKept env 32 A (bvnot 32 B)
  | _ => True

/-- The last two bytes are the last one exactly if there is nothing in the other. -/
theorem land_bytes (b : BitVec 32) : b &&& 0xffff#32 = b &&& 0xff#32 ↔ b &&& 0xff00#32 = 0 := by
  have hfirst : b.toNat &&& 0xff00 = glue 8 (slice 8 8 b.toNat) 0 := land_mask (n := 8) (i := 8)
  have h8 : b.toNat &&& 0xff = b.toNat % 2 ^ 8 := Nat.and_two_pow_sub_one_eq_mod _ 8
  have h16 : b.toNat &&& 0xffff = b.toNat % 2 ^ 16 := Nat.and_two_pow_sub_one_eq_mod _ 16
  have hmask : ∀ m < 2 ^ 32, (b &&& BitVec.ofNat 32 m).toNat = b.toNat &&& m := fun m hm => by
    rw [BitVec.toNat_and, BitVec.toNat_ofNat, Nat.mod_eq_of_lt hm]
  rw [← BitVec.toNat_inj, ← BitVec.toNat_inj, hmask 0xffff (by decide), hmask 0xff (by decide),
    hmask 0xff00 (by decide), hfirst, h8, h16, glue, slice]
  change _ ↔ _ = 0
  omega

/-- A mask, or the operator is right exactly where it is exact. -/
theorem bvand_word_iff (hA : Typed 32 A) (hB : Typed 32 B) (env : Env) :
    (bvand 32 A B).word 32 env = A.word 32 env &&& B.word 32 env ↔ AndKept env 32 A B := by
  rw [word_eq_iff_toNat (bvand_typed hA hB), BitVec.toNat_and, word_toNat hA, word_toNat hB]
  exact (bvand_spec hA hB).2

theorem bvnot_word (hA : Typed 32 A) (env : Env) : (bvnot 32 A).word 32 env = ~~~A.word 32 env := by
  have h := bvnot_computes hA
  refine word_eq h.typed ?_
  rw [h.eval, BitVec.toNat_not, word_toNat hA]

theorem bvadd_word (hA : Typed 32 A) (hB : Typed 32 B) (hpA : A.extPointer = false) (hpB : B.extPointer = false)
    (env : Env) : (bvadd 32 A B).word 32 env = A.word 32 env + B.word 32 env := by
  have h := bvadd_computes hA hB hpA hpB
  refine word_eq h.typed ?_
  rw [h.eval, BitVec.toNat_add, word_toNat hA, word_toNat hB]

theorem bvsub_word (hA : Typed 32 A) (hB : Typed 32 B) (hpA : A.isPointer = false) (env : Env) :
    (bvsub 32 A B).word 32 env = A.word 32 env - B.word 32 env := by
  have h := bvsub_computes hA hB hpA
  have ha := hA.eval_lt env
  have hb := hB.eval_lt env
  refine word_eq h.typed ?_
  rw [h.eval, BitVec.toNat_sub, word_toNat hA, word_toNat hB]
  omega

/-- The low half of a word, by `bvand`. -/
theorem bvand_low_word (hB : Typed 32 B) (env : Env) :
    (bvand 32 B (constant 32 0xffff)).word 32 env = B.word 32 env &&& 0xffff#32 := by
  have h := (bvand_low hB).1
  refine word_eq h.typed ?_
  rw [h.eval, BitVec.toNat_and, word_toNat hB]
  exact (Nat.and_two_pow_sub_one_eq_mod _ 16).symm

theorem typed_calculate {op : AluOp} {st : Exec} {o : Obj} (hop : op.withCarry = false) (hA : Typed 32 A)
    (hB : Typed 32 B) (hnA : A.Numeric) (hnB : B.Numeric) :
    Typed 32 (op.calculate A B st o).dst ∧ (op.calculate A B st o).dst.Numeric := by
  have hlow := bvand_low hB
  have hnlow : (bvand 32 B (constant 32 0xffff)).Numeric := numeric_closed.bvand hnB (numeric_closed.constant _ _)
  have hplus : ∀ {B}, Typed 32 B → B.Numeric → Typed 32 (bvadd 32 A B) ∧ (bvadd 32 A B).Numeric := fun hB hnB =>
    ⟨(bvadd_computes hA hB hnA.extPointer hnB.extPointer).typed, numeric_closed.bvadd hnA hnB⟩
  cases op with
  | plus => exact hplus hB hnB
  | plus16 | plus8 => exact hplus hlow.1.typed hnlow
  | minus => exact ⟨(bvsub_computes hA hB hnA.isPointer).typed, numeric_closed.bvsub hnA hnB⟩
  | negMinus => exact ⟨(bvsub_computes hB hA hnB.isPointer).typed, numeric_closed.bvsub hnB hnA⟩
  | B => exact ⟨hB, hnB⟩
  | invB => exact ⟨(bvnot_computes hB).typed, numeric_closed.bvnot hnB⟩
  | opAnd => exact ⟨bvand_typed hA hB, numeric_closed.bvand hnA hnB⟩
  | invAnd => exact ⟨bvand_typed (bvnot_computes hA).typed hB, numeric_closed.bvand (numeric_closed.bvnot hnA) hnB⟩
  | andInv => exact ⟨bvand_typed hA (bvnot_computes hB).typed, numeric_closed.bvand hnA (numeric_closed.bvnot hnB)⟩
  | opOr => exact ⟨(bvor_computes hA hB).typed, numeric_closed.bvor hnA hnB⟩
  | opXor => exact ⟨(bvxor_computes hA hB).typed, numeric_closed.bvxor hnA hnB⟩
  | plusCarry | minusCarry => exact nomatch hop

/-- **The result of an operator is what it is for exactly where it is exact.** -/
theorem calculate_word_iff {op : AluOp} {st : Exec} {o : Obj} (hop : op.withCarry = false) (hA : Typed 32 A)
    (hB : Typed 32 B) (hnA : A.Numeric) (hnB : B.Numeric) (env : Env) :
    (op.calculate A B st o).dst.word 32 env = op.reference (A.word 32 env) (B.word 32 env) ↔ op.Exact env A B := by
  have hlow := bvand_low hB
  have hnot := fun {e} (he : Typed 32 e) => (bvnot_computes he).typed
  cases op with
  | plus => exact iff_of_true (bvadd_word hA hB hnA.extPointer hnB.extPointer env) trivial
  | plus16 =>
    refine iff_of_true ((bvadd_word hA hlow.1.typed hnA.extPointer hlow.2 env).trans ?_) trivial
    rw [bvand_low_word hB]
    rfl
  | plus8 =>
    have h : (AluOp.plus8.calculate A B st o).dst.word 32 env = A.word 32 env + (B.word 32 env &&& 0xffff#32) :=
      (bvadd_word hA hlow.1.typed hnA.extPointer hlow.2 env).trans (by rw [bvand_low_word hB])
    rw [h, AluOp.reference, BitVec.add_right_inj]
    exact land_bytes _
  | minus => exact iff_of_true (bvsub_word hA hB hnA.isPointer env) trivial
  | negMinus => exact iff_of_true (bvsub_word hB hA hnB.isPointer env) trivial
  | B => exact iff_of_true rfl trivial
  | invB => exact iff_of_true (bvnot_word hB env) trivial
  | opAnd => exact bvand_word_iff hA hB env
  | invAnd =>
    rw [AluOp.reference, ← bvnot_word hA]
    exact bvand_word_iff (hnot hA) hB env
  | andInv =>
    rw [AluOp.reference, ← bvnot_word hB]
    exact bvand_word_iff hA (hnot hB) env
  | opOr =>
    have h := bvor_computes hA hB
    refine iff_of_true (word_eq h.typed ?_) trivial
    rw [h.eval, AluOp.reference, BitVec.toNat_or, word_toNat hA, word_toNat hB]
  | opXor =>
    have h := bvxor_computes hA hB
    refine iff_of_true (word_eq h.typed ?_) trivial
    rw [h.eval, AluOp.reference, BitVec.toNat_xor, word_toNat hA, word_toNat hB]
  | plusCarry | minusCarry => exact nomatch hop

/-! ### Instructions -/

/-- The operands of `alu` and `alu_shf`, the second one before it is shifted. -/
def Operation.aluOperands (f : Fresh) (st : Exec) : Operation → Option (AluOp × Bvexpr × Bvexpr × Option ShiftCntl)
  | .alu _ _ srcA op srcB _ => some (op, srcA.read st (f.obj 0), srcB.read st (f.obj 1), none)
  | .aluShf _ _ srcA op srcB sc _ => some (op, srcA.read st (f.obj 0), srcB.read st (f.obj 1), some sc)
  | _ => none

theorem aluLike_of_operands {n : Operation} {f : Fresh} {st : Exec} {op : AluOp} {sc : Option ShiftCntl}
    (h : n.aluOperands f st = some (op, A, B, sc)) :
    n.aluLike f st = some (op, A, ShiftCntl.calculateOpt 32 B st (f.obj 2) sc) := by
  cases n with
  | alu | aluShf =>
    simp only [Operation.aluOperands, Option.some.injEq, Prod.mk.injEq] at h
    obtain ⟨rfl, rfl, rfl, rfl⟩ := h
    rfl
  | _ => exact nomatch h

theorem write_mem_perform [PastEnd] {n : Operation} {f : Fresh} {st : Exec} {op : AluOp} {dst : Dst} {wrboth : Bool}
    (hs : n.aluLike f st = some (op, A, B)) (hd : n.aluDst = some (dst, wrboth)) :
    dst.write st (f.obj 15) (op.calculate A B st (f.obj 3)).dst ∈ n.perform f st := by
  obtain ⟨r, hperform, -, hr⟩ := perform_aluLike hs hd
  rw [hperform, ← hr]
  exact List.mem_append_left _ (List.mem_append_left _ (List.mem_append_left _ (List.mem_singleton.mpr rfl)))

/-- The flags `Z` and `N` are tests of the result, whatever it is. -/
theorem Exec.FlagsOf.zn {st : Exec} {r : AssignResult} (hst : st.FlagsOf r) (hd : Typed 32 r.dst)
    (hn : r.dst.Numeric) (env : Env) (o : Obj) :
    (st.flag o .Z).eval env = (if r.dst.word 32 env = 0 then 1 else 0) ∧
      (st.flag o .N).eval env = if (r.dst.word 32 env).msb then 1 else 0 := by
  have hsign := sign_computes hd
  rw [hst.z, hst.n, (zero_flag_computes hd hn.orsPointer).eval, (bvcomp_bit_computes hsign.typed).eval, hsign.eval,
    slice_first (hd.eval_lt env), msb_word hd]
  refine ⟨if_congr (word_eq_iff_toNat hd env 0).symm rfl rfl, ?_⟩
  simp only [decide_eq_true_eq]

/-- **What `alu` and `alu_shf` write, and `Z` and `N`, are what they are for exactly where the operator is
exact.** -/
theorem alu_result_iff [PastEnd] {st : Exec} {s : Step} {op : AluOp} {sc : Option ShiftCntl}
    (hsat : st.isUnsat = false) (hs : s.n.aluOperands s.fresh st = some (op, A, B, sc)) (hop : op.withCarry = false)
    (hA : Typed 32 A) (hB : Typed 32 B) (hnA : A.Numeric) (hnB : B.Numeric)
    (hp : Typed 32 (st.reg (s.fresh.obj 2) Hreg.prevA.location)) (hsc : ∀ c ∈ sc, c.Meaningful) (env : Env) :
    let prevA := (st.reg (s.fresh.obj 2) Hreg.prevA.location).word 32 env
    let result := op.reference (A.word 32 env) (ShiftCntl.shiftOpt prevA (B.word 32 env) sc)
    let B' := ShiftCntl.calculateOpt 32 B st (s.fresh.obj 2) sc
    let d := (op.calculate A B' st (s.fresh.obj 3)).dst
    ((∀ dst wrboth, s.n.aluDst = some (dst, wrboth) → dst.write st (s.fresh.obj 15) d ∈ s.n.perform s.fresh st) ∧
      d.word 32 env = result ∧
      (∀ g wrboth o, s.n.aluDst = some (.gpr g, wrboth) → ((st.apply s).reg o g.location).word 32 env = result) ∧
      ∀ o, ((st.apply s).flag o .Z).eval env = (if result = 0 then 1 else 0) ∧
        ((st.apply s).flag o .N).eval env = if result.msb then 1 else 0) ↔
    op.Exact env A B' := by
  intro prevA result B' d
  have hlike := aluLike_of_operands hs
  obtain ⟨⟨hB', hnB'⟩, hword⟩ := shift_spec sc hB hnB hp hsc
  obtain ⟨hd, hnd⟩ := @typed_calculate A B' op st (s.fresh.obj 3) hop hA hB' hnA hnB'
  have hiff := @calculate_word_iff A B' op st (s.fresh.obj 3) hop hA hB' hnA hnB' env
  rw [hword env] at hiff
  refine ⟨fun h => hiff.mp h.2.1, fun h => ?_⟩
  have hresult : d.word 32 env = result := hiff.mpr h
  refine ⟨fun dst wrboth => write_mem_perform hlike, hresult, fun g wrboth o hg => ?_, fun o => ?_⟩
  · rw [apply_aluLike_gpr hsat hlike hg]
    exact hresult
  · obtain ⟨r, hr, hdst, -⟩ := apply_aluLike_flags hsat hlike
    rw [← hresult]
    have hzn := hr.zn (hdst ▸ hd) (hdst ▸ hnd) env o
    rwa [hdst] at hzn

/-- `5 + 8` of the low bytes, after a shift of `2 << 2`. -/
theorem alu_result_iff_shifted :
    let _ : PastEnd := ⟨fun _ => true⟩
    let st := initialState 0 1500 []
    let s : Step := ⟨.aluShf 0 (.gpr ⟨.A, 0⟩) (.constant 5) .plus8 (.constant 2) (.leftim 2) false, ⟨0, 0⟩, 0, false,
      .numbered 0⟩
    ∀ o, ((st.apply s).reg o (Gpr.location ⟨.A, 0⟩)).word 32 (.const 0) = 13 := by
  intro _ st s o
  have h := @alu_result_iff (constant 32 5) (constant 32 2) _ st s .plus8 (some (.leftim 2)) rfl rfl rfl
    (typed_constant 32 5) (typed_constant 32 2) trivial trivial ⟨trivial, rfl⟩
    (fun c hc => Option.some.inj hc ▸ (by decide : 2 < 64)) (.const 0)
  exact ((h.mpr (by simp only [AluOp.Exact]; decide)).2.2.1 _ _ o rfl).trans (by decide)

/-- `0 + 256` of the low bytes is 256. -/
theorem alu_result_wrong :
    let _ : PastEnd := ⟨fun _ => true⟩
    let st := initialState 0 1500 []
    let s : Step := ⟨.alu 0 (.gpr ⟨.A, 0⟩) (.constant 0) .plus8 (.constant 0x100) false, ⟨0, 0⟩, 0, false,
      .numbered 0⟩
    (∀ o, ((st.apply s).reg o (Gpr.location ⟨.A, 0⟩)).word 32 (.const 0) = 256) ∧
      AluOp.plus8.reference 0 0x100#32 = 0 := by
  intro _ st s
  refine ⟨fun o => ?_, by decide⟩
  have hlow := bvand_low (typed_constant 32 0x100)
  rw [@apply_aluLike_gpr _ st s .plus8 (constant 32 0) (constant 32 0x100) ⟨.A, 0⟩ false rfl rfl rfl o]
  refine (bvadd_word (typed_constant 32 0) hlow.1.typed rfl hlow.2 _).trans ?_
  rw [bvand_low_word (typed_constant 32 0x100)]
  decide

end NfpEstimator
