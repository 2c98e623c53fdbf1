import NfpEstimator.Expr.CarryFree
import NfpEstimator.State.Apply

/-!
# What is asserted

The carry of an addition or a subtraction is an operator that the solver does not know. It is only in the flag `C`,
as long as an instruction that adds or subtracts with carry knows the carry that it finds there
(`Operation.recognises`): an addition with carry knows that of an addition of 32 bits, a subtraction with carry
that of a subtraction of 32 bits. Any other carry goes into the result as it is, and from there into what a later
branch asserts (`carry_is_asserted`).
-/

namespace NfpEstimator

/-! ### The flag -/

/-- What the flag `C` holds: an expression without a carry, or a carry that is known to the branches. -/
def Bvexpr.CarryFlag (e : Bvexpr) : Prop :=
  e.CarryFree ∨ ∃ op B a b, e = .bvbinary op B a b ∧ (op = .bvadditionCarry ∨ op = .bvsubstractionCarry) ∧
    (B = 32 ∨ B = 64) ∧ a.CarryFree ∧ b.CarryFree

/-- `bvadd_carry` or `bvsub_carry`. -/
def Bvexpr.isCarry : Bvexpr → Bool
  | .bvbinary op _ _ _ => !op.inTheory
  | _ => false

/-- Whether an operator knows the carry that it finds in the flag. -/
def AluOp.recognises (C : Bvexpr) : AluOp → Bool
  | .plusCarry => !C.isCarry || (castBvbinary .bvadditionCarry 32 C).isSome
  | .minusCarry => !C.isCarry || (castBvbinary .bvsubstractionCarry 32 C).isSome
  | _ => true

/-- Whether an instruction knows it. -/
def Operation.recognises (f : Fresh) (st : Exec) : Operation → Bool
  | .alu _ _ _ op _ _ | .aluShf _ _ _ op _ _ _ => op.recognises (st.flag (f.obj 3) .C)
  | _ => true

theorem Bvexpr.CarryFlag.operands {op : BvOp} {B : ℕ} {a b : Bvexpr} (h : (Bvexpr.bvbinary op B a b).CarryFlag) :
    a.CarryFree ∧ b.CarryFree := by
  rcases h with h | ⟨op', B', a', b', he, -, -, ha, hb⟩
  · exact h.2
  · obtain ⟨-, -, rfl, rfl⟩ := Bvexpr.bvbinary.inj he
    exact ⟨ha, hb⟩

theorem Bvexpr.CarryFlag.carryFree {e : Bvexpr} (h : e.CarryFlag) (he : e.isCarry = false) : e.CarryFree := by
  rcases h with h | ⟨op, B, a, b, rfl, rfl | rfl, -⟩
  · exact h
  · exact nomatch he
  · exact nomatch he

/-! ### States -/

/-- What an update stores. -/
def Update.CarryFree : Update → Prop
  | .noop | .invalidateMem => True
  | .reg _ e => e.CarryFree
  | .flag d e => e.CarryFree ∨ d = Flag.C.location ∧ e.CarryFlag
  | .mem8 _ e | .mem32 _ e => e.CarryFree
  | .defered _ u => u.CarryFree

/-- There is a carry only in the flag `C`. -/
structure Exec.CarryFree (st : Exec) : Prop where
  registers : ∀ d, ∀ e ∈ st.registers d, e.CarryFree
  flags : ∀ d, ∀ e ∈ st.flags d, e.CarryFree ∨ d = Flag.C.location ∧ e.CarryFlag
  mem8 : ∀ d, ∀ e ∈ st.mem8 d, e.CarryFree
  mem32 : ∀ d, ∀ e ∈ st.mem32 d, e.CarryFree
  defered : ∀ p ∈ st.defered, p.2.CarryFree
  assumptions : ∀ a ∈ st.assumptions, a.e.CarryFree

theorem mem_update {α : Type*} {P : String → α → Prop} {m : String → Option α} {d : String} {e : α}
    (hm : ∀ d, ∀ e ∈ m d, P d e) (he : P d e) : ∀ d', ∀ e' ∈ Function.update m d (some e) d', P d' e' := by
  intro d' e' h
  by_cases hd : d' = d
  · subst hd
    rw [Function.update_self, Option.mem_some_iff] at h
    exact h ▸ he
  · rw [Function.update_of_ne hd] at h
    exact hm d' e' h

theorem Exec.CarryFree.store {st : Exec} {u : Update} (h : st.CarryFree) (hu : u.CarryFree) :
    (u.store st).CarryFree := by
  obtain ⟨hr, hf, h8, h32, hd, ha⟩ := h
  cases u with
  | noop => exact ⟨hr, hf, h8, h32, hd, ha⟩
  | reg d e => exact ⟨mem_update hr hu, hf, h8, h32, hd, ha⟩
  | flag d e => exact ⟨hr, mem_update hf hu, h8, h32, hd, ha⟩
  | mem8 d e => exact ⟨hr, hf, mem_update h8 hu, h32, hd, ha⟩
  | mem32 d e => exact ⟨hr, hf, h8, mem_update h32 hu, hd, ha⟩
  | invalidateMem => exact ⟨hr, hf, fun _ _ he => (nomatch he), fun _ _ he => (nomatch he), hd, ha⟩
  | defered cycles u =>
    refine ⟨hr, hf, h8, h32, fun p hp => ?_, ha⟩
    rcases List.mem_append.mp hp with hp | hp
    · exact hd p hp
    · rw [List.mem_singleton.mp hp]
      exact hu

theorem Exec.CarryFree.storeAll {st : Exec} {us : List Update} (h : st.CarryFree) (hus : ∀ u ∈ us, u.CarryFree) :
    (st.storeAll us).CarryFree := by
  induction us generalizing st with
  | nil => exact h
  | cons u us ih =>
    exact ih (h.store (hus u (List.mem_cons_self ..))) fun v hv => hus v (List.mem_cons_of_mem _ hv)

theorem Exec.CarryFree.storeDue {st : Exec} (h : st.CarryFree) : st.storeDue.CarryFree := by
  have hrest : ({ st with defered := st.defered.filter fun d => st.sumcycles < d.1 } : Exec).CarryFree :=
    ⟨h.registers, h.flags, h.mem8, h.mem32, fun p hp => h.defered p (List.mem_filter.mp hp).1, h.assumptions⟩
  refine hrest.storeAll fun u hu => ?_
  obtain ⟨p, hp, rfl⟩ := List.mem_map.mp hu
  exact h.defered p (List.mem_filter.mp hp).1

/-! ### What is read -/

theorem lmElement_carryFree {st : Exec} {o : Obj} {addr : Fin 4} {offset : ℕ} {array : String} {i : Bvexpr}
    (hi : st.lmElement o addr offset = some (array, i)) : i.CarryFree := by
  unfold Exec.lmElement at hi
  split at hi
  · exact nomatch hi
  · split at hi
    · exact nomatch hi
    · split_ifs at hi
      obtain ⟨-, rfl⟩ := Prod.mk.inj (Option.some.inj hi)
      exact constant_carryFree _ _

section

variable {st : Exec} (h : st.CarryFree)

include h

theorem Exec.CarryFree.reg (o : Obj) (d : String) : (st.reg o d).CarryFree := by
  rw [Exec.reg]
  cases he : st.registers d with
  | none => trivial
  | some e => exact h.registers d e he

theorem Exec.CarryFree.flag {f : Flag} (hf : f ≠ .C) (o : Obj) : (st.flag o f).CarryFree := by
  rw [Exec.flag]
  cases he : st.flags f.location with
  | none => trivial
  | some e =>
    refine (h.flags _ e he).resolve_right fun hC => ?_
    cases f with
    | C => exact hf rfl
    | _ => exact absurd hC.1 (by decide)

theorem Exec.CarryFree.carry (o : Obj) : (st.flag o .C).CarryFlag := by
  rw [Exec.flag]
  cases he : st.flags Flag.C.location with
  | none => exact .inl trivial
  | some e => exact (h.flags _ e he).elim .inl And.right

theorem Exec.CarryFree.array8 (o : Obj) (d : String) : (st.array8 o d).CarryFree := by
  rw [Exec.array8]
  cases he : st.mem8 d with
  | none => trivial
  | some e => exact h.mem8 d e he

theorem Exec.CarryFree.array32 (o : Obj) (d : String) : (st.array32 o d).CarryFree := by
  rw [Exec.array32]
  cases he : st.mem32 d with
  | none => trivial
  | some e => exact h.mem32 d e he

theorem Exec.CarryFree.read (o : Obj) (src : Src) : (src.read st o).CarryFree := by
  cases src with
  | gpr g => exact h.reg o _
  | lmindexed addr offset =>
    simp only [Src.read]
    split
    · next array i hi => exact select_carryFree (h.array32 o array) (lmElement_carryFree hi)
    · trivial
  | xferIn number => exact h.reg o _
  | constant value => exact constant_carryFree _ _
  | omitted => trivial

theorem Exec.CarryFree.write {e : Bvexpr} (he : e.CarryFree) (o : Obj) (dst : Dst) : (dst.write st o e).CarryFree := by
  cases dst with
  | lmindexed addr offset =>
    simp only [Dst.write]
    split
    · next array i hi => exact store_carryFree (h.array32 o array) (lmElement_carryFree hi) he
    · trivial
  | omitted => trivial
  | _ => exact he

theorem Exec.CarryFree.prevAmount (B : ℕ) (o : Obj) : (prevAmount B st o).CarryFree := by
  have hand := carryFree_closed.bvand (B := 32) (h.reg o Hreg.prevA.location) (constant_carryFree 32 0x1f)
  unfold NfpEstimator.prevAmount
  simp only
  split_ifs
  · exact hand
  · exact carryFree_closed.extend hand

theorem Exec.CarryFree.shift {e : Bvexpr} (he : e.CarryFree) (B : ℕ) (o : Obj) (sc : ShiftCntl) :
    (sc.calculate B e st o).CarryFree := by
  cases sc with
  | leftim => exact carryFree_closed.bvshl he (constant_carryFree _ _)
  | rotleftim | rotrightim => exact ⟨trivial, he⟩
  | leftindirect => exact carryFree_closed.bvshl he (h.prevAmount B o)
  | aright sc =>
    cases sc with
    | rightim => exact carryFree_closed.bvlshr he (constant_carryFree _ _)
    | rightindirect => exact carryFree_closed.bvlshr he (h.prevAmount B o)

theorem Exec.CarryFree.shift33 {e : Bvexpr} (he : e.CarryFree) (o : Obj) (sc : Aright) :
    (sc.calculate33 e st o).CarryFree := by
  cases sc with
  | rightim => exact ⟨rfl, he, constant_carryFree _ _⟩
  | rightindirect => exact ⟨rfl, he, h.prevAmount 33 o⟩

theorem Exec.CarryFree.shiftOpt {e : Bvexpr} (he : e.CarryFree) (B : ℕ) (o : Obj) (sc : Option ShiftCntl) :
    (ShiftCntl.calculateOpt B e st o sc).CarryFree := by
  cases sc with
  | none => exact he
  | some sc => exact h.shift he B o sc

end

/-! ### Arithmetic and logic -/

/-- There is a carry only in the flag of a result. -/
structure AssignResult.CarryFree (r : AssignResult) : Prop where
  dst : r.dst.CarryFree
  v : r.v.CarryFree
  c : r.c.CarryFlag
  u : ∀ u ∈ r.u, u.CarryFree

theorem carryFlag_add {B : ℕ} {a b : Bvexpr} (hB : B = 32 ∨ B = 64) (ha : a.CarryFree) (hb : b.CarryFree) :
    (Bvexpr.bvbinary .bvadditionCarry B a b).CarryFlag := .inr ⟨_, B, a, b, rfl, .inl rfl, hB, ha, hb⟩

theorem carryFlag_sub {B : ℕ} {a b : Bvexpr} (hB : B = 32 ∨ B = 64) (ha : a.CarryFree) (hb : b.CarryFree) :
    (Bvexpr.bvbinary .bvsubstractionCarry B a b).CarryFlag := .inr ⟨_, B, a, b, rfl, .inr rfl, hB, ha, hb⟩

namespace AluOp

theorem added_carryFree {addition extended carry : Bvexpr} (ha : addition.CarryFree) (he : extended.CarryFree)
    (hc : carry.CarryFlag) : (added addition extended carry).CarryFree :=
  ⟨ha, carryFree_closed.bvxor (carryFree_closed.extract he) (carryFree_closed.extract ha), hc, fun _ hu => (nomatch hu)⟩

theorem subtracted_carryFree {A B substrac carry : Bvexpr} (hA : A.CarryFree) (hB : B.CarryFree)
    (hs : substrac.CarryFree) (hc : carry.CarryFlag) : (subtracted A B substrac carry).CarryFree :=
  ⟨hs, carryFree_closed.bvand (carryFree_closed.bvxor (carryFree_closed.extract hA) (carryFree_closed.extract hB))
    (carryFree_closed.bvnot (carryFree_closed.bvxor (carryFree_closed.extract hB) (carryFree_closed.extract hs))), hc,
    fun _ hu => (nomatch hu)⟩

theorem logical_carryFree {dst : Bvexpr} (h : dst.CarryFree) : (logical dst).CarryFree :=
  ⟨h, constant_carryFree 1 0, .inl (constant_carryFree 1 0), fun _ hu => (nomatch hu)⟩

variable {A B C : Bvexpr} (hA : A.CarryFree) (hB : B.CarryFree)

include hA hB

theorem addBit_carryFree (hC : C.CarryFree) :
    (addBit A B C).CarryFree ∧ (addBitExtended A B C).CarryFree :=
  ⟨carryFree_closed.bvadd (carryFree_closed.bvadd hA hB) (carryFree_closed.extend hC),
    carryFree_closed.bvadd (carryFree_closed.bvadd (carryFree_closed.extend hA) (carryFree_closed.extend hB))
      (carryFree_closed.extend hC)⟩

theorem calculatePlus_carryFree : (calculatePlus A B).CarryFree :=
  added_carryFree (carryFree_closed.bvadd hA hB)
    (carryFree_closed.bvadd (carryFree_closed.extend hA) (carryFree_closed.extend hB))
    (carryFlag_add (.inl rfl) hA hB)

theorem calculateMinus_carryFree : (calculateMinus A B).CarryFree :=
  subtracted_carryFree hA hB (carryFree_closed.bvsub hA hB) (carryFlag_sub (.inl rfl) hA hB)

/-- An addition with a carry that it knows. -/
theorem calculatePlusCarry_carryFree (hC : C.CarryFlag) (hrec : plusCarry.recognises C = true) :
    (calculatePlusCarry A B C).CarryFree := by
  unfold calculatePlusCarry
  split
  · next hnone =>
    have hfree : C.CarryFree := hC.carryFree (by simpa [recognises, hnone] using hrec)
    obtain ⟨hadd, hext⟩ := addBit_carryFree hA hB hfree
    exact added_carryFree hadd hext
      (carryFlag_add (.inl rfl) (carryFree_closed.bvadd hA hB) (carryFree_closed.extend hfree))
  · next a b hcast =>
    rw [castBvbinary_eq_some hcast] at hC
    obtain ⟨ha, hb⟩ := hC.operands
    split
    · have haddC := carryFree_closed.extract (S := 32) (E := 32) (B := 33)
        (carryFree_closed.bvadd (B := 33) (carryFree_closed.extend (E := 1) (B := 32) ha)
          (carryFree_closed.extend (E := 1) (B := 32) hb))
      obtain ⟨hadd, hext⟩ := addBit_carryFree hA hB haddC
      exact added_carryFree hadd hext (.inl (carryFree_closed.extract hext))
    · have hfA := carryFree_closed.concat (A := 32) (B := 32) hA ha
      have hfB := carryFree_closed.concat (A := 32) (B := 32) hB hb
      exact added_carryFree (carryFree_closed.extract (carryFree_closed.bvadd hfA hfB))
        (carryFree_closed.extract (carryFree_closed.bvadd (carryFree_closed.extend hfA) (carryFree_closed.extend hfB)))
        (carryFlag_add (.inr rfl) hfA hfB)

/-- A subtraction with a carry that it knows. -/
theorem calculateMinusCarry_carryFree (hC : C.CarryFlag) (hrec : minusCarry.recognises C = true) :
    (calculateMinusCarry A B C).CarryFree := by
  unfold calculateMinusCarry
  split
  · next hnone =>
    have hfree : C.CarryFree := hC.carryFree (by simpa [recognises, hnone] using hrec)
    exact subtracted_carryFree hA hB
      (carryFree_closed.bvsub (carryFree_closed.bvsub hA hB) (carryFree_closed.extend hfree))
      (carryFlag_sub (.inl rfl) (carryFree_closed.bvsub hA hB) (carryFree_closed.extend hfree))
  · next a b hcast =>
    rw [castBvbinary_eq_some hcast] at hC
    obtain ⟨ha, hb⟩ := hC.operands
    have hfA := carryFree_closed.concat (A := 32) (B := 32) hA ha
    have hfB := carryFree_closed.concat (A := 32) (B := 32) hB hb
    exact subtracted_carryFree hA hB (carryFree_closed.extract (carryFree_closed.bvsub hfA hfB))
      (carryFlag_sub (.inr rfl) hfA hfB)

theorem calculate_carryFree {st : Exec} (hst : st.CarryFree) {o : Obj} {op : AluOp}
    (hrec : op.recognises (st.flag o .C) = true) : (op.calculate A B st o).CarryFree := by
  cases op with
  | plus => exact calculatePlus_carryFree hA hB
  | plus16 | plus8 => exact calculatePlus_carryFree hA (carryFree_closed.bvand hB (constant_carryFree _ _))
  | plusCarry => exact calculatePlusCarry_carryFree hA hB (hst.carry o) hrec
  | minus => exact calculateMinus_carryFree hA hB
  | minusCarry => exact calculateMinusCarry_carryFree hA hB (hst.carry o) hrec
  | negMinus => exact calculateMinus_carryFree hB hA
  | B => exact logical_carryFree hB
  | invB => exact logical_carryFree (carryFree_closed.bvnot hB)
  | opAnd => exact logical_carryFree (carryFree_closed.bvand hA hB)
  | invAnd => exact logical_carryFree (carryFree_closed.bvand (carryFree_closed.bvnot hA) hB)
  | andInv => exact logical_carryFree (carryFree_closed.bvand hA (carryFree_closed.bvnot hB))
  | opOr => exact logical_carryFree (carryFree_closed.bvor hA hB)
  | opXor => exact logical_carryFree (carryFree_closed.bvxor hA hB)

end AluOp

/-! ### Instructions -/

section

variable {st : Exec} (h : st.CarryFree) (f : Fresh)

include h

theorem calculateAlu_carryFree {srcA srcB : Src} {op : AluOp} {sc : Option ShiftCntl}
    (hrec : op.recognises (st.flag (f.obj 3) .C) = true) : (calculateAlu f srcA op srcB sc st).CarryFree := by
  have hA := h.read (f.obj 0) srcA
  have hB := h.shiftOpt (h.read (f.obj 1) srcB) 32 (f.obj 2) sc
  have hr := AluOp.calculate_carryFree hA hB h hrec
  unfold calculateAlu
  split_ifs
  · refine ⟨hr.dst, hr.v, hr.c, fun u hu => ?_⟩
    simp only [calculate_u, List.nil_append, List.mem_cons, List.not_mem_nil, or_false] at hu
    rcases hu with rfl | rfl | rfl | rfl
    · exact hA
    · exact hr.dst
    · exact trivial
    · exact trivial
  · exact hr

theorem calculateAsr_carryFree (src : Src) (sc : Aright) : (calculateAsr f src sc st).CarryFree := by
  have hprev := h.reg (f.obj 2) Hreg.prevAlu.location
  have hs : (extract 31 31 32 (st.reg (f.obj 2) Hreg.prevAlu.location)).CarryFree := carryFree_closed.extract hprev
  refine ⟨carryFree_closed.extract (h.shift33 (carryFree_closed.concat hs (h.read _ src)) _ sc), constant_carryFree 1 0,
    .inl (constant_carryFree 1 0), fun u hu => ?_⟩
  simp only [calculateAsr, List.mem_cons, List.not_mem_nil, or_false] at hu
  rcases hu with rfl | rfl
  · exact hprev
  · exact trivial

theorem calculateDblShf_carryFree (srcA srcB : Src) (sc : ShiftCntl) : (calculateDblShf f srcA srcB sc st).CarryFree :=
  ⟨carryFree_closed.extract (h.shift (carryFree_closed.concat (h.read _ srcA) (h.read _ srcB)) 64 _ sc),
    constant_carryFree 1 0, .inl (constant_carryFree 1 0), fun _ hu => (nomatch hu)⟩

omit h in
theorem plainResult_carryFree {dst : Bvexpr} {us : List Update} (hdst : dst.CarryFree) (hus : ∀ u ∈ us, u.CarryFree) :
    (plainResult dst us).CarryFree := ⟨hdst, trivial, .inl trivial, hus⟩

theorem calculateImmed_carryFree (im : ℕ) (sc : Option ShiftCntl) : (calculateImmed f im sc st).CarryFree := by
  have hr : (extract 63 32 64 (ShiftCntl.calculateOpt 64 (concat 32 32 (constant 32 im) (constant 32 im)) st (f.obj 2)
      sc)).CarryFree :=
    carryFree_closed.extract
      (h.shiftOpt (carryFree_closed.concat (constant_carryFree _ _) (constant_carryFree _ _)) 64 _ sc)
  refine plainResult_carryFree hr fun u hu => ?_
  obtain rfl := List.mem_singleton.mp hu
  exact hr

theorem Exec.CarryFree.readOld (o : Obj) (dst : Dst) : (dst.readOld st o).CarryFree := by
  unfold Dst.readOld
  split
  · exact h.read o _
  · exact trivial

theorem calculateImmedW1_carryFree (dst : Dst) (im : ℕ) : (calculateImmedW1 f dst im st).CarryFree :=
  plainResult_carryFree (carryFree_closed.concat (constant_carryFree _ _) (carryFree_closed.extract (h.readOld _ dst)))
    fun _ hu => (nomatch hu)

theorem calculateLdField_carryFree (dst : Dst) (mask : ℕ) (src : Src) (sc : Option ShiftCntl) :
    (calculateLdField f dst mask src sc st).CarryFree := by
  have he := h.shiftOpt (h.read (f.obj 0) src) 32 (f.obj 2) sc
  unfold calculateLdField
  simp only
  split_ifs
  · exact plainResult_carryFree he fun _ hu => (nomatch hu)
  · exact plainResult_carryFree (carryFree_closed.bvor
      (carryFree_closed.bvand (h.readOld _ dst) (constant_carryFree _ _)) (carryFree_closed.bvand he (constant_carryFree _ _))) fun _ hu => (nomatch hu)

theorem calculateLdFieldWClr_carryFree (mask : ℕ) (src : Src) (sc : Option ShiftCntl) :
    (calculateLdFieldWClr f mask src sc st).CarryFree := by
  have he := h.shiftOpt (h.read (f.obj 0) src) 32 (f.obj 2) sc
  unfold calculateLdFieldWClr
  simp only
  split_ifs
  · exact plainResult_carryFree he fun _ hu => (nomatch hu)
  · exact plainResult_carryFree (carryFree_closed.bvand he (constant_carryFree _ _)) fun _ hu => (nomatch hu)

theorem calculateMulStepLast_carryFree (tok : MulLast) : (calculateMulStepLast f tok st).CarryFree := by
  have hA := h.reg (f.obj 1) Hreg.mulA.location
  have hB := h.reg (f.obj 2) Hreg.mulB.location
  unfold calculateMulStepLast
  simp only
  split_ifs
  · refine ⟨?_, trivial, .inl trivial, fun u hu => ?_⟩
    · cases tok with
      | s16x16Last | s32x32Last => exact ⟨rfl, hA, hB⟩
      | s32x32Last2 => exact carryFree_closed.extract ⟨rfl, carryFree_closed.extend hA, carryFree_closed.extend hB⟩
    · obtain rfl := List.mem_singleton.mp hu
      exact trivial
  · refine ⟨trivial, trivial, .inl trivial, fun u hu => ?_⟩
    simp only [List.mem_cons, List.not_mem_nil, or_false] at hu
    rcases hu with rfl | rfl | rfl <;> exact trivial

theorem performMulStep_carryFree [PastEnd] (srcA srcB : Src) (tok : MulTok) :
    ∀ u ∈ performMulStep f srcA srcB tok st, u.CarryFree := by
  intro u hu
  unfold performMulStep at hu
  simp only at hu
  split_ifs at hu <;> simp only [List.mem_cons, List.not_mem_nil, or_false] at hu <;> rcases hu with rfl | rfl | rfl
  · exact trivial
  · exact h.read _ srcA
  · exact h.read _ srcB
  · exact trivial
  · exact trivial
  · exact trivial

theorem assignUpdates_carryFree {r : AssignResult} (hr : r.CarryFree) (dst : Dst) (wrboth writescc : Bool) :
    ∀ u ∈ assignUpdates f dst wrboth writescc r st, u.CarryFree := by
  intro u hu
  unfold assignUpdates at hu
  simp only [List.mem_append, List.mem_singleton] at hu
  rcases hu with ((rfl | hu) | hu) | hu
  · exact h.write hr.dst _ dst
  · split at hu
    · obtain rfl := List.mem_singleton.mp hu
      exact hr.dst
    · exact nomatch hu
  · split_ifs at hu
    · simp only [List.mem_cons, List.not_mem_nil, or_false] at hu
      rcases hu with rfl | rfl | rfl | rfl
      · exact .inl (carryFree_closed.bvcomp (carryFree_closed.extract hr.dst) (constant_carryFree 1 1))
      · exact .inl (carryFree_closed.bvcomp hr.dst (constant_carryFree 32 0))
      · exact .inl hr.v
      · exact .inr ⟨rfl, hr.c⟩
    · exact nomatch hu
  · exact hr.u u hu

/-! ### Memory -/

theorem memAddress_carryFree (src1 : Src) (sc1 : Option ShiftCntl) (src2 : Src) (sc2 : Option ShiftCntl) :
    (memAddress f src1 sc1 src2 sc2 st).CarryFree :=
  carryFree_closed.bvadd (h.shiftOpt (h.read _ src1) 32 _ sc1) (h.shiftOpt (h.read _ src2) 32 _ sc2)

theorem indirectCount_carryFree (o : Obj) : (indirectCount st o).CarryFree :=
  carryFree_closed.bvadd (carryFree_closed.bvlshr (h.reg o _) (constant_carryFree _ _)) (constant_carryFree _ _)

omit h in
theorem castPtr_carryFree {A V : ℕ} {e o : Bvexpr} {array : String} (he : e.CarryFree)
    (hcast : castPtr A V e = some (array, o)) : o.CarryFree := by
  rw [castPtr_eq_some hcast] at he
  exact he.2

omit h in
/-- Four bytes together. -/
theorem concatBytes_carryFree {b₀ b₁ b₂ b₃ : Bvexpr} (h₀ : b₀.CarryFree) (h₁ : b₁.CarryFree) (h₂ : b₂.CarryFree)
    (h₃ : b₃.CarryFree) : (concat 8 24 b₃ (concat 8 16 b₂ (concat 8 8 b₁ b₀))).CarryFree :=
  carryFree_closed.concat h₃ (carryFree_closed.concat h₂ (carryFree_closed.concat h₁ h₀))

theorem read32Swap_carryFree {ptr : Bvexpr} (hptr : ptr.CarryFree) (index : ℕ) (o : Obj) :
    (read32Swap ptr index st o).1.CarryFree := by
  have hat : ∀ k, (bvadd 32 ptr (constant 32 (index * 4 + k))).CarryFree := fun k =>
    carryFree_closed.bvadd hptr (constant_carryFree _ _)
  unfold read32Swap
  simp only
  split
  · next array o0 _ o1 _ o2 _ o3 h0 h1 h2 h3 =>
    have ha := h.array8 o array
    exact concatBytes_carryFree (select_carryFree ha (castPtr_carryFree (hat 0) h0))
      (select_carryFree ha (castPtr_carryFree (hat 1) h1)) (select_carryFree ha (castPtr_carryFree (hat 2) h2))
      (select_carryFree ha (castPtr_carryFree (hat 3) h3))
  · exact trivial

theorem readXfers_carryFree {src : Bvexpr} (hsrc : src.CarryFree) (indirectRef : Bool) (k i : ℕ) (xs : List ℕ) :
    ∀ u ∈ readXfers f src indirectRef st k i xs, u.CarryFree := by
  induction xs generalizing k i with
  | nil => exact fun u hu => nomatch hu
  | cons x xs ih =>
    intro u hu
    rcases List.mem_cons.mp hu with rfl | hu
    · have hread := read32Swap_carryFree h hsrc i (f.obj (16 + 3 * k))
      simp only [Update.CarryFree]
      split_ifs
      · exact ite_carryFree (bvugt_carryFree (indirectCount_carryFree h _) (constant_carryFree _ _)) hread (h.reg _ _)
      · exact hread
    · exact ih _ _ u hu

omit h in
theorem writeBytes_carryFree {array : Bvarray} {offset value ref : Bvexpr} (ha : array.CarryFree)
    (ho : offset.CarryFree) (hv : value.CarryFree) (href : ref.CarryFree) (index : ℕ) :
    (writeBytes array offset value index ref).1.CarryFree := by
  have hat : ∀ k, (bvadd 32 offset (constant 32 (index + k))).CarryFree := fun k =>
    carryFree_closed.bvadd ho (constant_carryFree _ _)
  have hb : ∀ k, (extract (8 * k + 7) (8 * k) 32 value).CarryFree := fun k => carryFree_closed.extract hv
  have henough : ∀ k, (bvuge 32 ref (constant 32 (index + k))).CarryFree := fun k =>
    bvuge_carryFree href (constant_carryFree _ _)
  have hstep : ∀ {array : Bvarray} (k j), array.CarryFree →
      (Bvarray.ite 32 8 (bvuge 32 ref (constant 32 (index + j)))
        (store 32 8 array (bvadd 32 offset (constant 32 (index + k))) (extract (8 * k + 7) (8 * k) 32 value))
        array).CarryFree := fun k j ha =>
    arrayIte_carryFree (henough j) (store_carryFree ha (hat k) (hb k)) ha
  exact hstep 3 4 (hstep 2 3 (hstep 1 2 (store_carryFree ha (hat 0) (hb 0))))

omit h in
theorem addImm_carryFree {array : Bvarray} {offset ref : Bvexpr} (ha : array.CarryFree) (ho : offset.CarryFree)
    (href : ref.CarryFree) (o : Obj) : (addImm array offset ref o).CarryFree := by
  have hat : ∀ k, (bvadd 32 offset (constant 32 k)).CarryFree := fun k =>
    carryFree_closed.bvadd ho (constant_carryFree _ _)
  unfold addImm
  simp only
  split
  · next _ o0 _ o1 _ o2 _ o3 h0 h1 h2 h3 =>
    have hbyte : ∀ {o : Bvexpr}, o.CarryFree → (select 32 8 array o).CarryFree := fun ho => select_carryFree ha ho
    have hres := carryFree_closed.bvadd (B := 32) (concatBytes_carryFree (hbyte (castPtr_carryFree (hat 0) h0))
      (hbyte (castPtr_carryFree (hat 1) h1)) (hbyte (castPtr_carryFree (hat 2) h2))
      (hbyte (castPtr_carryFree (hat 3) h3))) href
    exact store_carryFree (store_carryFree (store_carryFree (store_carryFree ha (hat 0) (carryFree_closed.extract hres))
      (hat 1) (carryFree_closed.extract hres)) (hat 2) (carryFree_closed.extract hres)) (hat 3)
      (carryFree_closed.extract hres)
  · exact trivial

theorem writeXfers_carryFree {op : MemWriteOp} {offset ref : Bvexpr} (ho : offset.CarryFree) (href : ref.CarryFree)
    (k i : ℕ) {array : Bvarray} (ha : array.CarryFree) (xs : List ℕ) :
    (writeXfers f op offset ref st k i array xs).CarryFree := by
  induction xs generalizing k i array with
  | nil => exact ha
  | cons x xs ih =>
    refine ih _ _ ?_
    cases op with
    | write8Swap | write32Swap => exact writeBytes_carryFree ha ho (h.reg _ _) href i
    | addImm => exact addImm_carryFree ha ho href _

/-- **What an instruction stores has a carry only in the flag**, if it knows the carry that it finds there. -/
theorem perform_carryFree [PastEnd] (n : Operation) (hrec : n.recognises f st = true) :
    ∀ u ∈ n.perform f st, u.CarryFree := by
  cases n with
  | alu id dst srcA op srcB wrboth =>
    exact assignUpdates_carryFree h f (calculateAlu_carryFree h f hrec) dst wrboth true
  | aluShf id dst srcA op srcB sc wrboth =>
    exact assignUpdates_carryFree h f (calculateAlu_carryFree h f hrec) dst wrboth true
  | asr id dst src sc wrboth => exact assignUpdates_carryFree h f (calculateAsr_carryFree h f src sc) dst wrboth true
  | dblShf id dst srcA srcB sc wrboth =>
    exact assignUpdates_carryFree h f (calculateDblShf_carryFree h f srcA srcB sc) dst wrboth true
  | immed id dst im sc wrboth => exact assignUpdates_carryFree h f (calculateImmed_carryFree h f im sc) dst wrboth false
  | immedW1 id dst im wrboth =>
    exact assignUpdates_carryFree h f (calculateImmedW1_carryFree h f dst im) dst wrboth false
  | ldField id dst mask src sc wrboth =>
    exact assignUpdates_carryFree h f (calculateLdField_carryFree h f dst mask src sc) dst wrboth true
  | ldFieldWClr id dst mask src sc wrboth =>
    exact assignUpdates_carryFree h f (calculateLdFieldWClr_carryFree h f mask src sc) dst wrboth true
  | mulStepLast id dst tok wrboth =>
    exact assignUpdates_carryFree h f (calculateMulStepLast_carryFree h f tok) dst wrboth true
  | localCsrWr id csr src =>
    intro u hu
    obtain rfl := List.mem_singleton.mp hu
    exact h.read (f.obj 0) src
  | memRead id xfer src1 sc1 src2 sc2 refCnt indirectRef ctxSwap =>
    exact readXfers_carryFree h f (memAddress_carryFree h f src1 sc1 src2 sc2) indirectRef 0 0 _
  | memWrite id op xfer src1 sc1 src2 sc2 refCnt indirectRef ctxSwap =>
    intro u hu
    simp only [Operation.perform, performWrite] at hu
    split at hu
    · obtain rfl := List.mem_singleton.mp hu
      exact trivial
    · next array offset hcast =>
      obtain rfl := List.mem_singleton.mp hu
      refine writeXfers_carryFree h f (castPtr_carryFree (memAddress_carryFree h f src1 sc1 src2 sc2) hcast) ?_ 0 0
        (h.array8 _ array) _
      split_ifs
      · exact indirectCount_carryFree h _
      · exact constant_carryFree _ _
  | mulStep id srcA srcB tok => exact performMulStep_carryFree h f srcA srcB tok
  | properBranch | br | nop | fin => exact fun u hu => by cases hu

/-! ### Branches -/

omit h in
theorem castPtrExt_carryFree {A V E : ℕ} {e o x : Bvexpr} {array : String} (he : e.CarryFree)
    (hcast : castPtrExt A V E e = some (array, o, x)) : o.CarryFree ∧ x.CarryFree := by
  rw [castPtrExt_eq_some hcast] at he
  exact he.2

omit h in
theorem expandCarry_carryFree {B : ℕ} {C : Bvexpr} (hC : C.CarryFree) : (expandCarry B C).CarryFree := by
  unfold expandCarry
  split
  · next hcast =>
    rw [castBvbinary_eq_some hcast] at hC
    exact nomatch (show BvOp.bvadditionCarry.inTheory = true from hC.1)
  · exact hC

omit h in
/-- A carry of an addition is expanded, whether it is of 32 bits or of 64. -/
theorem expandCarries_carryFree {C : Bvexpr} (hC : C.CarryFlag)
    (h32 : castBvbinary .bvsubstractionCarry 32 C = none) (h64 : castBvbinary .bvsubstractionCarry 64 C = none) :
    (expandCarry 64 (expandCarry 32 C)).CarryFree := by
  have hsum : ∀ {B a b}, a.CarryFree → b.CarryFree →
      (extract B B (B + 1) (bvadd (B + 1) (extend 1 B a) (extend 1 B b))).CarryFree := fun ha hb =>
    carryFree_closed.extract (carryFree_closed.bvadd (carryFree_closed.extend ha) (carryFree_closed.extend hb))
  rcases hC with hC | ⟨op, B, a, b, rfl, rfl | rfl, rfl | rfl, ha, hb⟩
  · exact expandCarry_carryFree (expandCarry_carryFree hC)
  · exact expandCarry_carryFree (hsum ha hb)
  · exact hsum ha hb
  · exact nomatch h32
  · exact nomatch h64

/-- A carry that is tested is turned into a comparison or expanded. -/
theorem checkCarry_carryFree [PastEnd] (cmp cmpExt : ℕ → Bvexpr → Bvexpr → Lexpr) (bit : ℕ)
    (hcmp : ∀ {B a b}, a.CarryFree → b.CarryFree → (cmp B a b).CarryFree)
    (hcmpExt : ∀ {B a b}, a.CarryFree → b.CarryFree → (cmpExt B a b).CarryFree) :
    (checkCarry f cmp cmpExt bit st).CarryFree := by
  have hC := h.carry (f.obj 0)
  unfold checkCarry
  simp only
  split
  · next a b hcast =>
    rw [castBvbinary_eq_some hcast] at hC
    obtain ⟨ha, hb⟩ := hC.operands
    split
    · next hptr hptr' =>
      split_ifs
      · exact hcmp (castPtr_carryFree ha hptr) (castPtr_carryFree hb hptr')
      · exact hcmp ha hb
    · exact hcmp ha hb
  · next h32 =>
    split
    · next a b hcast =>
      rw [castBvbinary_eq_some hcast] at hC
      obtain ⟨ha, hb⟩ := hC.operands
      split
      · next hptr hptr' =>
        obtain ⟨ho, hx⟩ := castPtrExt_carryFree ha hptr
        obtain ⟨ho', hx'⟩ := castPtrExt_carryFree hb hptr'
        split_ifs
        · exact lor_carryFree (hcmpExt hx hx') (land_carryFree (eq_carryFree hx hx') (hcmp ho ho'))
        · exact hcmp ha hb
      · exact hcmp ha hb
    · next h64 => exact eq_carryFree (expandCarries_carryFree hC h32 h64) (constant_carryFree 1 bit)

theorem check_carryFree [PastEnd] (cond : BranchCond) : (cond.check f st).CarryFree := by
  have hflag : ∀ (g : Flag) (o : Obj), g ≠ .C → (st.flag o g).CarryFree := fun g o hg => h.flag hg o
  have hsign : (eq 1 (st.flag (f.obj 0) .N) (st.flag (f.obj 1) .V)).CarryFree ∧
      (eq 1 (st.flag (f.obj 1) .N) (st.flag (f.obj 2) .V)).CarryFree :=
    ⟨eq_carryFree (hflag _ _ (by decide)) (hflag _ _ (by decide)),
      eq_carryFree (hflag _ _ (by decide)) (hflag _ _ (by decide))⟩
  have hbit : ∀ (g : Flag) (o : Obj) (v : ℕ), g ≠ .C → (eq 1 (st.flag o g) (constant 1 v)).CarryFree :=
    fun g o v hg => eq_carryFree (hflag g o hg) (constant_carryFree _ _)
  cases cond with
  | bcc => exact checkCarry_carryFree h f bvult bvult 0 bvult_carryFree bvult_carryFree
  | bcs => exact checkCarry_carryFree h f bvuge bvugt 1 bvuge_carryFree bvugt_carryFree
  | beq | bmi | bne | bpl | bvc | bvs => exact hbit _ _ _ (by decide)
  | bge => exact hsign.1
  | bgt => exact land_carryFree (hbit _ _ _ (by decide)) hsign.2
  | ble => exact lor_carryFree (hbit _ _ _ (by decide)) (isfalse_carryFree hsign.2)
  | blt => exact isfalse_carryFree hsign.1

end

/-! ### Runs -/

/-- What is assumed afterwards was assumed before, or is what is added. -/
theorem mem_assume [PastEnd] {st : Exec} {a b : Assumption} (hb : b ∈ (st.assume a).assumptions) :
    b ∈ st.assumptions ∨ b = a := by
  have hpush : b ∈ (st.pushAssumption a).assumptions → b ∈ st.assumptions ∨ b = a := fun hb =>
    (List.mem_append.mp hb).imp_right List.mem_singleton.mp
  unfold Exec.assume at hb
  split at hb
  · split_ifs at hb <;> exact .inl hb
  · split_ifs at hb
    · exact .inl hb
    · split at hb
      · exact hpush hb
      · split at hb
        · rw [(st.assumeGe_spec ..).2.1] at hb
          exact .inl hb
        · split at hb
          · rw [(st.assumeLt_spec ..).2.1] at hb
            exact .inl hb
          · exact hpush hb

section

variable [PastEnd]

theorem Exec.CarryFree.assumeBranch {st : Exec} (h : st.CarryFree) (s : Step) : (st.assumeBranch s).CarryFree := by
  obtain ⟨⟨hr, hf, h8, h32⟩, hd, -⟩ := assumeBranch_sameButSat st s
  refine ⟨hr ▸ h.registers, hf ▸ h.flags, h8 ▸ h.mem8, h32 ▸ h.mem32, hd ▸ h.defered, fun a ha => ?_⟩
  unfold Exec.assumeBranch at ha
  split at ha
  · next id cond target hn =>
    have hcheck : (cond.check s.fresh st).CarryFree := check_carryFree h s.fresh cond
    rcases mem_assume ha with ha | rfl
    · exact h.assumptions a ha
    · simp only
      split_ifs
      · exact hcheck
      · exact isfalse_carryFree hcheck
  · exact h.assumptions a ha

omit [PastEnd] in
theorem recognises_congr {st st' : Exec} (h : st'.flags = st.flags) (f : Fresh) (n : Operation) :
    n.recognises f st' = n.recognises f st := by
  cases n with
  | alu | aluShf => simp only [Operation.recognises, Exec.flag, h]
  | _ => rfl

/-- An instruction that knows the carry that it finds. -/
theorem Exec.CarryFree.apply {st : Exec} (h : st.CarryFree) (s : Step)
    (hrec : st.isUnsat = false → s.n.recognises s.fresh st = true) : (st.apply s).CarryFree := by
  have helapse : (st.elapse s.n.instr s.i s.branchtrue).CarryFree :=
    ⟨h.registers, h.flags, h.mem8, h.mem32, h.defered, h.assumptions⟩
  unfold Exec.apply
  simp only
  split_ifs with hsat
  · exact helapse
  · have hassume := helapse.assumeBranch s
    refine hassume.storeDue.storeAll (perform_carryFree hassume s.fresh s.n ?_)
    rw [recognises_congr (assumeBranch_sameButSat (st.elapse s.n.instr s.i s.branchtrue) s).contents.flags]
    exact hrec (Bool.eq_false_iff.mpr hsat)

/-- Every instruction of a run knows the carry that it finds. On a path that is known to be impossible, instructions
are only charged. -/
def Exec.Recognises (st : Exec) : List Step → Prop
  | [] => True
  | s :: ss => (st.isUnsat = false → s.n.recognises s.fresh st = true) ∧ (st.apply s).Recognises ss

theorem Exec.CarryFree.applyAll {st : Exec} (h : st.CarryFree) {ss : List Step} (hrec : st.Recognises ss) :
    (st.applyAll ss).CarryFree := by
  induction ss generalizing st with
  | nil => exact h
  | cons s ss ih => exact ih (h.apply s hrec.1) hrec.2

end

/-! ### What the solver is given -/

theorem initialState_carryFree (firmware mtu : ℕ) {input : List Update} (hinput : ∀ u ∈ input, u.CarryFree) :
    (initialState firmware mtu input).CarryFree := by
  refine List.foldlRecOn (motive := Exec.CarryFree) input _ ?_ fun st h u hu => h.store (hinput u hu)
  exact ⟨fun _ _ he => (nomatch he), fun _ _ he => (nomatch he), fun _ _ he => (nomatch he),
    fun _ _ he => (nomatch he), fun _ hp => (nomatch hp), fun _ ha => (nomatch ha)⟩

theorem initialContents_carryFree (headroom : ℕ) : ∀ u ∈ initialContents headroom, u.CarryFree := by
  have hzero : (constant 32 0).CarryFree := constant_carryFree 32 0
  have hpacket : (bvadd 32 (.pointer 32 8 "packet" (constant 32 0)) (constant 32 headroom)).CarryFree :=
    carryFree_closed.bvadd ⟨trivial, hzero⟩ (constant_carryFree _ _)
  have hsize : (extend 18 14 (.bvvariable 14 "packetsize")).CarryFree := carryFree_closed.extend trivial
  have hctx := store_carryFree (A := 32) (V := 32)
    (store_carryFree (A := 32) (V := 32) (a := .bvavariable 32 32 "ctx") trivial hzero hsize) (constant_carryFree 32 2)
    hpacket
  simp only [initialContents, List.forall_mem_cons]
  exact ⟨trivial, trivial, trivial, hctx, ⟨trivial, hzero⟩, ⟨trivial, hzero⟩, ⟨trivial, hzero⟩, ⟨trivial, hzero⟩,
    fun _ hu => (nomatch hu)⟩

theorem Exec.CarryFree.asserted {st : Exec} (h : st.CarryFree) : ∀ a ∈ st.asserted, a.e.CarryFree := by
  intro a ha
  rcases List.mem_append.mp ha with ha | ha
  · unfold Exec.bounds at ha
    split at ha
    · exact nomatch ha
    · next m _ =>
      have hsize : (Bvexpr.bvvariable 14 m).CarryFree := trivial
      simp only [List.mem_cons, List.not_mem_nil, or_false] at ha
      rcases ha with rfl | rfl
      · exact bvuge_carryFree (B := 14) hsize (constant_carryFree 14 st.minValue)
      · exact bvule_carryFree (B := 14) hsize (constant_carryFree 14 st.maxValue)
  · exact h.assumptions a ha

/-- **What is asserted is in the theory**, as long as every instruction knows the carry that it finds: in no condition
is there a carry, and one without undefined values and pointers is built from operators of the theory. -/
theorem asserted_inTheory [PastEnd] (firmware mtu headroom : ℕ) {ss : List Step}
    (hrec : (initialState firmware mtu (initialContents headroom)).Recognises ss) :
    ∀ a ∈ ((initialState firmware mtu (initialContents headroom)).applyAll ss).asserted,
      a.e.CarryFree ∧
        (a.e.Nodes Bvexpr.Known Bvarray.Known → a.e.Nodes Bvexpr.InTheory Bvarray.Known) := by
  intro a ha
  have hfree := ((initialState_carryFree firmware mtu (initialContents_carryFree headroom)).applyAll hrec).asserted a ha
  exact ⟨hfree, hfree.inTheory⟩

/-- `alu[--, 0x1, -, 0x2]`. -/
def subtractStep : Step := ⟨.alu 0 .omitted (.constant 1) .minus (.constant 2) false, ⟨0, 0⟩, 0, false, .numbered 0⟩

/-- `alu[gprA_0, 0x0, +carry, 0x0]`. -/
def addCarryStep : Step :=
  ⟨.alu 1 (.gpr ⟨.A, 0⟩) (.constant 0) .plusCarry (.constant 0) false, ⟨0, 0⟩, 0, false, .numbered 0⟩

/-- `beq` that branches. -/
def equalStep : Step := ⟨.properBranch 2 .beq 0, ⟨0, 0⟩, 0, true, .numbered 0⟩

/-- The carry that the first leaves behind. -/
def subtractCarry : Bvexpr := .bvbinary .bvsubstractionCarry 32 (constant 32 1) (constant 32 2)

/-- It is the result of the second. -/
theorem addCarryStep_dst : (AluOp.calculatePlusCarry (constant 32 0) (constant 32 0) subtractCarry).dst =
    .concatenation 31 1 (constant 31 0) subtractCarry := by
  have hzero : bvadd 32 (constant 32 0) (constant 32 0) = constant 32 0 := bvadd_done rfl
  have hsum : bvadd 32 (constant 32 0) (extend 31 1 subtractCarry) =
      .concatenation 31 1 (constant 31 0) subtractCarry := bvadd_done rfl
  show bvadd 32 (bvadd 32 (constant 32 0) (constant 32 0)) (extend 31 1 subtractCarry) = _
  rw [hzero, hsum]

section

variable [PastEnd]

/-- A condition that is not on the packet size is collected. -/
theorem assume_equality {st : Exec} (hst : st.assumptions = []) (B : ℕ) (a b : Bvexpr) (id : String) :
    (st.assume ⟨.comparison .equality B a b, id⟩).assumptions = [⟨.comparison .equality B a b, id⟩] := by
  have hbound : ∀ {c m}, c ≠ .equality → boundOn c m (.comparison .equality B a b) = none := by
    intro c m hc
    cases b with
    | bitvector => simp [boundOn, hc.symm]
    | _ => rfl
  have hpush : (st.pushAssumption ⟨.comparison .equality B a b, id⟩).assumptions =
      [⟨.comparison .equality B a b, id⟩] := by rw [Exec.pushAssumption, hst, List.nil_append]
  cases hm : st.minimize with
  | none => simpa [Exec.assume, hst, hm] using hpush
  | some m => simpa [Exec.assume, hst, hm, @hbound .bvuge m (by decide), @hbound .bvult m (by decide)] using hpush

theorem apply_equalStep {st : Exec} (hsat : st.isUnsat = false) (hst : st.assumptions = []) {z : Bvexpr}
    (hz : ∀ o, st.flag o .Z = z) (hne : z.equal (constant 1 1) = false) :
    ∃ id, (st.apply equalStep).assumptions = [⟨.comparison .equality 1 z (constant 1 1), id⟩] := by
  have hcheck : BranchCond.beq.check equalStep.fresh (st.elapse equalStep.n.instr equalStep.i true) =
      .comparison .equality 1 z (constant 1 1) := by
    show eq 1 (st.flag (equalStep.fresh.obj 0) .Z) (constant 1 1) = _
    rw [hz, eq, hne]
    rfl
  rw [apply_assumptions hsat]
  simp only [Exec.assumeBranch, equalStep, if_true] at hcheck ⊢
  rw [hcheck]
  exact ⟨_, @assume_equality _ { st.elapse _ _ _ with sat := none, model := none } hst 1 z (constant 1 1) _⟩

/-- The subtraction and the addition leave the carry in the flag `Z`. -/
theorem apply_addCarryStep {st : Exec} (hsat : st.isUnsat = false) (hst : st.assumptions = []) :
    let high := (st.apply subtractStep).apply addCarryStep
    high.isUnsat = false ∧ high.assumptions = [] ∧
      ∀ o, high.flag o .Z =
        .bvbinary .bvcomparison 32 (.concatenation 31 1 (constant 31 0) subtractCarry) (constant 32 0) := by
  intro high
  have hlow : (st.apply subtractStep).isUnsat = false :=
    apply_isUnsat hsat (by simp [subtractStep, Operation.instr, Instr.type])
  have hhigh : high.isUnsat = false := apply_isUnsat hlow (by simp [addCarryStep, Operation.instr, Instr.type])
  obtain ⟨r, hflags, -, -, hc⟩ := @apply_aluLike_flags _ st subtractStep _ _ _ hsat rfl
  obtain ⟨r', hflags', hdst, -, -⟩ := @apply_aluLike_flags _ (st.apply subtractStep) addCarryStep _ _ _ hlow rfl
  have hC : (st.apply subtractStep).flag (addCarryStep.fresh.obj 3) .C = subtractCarry := (hflags.c _).trans hc
  have hdst : r'.dst = (AluOp.calculatePlusCarry (constant 32 0) (constant 32 0)
      ((st.apply subtractStep).flag (addCarryStep.fresh.obj 3) .C)).dst := hdst
  refine ⟨hhigh, ?_, fun o => ?_⟩
  · rw [apply_assumptions hlow]
    exact (apply_assumptions hsat subtractStep).trans hst
  · rw [hflags'.z, hdst, hC, addCarryStep_dst]
    rfl

end

/-- A carry that is not known is asserted. -/
theorem carry_is_asserted :
    let _ : PastEnd := ⟨fun _ => true⟩
    ∃ a ∈ ((initialState 224 1500 (initialContents (2 ^ 31))).applyAll
        [subtractStep, addCarryStep, equalStep]).asserted,
      a.e.Nodes Bvexpr.Known Bvarray.Known ∧ ¬ a.e.Nodes Bvexpr.InTheory Bvarray.Known := by
  intro _
  obtain ⟨⟨-, hnone⟩, -, -, hsat⟩ := initialState_sizes 224 1500 (initialContents (2 ^ 31))
  obtain ⟨hsat, hnone, hz⟩ := apply_addCarryStep hsat hnone
  obtain ⟨id, hassumed⟩ := apply_equalStep hsat hnone hz rfl
  rw [Exec.applyAll_cons, Exec.applyAll_cons, Exec.applyAll_cons, Exec.applyAll_nil, Exec.asserted, hassumed]
  refine ⟨_, List.mem_append_right _ (List.mem_singleton_self _), ?_, ?_⟩
  · simp [Lexpr.Nodes, Bvexpr.Nodes, Bvexpr.Known, subtractCarry, constant]
  · simp [Lexpr.Nodes, Bvexpr.Nodes, Bvexpr.InTheory, subtractCarry, constant, BvOp.inTheory]

/-- A subtraction and a branch. -/
theorem asserted_inTheory_subtract :
    let _ : PastEnd := ⟨fun _ => true⟩
    ∀ a ∈ ((initialState 224 1500 (initialContents (2 ^ 31))).applyAll [subtractStep, equalStep]).asserted,
      a.e.CarryFree ∧
        (a.e.Nodes Bvexpr.Known Bvarray.Known → a.e.Nodes Bvexpr.InTheory Bvarray.Known) := by
  intro _
  exact asserted_inTheory 224 1500 (2 ^ 31) ⟨fun _ => rfl, fun _ => rfl, trivial⟩

end NfpEstimator
