import NfpEstimator.State.Apply

/-!
# Comparing and branching

A subtraction and the conditional branch after it. The flags of a subtraction are expressions: `N` and `Z`
compare parts of the difference with constants, `V` is put together from signs, and `C` is the
subtraction itself, as an operator of its own, which `bcc` and `bcs` turn back into a comparison. A branch that
looks at `N` and `V` asks whether these two are equal, so what matters there is that the structural
equality does not mistake one for the other (`equal_overflow`).

The main result is that what a branch tests is the comparison that it stands for, of 32 bits
after one subtraction and of 64 bits after one with carry (`compare_and_branch`).
-/

namespace NfpEstimator

variable {A B a b d x y c e : Bvexpr} {w v : ℕ}

/-! ### Signs -/

/-- `bvcomp` of a bit with 1, which is the bit. -/
theorem bvcomp_bit (he : Typed 1 e) :
    (∃ v, e = .bitvector 1 v ∧ bvcomp 1 e (constant 1 1) = e) ∨
      castConstant 1 e = none ∧ bvcomp 1 e (constant 1 1) = .bvbinary .bvcomparison 1 e (constant 1 1) := by
  have hone : castConstant 1 (constant 1 1) = some 1 := rfl
  cases h : castConstant 1 e with
  | some v =>
    obtain ⟨rfl, -⟩ := castConstant_typed h he
    refine .inl ⟨v, rfl, ?_⟩
    have hlt : v < 2 := he.1
    simp only [bvcomp, h, hone]
    split_ifs with hv
    · rw [hv]
      rfl
    · obtain rfl : v = 0 := by omega
      rfl
  | none =>
    refine .inr ⟨rfl, ?_⟩
    simp only [bvcomp, h, hone]

theorem bvcomp_bit_computes (he : Typed 1 e) :
    Computes 1 (fun env => e.eval env) (bvcomp 1 e (constant 1 1)) := by
  rcases bvcomp_bit he with ⟨-, -, h⟩ | ⟨-, h⟩
  · rw [h]
    exact he.computes
  · rw [h]
    refine ⟨⟨⟨he, typed_constant 1 1⟩, rfl⟩, fun env => ?_⟩
    have hlt : e.eval env < 2 := he.eval_lt env
    rw [Bvexpr.eval, BvOp.eval, constant_eval]
    split_ifs <;> omega

theorem sign_computes (he : Typed 32 e) :
    Computes 1 (fun env => slice 31 1 (e.eval env)) (extract 31 31 32 e) :=
  extract_computes he (Nat.le_refl 31) (by decide)

/-- The flag `V` of a difference `d`. -/
theorem overflow_computes (hA : Typed 32 A) (hB : Typed 32 B) (hd : Typed 32 d) :
    Computes 1
      (fun env => (slice 31 1 (A.eval env) ^^^ slice 31 1 (B.eval env)) &&&
        (1 - (slice 31 1 (B.eval env) ^^^ slice 31 1 (d.eval env))))
      (AluOp.subtracted A B d c).v := by
  have hAB := bvxor_computes (sign_computes hA).typed (sign_computes hB).typed
  have hBd := bvxor_computes (sign_computes hB).typed (sign_computes hd).typed
  have hnot := bvnot_computes hBd.typed
  refine (bvand_one_computes hAB.typed hnot.typed).congr fun env => ?_
  rw [hAB.eval, hnot.eval, hBd.eval, (sign_computes hA).eval, (sign_computes hB).eval,
    (sign_computes hd).eval]
  rfl

theorem castConstant_bvxor (h : castConstant 1 y = none) : castConstant 1 (bvxor 1 x y) = none := by
  unfold bvxor
  split
  · next hy => cases h.symm.trans hy
  · split_ifs with h1 h2
    · exact h
    · cases h.symm.trans h2
    · rfl

/-- A bit and a negated one. -/
theorem bvand_bvnegation (x y : Bvexpr) :
    bvand 1 x (.bvnegation 1 y) = .bvnegation 1 y ∨ ∃ a b, bvand 1 x (.bvnegation 1 y) = .bvbinary .bvanding 1 a b := by
  cases h : castConstant 1 x with
  | none =>
    refine .inr ⟨x, .bvnegation 1 y, ?_⟩
    unfold bvand
    rw [h]
    rfl
  | some v =>
    have hextracts : bvandExtracts bvandExtractsLeft 1 v (.bvnegation 1 y) = none := rfl
    have hand : bvand 1 x (.bvnegation 1 y) = bvandConstant 1 v (.bvnegation 1 y) := by
      unfold bvand
      rw [h]
    rw [hand]
    unfold bvandConstant
    rw [hextracts]
    split_ifs
    · exact .inl rfl
    · exact .inr ⟨_, _, rfl⟩

/-! ### Words -/

/-- The value of an expression as a bit-vector. -/
def Bvexpr.word (w : ℕ) (e : Bvexpr) (env : Env) : BitVec w := BitVec.ofNat w (e.eval env)

theorem word_eq_iff (ha : Typed w a) (hb : Typed w b) (env : Env) :
    a.word w env = b.word w env ↔ a.eval env = b.eval env := by
  rw [← BitVec.toNat_inj, Bvexpr.word, Bvexpr.word, BitVec.toNat_ofNat, BitVec.toNat_ofNat,
    Nat.mod_eq_of_lt (ha.eval_lt env), Nat.mod_eq_of_lt (hb.eval_lt env)]

theorem word_ult (ha : Typed w a) (hb : Typed w b) (env : Env) :
    (a.word w env).ult (b.word w env) = decide (a.eval env < b.eval env) := by
  rw [BitVec.ult_eq_decide, Bvexpr.word, Bvexpr.word, BitVec.toNat_ofNat, BitVec.toNat_ofNat,
    Nat.mod_eq_of_lt (ha.eval_lt env), Nat.mod_eq_of_lt (hb.eval_lt env)]

theorem word_ule (ha : Typed w a) (hb : Typed w b) (env : Env) :
    (a.word w env).ule (b.word w env) = decide (a.eval env ≤ b.eval env) := by
  rw [BitVec.ule_eq_decide, Bvexpr.word, Bvexpr.word, BitVec.toNat_ofNat, BitVec.toNat_ofNat,
    Nat.mod_eq_of_lt (ha.eval_lt env), Nat.mod_eq_of_lt (hb.eval_lt env)]

/-- The two words of 64 bits. -/
theorem word_concat (hA : Typed 32 A) (ha : Typed 32 a) (env : Env) :
    (concat 32 32 A a).word 64 env = A.word 32 env ++ a.word 32 env := by
  have hlt := ha.eval_lt env
  refine BitVec.eq_of_toNat_eq ?_
  rw [Bvexpr.word, (concat_computes hA ha).eval, BitVec.toNat_append, Bvexpr.word, Bvexpr.word, BitVec.toNat_ofNat,
    BitVec.toNat_ofNat, BitVec.toNat_ofNat, Nat.mod_eq_of_lt (hA.eval_lt env), Nat.mod_eq_of_lt hlt,
    Nat.mod_eq_of_lt (glue_lt (hA.eval_lt env) hlt), ← Nat.shiftLeft_add_eq_or_of_lt hlt, Nat.shiftLeft_eq, glue]

/-- 64 bits are a pointer only if their low word is one. -/
theorem concatPointer_none {A : ℕ} (hb : A ≠ 32 ∨ b.isPointer = false) : concatPointer A w a b = none := by
  cases b with
  | pointer =>
    rcases hb with hA | hb
    · exact if_neg fun h => hA h.1.1
    · exact nomatch hb
  | _ => rfl

theorem concatConstant_isPointer {A va : ℕ} (h : A + w = 64) (hA : 0 < A) (hb : A ≠ 32 ∨ b.isPointer = false) :
    (concatConstant A va w b).isPointer = false := by
  have hpull : ∀ {A B X}, A + B = 64 → concatPullExtract A B X = false := by
    intro A B X hAB
    simp only [concatPullExtract, Bool.and_eq_false_iff, beq_eq_false_iff_ne, decide_eq_false_iff_not]
    omega
  fun_induction concatConstant A va w b with
  | case1 | case2 | case4 | case6 => rfl
  | case3 A va w X Y X' vx b hX ih =>
    refine ih (by omega) (by omega) (.inl ?_)
    obtain ⟨-, hm⟩ := hX
    simp only [concatMergeConstants, Bool.and_eq_true, Bool.or_eq_true, beq_iff_eq, decide_eq_true_eq] at hm
    omega
  | case5 A va w S E B' e hE => exact absurd hE.2 (by simp [hpull h])
  | case7 A va w b =>
    rw [concatPointer_none hb]
    rfl

theorem concat_isPointer {A : ℕ} (h : A + w = 64) (hA : 0 < A) (hb : A ≠ 32 ∨ b.isPointer = false) :
    (concat A w a b).isPointer = false := by
  fun_induction concat A w a b with
  | case1 => exact concatConstant_isPointer h hA hb
  | case2 => rfl
  | case3 A w b X Y a₁ a₂ _ ih =>
    rw [concatPointer_none hb, Option.getD_none]
    split_ifs with hX
    · exact ih (by omega) (by omega) (.inl (by omega))
    · rfl
  | case4 A w a b =>
    rw [concatPointer_none hb]
    rfl

theorem bvsub_orsPointer (ha : a.orsPointer = false) : (bvsub w a b).orsPointer = false := by
  unfold bvsub
  cases h : bvsubConstant w a b with
  | some r =>
    unfold bvsubConstant at h
    split_ifs at h with hw
    split at h
    · obtain rfl := Option.some.inj h
      rfl
    · split_ifs at h
      obtain rfl := Option.some.inj h
      exact ha
  | none =>
    cases a with
    | pointer => exact nomatch ha
    | _ => rfl

/-! ### Comparing with constants -/

variable [PastEnd]

theorem eq_of_equal_bitvector (h : e.equal (.bitvector w v) = true) : e = .bitvector w v := by
  cases e with
  | bitvector =>
    simp only [Bvexpr.equal, Bool.and_eq_true, beq_iff_eq] at h
    rw [h.1, h.2]
  | _ => cases h

theorem eq_of_bitvector_equal (h : Bvexpr.equal (.bitvector w v) e = true) : e = .bitvector w v := by
  cases e with
  | bitvector =>
    simp only [Bvexpr.equal, Bool.and_eq_true, beq_iff_eq] at h
    rw [h.1, h.2]
  | _ => cases h

theorem eq_constant_decides (he : Typed w e) (hv : v < 2 ^ w) :
    Decides (fun env => e.eval env == v) (eq w e (constant w v)) := by
  refine (eq_decides he (typed_constant w v) fun env h => ?_).congr fun env => ?_
  · rw [eq_of_equal_bitvector h]
    rfl
  · rw [constant_eval, Nat.mod_eq_of_lt hv]

/-! ### The flags of a difference -/

/-- The flags `N` and `V` of a difference look the same only if they are. -/
theorem equal_overflow (hd : Typed 32 d) (env : Env)
    (h : (bvcomp 1 (extract 31 31 32 d) (constant 1 1)).equal (AluOp.subtracted A B d c).v = true) :
    (bvcomp 1 (extract 31 31 32 d) (constant 1 1)).eval env = (AluOp.subtracted A B d c).v.eval env := by
  rcases bvcomp_bit (sign_computes hd).typed with ⟨v, hv, hN⟩ | ⟨hnone, hN⟩
  · rw [hN, hv] at h ⊢
    rw [eq_of_bitvector_equal h]
  · -- `N` is a comparison, and `V` is a negation or a bitwise and
    have hV : (AluOp.subtracted A B d c).v =
        bvand 1 (bvxor 1 (extract 31 31 32 A) (extract 31 31 32 B))
          (.bvnegation 1 (bvxor 1 (extract 31 31 32 B) (extract 31 31 32 d))) := by
      simp only [AluOp.subtracted, bvnot, castConstant_bvxor hnone]
    rw [hN, hV] at h
    rcases bvand_bvnegation (bvxor 1 (extract 31 31 32 A) (extract 31 31 32 B))
      (bvxor 1 (extract 31 31 32 B) (extract 31 31 32 d)) with hand | ⟨a, b, hand⟩
    · rw [hand] at h
      exact nomatch h
    · rw [hand] at h
      simp [Bvexpr.equal] at h

/-! ### What branches test -/

/-- `N = V` of a difference of 32 bits. -/
theorem nv_decides (hA : Typed 32 A) (hB : Typed 32 B) (hp : A.isPointer = false) :
    Decides (fun env => (B.word 32 env).sle (A.word 32 env))
      (eq 1 (bvcomp 1 (extract 31 31 32 (bvsub 32 A B)) (constant 1 1))
        (AluOp.subtracted A B (bvsub 32 A B) c).v) := by
  have hd := bvsub_computes hA hB hp
  have hN := bvcomp_bit_computes (sign_computes hd.typed).typed
  have hV := @overflow_computes _ _ _ c hA hB hd.typed
  refine (eq_decides hN.typed hV.typed fun env => equal_overflow hd.typed env).congr fun env => ?_
  rw [hN.eval, (sign_computes hd.typed).eval, hV.eval]
  exact sign_eq_overflow (hA.eval_lt env) (hB.eval_lt env) (hd.eval env)

/-- `N = V` of the high word of a difference of 64 bits. -/
theorem nv_decides_carry (hA : Typed 32 A) (hB : Typed 32 B) (ha : Typed 32 a) (hb : Typed 32 b)
    (hp : (concat 32 32 A a).isPointer = false) :
    let d := extract 63 32 64 (bvsub 64 (concat 32 32 A a) (concat 32 32 B b))
    Decides (fun env => ((concat 32 32 B b).word 64 env).sle ((concat 32 32 A a).word 64 env))
      (eq 1 (bvcomp 1 (extract 31 31 32 d) (constant 1 1)) (AluOp.subtracted A B d c).v) := by
  intro d
  have hAa := concat_computes hA ha
  have hBb := concat_computes hB hb
  have hsub := bvsub_computes hAa.typed hBb.typed hp
  have hd : Computes 32 (fun env => slice 32 32 ((bvsub 64 (concat 32 32 A a) (concat 32 32 B b)).eval env)) d :=
    extract_front (E := 32) hsub.typed (by decide)
  have hN := bvcomp_bit_computes (sign_computes hd.typed).typed
  have hV := @overflow_computes _ _ _ c hA hB hd.typed
  refine (eq_decides hN.typed hV.typed fun env => equal_overflow hd.typed env).congr fun env => ?_
  rw [hN.eval, (sign_computes hd.typed).eval, hV.eval, hd.eval, slice_slice (by decide)]
  -- the signs are the first bits of all 64
  have hfirst : ∀ {x y}, y < 2 ^ 32 → slice 31 1 x = slice 63 1 (glue 32 x y) := fun hy =>
    (slice_glue_left (n := 32) (i := 63) hy (by decide)).symm
  rw [hfirst (x := A.eval env) (ha.eval_lt env), hfirst (x := B.eval env) (hb.eval_lt env), ← hAa.eval, ← hBb.eval]
  exact sign_eq_overflow (hAa.typed.eval_lt env) (hBb.typed.eval_lt env) (hsub.eval env)

/-- What tests `C` after a difference of 32 bits. -/
theorem checkCarry_sub {f : Fresh} {st : Exec} {cmp cmpExt : ℕ → Bvexpr → Bvexpr → Lexpr} {bit : ℕ}
    (hc : st.flag (f.obj 0) .C = .bvbinary .bvsubstractionCarry 32 A B) (hp : B.isPointer = false) :
    checkCarry f cmp cmpExt bit st = cmp 32 A B := by
  simp [checkCarry, hc, castBvbinary, castPtr_none hp]

/-- What tests `C` after a difference of 64 bits. -/
theorem checkCarry_sub64 {f : Fresh} {st : Exec} {cmp cmpExt : ℕ → Bvexpr → Bvexpr → Lexpr} {bit : ℕ}
    (hc : st.flag (f.obj 0) .C = .bvbinary .bvsubstractionCarry 64 A B) (hp : B.isPointer = false) :
    checkCarry f cmp cmpExt bit st = cmp 64 A B := by
  simp [checkCarry, hc, castBvbinary, castPtrExt_none hp]

omit [PastEnd] in
/-- The flag `Z` of a difference. -/
theorem zero_computes (hA : Typed 32 A) (hB : Typed 32 B) (hp : A.orsPointer = false) :
    Computes 1 (fun env => if A.word 32 env = B.word 32 env then 1 else 0)
      (bvcomp 32 (bvsub 32 A B) (constant 32 0)) := by
  have hd := bvsub_computes hA hB (isPointer_of_orsPointer hp)
  refine (bvcomp_computes hd.typed (typed_constant 32 0) (bvsub_orsPointer hp) rfl).congr fun env => ?_
  have ha := hA.eval_lt env
  have hb := hB.eval_lt env
  rw [hd.eval, sub_mod_of_lt ha hb, constant_eval, Nat.zero_mod]
  refine if_congr ?_ rfl rfl
  rw [word_eq_iff hA hB]
  split_ifs <;> omega

theorem zero_decides (hA : Typed 32 A) (hB : Typed 32 B) (hp : A.orsPointer = false) :
    Decides (fun env => A.word 32 env == B.word 32 env)
        (eq 1 (bvcomp 32 (bvsub 32 A B) (constant 32 0)) (constant 1 1)) ∧
      Decides (fun env => A.word 32 env != B.word 32 env)
        (eq 1 (bvcomp 32 (bvsub 32 A B) (constant 32 0)) (constant 1 0)) := by
  have hz := zero_computes hA hB hp
  refine ⟨(eq_constant_decides hz.typed (by decide)).congr fun env => ?_,
    (eq_constant_decides hz.typed (by decide)).congr fun env => ?_⟩ <;>
    · rw [hz.eval]
      by_cases h : A.word 32 env = B.word 32 env <;> simp [h]

/-- What tests `N` and `V`. -/
theorem Exec.FlagsOf.sign {st : Exec} {r : AssignResult} {ge : Env → Bool} (hst : st.FlagsOf r)
    (h : Decides ge (eq 1 (bvcomp 1 (extract 31 31 32 r.dst) (constant 1 1)) r.v)) (f : Fresh) :
    Decides ge (BranchCond.check f st .bge) ∧ Decides (fun env => !ge env) (BranchCond.check f st .blt) := by
  simp only [BranchCond.check, hst.n, hst.v]
  exact ⟨h, isfalse_decides h⟩

/-- What tests `Z` too. -/
theorem Exec.FlagsOf.zero {st : Exec} {r : AssignResult} {ge same ne : Env → Bool} (hst : st.FlagsOf r)
    (h : Decides ge (eq 1 (bvcomp 1 (extract 31 31 32 r.dst) (constant 1 1)) r.v))
    (heq : Decides same (eq 1 (bvcomp 32 r.dst (constant 32 0)) (constant 1 1)))
    (hne : Decides ne (eq 1 (bvcomp 32 r.dst (constant 32 0)) (constant 1 0))) (f : Fresh) :
    (Decides same (BranchCond.check f st .beq) ∧ Decides ne (BranchCond.check f st .bne)) ∧
      Decides (fun env => ne env && ge env) (BranchCond.check f st .bgt) ∧
      Decides (fun env => same env || !ge env) (BranchCond.check f st .ble) := by
  simp only [BranchCond.check, hst.n, hst.v, hst.z]
  exact ⟨⟨heq, hne⟩, land_decides hne h, lor_decides heq (isfalse_decides h)⟩

/-- **What a branch tests is the comparison that it stands for**: of 32 bits after one subtraction, whatever the
state, and of 64 bits after one of the low words and one with carry of the high words. -/
theorem compare_and_branch {st : Exec} (hsat : st.isUnsat = false) (f : Fresh) (env : Env) :
    (∀ s A B, s.n.aluLike s.fresh st = some (.minus, A, B) → Typed 32 A → Typed 32 B →
      A.orsPointer = false → B.isPointer = false →
      let a := A.word 32 env
      let b := B.word 32 env
      let test := fun cond => (BranchCond.check f (st.apply s) cond).eval env
      test .bcc = a.ult b ∧ test .bcs = b.ule a ∧ test .bge = b.sle a ∧ test .blt = a.slt b ∧
        test .bgt = b.slt a ∧ test .ble = a.sle b ∧ test .beq = (a == b) ∧ test .bne = (a != b)) ∧
    ∀ s s' A B A' B', s.n.aluLike s.fresh st = some (.minus, A, B) →
      s'.n.aluLike s'.fresh (st.apply s) = some (.minusCarry, A', B') →
      (Typed 32 A ∧ Typed 32 B) → (Typed 32 A' ∧ Typed 32 B') → A.isPointer = false → B.isPointer = false →
      let a := A'.word 32 env ++ A.word 32 env
      let b := B'.word 32 env ++ B.word 32 env
      let test := fun cond => (BranchCond.check f ((st.apply s).apply s') cond).eval env
      test .bcc = a.ult b ∧ test .bcs = b.ule a ∧ test .bge = b.sle a ∧ test .blt = a.slt b := by
  refine ⟨fun s A B hs hA hB hpA hpB => ?_, fun s s' A B A' B' hs hs' hAB hAB' hpA hpB => ?_⟩
  · intro a b test
    obtain ⟨⟨dst, v, c, u⟩, hr, rfl, rfl, rfl⟩ := apply_aluLike_flags hsat hs
    have hnv := @nv_decides A B (.bvbinary .bvsubstractionCarry 32 A B) _ hA hB (isPointer_of_orsPointer hpA)
    obtain ⟨heq, hne⟩ := zero_decides hA hB hpA
    obtain ⟨hge, hlt⟩ := hr.sign hnv f
    obtain ⟨⟨heq, hne⟩, hgt, hle⟩ := hr.zero hnv heq hne f
    have hc : (st.apply s).flag (f.obj 0) .C = .bvbinary .bvsubstractionCarry 32 A B := hr.c _
    have hcc : test .bcc = a.ult b := by
      rw [word_ult hA hB, ← (bvult_decides hA hB).eval]
      exact congrArg (Lexpr.eval env) (checkCarry_sub hc hpB)
    have hcs : test .bcs = b.ule a := by
      rw [word_ule hB hA, ← (bvuge_decides hA hB).eval]
      exact congrArg (Lexpr.eval env) (checkCarry_sub hc hpB)
    refine ⟨hcc, hcs, hge.eval env, ?_, ?_, ?_, heq.eval env, hne.eval env⟩
    · exact (hlt.eval env).trans (by rw [BitVec.sle_eq_not_slt, Bool.not_not])
    · refine (hgt.eval env).trans ?_
      rw [BitVec.slt_eq_sle_and_ne, Bool.and_comm, bne_comm]
    · refine (hle.eval env).trans ?_
      rw [BitVec.sle_eq_not_slt, Bool.not_not, BitVec.sle_eq_slt_or_eq, Bool.or_comm]
  · intro a b test
    obtain ⟨⟨_, _, c, _⟩, hr, -, -, rfl⟩ := apply_aluLike_flags hsat hs
    have hsat' := apply_isUnsat hsat (aluLike_type hs)
    obtain ⟨⟨dst, v, c, u⟩, hr', rfl, rfl, rfl⟩ := apply_aluLike_flags hsat' hs'
    have hcalc : AluOp.minusCarry.calculate A' B' (st.apply s) (s'.fresh.obj 3) =
        AluOp.subtracted A' B' (extract 63 32 64 (bvsub 64 (concat 32 32 A' A) (concat 32 32 B' B)))
          (.bvbinary .bvsubstractionCarry 64 (concat 32 32 A' A) (concat 32 32 B' B)) := by
      simp [AluOp.calculate, AluOp.calculateMinusCarry, hr.c, AluOp.calculateMinus, AluOp.subtracted, castBvbinary]
    have hA := concat_computes hAB'.1 hAB.1
    have hB := concat_computes hAB'.2 hAB.2
    have hpA : (concat 32 32 A' A).isPointer = false := concat_isPointer rfl (by decide) (.inr hpA)
    have hpB : (concat 32 32 B' B).isPointer = false := concat_isPointer rfl (by decide) (.inr hpB)
    rw [hcalc] at hr'
    have hnv := @nv_decides_carry A' B' A B
      (.bvbinary .bvsubstractionCarry 64 (concat 32 32 A' A) (concat 32 32 B' B)) _ hAB'.1 hAB'.2 hAB.1 hAB.2 hpA
    obtain ⟨hge, hlt⟩ := hr'.sign hnv f
    have hc := hr'.c (f.obj 0)
    have ha : (concat 32 32 A' A).word 64 env = a := word_concat hAB'.1 hAB.1 env
    have hb : (concat 32 32 B' B).word 64 env = b := word_concat hAB'.2 hAB.2 env
    rw [← ha, ← hb]
    refine ⟨?_, ?_, hge.eval env, ?_⟩
    · rw [word_ult hA.typed hB.typed, ← (bvult_decides hA.typed hB.typed).eval]
      exact congrArg (Lexpr.eval env) (checkCarry_sub64 hc hpB)
    · rw [word_ule hB.typed hA.typed, ← (bvuge_decides hA.typed hB.typed).eval]
      exact congrArg (Lexpr.eval env) (checkCarry_sub64 hc hpB)
    · exact (hlt.eval env).trans (by rw [BitVec.sle_eq_not_slt, Bool.not_not])

omit [PastEnd] in
/-- `-1` is less than 5, and so it is in 64 bits. -/
theorem compare_and_branch_constants :
    let _ : PastEnd := ⟨fun _ => true⟩
    let f := Fresh.numbered 0
    let st := initialState 0 1500 []
    let s : Step := ⟨.alu 0 .omitted (.constant 0xffffffff) .minus (.constant 5) false, ⟨0, 0⟩, 0, false, f⟩
    let s' : Step := ⟨.alu 1 .omitted (.constant 0xffffffff) .minusCarry (.constant 0) false, ⟨0, 0⟩, 0, false, f⟩
    (BranchCond.check f (st.apply s) .blt).eval (.const 0) = true ∧
      (BranchCond.check f ((st.apply s).apply s') .blt).eval (.const 0) = true := by
  intro _ f st s s'
  have h := @compare_and_branch _ st rfl f (.const 0)
  have hlow := h.1 s (constant 32 0xffffffff) (constant 32 5) rfl (typed_constant _ _) (typed_constant _ _) rfl rfl
  have hhigh := h.2 s s' (constant 32 0xffffffff) (constant 32 5) (constant 32 0xffffffff) (constant 32 0) rfl rfl
    ⟨typed_constant _ _, typed_constant _ _⟩ ⟨typed_constant _ _, typed_constant _ _⟩ rfl rfl
  exact ⟨hlow.2.2.2.1.trans (by decide), hhigh.2.2.2.trans (by decide)⟩

end NfpEstimator
