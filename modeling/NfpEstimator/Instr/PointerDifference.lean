import NfpEstimator.Instr.Compare

/-!
# Differences of pointers

`expr::bvsub` of two pointers to elements of the same size is the difference of their offsets (`h::BVSubPointer`),
also if they point into different arrays, each of which may be anywhere. A pointer minus anything else is a pointer
again, and `expr::bvcomp` never takes the address of a byte for 0.

The main result is when a difference, the flag `Z` after `minus` and the branches `beq` and `bne` are those of the
two addresses (`pointer_minus_iff`).
-/

namespace NfpEstimator

variable {W V w v : ℕ} {A B a b d e o o' r : Bvexpr} {x y : String} {env : Env}

/-! ### Bases that are cancelled -/

/-- The sums of the bases that `expr::bvsub` leaves out of its operands. -/
def cancelledBases (env : Env) (w : ℕ) : Bvexpr → Bvexpr → ℕ × ℕ
  | .pointer A V x o, b =>
    if A = w ∧ (V = 8 ∨ V = 32) then
      match castPtr w V b with
      | some (y, o') =>
        let rest := cancelledBases env w o o'
        (env.base x w V + rest.1, env.base y w V + rest.2)
      | none => cancelledBases env w o b
    else (0, 0)
  | _, _ => (0, 0)

/-- Whether a difference is still the address of a byte. -/
def differenceAddress (w : ℕ) : Bvexpr → Bvexpr → Bool
  | .pointer A V _ o, b =>
    if A = w ∧ (V = 8 ∨ V = 32) then
      match castPtr w V b with
      | some (_, o') => differenceAddress w o o'
      | none => V == 8
    else false
  | a, b => castConstant w b == some 0 && a.byteAddress w

theorem cancelledBases_constant : cancelledBases env w a (.bitvector w v) = (0, 0) := by
  generalize hb : Bvexpr.bitvector w v = b
  fun_induction cancelledBases env w a b with
  | case1 A V x o _ y o' h =>
    subst hb
    exact nomatch h
  | case2 A V x o b h _ ih => exact ih hb
  | case3 | case4 => rfl

/-- The only constant that is subtracted from a pointer before anything else is 0. -/
theorem bvsubConstant_pointer (h : bvsubConstant w (.pointer W V x o) b = some r) :
    r = .pointer W V x o ∧ castConstant w b = some 0 := by
  unfold bvsubConstant at h
  split_ifs at h
  split at h
  · next ha _ => cases ha
  · split_ifs at h with hb
    exact ⟨(Option.some.inj h).symm, hb⟩

theorem bvsub_pointers (hV : V = 8 ∨ V = 32) :
    bvsub w (.pointer w V x o) (.pointer w V y o') = bvsub w o o' := by
  have hnone : bvsubConstant w (.pointer w V x o) (.pointer w V y o') = none := ite_self none
  conv_lhs => unfold bvsub
  simp [hnone, hV, castPtr]

theorem bvsub_pointer (hV : V = 8 ∨ V = 32) (hb : castPtr w V b = none)
    (h : bvsubConstant w (.pointer w V x o) b = none) :
    bvsub w (.pointer w V x o) b = .pointer w V x (bvsub w o b) := by
  conv_lhs => unfold bvsub
  simp [h, hV, hb]

theorem bvsub_of_constant (h : bvsubConstant w a b = some r) : bvsub w a b = r := by
  unfold bvsub
  rw [h]
  rfl

/-- A difference that leaves nothing out. -/
theorem difference_cancels (hb : Typed w b)
    (hr : Computes w (fun env => (a.eval env + 2 ^ w - b.eval env) % 2 ^ w) r) :
    Typed w r ∧ r.eval env + b.eval env + 0 ≡ a.eval env + 0 [MOD 2 ^ w] := by
  refine ⟨hr.typed, ?_⟩
  have hle := (hb.eval_lt env).le
  rw [hr.eval, Nat.add_zero, Nat.add_zero, Nat.ModEq, Nat.mod_add_mod, Nat.sub_add_cancel (by omega),
    Nat.add_mod_right]

/-- **What `bvsub` returns is the difference, but for the bases that it leaves out.** -/
theorem bvsub_cancels (ha : Typed w a) (hb : Typed w b) (env : Env) :
    Typed w (bvsub w a b) ∧ (bvsub w a b).eval env + b.eval env + (cancelledBases env w a b).1 ≡
      a.eval env + (cancelledBases env w a b).2 [MOD 2 ^ w] := by
  fun_induction cancelledBases env w a b with
  | case1 A V x o b hV y o' h rest ih =>
    obtain rfl := castPtr_eq_some h
    obtain ⟨rfl, ho⟩ := typed_pointer.mp ha
    obtain ⟨ht, ih⟩ := ih ho (typed_pointer.mp hb).2
    rw [bvsub_pointers hV.2]
    refine ⟨ht, ?_⟩
    rw [← ZMod.natCast_eq_natCast_iff] at ih ⊢
    simp only [Bvexpr.eval, Nat.cast_add, ZMod.natCast_mod] at ih ⊢
    linear_combination ih
  | case2 A V x o b hV h ih =>
    obtain ⟨rfl, ho⟩ := typed_pointer.mp ha
    cases hr : bvsubConstant A (.pointer A V x o) b with
    | some r =>
      rw [bvsub_of_constant hr, castConstant_eq_some (bvsubConstant_pointer hr).2, cancelledBases_constant,
        ← castConstant_eq_some (bvsubConstant_pointer hr).2]
      exact difference_cancels hb (bvsubConstant_computes ha hb hr)
    | none =>
      obtain ⟨ht, ih⟩ := ih ho hb
      rw [bvsub_pointer hV.2 h hr]
      refine ⟨typed_pointer.mpr ⟨rfl, ht⟩, ?_⟩
      rw [← ZMod.natCast_eq_natCast_iff] at ih ⊢
      simp only [Bvexpr.eval, Nat.cast_add, ZMod.natCast_mod] at ih ⊢
      linear_combination ih
  | case3 A V x o b hV =>
    refine difference_cancels hb ?_
    unfold bvsub
    cases hr : bvsubConstant w (.pointer A V x o) b with
    | some r => exact bvsubConstant_computes ha hb hr
    | none =>
      simp only [hV, if_false, Option.getD_none]
      exact bvsubstraction_computes ha hb
  | case4 a b hp =>
    refine difference_cancels hb ?_
    unfold bvsub
    cases hr : bvsubConstant w a b with
    | some r => exact bvsubConstant_computes ha hb hr
    | none =>
      cases a with
      | pointer => exact (hp _ _ _ _ rfl).elim
      | _ => exact bvsubstraction_computes ha hb

/-- What `bvsub` returns is the address of a byte if the difference is one. -/
theorem bvsub_byteAddress (hw : w ≤ 64) : (bvsub w a b).byteAddress w = differenceAddress w a b := by
  fun_induction differenceAddress w a b with
  | case1 A V x o b hV y o' h ih =>
    obtain rfl := castPtr_eq_some h
    obtain ⟨rfl, hV⟩ := hV
    rw [bvsub_pointers hV, ih]
  | case2 A V x o b hV h =>
    obtain ⟨rfl, hV⟩ := hV
    cases hr : bvsubConstant A (.pointer A V x o) b with
    | some r =>
      rw [bvsub_of_constant hr, (bvsubConstant_pointer hr).1]
      simp [Bvexpr.byteAddress]
    | none =>
      rw [bvsub_pointer hV h hr]
      simp [Bvexpr.byteAddress]
  | case3 A V x o b hV =>
    have hbyte : (Bvexpr.pointer A V x o).byteAddress w = false := by
      simp only [Bvexpr.byteAddress, Bool.and_eq_false_iff, beq_eq_false_iff_ne]
      by_contra h
      push Not at h
      exact hV ⟨h.1, .inl h.2⟩
    cases hr : bvsubConstant w (.pointer A V x o) b with
    | some r => rw [bvsub_of_constant hr, (bvsubConstant_pointer hr).1, hbyte]
    | none =>
      unfold bvsub
      simp [hr, hV, Bvexpr.byteAddress]
  | case4 a b hp =>
    have hnode : bvsubConstant w a b = none → bvsub w a b = .bvbinary .bvsubstraction w a b := by
      intro hr
      unfold bvsub
      rw [hr]
      cases a with
      | pointer => exact (hp _ _ _ _ rfl).elim
      | _ => rfl
    by_cases hb : castConstant w b = some 0
    · -- a constant is returned if `a` is one too, and no constant is an address
      have hr : ∃ r, bvsubConstant w a b = some r ∧ r.byteAddress w = a.byteAddress w := by
        unfold bvsubConstant
        rw [if_neg (by omega), hb]
        cases ha : castConstant w a with
        | some va =>
          obtain rfl := castConstant_eq_some ha
          exact ⟨_, rfl, (byteAddress_of_orsPointer rfl).trans (byteAddress_of_orsPointer rfl).symm⟩
        | none => exact ⟨a, rfl, rfl⟩
      obtain ⟨r, hr, hbyte⟩ := hr
      rw [bvsub_of_constant hr, hbyte, hb, beq_self_eq_true, Bool.true_and]
    · rw [beq_eq_false_iff_ne.mpr hb, Bool.false_and]
      cases hr : bvsubConstant w a b with
      | some r =>
        rw [bvsub_of_constant hr]
        unfold bvsubConstant at hr
        split_ifs at hr
        split at hr
        · rw [← Option.some.inj hr]
          rfl
        · rw [if_neg hb] at hr
          cases hr
      | none =>
        rw [hnode hr]
        rfl

/-- **What `bvcomp` of an expression and 0 is.** -/
theorem bvcomp_zero_computes (hd : Typed 32 d) :
    Computes 1 (fun env => if d.eval env = 0 ∧ d.byteAddress 32 = false then 1 else 0)
      (bvcomp 32 d (constant 32 0)) := by
  have hzero : castConstant 32 (constant 32 0) = some 0 := rfl
  cases h : castConstant 32 d with
  | some v =>
    obtain rfl := castConstant_eq_some h
    refine (bvcomp_computes hd (typed_constant 32 0) rfl rfl).congr fun env => ?_
    exact if_congr (and_iff_left rfl).symm rfl rfl
  | none =>
    have hcomp : bvcomp 32 d (constant 32 0) = bvcompZero 32 false d := by
      simp only [bvcomp, h, hzero]
    rw [hcomp]
    exact bvcompZero_computes hd

/-! ### Same arrays -/

/-- Of two pointers with numbers as offsets, nothing is left out in the end if they point into one array. -/
theorem cancelledBases_plain_iff (hV : V = 8 ∨ V = 32) (ho : o.isPointer = false) :
    (∀ env, (cancelledBases env 32 (.pointer 32 V x o) (.pointer 32 V y o')).1 ≡
        (cancelledBases env 32 (.pointer 32 V x o) (.pointer 32 V y o')).2 [MOD 2 ^ 32]) ↔ x = y := by
  have hrest : ∀ env, cancelledBases env 32 o o' = (0, 0) := by
    intro env
    cases o with
    | pointer => exact nomatch ho
    | _ => rfl
  simp only [cancelledBases, castPtr, hV, and_self, if_true, hrest, Nat.add_zero]
  constructor
  · intro h
    by_contra hxy
    -- the first array is at 1, and all others are at 0
    have h := h { Env.const 0 with base := fun z _ _ => if z = x then 1 else 0 }
    simp only [if_true, if_neg (Ne.symm hxy)] at h
    exact absurd h (by decide)
  · rintro rfl env
    exact Nat.ModEq.rfl

/-! ### After `minus` -/

/-- A difference is right if what is left out of it makes no difference. -/
theorem difference_iff (hA : Typed 32 A) (hB : Typed 32 B) (env : Env) :
    (bvsub 32 A B).eval env = (A.eval env + 2 ^ 32 - B.eval env) % 2 ^ 32 ↔
      (cancelledBases env 32 A B).1 ≡ (cancelledBases env 32 A B).2 [MOD 2 ^ 32] := by
  obtain ⟨hd, h⟩ := bvsub_cancels hA hB env
  have hdlt := hd.eval_lt env
  have ha := hA.eval_lt env
  have hb := hB.eval_lt env
  unfold Nat.ModEq at h ⊢
  omega

/-- **After a subtraction of addresses the difference, `Z`, `beq` and `bne` are right exactly if the bases that are left
out cancel each other, and the difference is not taken for the address of a byte where the two are equal.** -/
theorem pointer_minus_iff [PastEnd] {st : Exec} {s : Step} (hsat : st.isUnsat = false)
    (hs : s.n.aluLike s.fresh st = some (.minus, A, B)) (hA : Typed 32 A) (hB : Typed 32 B) (f : Fresh) (env : Env) :
    let a := A.eval env
    let b := B.eval env
    let test := fun cond => (BranchCond.check f (st.apply s) cond).eval env
    ((bvsub 32 A B).eval env = (a + 2 ^ 32 - b) % 2 ^ 32 ∧
      (∀ o, ((st.apply s).flag o .Z).eval env = if a = b then 1 else 0) ∧
      test .beq = decide (a = b) ∧ test .bne = !decide (a = b)) ↔
    (cancelledBases env 32 A B).1 ≡ (cancelledBases env 32 A B).2 [MOD 2 ^ 32] ∧
      (differenceAddress 32 A B = true → a ≠ b) := by
  intro a b test
  obtain ⟨r, hr, hdst, -⟩ := apply_aluLike_flags hsat hs
  have hdst : r.dst = bvsub 32 A B := hdst
  have hd := (bvsub_cancels hA hB env).1
  have hz := bvcomp_zero_computes hd
  rw [bvsub_byteAddress (by decide), ← hdst] at hz
  have ha := hA.eval_lt env
  have hb := hB.eval_lt env
  have hzero : (bvsub 32 A B).eval env = (a + 2 ^ 32 - b) % 2 ^ 32 → ((bvsub 32 A B).eval env = 0 ↔ a = b) := by
    omega
  rw [difference_iff hA hB]
  refine and_congr_right fun hsub => ?_
  have hzero := hzero ((difference_iff hA hB env).mpr hsub)
  constructor
  · rintro ⟨h, -⟩ haddress hab
    have h := h (.fresh 0)
    rw [hr.z, hz.eval, if_neg (by simp [haddress]), if_pos hab] at h
    exact nomatch h
  · intro h
    have hflag : ∀ o, ((st.apply s).flag o .Z).eval env = if a = b then 1 else 0 := by
      intro o
      rw [hr.z, hz.eval, hdst]
      refine if_congr ?_ rfl rfl
      rw [hzero, ← Bool.not_eq_true]
      exact and_iff_left_of_imp fun hab haddress => h haddress hab
    have hbeq := (eq_constant_decides hz.typed (v := 1) (by decide)).eval env
    have hbne := (eq_constant_decides hz.typed (v := 0) (by decide)).eval env
    rw [← hr.z (f.obj 0), hflag] at hbeq hbne
    refine ⟨hflag, hbeq.trans ?_, hbne.trans ?_⟩ <;>
      · split_ifs with hab <;> simp [hab]

/-- A state with the addresses of the first bytes of two arrays in the registers 0 of the banks. -/
def twoAddresses (x y : String) : Exec :=
  initialState 0 1500
    [.reg (Gpr.location ⟨.A, 0⟩) (.pointer 32 8 x (constant 32 0)),
      .reg (Gpr.location ⟨.B, 0⟩) (.pointer 32 8 y (constant 32 0))]

/-- A comparison of the two. -/
def minusStep : Step := ⟨.alu 0 .omitted (.gpr ⟨.A, 0⟩) .minus (.gpr ⟨.B, 0⟩) false, ⟨0, 0⟩, 0, false, .numbered 0⟩

theorem minusStep_aluLike (x y : String) : minusStep.n.aluLike minusStep.fresh (twoAddresses x y) =
    some (.minus, .pointer 32 8 x (constant 32 0), .pointer 32 8 y (constant 32 0)) := by
  have hne : Gpr.location ⟨.A, 0⟩ ≠ Gpr.location ⟨.B, 0⟩ := by decide
  have hreg : ∀ o, (twoAddresses x y).reg o (Gpr.location ⟨.A, 0⟩) = .pointer 32 8 x (constant 32 0) ∧
      (twoAddresses x y).reg o (Gpr.location ⟨.B, 0⟩) = .pointer 32 8 y (constant 32 0) := by
    intro o
    simp [Exec.reg, twoAddresses, initialState, Exec.make, Update.store, Function.update, hne]
  simp only [minusStep, Operation.aluLike, Src.read, hreg]

/-- An address is equal to itself. -/
theorem pointer_minus_iff_same :
    let _ : PastEnd := ⟨fun _ => true⟩
    (BranchCond.check (.numbered 0) ((twoAddresses "packet" "packet").apply minusStep) .beq).eval (.const 0) =
      true := by
  intro _
  have h := @pointer_minus_iff (.pointer 32 8 "packet" (constant 32 0)) (.pointer 32 8 "packet" (constant 32 0)) _
    (twoAddresses "packet" "packet") minusStep rfl (minusStep_aluLike _ _)
    (typed_pointer.mpr ⟨rfl, typed_constant _ _⟩) (typed_pointer.mpr ⟨rfl, typed_constant _ _⟩) (.numbered 0) (.const 0)
  exact (h.mpr ⟨Nat.ModEq.rfl, by decide⟩).2.2.1

/-- The addresses of a packet and of a map always look the same, wherever the two are. -/
theorem pointer_minus_wrong :
    let _ : PastEnd := ⟨fun _ => true⟩
    let st := (twoAddresses "packet" "map").apply minusStep
    (∀ env, (BranchCond.check (.numbered 0) st .beq).eval env = true) ∧
      ∃ env, (Bvexpr.pointer 32 8 "packet" (constant 32 0)).eval env ≠
        (Bvexpr.pointer 32 8 "map" (constant 32 0)).eval env := by
  intro _ st
  refine ⟨fun env => ?_, { Env.const 0 with base := fun z _ _ => if z = "map" then 1 else 0 }, by decide⟩
  obtain ⟨r, hr, hdst, -⟩ := @apply_aluLike_flags _ (twoAddresses "packet" "map") _ _ _ _ rfl (minusStep_aluLike _ _)
  have hsub : bvsubConstant 32 (constant 32 0) (constant 32 0) = some (constant 32 0) := rfl
  have hpointers := @bvsub_pointers 8 32 (constant 32 0) (constant 32 0) "packet" "map" (.inl rfl)
  have hdst : r.dst = constant 32 0 := hdst.trans (hpointers.trans (bvsub_of_constant hsub))
  have hflag : st.flag ((Fresh.numbered 0).obj 0) .Z = bvcomp 32 (constant 32 0) (constant 32 0) := by
    rw [hr.z, hdst]
  have hz := bvcomp_zero_computes (typed_constant 32 0)
  have hbeq := (eq_constant_decides hz.typed (v := 1) (by decide)).eval env
  rw [hz.eval, ← hflag] at hbeq
  exact hbeq

end NfpEstimator
