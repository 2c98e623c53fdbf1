import NfpEstimator.State.Registers

/-!
# Addresses of 64 bits

A pointer in a register is an array and an offset, and an address of 64 bits is a pointer with a word in front
of it. `plus` of the low words and `plus_carry` of the high words add to such an address: `plus_carry` finds the
low words in the flag `C`, puts the four words together, adds them in 64 bits and takes the high word of the sum.

An addition to an extended pointer is done on its two parts apart (`h::BVAddPointerExt`), so that what the low
words carry does not get into the high one. Where the high word is the base of a pointer, it is the carry that is
added, and that addition is done on the offset of the base, which has 32 bits.

The main result is when the two registers have the sum in them (`pointer_sum_iff`).
-/

namespace NfpEstimator

variable {V s : ℕ} {array : String} {a b h g o e : Bvexpr}

/-! ### Adding to an extended pointer -/

theorem isPointer_of_pointers (h : e.pointers = 0) : e.isPointer = false := by
  cases e with
  | pointer | pointerExt | pointerBase => simp [Bvexpr.pointers] at h
  | _ => rfl

theorem bvaddRule_of_ext {r r' : AddRule} (hV : V = 8 ∨ V = 32)
    (hconstant : bvaddConstant 64 a b = if castConstant 64 e = some 0 then some r else none)
    (hpointer : ∀ V', bvaddPointer 64 V' a b = none)
    (hext : ∀ V', bvaddPointerExt 64 V' a b = if V = V' then some r' else none) :
    bvaddRule 64 a b = if castConstant 64 e = some 0 then r else r' := by
  rw [bvaddRule, hconstant, hpointer, hpointer, hext, hext]
  by_cases h0 : castConstant 64 e = some 0
  · simp [h0]
  · rcases hV with rfl | rfl <;> simp [h0]

/-- Which rule adds to an extended pointer. -/
theorem bvaddRule_pointerExt (hV : V = 8 ∨ V = 32) (hb : b.pointers = 0) :
    bvaddRule 64 (.pointerExt 32 V 32 array o h) b =
      if castConstant 64 b = some 0 then .done (.pointerExt 32 V 32 array o h)
      else .pointerExt V array o (extract 31 0 64 b) h (extract 63 32 64 b) := by
  have hnone : castConstant 64 (.pointerExt 32 V 32 array o h) = none := rfl
  have hp := isPointer_of_pointers hb
  refine bvaddRule_of_ext hV (by simp [bvaddConstant, hnone]) (fun V' => ?_) fun V' => ?_
  · rw [bvaddPointer, castPtr_none hp]
    rfl
  · rw [bvaddPointerExt, castPtrExt_none hp]
    by_cases hV : V = V' <;> simp [castPtrExt, hV]

theorem bvaddRule_pointerExt_right (hV : V = 8 ∨ V = 32) (hb : b.pointers = 0) :
    bvaddRule 64 b (.pointerExt 32 V 32 array o h) =
      if castConstant 64 b = some 0 then .done (.pointerExt 32 V 32 array o h)
      else .pointerExt V array (extract 31 0 64 b) o (extract 63 32 64 b) h := by
  have hnone : castConstant 64 (.pointerExt 32 V 32 array o h) = none := rfl
  have hp := isPointer_of_pointers hb
  refine bvaddRule_of_ext hV (by simp [bvaddConstant, hnone]) (fun V' => ?_) fun V' => ?_
  · rw [bvaddPointer, castPtr_none hp]
    rfl
  · rw [bvaddPointerExt, castPtrExt_none hp]
    by_cases hV : V = V' <;> simp [castPtrExt, hV]

theorem bvadd_zero (hh : Typed 32 h) : bvadd 32 h (constant 32 0) = h ∧ bvadd 32 (constant 32 0) h = h := by
  have hzero : castConstant 32 (constant 32 0) = some 0 := rfl
  cases hc : castConstant 32 h with
  | some v =>
    obtain ⟨rfl, -⟩ := castConstant_typed hc hh
    have hv : constant 32 v = .bitvector 32 v := by rw [constant, Nat.mod_eq_of_lt hh.1]
    constructor <;>
      · rw [bvadd_done (e := .bitvector 32 v) (by simp [bvaddRule, bvaddConstant, hzero, hc, hv])]
  | none =>
    constructor <;>
      · rw [bvadd_done (e := h) (by simp [bvaddRule, bvaddConstant, hzero, hc])]

/-- The high word of a sum with an extended pointer is the sum of the high words, without a carry. -/
theorem extract_bvadd_pointerExt (hV : V = 8 ∨ V = 32) (hh : Typed 32 h) (hpb : b.pointers = 0) :
    extract 63 32 64 (bvadd 64 (.pointerExt 32 V 32 array o h) b) = bvadd 32 h (extract 63 32 64 b) ∧
      extract 63 32 64 (bvadd 64 b (.pointerExt 32 V 32 array o h)) = bvadd 32 (extract 63 32 64 b) h := by
  have hextract : ∀ o' h', extract 63 32 64 (.pointerExt 32 V 32 array o' h') = h' := by
    intro o' h'
    rcases hV with rfl | rfl <;> simp [extract, extractWith, extractPointerExtLow, extractPointerExtHigh]
  have hleft := @bvaddRule_pointerExt V array b h o hV hpb
  have hright := @bvaddRule_pointerExt_right V array b h o hV hpb
  by_cases h0 : castConstant 64 b = some 0
  · have hb : extract 63 32 64 b = constant 32 0 := by
      rw [castConstant_eq_some h0]
      rfl
    rw [if_pos h0] at hleft hright
    rw [bvadd_done hleft, bvadd_done hright, hextract, hb, (bvadd_zero hh).1, (bvadd_zero hh).2]
    exact ⟨rfl, rfl⟩
  · rw [if_neg h0] at hleft hright
    rw [bvadd_pointerExt hleft, bvadd_pointerExt hright, hextract, hextract]
    exact ⟨rfl, rfl⟩

/-! ### Adding to the base of a pointer -/

/-- Which rule adds to the base of a pointer. -/
theorem bvaddRule_pointerBase (hb : b.pointers = 0) :
    (bvaddRule 32 (.pointerBase 32 8 array s o) b =
      if castConstant 32 b = some 0 then .done (.pointerBase 32 8 array s o)
      else .pointerBase 8 array s o (bvshl 32 b (constant 32 s))) ∧
    bvaddRule 32 b (.pointerBase 32 8 array s o) =
      if castConstant 32 b = some 0 then .done (.pointerBase 32 8 array s o)
      else .pointerBase 8 array s (bvshl 32 b (constant 32 s)) o := by
  have hnone : castConstant 32 (.pointerBase 32 8 array s o) = none := rfl
  have hp := isPointer_of_pointers hb
  have hbase : castPtrBase 32 8 b = none := castPtrBase_none (extPointer_of_pointers hb)
  have hptr : ∀ V', castPtr 32 V' b = none := fun V' => castPtr_none hp
  have hptr' : ∀ V', castPtr 32 V' (.pointerBase 32 8 array s o) = none := fun _ => rfl
  have hbase' : castPtrBase 32 8 (.pointerBase 32 8 array s o) = some (array, s, o) := rfl
  constructor <;>
    by_cases h0 : castConstant 32 b = some 0 <;>
    simp [bvaddRule, bvaddConstant, bvaddPointer, bvaddPointerExt, bvaddPointerBase, hnone, hbase, hptr, hptr',
      hbase', h0]

theorem eval_pointerBase (env : Env) : (Bvexpr.pointerBase 32 8 array s o).eval env =
    (env.base array 32 8 + o.eval env) / 2 ^ s % 2 ^ 32 := rfl

/-- A sum with the base of a pointer is one too, and what is added is added to the offset. -/
theorem bvadd_pointerBase_computes (ho : Typed 32 o) (hb : Typed 32 b) (hpo : o.pointers = 0)
    (hpb : b.pointers = 0) (hs : s < 32) :
    (∃ o', bvadd 32 (.pointerBase 32 8 array s o) b = .pointerBase 32 8 array s o' ∧ o'.pointers = 0 ∧
      Computes 32 (fun env => (o.eval env + b.eval env * 2 ^ s) % 2 ^ 32) o') ∧
    ∃ o', bvadd 32 b (.pointerBase 32 8 array s o) = .pointerBase 32 8 array s o' ∧ o'.pointers = 0 ∧
      Computes 32 (fun env => (o.eval env + b.eval env * 2 ^ s) % 2 ^ 32) o' := by
  have hshl : Computes 32 (fun env => (b.eval env * 2 ^ s) % 2 ^ 32) (bvshl 32 b (constant 32 s)) := by
    refine (bvshl_computes hb (typed_constant 32 s) (isPointer_of_pointers hpb)).congr fun env => ?_
    rw [constant_eval, Nat.mod_eq_of_lt (show s < 2 ^ 32 by omega), Nat.shiftLeft_eq]
  have hpshl : (bvshl 32 b (constant 32 s)).pointers = 0 := Nat.le_zero.mp (hpb ▸ pointers_bvshl 32 s b)
  have heo := extPointer_of_pointers hpo
  have heshl := extPointer_of_pointers hpshl
  obtain ⟨hleft, hright⟩ := @bvaddRule_pointerBase s array b o hpb
  by_cases h0 : castConstant 32 b = some 0
  · rw [if_pos h0] at hleft hright
    have hzero : Computes 32 (fun env => (o.eval env + b.eval env * 2 ^ s) % 2 ^ 32) o :=
      ho.computes.congr fun env => by
        rw [(castConstant_typed h0 hb).2, Nat.zero_mul, Nat.add_zero, Nat.mod_eq_of_lt (ho.eval_lt env)]
    exact ⟨⟨o, bvadd_done hleft, hpo, hzero⟩, o, bvadd_done hright, hpo, hzero⟩
  · rw [if_neg h0] at hleft hright
    refine ⟨⟨_, bvadd_pointerBase hleft, pointers_bvadd hpo hpshl, ?_⟩,
      _, bvadd_pointerBase hright, pointers_bvadd hpshl hpo, ?_⟩
    · refine (bvadd_computes ho hshl.typed heo heshl).congr fun env => ?_
      rw [hshl.eval, Nat.add_mod_mod]
    · refine (bvadd_computes hshl.typed ho heshl heo).congr fun env => ?_
      rw [hshl.eval, Nat.mod_add_mod, Nat.add_comm]

/-! ### The carry of the low words -/

/-- The carry of two words, as `plus_carry` makes it for the base of a pointer. -/
def carryBit (a b : Bvexpr) : Bvexpr := extract 32 32 33 (bvadd 33 (extend 1 32 a) (extend 1 32 b))

theorem extend_pointer :
    extend 1 32 (.pointer 32 V array o) = .concatenation 1 32 (constant 1 0) (.pointer 32 V array o) := by
  simp [extend, constant, concat, concatConstant, concatPointer]

theorem bvaddRule_65 (ha : a.isPointer = false) (hb : b.isPointer = false) :
    bvaddRule 65 a b = .done (.bvbinary .bvaddition 65 a b) := by
  have hpull : ∀ a b, bvaddPullExtract 65 a b = none := by
    intro a b
    cases b <;> simp [bvaddPullExtract]
  simp [bvaddRule, bvaddConstant, bvaddPointer, bvaddPointerExt, bvaddPointerBase, castPtr_none ha, castPtr_none hb,
    castPtrExt_none ha, castPtrExt_none hb, hpull]

/-- A pointer that is not on its own gets into a sum only if nothing is added. -/
theorem bvaddRule_33 {X Y : ℕ} {a₁ a₂ : Bvexpr} (hb : b.pointers = 0) :
    bvaddRule 33 (.concatenation X Y a₁ a₂) b = .done (.concatenation X Y a₁ a₂) ∨
      (∃ e, bvaddRule 33 (.concatenation X Y a₁ a₂) b = .done e ∧ e.pointers = 0) ∨
      ∃ x y, bvaddRule 33 (.concatenation X Y a₁ a₂) b = .pullExtract x y ∧
        x.isPointer = false ∧ y.isPointer = false := by
  have hp := isPointer_of_pointers hb
  have hnone : ∀ {P : AddRule → Prop} {r : Option AddRule}, r = none → ∀ r' ∈ r, P r' := by
    rintro P _ rfl r' h
    cases h
  refine bvaddRule_cases (P := fun r => r = .done (.concatenation X Y a₁ a₂) ∨
      (∃ e, r = .done e ∧ e.pointers = 0) ∨ ∃ x y, r = .pullExtract x y ∧ x.isPointer = false ∧ y.isPointer = false)
    (fun r h => ?_) (fun V => hnone ?_) (fun V => hnone ?_) (hnone ?_) (fun r h => ?_) (hnone rfl)
    (.inr (.inl ⟨_, rfl, rfl⟩))
  · have hc : castConstant 33 (.concatenation X Y a₁ a₂) = none := rfl
    rw [Option.mem_def] at h
    simp only [bvaddConstant, hc, reduceCtorEq, if_false] at h
    split_ifs at h
    obtain rfl := Option.some.inj h
    exact .inl rfl
  · rw [bvaddPointer, castPtr_none hp]
    rfl
  · rw [bvaddPointerExt, castPtrExt_none hp]
    rfl
  · rfl
  · cases b with
    | extraction S E B e =>
      rw [Option.mem_def, bvaddPullExtract] at h
      split_ifs at h
      obtain rfl := Option.some.inj h
      refine .inr (.inr ⟨_, _, rfl, ?_, isPointer_of_pointers hb⟩)
      exact isPointer_endsConstant (endsConstant_concat _ _ _ rfl)
    | _ => cases h

theorem carryBit_spec (ho : Typed 32 o) (hb : Typed 32 b) (hpb : b.pointers = 0) :
    Computes 1 (fun env => ((Bvexpr.pointer 32 V array o).eval env + b.eval env) / 2 ^ 32)
        (carryBit (.pointer 32 V array o) b) ∧
      (carryBit (.pointer 32 V array o) b).pointers = 0 := by
  have hp : Typed 32 (.pointer 32 V array o) := ⟨ho, rfl⟩
  have hep := extend_computes (E := 1) hp
  have heb := extend_computes (E := 1) hb
  have hpeb : (extend 1 32 b).pointers = 0 :=
    Nat.le_zero.mp (hpb ▸ (pointers_concat 1 32 (constant 1 0) b).trans (Nat.zero_add _).le)
  have hepe : (extend 1 32 (.pointer 32 V array o)).extPointer = false := by
    rw [extend_pointer]
    rfl
  have hsum := bvadd_computes hep.typed heb.typed hepe (extPointer_of_pointers hpeb)
  refine ⟨(extract_computes (S := 32) (E := 32) hsum.typed (Nat.le_refl 32) (by decide)).congr fun env => ?_, ?_⟩
  · have h1 := hp.eval_lt env
    have h2 := hb.eval_lt env
    rw [hsum.eval, hep.eval, heb.eval, slice]
    omega
  · have hle : ∀ e : Bvexpr, e.pointers = 0 → (extract 32 32 33 e).pointers = 0 := fun e he =>
      Nat.le_zero.mp (he ▸ pointers_extract 32 32 33 e)
    unfold carryBit
    rw [extend_pointer]
    rcases bvaddRule_33 hpeb with h | ⟨e, h, he⟩ | ⟨x, y, h, hx, hy⟩
    · rw [bvadd_done h]
      rfl
    · rw [bvadd_done h]
      exact hle e he
    · rw [bvadd_pullExtract h, bvadd_done (bvaddRule_65 hx hy)]
      exact hle _ (Nat.le_zero.mp (pointers_extract 64 32 65 (.bvbinary .bvaddition 65 x y)))

/-! ### Addresses and addends -/

/-- An address of 64 bits, a pointer `p` with the word `h` in front of it, and the two words that are added. The
high word may be the base of a pointer, but is not one in disguise. -/
structure AddressSum (V : ℕ) (o h b g : Bvexpr) : Prop where
  array : V = 8 ∨ V = 32
  offset : Typed 32 o ∧ o.extPointer = false
  high : Typed 32 h
  base : h.extPointer = false ∨ ∃ array s o', h = .pointerBase 32 8 array s o' ∧ s < 32 ∧ o'.pointers = 0
  low_addend : Typed 32 b ∧ b.pointers = 0
  high_addend : Typed 32 g ∧ g.pointers = 0

/-- The low words do not carry. If the high word is the base of a pointer, what has to be added to it does not
make its offset wrap around, or often enough; a carry may be added too, if the address is the first
operand. -/
def CarryKept (env : Env) (first : Bool) (p h b g : Bvexpr) : Prop :=
  let carry := (p.eval env + b.eval env) / 2 ^ 32
  match castPtrBase 32 8 h with
  | none => carry = 0
  | some (_, s, o) =>
    if first then 2 ^ s ∣ (o.eval env + (g.eval env + carry) * 2 ^ s) / 2 ^ 32
    else carry = 0 ∧ 2 ^ s ∣ (o.eval env + g.eval env * 2 ^ s) / 2 ^ 32

theorem concat_pointer (hh : Typed 32 h) (hV : V = 8 ∨ V = 32) :
    concat 32 32 h (.pointer 32 V array o) = .pointerExt 32 V 32 array o h := by
  have hptr : ∀ h, concatPointer 32 32 h (.pointer 32 V array o) = some (.pointerExt 32 V 32 array o h) :=
    fun h => if_pos ⟨⟨rfl, rfl⟩, rfl, hV.symm⟩
  cases h with
  | bitvector B v =>
    obtain ⟨hv, rfl⟩ := hh
    have hconst : constant 32 v = .bitvector 32 v := by rw [constant, Nat.mod_eq_of_lt hv]
    simp [concat, concatConstant, hptr, hconst]
  | _ => simp [concat, hptr]

/-- The high word of the sum of four words, as it goes into an addition. -/
theorem high_addend (hg : Typed 32 g ∧ g.pointers = 0) (hb : Typed 32 b ∧ b.pointers = 0) :
    Computes 32 (fun env => g.eval env) (extract 63 32 64 (concat 32 32 g b)) ∧
      (extract 63 32 64 (concat 32 32 g b)).pointers = 0 ∧ (concat 32 32 g b).pointers = 0 := by
  have hconcat := concat_computes hg.1 hb.1
  have hp : (concat 32 32 g b).pointers = 0 := by
    have hle := pointers_concat 32 32 g b
    omega
  refine ⟨(extract_front (E := 32) hconcat.typed (by decide)).congr fun env => ?_,
    Nat.le_zero.mp (hp ▸ pointers_extract 63 32 64 _), hp⟩
  rw [hconcat.eval, slice_glue_left (hb.1.eval_lt env) (Nat.le_refl 32)]
  exact slice_of_lt (hg.1.eval_lt env)

theorem carry_lt {p : Bvexpr} (hp : Typed 32 p) (hb : Typed 32 b) (env : Env) :
    (p.eval env + b.eval env) / 2 ^ 32 ≤ 1 := by
  have h1 := hp.eval_lt env
  have h2 := hb.eval_lt env
  omega

/-- A carry that is left out is missed. -/
theorem carry_missing {x c : ℕ} (hc : c ≤ 1) : x % 2 ^ 32 = (x + c) % 2 ^ 32 ↔ c = 0 := by
  rw [eq_comm, add_mod_eq_self_iff]
  constructor
  · intro h
    exact Nat.eq_zero_of_dvd_of_lt h (by omega)
  · rintro rfl
    exact Nat.dvd_zero _

/-- The high word, if the address is the first operand. -/
theorem highWord_first (hsum : AddressSum V o h b g) (env : Env) :
    let p := Bvexpr.pointer 32 V array o
    (AluOp.calculatePlusCarry h g (.bvbinary .bvadditionCarry 32 p b)).dst.eval env =
        (h.eval env + g.eval env + (p.eval env + b.eval env) / 2 ^ 32) % 2 ^ 32 ↔
      CarryKept env true p h b g := by
  intro p
  obtain ⟨hV, ⟨ho, -⟩, hh, hbase, hb, hg⟩ := hsum
  have hp : Typed 32 p := ⟨ho, rfl⟩
  have hcarry := carry_lt hp hb.1 env
  have hcast : castBvbinary .bvadditionCarry 32 (.bvbinary .bvadditionCarry 32 p b) = some (p, b) := rfl
  rcases hbase with hext | ⟨array', s, o', rfl, hs, hpo⟩
  · -- the words are put together
    have hnone : castPtrBase 32 8 h = none := castPtrBase_none hext
    obtain ⟨hhigh, hphigh, hpconcat⟩ := high_addend hg hb
    have hsum := bvadd_computes hh hhigh.typed hext (extPointer_of_pointers hphigh)
    simp only [CarryKept, AluOp.calculatePlusCarry, hcast, hnone, AluOp.added]
    rw [concat_pointer hh hV, (extract_bvadd_pointerExt hV hh hpconcat).1, hsum.eval, hhigh.eval]
    exact carry_missing hcarry
  · -- the carry is added to the base
    have hsome : castPtrBase 32 8 (.pointerBase 32 8 array' s o') = some (array', s, o') := rfl
    obtain ⟨o₁, hadd₁, hpo₁, ho₁⟩ := (@bvadd_pointerBase_computes s array' g o' hh.1 hg.1 hpo hg.2 hs).1
    obtain ⟨hbit, hpbit⟩ := @carryBit_spec V array b o ho hb.1 hb.2
    have hextend := extend_computes (E := 31) hbit.typed
    have hpextend : (extend 31 1 (carryBit p b)).pointers = 0 :=
      Nat.le_zero.mp (hpbit ▸ (pointers_concat 31 1 (constant 31 0) _).trans (Nat.zero_add _).le)
    obtain ⟨o₂, hadd₂, -, ho₂⟩ :=
      (@bvadd_pointerBase_computes s array' _ o₁ ho₁.typed hextend.typed hpo₁ hpextend hs).1
    have hdst : (AluOp.calculatePlusCarry (.pointerBase 32 8 array' s o') g
        (.bvbinary .bvadditionCarry 32 p b)).dst = .pointerBase 32 8 array' s o₂ := by
      rw [← hadd₂, ← hadd₁]
      rfl
    rw [hdst, eval_pointerBase, ho₂.eval, ho₁.eval, hextend.eval, hbit.eval, Nat.mod_add_mod,
      Nat.add_assoc (o'.eval env), ← Nat.add_mul, eval_pointerBase, Nat.add_assoc, Nat.mod_add_mod]
    exact div_add_mod_iff hs.le

/-- The high word, if the address is the second operand. -/
theorem highWord_second (hsum : AddressSum V o h b g) (env : Env) :
    let p := Bvexpr.pointer 32 V array o
    (AluOp.calculatePlusCarry g h (.bvbinary .bvadditionCarry 32 b p)).dst.eval env =
        (h.eval env + g.eval env + (p.eval env + b.eval env) / 2 ^ 32) % 2 ^ 32 ↔
      CarryKept env false p h b g := by
  intro p
  obtain ⟨hV, ⟨ho, -⟩, hh, hbase, hb, hg⟩ := hsum
  have hp : Typed 32 p := ⟨ho, rfl⟩
  have hcarry := carry_lt hp hb.1 env
  have hcast : castBvbinary .bvadditionCarry 32 (.bvbinary .bvadditionCarry 32 b p) = some (b, p) := rfl
  have hnone : castPtrBase 32 8 g = none := castPtrBase_none (extPointer_of_pointers hg.2)
  obtain ⟨hhigh, hphigh, hpconcat⟩ := high_addend hg hb
  have hdst : (AluOp.calculatePlusCarry g h (.bvbinary .bvadditionCarry 32 b p)).dst =
      bvadd 32 (extract 63 32 64 (concat 32 32 g b)) h := by
    rw [← (@extract_bvadd_pointerExt V array _ h o hV hh hpconcat).2, ← concat_pointer hh hV]
    simp only [AluOp.calculatePlusCarry, hcast, hnone, AluOp.added]
    rfl
  rw [hdst]
  rcases hbase with hext | ⟨array', s, o', rfl, hs, hpo⟩
  · have hnone : castPtrBase 32 8 h = none := castPtrBase_none hext
    have hsum := bvadd_computes hhigh.typed hh (extPointer_of_pointers hphigh) hext
    simp only [CarryKept, hnone]
    rw [hsum.eval, hhigh.eval, Nat.add_comm (g.eval env)]
    exact carry_missing hcarry
  · have hsome : castPtrBase 32 8 (.pointerBase 32 8 array' s o') = some (array', s, o') := rfl
    obtain ⟨o₁, hadd, -, ho₁⟩ := (@bvadd_pointerBase_computes s array' _ o' hh.1 hhigh.typed hpo hphigh hs).2
    simp only [CarryKept, hsome]
    rw [hadd, eval_pointerBase, ho₁.eval, hhigh.eval, eval_pointerBase, Nat.add_assoc, Nat.mod_add_mod, ← Nat.add_assoc]
    exact div_add_carry_mod_iff hs hcarry

/-- The low word is always right. -/
theorem lowWord (hsum : AddressSum V o h b g) (env : Env) :
    let p := Bvexpr.pointer 32 V array o
    (bvadd 32 p b).eval env = (p.eval env + b.eval env) % 2 ^ 32 ∧
      (bvadd 32 b p).eval env = (p.eval env + b.eval env) % 2 ^ 32 := by
  intro p
  have hp : Typed 32 p := ⟨hsum.offset.1, rfl⟩
  have hb := hsum.low_addend
  have hpb := extPointer_of_pointers hb.2
  refine ⟨(bvadd_computes hp hb.1 hsum.offset.2 hpb).eval env, ?_⟩
  rw [(bvadd_computes hb.1 hp hpb hsum.offset.2).eval, Nat.add_comm]

/-- Two words are the sum of four exactly if the high one has the carry. -/
theorem words_eq_iff {x y h p b g : ℕ} (hy : y = (p + b) % 2 ^ 32) :
    glue 32 x y = (glue 32 h p + glue 32 g b) % 2 ^ 64 ↔ x = (h + g + (p + b) / 2 ^ 32) % 2 ^ 32 := by
  have hlt : (p + b) % 2 ^ 32 < 2 ^ 32 := Nat.mod_lt _ (Nat.two_pow_pos 32)
  rw [hy, show 2 ^ 64 = 2 ^ (32 + 32) by rfl, glue_add_mod]
  exact ⟨fun h => (glue_inj hlt hlt h).1, fun h => by rw [h]⟩

variable [PastEnd]

/-- What the two instructions leave in the registers `d` and `d'`. -/
theorem plus_plusCarry_registers {st : Exec} {t t' : Step} {d d' : Gpr} {w w' : Bool} {A B A' B' : Bvexpr}
    (hsat : st.isUnsat = false) (hst : st.DefersHreg) (hd : t.n.aluDst = some (.gpr d, w))
    (hd' : t'.n.aluDst = some (.gpr d', w')) (hne : d.location ≠ d'.location)
    (hflip : w' = true → d.location ≠ d'.flip.location) (ht : t.n.aluLike t.fresh st = some (.plus, A, B))
    (ht' : t'.n.aluLike t'.fresh (st.apply t) = some (.plusCarry, A', B')) (x : Obj) :
    ((st.apply t).apply t').reg x d.location = bvadd 32 A B ∧
      ((st.apply t).apply t').reg x d'.location =
        (AluOp.calculatePlusCarry A' B' (.bvbinary .bvadditionCarry 32 A B)).dst := by
  have hsat' := apply_isUnsat hsat (aluLike_type ht)
  obtain ⟨r, hflags, -, -, hc⟩ := apply_aluLike_flags hsat ht
  have hC : (st.apply t).flag (t'.fresh.obj 3) .C = .bvbinary .bvadditionCarry 32 A B := (hflags.c _).trans hc
  refine ⟨?_, ?_⟩
  · rw [apply_aluLike_of_ne hsat' (hst.apply t) ht' hd' hne hflip, apply_aluLike_gpr hsat ht hd]
    rfl
  · rw [apply_aluLike_gpr hsat' ht' hd', AluOp.calculate, hC]

/-- **The registers have the sum of an address and an addend in them exactly if the carry is kept**, whichever
of the two comes first. -/
theorem pointer_sum_iff {st : Exec} {t t' : Step} {d d' : Gpr} {w w' : Bool} {V : ℕ} {array : String}
    {o h b g : Bvexpr} (hsat : st.isUnsat = false) (hst : st.DefersHreg) (hsum : AddressSum V o h b g)
    (hd : t.n.aluDst = some (.gpr d, w)) (hd' : t'.n.aluDst = some (.gpr d', w')) (hne : d.location ≠ d'.location)
    (hflip : w' = true → d.location ≠ d'.flip.location) (env : Env) (x : Obj) :
    let p := Bvexpr.pointer 32 V array o
    let after := (st.apply t).apply t'
    let sum := (glue 32 (h.eval env) (p.eval env) + glue 32 (g.eval env) (b.eval env)) % 2 ^ 64
    let registers := glue 32 ((after.reg x d'.location).eval env) ((after.reg x d.location).eval env)
    (t.n.aluLike t.fresh st = some (.plus, p, b) →
      t'.n.aluLike t'.fresh (st.apply t) = some (.plusCarry, h, g) →
      (registers = sum ↔ CarryKept env true p h b g)) ∧
    (t.n.aluLike t.fresh st = some (.plus, b, p) →
      t'.n.aluLike t'.fresh (st.apply t) = some (.plusCarry, g, h) →
      (registers = sum ↔ CarryKept env false p h b g)) := by
  intro p after sum registers
  obtain ⟨hfirst, hsecond⟩ := @lowWord V array b h g o hsum env
  refine ⟨fun ht ht' => ?_, fun ht ht' => ?_⟩
  · obtain ⟨hlow, hhigh⟩ := plus_plusCarry_registers hsat hst hd hd' hne hflip ht ht' x
    simp only [registers, after, sum, hlow, hhigh]
    rw [words_eq_iff hfirst]
    exact highWord_first hsum env
  · obtain ⟨hlow, hhigh⟩ := plus_plusCarry_registers hsat hst hd hd' hne hflip ht ht' x
    simp only [registers, after, sum, hlow, hhigh]
    rw [words_eq_iff hsecond]
    exact highWord_second hsum env

/-- A state with an address in the registers 0 and 1 of the bank A. -/
def addressState : Exec :=
  initialState 0 1500
    [.reg (Gpr.location ⟨.A, 0⟩) (.pointer 32 8 "packet" (constant 32 0)),
      .reg (Gpr.location ⟨.A, 1⟩) (constant 32 0)]

/-- An addition of a constant to one of the registers. -/
def addStep (number : ℕ) (op : AluOp) (value : ℕ) : Step :=
  ⟨.alu 0 (.gpr ⟨.A, number⟩) (.gpr ⟨.A, number⟩) op (.constant value) false, ⟨0, 0⟩, 0, false, .numbered 0⟩

omit [PastEnd] in
theorem addressState_reg (o : Obj) :
    addressState.reg o (Gpr.location ⟨.A, 0⟩) = .pointer 32 8 "packet" (constant 32 0) ∧
      addressState.reg o (Gpr.location ⟨.A, 1⟩) = constant 32 0 := by
  have hne : Nat.repr 0 ≠ Nat.repr 1 := by decide
  constructor <;>
    simp [Exec.reg, addressState, initialState, Exec.make, Update.store, Function.update, Gpr.location, Bank.name, hne]

omit [PastEnd] in
theorem addressState_spec :
    addressState.DefersHreg ∧
      AddressSum 8 (constant 32 0) (constant 32 0) (constant 32 1) (constant 32 0) ∧
      (addStep 0 .plus 1).n.aluLike (.numbered 0) addressState =
        some (.plus, .pointer 32 8 "packet" (constant 32 0), constant 32 1) := by
  refine ⟨initialState_defersHreg _ _ (by simp), ⟨.inl rfl, ⟨typed_constant _ _, rfl⟩, typed_constant _ _, .inl rfl,
    ⟨typed_constant _ _, rfl⟩, typed_constant _ _, rfl⟩, ?_⟩
  simp only [addStep, Operation.aluLike, Src.read, addressState_reg]

theorem addressState_high : (addStep 1 .plusCarry 0).n.aluLike (.numbered 0) (addressState.apply (addStep 0 .plus 1)) =
    some (.plusCarry, constant 32 0, constant 32 0) := by
  obtain ⟨hst, -, hs⟩ := addressState_spec
  have hreg := apply_aluLike_of_ne (s := addStep 0 .plus 1) (g := ⟨.A, 0⟩) (d := ⟨.A, 1⟩) (o := (Fresh.numbered 0).obj 0)
    rfl hst hs rfl (by decide) (nofun)
  rw [(addressState_reg _).2] at hreg
  simp only [addStep, Operation.aluLike, Src.read] at hreg ⊢
  rw [hreg]

omit [PastEnd] in
/-- 1 is added to an address, and does not carry. -/
theorem pointer_sum_iff_packet :
    let _ : PastEnd := ⟨fun _ => true⟩
    let after := (addressState.apply (addStep 0 .plus 1)).apply (addStep 1 .plusCarry 0)
    glue 32 ((after.reg .shared (Gpr.location ⟨.A, 1⟩)).eval (.const 7))
      ((after.reg .shared (Gpr.location ⟨.A, 0⟩)).eval (.const 7)) = 8 := by
  intro _ after
  obtain ⟨hst, hsum, hs⟩ := addressState_spec
  have h := @pointer_sum_iff _ addressState (addStep 0 .plus 1) (addStep 1 .plusCarry 0) ⟨.A, 0⟩ ⟨.A, 1⟩ false false
    8 "packet" _ _ _ _ rfl hst hsum rfl rfl (by decide) (nofun) (.const 7) .shared
  have hkept : CarryKept (.const 7) true (.pointer 32 8 "packet" (constant 32 0)) (constant 32 0) (constant 32 1)
      (constant 32 0) := by
    show ((Bvexpr.pointer 32 8 "packet" (constant 32 0)).eval (.const 7) + (constant 32 1).eval (.const 7)) / 2 ^ 32 = 0
    decide
  exact ((h.1 hs addressState_high).mpr hkept).trans (by decide)

omit [PastEnd] in
/-- If the base of the array is the last address of 32 bits, adding 1 carries. The high word is left as it
was. -/
theorem pointer_sum_carries :
    let _ : PastEnd := ⟨fun _ => true⟩
    let after := (addressState.apply (addStep 0 .plus 1)).apply (addStep 1 .plusCarry 0)
    let env := Env.const (2 ^ 32 - 1)
    glue 32 ((after.reg .shared (Gpr.location ⟨.A, 1⟩)).eval env)
        ((after.reg .shared (Gpr.location ⟨.A, 0⟩)).eval env) ≠
      (glue 32 ((addressState.reg .shared (Gpr.location ⟨.A, 1⟩)).eval env)
          ((addressState.reg .shared (Gpr.location ⟨.A, 0⟩)).eval env) +
        glue 32 ((constant 32 0).eval env) ((constant 32 1).eval env)) % 2 ^ 64 := by
  intro _ after env heq
  obtain ⟨hst, hsum, hs⟩ := addressState_spec
  obtain ⟨hlow, hhigh⟩ := @plus_plusCarry_registers _ addressState (addStep 0 .plus 1) (addStep 1 .plusCarry 0)
    ⟨.A, 0⟩ ⟨.A, 1⟩ false false _ _ _ _ rfl hst rfl rfl (by decide) (nofun) hs addressState_high .shared
  simp only [after, hlow, hhigh, addressState_reg] at heq
  rw [words_eq_iff (lowWord hsum env).1] at heq
  have hkept : ((Bvexpr.pointer 32 8 "packet" (constant 32 0)).eval env + (constant 32 1).eval env) / 2 ^ 32 = 0 :=
    (highWord_first hsum env).mp heq
  exact absurd hkept (by decide)

end NfpEstimator
