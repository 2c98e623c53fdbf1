import NfpEstimator.Expr.Structural

/-!
# Bitwise operators

`expr::bvand`, `expr::bvor`, `expr::bvxor` and `expr::bvnot`. A mask that selects whole bytes
becomes an extraction, a mask that is 0 for the left operand of a concatenation drops that operand,
and the bitwise or of two concatenations is taken apart at both of their seams.

`h::BVAndPullConcat` looks only at the lowest 8 bits of what the mask has for the left operand, also if that is
16 or 24 bits wide. The main result is when the four operators have the right values
(`bitwise_eval_iff`): when every left operand that is dropped has no bit in common with the mask.
-/

namespace NfpEstimator

/-! ### The constructors -/

/-- `expr::bvnot<B>`. -/
def bvnot (B : ℕ) (e : Bvexpr) : Bvexpr :=
  match castConstant B e with
  | some v => constant B (v ^^^ (2 ^ B - 1))
  | none => .bvnegation B e

/-- `h::BVAndExtract`, the template that has a case for `E == 0` and one for `B == S+1`. -/
def bvandExtract (S E B m : ℕ) (b : Bvexpr) : Option Bvexpr :=
  if S < B - 1 ∧ E = 0 then
    if m = 2 ^ (S + 1) - 1 then some (extend (B - S - 1) (S + 1) (extract S E B b)) else none
  else if B = S + 1 ∧ 0 < E then
    if m = 2 ^ (S + 1) - 2 ^ E then some (concat (S - E + 1) E (extract S E B b) (constant E 0)) else none
  else none

/-- The instances of `h::BVAndExtract` that `expr::bvand` tries if the right operand is a constant. -/
def bvandExtractsRight : List (ℕ × ℕ) :=
  [(7, 0), (15, 0), (15, 8), (23, 0), (23, 8), (23, 16), (31, 0), (31, 8), (31, 16), (31, 24)]

/-- Those that it tries if the left operand is one. -/
def bvandExtractsLeft : List (ℕ × ℕ) := (13, 0) :: bvandExtractsRight

/-- They are tried in order. -/
def bvandExtracts (ranges : List (ℕ × ℕ)) (B m : ℕ) (b : Bvexpr) : Option Bvexpr :=
  ranges.findSome? fun r => bvandExtract r.1 r.2 B m b

/-- When `h::BVAndPullConcat` drops the left operand of a concatenation: of the mask for it, 8 bits are
0. -/
def bvandPullConcat (B m X Y : ℕ) : Bool :=
  (X == 8 || X == 16 || X == 24) && (X < B && X + Y == B && m &&& 0xff <<< Y == 0)

/-- `expr::bvand<B>` of a constant and an expression. -/
def bvandConstant (B m : ℕ) : Bvexpr → Bvexpr
  | .bitvector B' vb =>
    if B' = B then constant B (m &&& vb) else .bvbinary .bvanding B (constant B m) (.bitvector B' vb)
  | .concatenation X Y b₁ b₂ =>
    if m = 2 ^ B - 1 then .concatenation X Y b₁ b₂
    else (bvandExtracts bvandExtractsLeft B m (.concatenation X Y b₁ b₂)).getD
      (if bvandPullConcat B m X Y then extend X Y (bvandConstant Y (m % 2 ^ Y) b₂)
      else .bvbinary .bvanding B (constant B m) (.concatenation X Y b₁ b₂))
  | b =>
    if m = 2 ^ B - 1 then b
    else (bvandExtracts bvandExtractsLeft B m b).getD (.bvbinary .bvanding B (constant B m) b)

/-- `expr::bvand<B>` of an expression that is not a constant, and a constant. -/
def bvandConstantRight (B m : ℕ) (a : Bvexpr) : Bvexpr :=
  if m = 2 ^ B - 1 then a
  else (bvandExtracts bvandExtractsRight B m a).getD
    (match a with
    | .concatenation X Y a₁ a₂ =>
      if bvandPullConcat B m X Y then extend X Y (bvandConstant Y (m % 2 ^ Y) a₂)
      else .bvbinary .bvanding B (.concatenation X Y a₁ a₂) (constant B m)
    | a => .bvbinary .bvanding B a (constant B m))

/-- `expr::bvand<B>`. -/
def bvand (B : ℕ) (a b : Bvexpr) : Bvexpr :=
  match castConstant B a, castConstant B b with
  | some va, _ => bvandConstant B va b
  | none, some vb => bvandConstantRight B vb a
  | none, none => .bvbinary .bvanding B a b

/-- The widths for which there is an instance of `h::BVOrConcats`. -/
def bvorConcats (B X X' Y Y' : ℕ) : Prop :=
  ((X = 8 ∨ X = 16 ∨ X = 24) ∧ (Y = 8 ∨ Y = 16 ∨ Y = 24)) ∧ (X + X' = B ∧ X < B) ∧ Y + Y' = B ∧ Y < B

instance (B X X' Y Y' : ℕ) : Decidable (bvorConcats B X X' Y Y') := by
  unfold bvorConcats
  infer_instance

/-- `expr::bvor<B>`. -/
def bvor (B : ℕ) (a b : Bvexpr) : Bvexpr :=
  match castConstant B a, castConstant B b with
  | some va, some vb => constant B (va ||| vb)
  | ca, cb =>
    if ca = some 0 then b
    else if cb = some 0 then a
    else match a, b with
    | .concatenation X X' a₁ a₂, .concatenation Y Y' b₁ b₂ =>
      if h : bvorConcats B X X' Y Y' then
        if X = Y then concat X X' (bvor X a₁ b₁) (bvor X' a₂ b₂)
        else if Y < X then
          concat Y Y' (bvor Y (extract (X - 1) (X - Y) X a₁) b₁)
            (concat (X - Y) X'
              (bvor (X - Y) (extract (X - Y - 1) 0 X a₁) (extract (Y' - 1) X' Y' b₂))
              (bvor X' a₂ (extract (X' - 1) 0 Y' b₂)))
        else
          concat X X' (bvor X a₁ (extract (Y - 1) (Y - X) Y b₁))
            (concat (Y - X) Y'
              (bvor (Y - X) (extract (X' - 1) Y' X' a₂) (extract (Y - X - 1) 0 Y b₁))
              (bvor Y' (extract (Y' - 1) 0 X' a₂) b₂))
      else .bvbinary .bvoring B (.concatenation X X' a₁ a₂) (.concatenation Y Y' b₁ b₂)
    | a, b => .bvbinary .bvoring B a b
  termination_by B
  decreasing_by all_goals unfold bvorConcats at h; omega

/-- `expr::bvxor<B>`. -/
def bvxor (B : ℕ) (a b : Bvexpr) : Bvexpr :=
  match castConstant B a, castConstant B b with
  | some va, some vb => constant B (va ^^^ vb)
  | ca, cb => if ca = some 0 then b else if cb = some 0 then a else .bvbinary .bvxoring B a b

/-! ### Masks -/

variable {B S E m X Y : ℕ} {a b e r : Bvexpr} {env : Env}

theorem bvandExtract_computes (hb : Typed B b) (hES : E ≤ S) (h : bvandExtract S E B m b = some r) :
    Computes B (fun env => m &&& b.eval env) r := by
  unfold bvandExtract at h
  split_ifs at h with h1 h2 h3 h4
  · -- the last bits
    obtain rfl := Option.some.inj h
    obtain ⟨hS, rfl⟩ := h1
    have hextract := extract_computes hb hES (by omega : S < B)
    have hextend := extend_computes (E := B - S - 1) hextract.typed
    rw [show B - S - 1 + (S - 0 + 1) = B by omega] at hextend
    refine hextend.congr fun env => ?_
    rw [hextract.eval, h2, Nat.and_comm, Nat.and_two_pow_sub_one_eq_mod, slice_zero_left, Nat.sub_zero]
  · -- the first bits
    obtain rfl := Option.some.inj h
    obtain ⟨rfl, hE⟩ := h3
    have hextract := extract_computes hb hES (Nat.lt_succ_self S)
    have hconcat := concat_computes hextract.typed (typed_constant E 0)
    rw [show S - E + 1 + E = S + 1 by omega] at hconcat
    refine hconcat.congr fun env => ?_
    have hmask : m = glue E (2 ^ (S - E + 1) - 1) 0 := by
      rw [h4, glue, Nat.sub_mul, Nat.one_mul, ← Nat.pow_add, show S - E + 1 + E = S + 1 by omega]
      exact (Nat.add_zero _).symm
    rw [hextract.eval, constant_eval, Nat.zero_mod, hmask, Nat.and_comm, land_mask]

theorem bvandExtracts_computes {ranges : List (ℕ × ℕ)} (hr : ∀ r ∈ ranges, r.2 ≤ r.1)
    (hb : Typed B b) (h : bvandExtracts ranges B m b = some r) :
    Computes B (fun env => m &&& b.eval env) r := by
  obtain ⟨l₁, x, l₂, hl, hx, -⟩ := List.findSome?_eq_some_iff.mp h
  exact bvandExtract_computes hb (hr x (by simp [hl])) hx

theorem bvandExtractsLeft_le : ∀ r ∈ bvandExtractsLeft, r.2 ≤ r.1 := by decide

theorem bvandExtractsRight_le : ∀ r ∈ bvandExtractsRight, r.2 ≤ r.1 := by decide

/-- Every left operand that is dropped has no bit in common with the mask. -/
def MaskKept (env : Env) (ranges : List (ℕ × ℕ)) (B m : ℕ) : Bvexpr → Prop
  | .concatenation X Y b₁ b₂ =>
    m ≠ 2 ^ B - 1 → bvandExtracts ranges B m (.concatenation X Y b₁ b₂) = none →
      bvandPullConcat B m X Y = true →
        m >>> Y &&& b₁.eval env = 0 ∧ MaskKept env bvandExtractsLeft Y (m % 2 ^ Y) b₂
  | _ => True

/-- The mask of a concatenation, for both of its operands. -/
theorem land_concatenation {b₁ b₂ : Bvexpr} (h₁ : Typed X b₁) (h₂ : Typed Y b₂) :
    m &&& (Bvexpr.concatenation X Y b₁ b₂).eval env =
      glue Y (m >>> Y &&& b₁.eval env) (m % 2 ^ Y &&& b₂.eval env) := by
  rw [eval_concatenation h₁ h₂, ← glue_land (Nat.mod_lt _ (Nat.two_pow_pos Y)) (h₂.eval_lt env),
    Nat.shiftRight_eq_div_pow, glue_div_mod]

/-- Dropping the left operand is right exactly if the mask has nothing in common with it. -/
theorem pullConcat_eval_iff {b₁ b₂ r : Bvexpr} (h₁ : Typed X b₁) (h₂ : Typed Y b₂) (hr : Typed Y r) :
    (extend X Y r).eval env = m &&& (Bvexpr.concatenation X Y b₁ b₂).eval env ↔
      m >>> Y &&& b₁.eval env = 0 ∧ r.eval env = m % 2 ^ Y &&& b₂.eval env := by
  have hlt : m % 2 ^ Y &&& b₂.eval env < 2 ^ Y := Nat.and_lt_two_pow _ (h₂.eval_lt env)
  rw [(extend_computes hr).eval, land_concatenation h₁ h₂]
  constructor
  · intro h
    rw [← zero_glue (n := Y) (y := r.eval env)] at h
    obtain ⟨h0, h⟩ := glue_inj (hr.eval_lt env) hlt h
    exact ⟨h0.symm, h⟩
  · rintro ⟨h0, h⟩
    rw [h0, zero_glue, h]

theorem computes_bvanding (ha : Typed B a) (hb : Typed B b) :
    Computes B (fun env => a.eval env &&& b.eval env) (.bvbinary .bvanding B a b) :=
  ⟨⟨⟨ha, hb⟩, rfl⟩, fun env => Nat.mod_eq_of_lt (Nat.and_lt_two_pow _ (hb.eval_lt env))⟩

theorem computes_bvanding_constant (hm : m < 2 ^ B) (hb : Typed B b) :
    Computes B (fun env => m &&& b.eval env) (.bvbinary .bvanding B (constant B m) b) :=
  (computes_bvanding (typed_constant B m) hb).congr fun env => by
    rw [constant_eval, Nat.mod_eq_of_lt hm]

theorem land_ones (hb : Typed B b) (env : Env) : (2 ^ B - 1) &&& b.eval env = b.eval env := by
  rw [Nat.and_comm, Nat.and_two_pow_sub_one_eq_mod, Nat.mod_eq_of_lt (hb.eval_lt env)]

theorem pullConcat_width (h : bvandPullConcat B m X Y = true) : X + Y = B := by
  simp only [bvandPullConcat, Bool.and_eq_true, beq_iff_eq] at h
  exact h.2.1.2

/-- A mask and a concatenation that is not all of it, whatever instances of `h::BVAndExtract` are tried. -/
theorem pullConcat_spec {ranges : List (ℕ × ℕ)} {b₁ b₂ low node : Bvexpr}
    (hr : ∀ r ∈ ranges, r.2 ≤ r.1) (hb : Typed B (.concatenation X Y b₁ b₂)) (hm : m ≠ 2 ^ B - 1)
    (hlow : Typed Y low ∧ (low.eval env = m % 2 ^ Y &&& b₂.eval env ↔
      MaskKept env bvandExtractsLeft Y (m % 2 ^ Y) b₂))
    (hnode : Computes B (fun env => m &&& (Bvexpr.concatenation X Y b₁ b₂).eval env) node)
    (he : e = (bvandExtracts ranges B m (.concatenation X Y b₁ b₂)).getD
      (if bvandPullConcat B m X Y then extend X Y low else node)) :
    Typed B e ∧ (e.eval env = m &&& (Bvexpr.concatenation X Y b₁ b₂).eval env ↔
      MaskKept env ranges B m (.concatenation X Y b₁ b₂)) := by
  rw [MaskKept]
  cases h : bvandExtracts ranges B m (.concatenation X Y b₁ b₂) with
  | some r =>
    have hr := bvandExtracts_computes hr hb h
    rw [he, h, Option.getD_some]
    exact ⟨hr.typed, iff_of_true (hr.eval env) fun _ h => (nomatch h)⟩
  | none =>
    rw [he, h, Option.getD_none]
    split_ifs with hpull
    · obtain ⟨⟨h₁, h₂⟩, rfl⟩ := typed_concatenation.mp hb
      refine ⟨(extend_computes hlow.1).typed, ?_⟩
      rw [pullConcat_eval_iff h₁ h₂ hlow.1, hlow.2]
      exact ⟨fun h _ _ _ => h, fun h => h hm rfl hpull⟩
    · exact ⟨hnode.typed, iff_of_true (hnode.eval env) fun _ _ h => absurd h hpull⟩

/-- A mask and an expression that is not a concatenation. -/
theorem maskKept_of_ne {ranges : List (ℕ × ℕ)} (h : ∀ X Y b₁ b₂, b ≠ .concatenation X Y b₁ b₂) :
    MaskKept env ranges B m b := by
  cases b with
  | concatenation X Y b₁ b₂ => exact absurd rfl (h X Y b₁ b₂)
  | _ => exact trivial

theorem Computes.maskKept {ranges : List (ℕ × ℕ)} (h : Computes B (fun env => m &&& b.eval env) r)
    (hb : MaskKept env ranges B m b) :
    Typed B r ∧ (r.eval env = m &&& b.eval env ↔ MaskKept env ranges B m b) :=
  ⟨h.typed, iff_of_true (h.eval env) hb⟩

theorem bvandExtracts_getD_computes {ranges : List (ℕ × ℕ)} (hr : ∀ r ∈ ranges, r.2 ≤ r.1)
    (hb : Typed B b) (h : Computes B (fun env => m &&& b.eval env) r) :
    Computes B (fun env => m &&& b.eval env) ((bvandExtracts ranges B m b).getD r) := by
  cases hs : bvandExtracts ranges B m b with
  | none => exact h
  | some r' => exact bvandExtracts_computes hr hb hs

theorem bvandConstant_spec (hm : m < 2 ^ B) (hb : Typed B b) :
    Typed B (bvandConstant B m b) ∧ ((bvandConstant B m b).eval env = m &&& b.eval env ↔
      MaskKept env bvandExtractsLeft B m b) := by
  fun_induction bvandConstant B m b with
  | case1 m B vb =>
    have hvb : vb < 2 ^ B := hb.1
    refine Computes.maskKept (b := .bitvector B vb) ?_ trivial
    refine (computes_constant (Nat.and_lt_two_pow m hvb)).congr fun env => ?_
    rw [Bvexpr.eval, Nat.mod_eq_of_lt hvb]
  | case2 => exact (computes_bvanding_constant hm hb).maskKept trivial
  | case3 B X Y b₁ b₂ =>
    exact (hb.computes.congr fun env => (land_ones hb env).symm).maskKept fun h => absurd rfl h
  | case4 B m X Y b₁ b₂ hones ih =>
    have ih := ih (Nat.mod_lt _ (Nat.two_pow_pos Y)) (typed_concatenation.mp hb).1.2
    exact pullConcat_spec bvandExtractsLeft_le hb hones ih (computes_bvanding_constant hm hb) rfl
  | case5 B b _ hne =>
    exact (hb.computes.congr fun env => (land_ones hb env).symm).maskKept (maskKept_of_ne hne)
  | case6 B m b _ hne =>
    refine Computes.maskKept ?_ (maskKept_of_ne hne)
    exact bvandExtracts_getD_computes bvandExtractsLeft_le hb (computes_bvanding_constant hm hb)

theorem bvandConstantRight_spec (hm : m < 2 ^ B) (ha : Typed B a) :
    Typed B (bvandConstantRight B m a) ∧ ((bvandConstantRight B m a).eval env = m &&& a.eval env ↔
      MaskKept env bvandExtractsRight B m a) := by
  have hnode : Computes B (fun env => m &&& a.eval env) (.bvbinary .bvanding B a (constant B m)) :=
    (computes_bvanding ha (typed_constant B m)).congr fun env => by
      rw [constant_eval, Nat.mod_eq_of_lt hm, Nat.and_comm]
  unfold bvandConstantRight
  split_ifs with hones
  · subst hones
    refine (ha.computes.congr fun env => (land_ones ha env).symm).maskKept ?_
    cases a with
    | concatenation X Y a₁ a₂ => exact fun h => absurd rfl h
    | _ => exact trivial
  · cases a with
    | concatenation X Y a₁ a₂ =>
      have hm' : m % 2 ^ Y < 2 ^ Y := Nat.mod_lt m (Nat.two_pow_pos Y)
      have ha₂ : Typed Y a₂ := (typed_concatenation.mp ha).1.2
      exact pullConcat_spec bvandExtractsRight_le ha hones (bvandConstant_spec hm' ha₂) hnode rfl
    | _ => exact (bvandExtracts_getD_computes bvandExtractsRight_le ha hnode).maskKept trivial

/-- `expr::bvand` drops no bit that the mask has. -/
def AndKept (env : Env) (B : ℕ) (a b : Bvexpr) : Prop :=
  match castConstant B a, castConstant B b with
  | some va, _ => MaskKept env bvandExtractsLeft B va b
  | none, some vb => MaskKept env bvandExtractsRight B vb a
  | none, none => True

/-- **`bvand` is right exactly if no bit of a mask is dropped.** -/
theorem bvand_spec (ha : Typed B a) (hb : Typed B b) :
    Typed B (bvand B a b) ∧
      ((bvand B a b).eval env = a.eval env &&& b.eval env ↔ AndKept env B a b) := by
  unfold bvand AndKept
  split
  · next va _ hva =>
    obtain ⟨rfl, hva⟩ := castConstant_typed hva ha
    rw [hva env]
    exact bvandConstant_spec ha.1 hb
  · next vb _ hvb =>
    obtain ⟨rfl, hvb⟩ := castConstant_typed hvb hb
    rw [hvb env, Nat.and_comm]
    exact bvandConstantRight_spec hb.1 ha
  · have h := computes_bvanding ha hb
    exact ⟨h.typed, iff_of_true (h.eval env) trivial⟩

theorem bvand_typed (ha : Typed B a) (hb : Typed B b) : Typed B (bvand B a b) :=
  (@bvand_spec B a b (.const 0) ha hb).1

/-! ### The other operators -/

/-- **`bvnot` complements.** -/
theorem bvnot_computes (he : Typed B e) :
    Computes B (fun env => 2 ^ B - 1 - e.eval env) (bvnot B e) := by
  unfold bvnot
  split
  · next v hv =>
    obtain ⟨rfl, hv⟩ := castConstant_typed hv he
    have hlt : v < 2 ^ B := he.1
    refine (computes_constant ?_).congr fun env => ?_
    · rw [xor_ones hlt]
      omega
    · rw [xor_ones hlt, hv env]
  · exact ⟨⟨he, rfl⟩, fun env => by rw [Bvexpr.eval, Nat.mod_eq_of_lt (he.eval_lt env)]⟩

/-- **`bvxor` is the exclusive or.** -/
theorem bvxor_computes (ha : Typed B a) (hb : Typed B b) :
    Computes B (fun env => a.eval env ^^^ b.eval env) (bvxor B a b) := by
  unfold bvxor
  split
  · next va vb hva hvb =>
    obtain ⟨rfl, hva⟩ := castConstant_typed hva ha
    obtain ⟨rfl, hvb⟩ := castConstant_typed hvb hb
    refine (computes_constant (Nat.xor_lt_two_pow ha.1 hb.1)).congr fun env => ?_
    rw [hva, hvb]
  · split_ifs with hca hcb
    · refine hb.computes.congr fun env => ?_
      rw [(castConstant_typed hca ha).2, Nat.zero_xor]
    · refine ha.computes.congr fun env => ?_
      rw [(castConstant_typed hcb hb).2, Nat.xor_zero]
    · exact ⟨⟨⟨ha, hb⟩, rfl⟩, fun env =>
        Nat.mod_eq_of_lt (Nat.xor_lt_two_pow (ha.eval_lt env) (hb.eval_lt env))⟩

/-- Two numbers that are cut at different places. -/
theorem lor_seams {x x' y y' d m n : ℕ} (hx' : x' < 2 ^ n) (hx : x < 2 ^ (m + d)) (hy' : y' < 2 ^ (d + n)) :
    glue n x x' ||| glue (d + n) y y' =
      glue (d + n) (slice d m x ||| y) (glue n (slice 0 d x ||| slice n d y') (x' ||| slice 0 n y')) := by
  conv_lhs => rw [← glue_slice hx, glue_assoc]
  rw [glue_lor (glue_lt slice_lt hx') hy']
  conv_lhs => rw [← glue_slice hy', glue_lor hx' slice_lt]

theorem extract_front (h : Typed B e) (hE : E < B) :
    Computes (B - E) (fun env => slice E (B - E) (e.eval env)) (extract (B - 1) E B e) := by
  have h := extract_computes (E := E) (S := B - 1) h (by omega) (by omega)
  rwa [show B - 1 - E + 1 = B - E by omega] at h

theorem extract_back (h : Typed B e) (hE : 0 < E) (hB : E ≤ B) :
    Computes E (fun env => slice 0 E (e.eval env)) (extract (E - 1) 0 B e) := by
  have h := extract_computes (E := 0) (S := E - 1) h (Nat.zero_le _) (by omega)
  rwa [show E - 1 - 0 + 1 = E by omega] at h

theorem bvorConcats_symm {X' Y' : ℕ} (h : bvorConcats B X X' Y Y') : bvorConcats B Y Y' X X' :=
  ⟨h.1.symm, h.2.2, h.2.1⟩

theorem bvorConcats_pos {X' Y' : ℕ} (h : bvorConcats B X X' Y Y') :
    X + X' = Y + Y' ∧ 0 < Y ∧ 0 < X' := by
  obtain ⟨⟨-, hY⟩, ⟨hX, hXB⟩, hYB, -⟩ := h
  refine ⟨hX.trans hYB.symm, ?_, ?_⟩ <;> omega

/-- The three parts between the seams. -/
theorem concat_seams {a₁ a₂ b₁ b₂ p q r : Bvexpr} {X' Y' : ℕ} (hYX : Y < X)
    (ha : Typed B (.concatenation X X' a₁ a₂)) (hb : Typed B (.concatenation Y Y' b₁ b₂))
    (hp : Computes Y (fun env => slice (X - Y) Y (a₁.eval env) ||| b₁.eval env) p)
    (hq : Computes (X - Y)
      (fun env => slice 0 (X - Y) (a₁.eval env) ||| slice X' (X - Y) (b₂.eval env)) q)
    (hr : Computes X' (fun env => a₂.eval env ||| slice 0 X' (b₂.eval env)) r) :
    Computes B (fun env => (Bvexpr.concatenation X X' a₁ a₂).eval env |||
      (Bvexpr.concatenation Y Y' b₁ b₂).eval env) (concat Y Y' p (concat (X - Y) X' q r)) := by
  obtain ⟨⟨ha₁, ha₂⟩, rfl⟩ := typed_concatenation.mp ha
  obtain ⟨⟨hb₁, hb₂⟩, hw⟩ := typed_concatenation.mp hb
  obtain rfl : Y' = X - Y + X' := by omega
  have hback := concat_computes hq.typed hr.typed
  rw [← hw]
  refine (concat_computes hp.typed hback.typed).congr fun env => ?_
  have hX : a₁.eval env < 2 ^ (Y + (X - Y)) := by
    rw [Nat.add_sub_cancel' hYX.le]
    exact ha₁.eval_lt env
  rw [hp.eval, hback.eval, hq.eval, hr.eval, eval_concatenation ha₁ ha₂, eval_concatenation hb₁ hb₂,
    lor_seams (ha₂.eval_lt env) hX (hb₂.eval_lt env)]

/-- **`bvor` is the inclusive or.** -/
theorem bvor_computes (ha : Typed B a) (hb : Typed B b) :
    Computes B (fun env => a.eval env ||| b.eval env) (bvor B a b) := by
  have hnode : ∀ {B a b}, Typed B a → Typed B b →
      Computes B (fun env => a.eval env ||| b.eval env) (.bvbinary .bvoring B a b) := fun ha hb =>
    ⟨⟨⟨ha, hb⟩, rfl⟩, fun env =>
      Nat.mod_eq_of_lt (Nat.or_lt_two_pow (ha.eval_lt env) (hb.eval_lt env))⟩
  fun_induction bvor B a b with
  | case1 B a b va vb hvb hva =>
    obtain ⟨rfl, hva⟩ := castConstant_typed hva ha
    obtain ⟨rfl, hvb⟩ := castConstant_typed hvb hb
    refine (computes_constant (Nat.or_lt_two_pow ha.1 hb.1)).congr fun env => ?_
    rw [hva, hvb]
  | case2 B a b hca =>
    refine hb.computes.congr fun env => ?_
    rw [(castConstant_typed hca ha).2, Nat.zero_or]
  | case3 B a b _ hcb =>
    refine ha.computes.congr fun env => ?_
    rw [(castConstant_typed hcb hb).2, Nat.or_zero]
  | case4 B X' a₁ a₂ Y Y' b₁ b₂ _ _ _ _ ih₁ ih₂ =>
    -- the seams are at the same place
    obtain ⟨⟨ha₁, ha₂⟩, rfl⟩ := typed_concatenation.mp ha
    obtain ⟨⟨hb₁, hb₂⟩, hw⟩ := typed_concatenation.mp hb
    obtain rfl := Nat.add_left_cancel hw
    have h₁ := ih₁ ha₁ hb₁
    have h₂ := ih₂ ha₂ hb₂
    refine (concat_computes h₁.typed h₂.typed).congr fun env => ?_
    rw [h₁.eval, h₂.eval, eval_concatenation ha₁ ha₂, eval_concatenation hb₁ hb₂,
      glue_lor (ha₂.eval_lt env) (hb₂.eval_lt env)]
  | case5 B X X' a₁ a₂ Y Y' b₁ b₂ hseams _ hlt _ _ _ ih₁ ih₂ ih₃ =>
    obtain ⟨hXX', hYY', hX'⟩ := bvorConcats_pos hseams
    obtain ⟨⟨ha₁, ha₂⟩, -⟩ := typed_concatenation.mp ha
    obtain ⟨⟨hb₁, hb₂⟩, -⟩ := typed_concatenation.mp hb
    have hfront := extract_front ha₁ (E := X - Y) (by omega)
    rw [Nat.sub_sub_self hlt.le] at hfront
    have hmid := extract_front hb₂ (E := X') (by omega)
    rw [show Y' - X' = X - Y by omega] at hmid
    have hmid' := extract_back ha₁ (E := X - Y) (by omega) (Nat.sub_le _ _)
    have hback := extract_back hb₂ (E := X') hX' (by omega)
    refine concat_seams hlt ha hb ?_ ?_ ?_
    · exact (ih₁ hfront.typed hb₁).congr fun env => by rw [hfront.eval]
    · exact (ih₂ hmid'.typed hmid.typed).congr fun env => by rw [hmid'.eval, hmid.eval]
    · exact (ih₃ ha₂ hback.typed).congr fun env => by rw [hback.eval]
  | case6 B X X' a₁ a₂ Y Y' b₁ b₂ hseams hne hge _ _ _ ih₁ ih₂ ih₃ =>
    have hlt : X < Y := by omega
    obtain ⟨hYY', hXX', hY'⟩ := bvorConcats_pos (bvorConcats_symm hseams)
    obtain ⟨⟨ha₁, ha₂⟩, -⟩ := typed_concatenation.mp ha
    obtain ⟨⟨hb₁, hb₂⟩, -⟩ := typed_concatenation.mp hb
    have hfront := extract_front hb₁ (E := Y - X) (by omega)
    rw [Nat.sub_sub_self hlt.le] at hfront
    have hmid := extract_front ha₂ (E := Y') (by omega)
    rw [show X' - Y' = Y - X by omega] at hmid
    have hmid' := extract_back hb₁ (E := Y - X) (by omega) (Nat.sub_le _ _)
    have hback := extract_back ha₂ (E := Y') hY' (by omega)
    refine (concat_seams hlt hb ha ?_ ?_ ?_).congr fun env => Nat.or_comm _ _
    · exact (ih₁ ha₁ hfront.typed).congr fun env => by rw [hfront.eval, Nat.or_comm]
    · exact (ih₂ hmid.typed hmid'.typed).congr fun env => by rw [hmid'.eval, hmid.eval, Nat.or_comm]
    · exact (ih₃ hback.typed hb₂).congr fun env => by rw [hback.eval, Nat.or_comm]
  | case7 | case8 => exact hnode ha hb

/-- **The bitwise constructors preserve meaning exactly if no bit of a mask is dropped.** -/
theorem bitwise_eval_iff (env : Env) (B : ℕ) (a b : Bvexpr) (ha : Typed B a) (hb : Typed B b) :
    ((bvand B a b).eval env = a.eval env &&& b.eval env ∧
      (bvor B a b).eval env = a.eval env ||| b.eval env ∧
      (bvxor B a b).eval env = a.eval env ^^^ b.eval env ∧
      (bvnot B a).eval env = 2 ^ B - 1 - a.eval env) ↔ AndKept env B a b := by
  rw [(bvand_spec ha hb).2]
  constructor
  · exact fun h => h.1
  · intro h
    exact ⟨h, (bvor_computes ha hb).eval env, (bvxor_computes ha hb).eval env,
      (bvnot_computes ha).eval env⟩

/-- Masks of single bytes keep all bits. -/
theorem bitwise_eval_iff_byte :
    (bvand 32 (constant 32 0xff00) (.concatenation 16 16 (.bvvariable 16 "x") (.bvvariable 16 "y"))).eval
      (.const 0xabcd) = 0xab00 := by
  have h := (bitwise_eval_iff (.const 0xabcd) 32 (constant 32 0xff00)
    (.concatenation 16 16 (.bvvariable 16 "x") (.bvvariable 16 "y")) (typed_constant 32 0xff00)
    ⟨⟨⟨trivial, rfl⟩, trivial, rfl⟩, rfl⟩).mpr fun _ _ _ => ⟨by decide, trivial⟩
  exact h.1

/-- A mask of the first and the last byte has bits for the left operand, but not in its last byte. -/
theorem bvand_drops_byte : ¬∀ (env : Env) (B : ℕ) (a b : Bvexpr), Typed B a → Typed B b →
    (bvand B a b).eval env = a.eval env &&& b.eval env := by
  intro h
  have h := h (.const 0xffff) 32 (constant 32 0xff0000ff)
    (.concatenation 16 16 (.bvvariable 16 "x") (.bvvariable 16 "y")) (typed_constant 32 0xff0000ff)
    ⟨⟨⟨trivial, rfl⟩, trivial, rfl⟩, rfl⟩
  revert h
  decide

end NfpEstimator
