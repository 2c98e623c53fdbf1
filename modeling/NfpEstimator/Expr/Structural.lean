import NfpEstimator.Bits
import NfpEstimator.Expr.Comparison

/-!
# Parts of bit-vectors

The functions of `expr.hpp` that take bit-vectors apart, put them together and shift them, with the rewrite
rules of `expr::h` that they try. A rule that is only there for some widths has these as a range
under its own name.

`expr::extract` calls `expr::concat` for a part that goes across the seam of a concatenation, and
`expr::concat` calls `expr::extract` when a constant is put in front of an extraction. Such an extraction is from
what `concat` itself has just built, and no seam is in its way; `concat` is therefore built with an `extract`
that does not call it again (`extractWith`), and `concat_extraction` says that this makes no difference.

The main result is that all of them have the values that they were asked for (`extract_computes`,
`concat_computes`, `extend_computes`, `bvshl_computes`, `bvlshr_computes`).
-/

namespace NfpEstimator

/-! ### Ranges -/

/-- `h::ExtractPointerExt`, for the low word. -/
def extractPointerExtLow (S E B : ℕ) : Bool := B == 64 && E == 0 && S == 31

/-- `h::ExtractPointerExt`, for the high word. -/
def extractPointerExtHigh (S E B : ℕ) : Bool := B == 64 && E == 32 && S == 63

/-- `h::ExtractConcatLeft`, within the left operand. -/
def extractConcatLeft (E B O : ℕ) : Bool :=
  (O == 8 || O == 16 || O == 24 || O == 33) && (O < B && O ≤ E && B % 8 == 0 && B ≤ 64)

/-- `h::ExtractConcatLeft`, from the left operand into the right one. -/
def extractConcatMiddle (S E B O : ℕ) : Bool :=
  (O == 8 || O == 16 || O == 24 || O == 33) &&
    (O < B && O ≤ S && E < O && (B % 8 == 0 && B ≤ 64 && O % 8 == 0 || B == 65 && E == 0))

/-- `h::ExtractConcatRight`. -/
def extractConcatRight (S B O : ℕ) : Bool :=
  (O == 8 || O == 16 || O == 24) && (O ≤ B - S - 1 && B ≤ 64)

/-- `h::ExtractExtractLeft`. -/
def extractExtractLeft (S E B O : ℕ) : Bool :=
  (O == 8 || O == 16 || O == 24 || O == 32 || O == 33) &&
    (O < 255 - B && 0 < 255 + S && (S == E && S == B - 1 && B % 32 == 1 || B % 8 == 0 && B ≤ 32))

/-- `h::ExtractExtractRight`. -/
def extractExtractRight (B O : ℕ) : Bool :=
  (O == 8 || O == 16 || O == 24) && (O < 255 - B && B % 8 == 0 && B ≤ 32)

/-- `h::ConcatMergeConstants`. -/
def concatMergeConstants (A B X : ℕ) : Bool :=
  (X == 1 || X == 8 || X == 16 || X == 18 || X == 24) &&
    (A + B ≤ 64 && X < B && 1 ≤ (A + B) % 8 && (A % 8 == 0 && B % 8 == 0 && A ≤ 32 || A == 1 || A == 31))

/-- `h::ConcatPullExtract`. -/
def concatPullExtract (A B X : ℕ) : Bool := X == 32 && X + A + B ≤ 65

/-! ### Extraction -/

/-- `expr::extract<S,E,B>`, with `expr::concat` as given. -/
def extractWith (concat : ℕ → ℕ → Bvexpr → Bvexpr → Bvexpr) (S E B : ℕ) : Bvexpr → Bvexpr
  | .bitvector B' value =>
    if B' = B ∧ B ≤ 64 then constant (S - E + 1) (value >>> E)
    else if S + 1 = B ∧ E = 0 then .bitvector B' value
    else .extraction S E B (.bitvector B' value)
  | .pointerExt A V X array offset ext =>
    if S + 1 = B ∧ E = 0 then .pointerExt A V X array offset ext
    else if (A = 32 ∧ X = 32 ∧ (V = 32 ∨ V = 8)) ∧ extractPointerExtLow S E B then
      .pointer A V array offset
    else if (A = 32 ∧ X = 32 ∧ (V = 32 ∨ V = 8)) ∧ extractPointerExtHigh S E B then ext
    else .extraction S E B (.pointerExt A V X array offset ext)
  | .concatenation A' B' a b =>
    if S + 1 = B ∧ E = 0 then .concatenation A' B' a b
    else if A' + B' ≠ B then .extraction S E B (.concatenation A' B' a b)
    else if B' = E then extractWith concat (S - E) 0 A' a
    else if B' = S + 1 then extractWith concat S E B' b
    else if extractConcatLeft E B B' then extractWith concat (S - B') (E - B') A' a
    else if extractConcatMiddle S E B B' then
      concat (S - B' + 1) (B' - E) (extractWith concat (S - B') 0 A' a)
        (extractWith concat (B' - 1) E B' b)
    else if extractConcatRight S B A' then extractWith concat S E B' b
    else .extraction S E B (.concatenation A' B' a b)
  | .extraction S' E' B' e =>
    if S + 1 = B ∧ E = 0 then .extraction S' E' B' e
    else if (S' = B + E' - 1 ∧ B' = B + E') ∧ extractExtractLeft S E B E' then
      extractWith concat (S + E') (E + E') B' e
    else if (E' = 0 ∧ S' + 1 = B) ∧ extractExtractRight B (B' - B) then extractWith concat S E B' e
    else .extraction S E B (.extraction S' E' B' e)
  | e => if S + 1 = B ∧ E = 0 then e else .extraction S E B e

/-! ### Concatenation -/

/-- `h::ConcatPointer`. -/
def concatPointer (A B : ℕ) (a : Bvexpr) : Bvexpr → Option Bvexpr
  | .pointer A' V array offset =>
    if (A = 32 ∧ B = 32) ∧ A' = B ∧ (V = 32 ∨ V = 8) then some (.pointerExt B V A array offset a)
    else none
  | _ => none

/-- `expr::concat<A,B>` of a constant and an expression. -/
def concatConstant (A va B : ℕ) : Bvexpr → Bvexpr
  | .bitvector B' vb =>
    if B' = B ∧ A + B ≤ 64 then constant (A + B) (va <<< B + vb)
    else .concatenation A B (constant A va) (.bitvector B' vb)
  | .concatenation X Y (.bitvector X' vx) b =>
    if (X + Y = B ∧ X' = X) ∧ concatMergeConstants A B X then
      concatConstant (A + X) (va <<< X + vx) Y b
    else .concatenation A B (constant A va) (.concatenation X Y (.bitvector X' vx) b)
  | .extraction S E B' e =>
    if (S + 1 = B' ∧ B' = E + B) ∧ concatPullExtract A B E then
      extractWith .concatenation (E + A + B - 1) E (E + A + B) (concatConstant A va (E + B) e)
    else .concatenation A B (constant A va) (.extraction S E B' e)
  | b => (concatPointer A B (constant A va) b).getD (.concatenation A B (constant A va) b)

/-- `expr::concat<A,B>`. -/
def concat (A B : ℕ) : Bvexpr → Bvexpr → Bvexpr
  | .bitvector A' va, b =>
    if A' = A then concatConstant A va B b else .concatenation A B (.bitvector A' va) b
  | .concatenation X Y a₁ a₂, b =>
    (concatPointer A B (.concatenation X Y a₁ a₂) b).getD
      (if (X + Y = A ∧ X = 8) ∧ 8 < A then concat X (Y + B) a₁ (concat Y B a₂ b)
      else .concatenation A B (.concatenation X Y a₁ a₂) b)
  | a, b => (concatPointer A B a b).getD (.concatenation A B a b)

/-- `expr::extract<S,E,B>`. -/
def extract (S E B : ℕ) (e : Bvexpr) : Bvexpr := extractWith concat S E B e

/-- `expr::extend<E>` of an expression of width `B`: zeros in front. -/
def extend (E B : ℕ) (e : Bvexpr) : Bvexpr := concat E B (constant E 0) e

/-! ### Shifts -/

/-- The amounts that `expr::bvshl` and `expr::bvlshr` have rules for. -/
def shiftAmount (B s : ℕ) : Bool := (s == 8 || s == 16 || s == 24) && s < B

/-- `h::BVShLPullConcat` and `h::BVShLConstant`. -/
def bvshlConstant (B s : ℕ) (a : Bvexpr) : Bvexpr :=
  match a with
  | .concatenation X Y a₁ a₂ =>
    if X = s ∧ X + Y = B then concat Y s a₂ (constant s 0)
    else concat (B - s) s (extract (B - s - 1) 0 B (.concatenation X Y a₁ a₂)) (constant s 0)
  | a => concat (B - s) s (extract (B - s - 1) 0 B a) (constant s 0)

/-- What `expr::bvshl` does with a `pointer_base` and a constant. -/
def bvshlPointerBase (B s : ℕ) : Bvexpr → Option Bvexpr
  | .pointerBase A V array shift offset =>
    if A = B ∧ V = 8 then
      if shift = s then some (.pointer B V array offset)
      else if s < shift then some (.pointerBase B V array (shift - s) offset)
      else none
    else none
  | _ => none

/-- `expr::bvshl<B>`. -/
def bvshl (B : ℕ) (a b : Bvexpr) : Bvexpr :=
  match castConstant B a, castConstant B b with
  | some va, some vb => constant B (va <<< vb)
  | none, some vb =>
    (bvshlPointerBase B vb a).getD
      (if shiftAmount B vb then bvshlConstant B vb a else .bvbinary .bvshiftl B a b)
  | _, none => .bvbinary .bvshiftl B a b

/-- `expr::bvlshr<B>` by a constant, with `h::BVLShRPullConcat` and `h::BVLShRConstant`. -/
def bvlshrConstant (s : ℕ) (B : ℕ) : Bvexpr → Bvexpr
  | .bitvector B' va =>
    if B' = B then constant B (va >>> s)
    else .bvbinary .bvlshiftr B (.bitvector B' va) (constant B s)
  | .concatenation X Y a₁ a₂ =>
    if shiftAmount B s then
      if X = 8 ∧ X + Y = B ∧ B = s + X then extend s X a₁
      else if X = 8 ∧ X + Y = B ∧ s + X < B then
        extend s (B - s) (concat X (Y - s) a₁ (extract (Y - s - 1) 0 Y (bvlshrConstant s Y a₂)))
      else extend s (B - s) (extract (B - 1) s B (.concatenation X Y a₁ a₂))
    else .bvbinary .bvlshiftr B (.concatenation X Y a₁ a₂) (constant B s)
  | a =>
    if shiftAmount B s then extend s (B - s) (extract (B - 1) s B a)
    else .bvbinary .bvlshiftr B a (constant B s)

/-- `expr::bvlshr<B>`. -/
def bvlshr (B : ℕ) (a b : Bvexpr) : Bvexpr :=
  match castConstant B b with
  | some vb => bvlshrConstant vb B a
  | none => .bvbinary .bvlshiftr B a b

/-! ### What is built -/

/-- An expression of the type `bvexpr<B>`. -/
def Typed (B : ℕ) (e : Bvexpr) : Prop := e.WF ∧ e.width = B

/-- An expression of the type `bvexpr<B>` with a value that depends on the environment. -/
structure Computes (B : ℕ) (f : Env → ℕ) (e : Bvexpr) : Prop where
  typed : Typed B e
  eval : ∀ env, e.eval env = f env

theorem Typed.eval_lt {B : ℕ} {e : Bvexpr} (h : Typed B e) (env : Env) : e.eval env < 2 ^ B :=
  h.2 ▸ e.eval_lt env h.1

theorem typed_constant (B v : ℕ) : Typed B (constant B v) := ⟨constant_wf B v, rfl⟩

theorem typed_pointer {A V w : ℕ} {array : String} {o : Bvexpr} :
    Typed w (.pointer A V array o) ↔ A = w ∧ Typed w o := by
  constructor
  · rintro ⟨⟨ho, rfl⟩, rfl⟩
    exact ⟨rfl, ho, rfl⟩
  · rintro ⟨rfl, ho⟩
    exact ⟨ho, rfl⟩

theorem typed_concatenation {A B C : ℕ} {a b : Bvexpr} :
    Typed C (.concatenation A B a b) ↔ (Typed A a ∧ Typed B b) ∧ A + B = C := by
  simp only [Typed, Bvexpr.WF, Bvexpr.width]

theorem typed_extraction {S E B C : ℕ} {e : Bvexpr} :
    Typed C (.extraction S E B e) ↔ Typed B e ∧ (E ≤ S ∧ S < B) ∧ S - E + 1 = C := by
  simp only [Typed, Bvexpr.WF, Bvexpr.width, and_assoc]

variable {A B C S E : ℕ} {a b e : Bvexpr} {f g : Env → ℕ}

theorem Computes.congr (h : Computes B f e) (hfg : ∀ env, f env = g env) : Computes B g e :=
  ⟨h.typed, fun env => (h.eval env).trans (hfg env)⟩

theorem computes_constant {v : ℕ} (h : v < 2 ^ B) : Computes B (fun _ => v) (constant B v) :=
  ⟨typed_constant B v, fun env => by rw [constant_eval, Nat.mod_eq_of_lt h]⟩

theorem Typed.computes (h : Typed B e) : Computes B (fun env => e.eval env) e := ⟨h, fun _ => rfl⟩

theorem computes_extraction (he : Typed B e) (hE : E ≤ S) (hS : S < B) :
    Computes (S - E + 1) (fun env => slice E (S - E + 1) (e.eval env)) (.extraction S E B e) :=
  ⟨typed_extraction.mpr ⟨he, ⟨hE, hS⟩, rfl⟩, fun _ => rfl⟩

theorem eval_concatenation (ha : Typed A a) (hb : Typed B b) (env : Env) :
    (Bvexpr.concatenation A B a b).eval env = glue B (a.eval env) (b.eval env) := by
  rw [Bvexpr.eval, Nat.mod_eq_of_lt (ha.eval_lt env), Nat.mod_eq_of_lt (hb.eval_lt env), glue]

theorem computes_concatenation (ha : Typed A a) (hb : Typed B b) :
    Computes (A + B) (fun env => glue B (a.eval env) (b.eval env)) (.concatenation A B a b) :=
  ⟨typed_concatenation.mpr ⟨⟨ha, hb⟩, rfl⟩, eval_concatenation ha hb⟩

/-! ### Extraction is sound -/

/-- It puts two expressions together. -/
def Concatenates (c : ℕ → ℕ → Bvexpr → Bvexpr → Bvexpr) : Prop :=
  ∀ {A B a b}, Typed A a → Typed B b →
    Computes (A + B) (fun env => glue B (a.eval env) (b.eval env)) (c A B a b)

/-- `h::ExtractFull`. -/
theorem computes_full (he : Typed B e) (h : S + 1 = B ∧ E = 0) :
    Computes (S - E + 1) (fun env => slice E (S - E + 1) (e.eval env)) e := by
  obtain ⟨rfl, rfl⟩ := h
  exact ⟨he, fun env => (slice_of_lt (he.eval_lt env)).symm⟩

/-- An extended pointer is a pointer with a word in front. -/
theorem eval_pointerExt {A V X : ℕ} {array : String} {offset ext : Bvexpr} (hx : Typed X ext) (env : Env) :
    (Bvexpr.pointerExt A V X array offset ext).eval env =
      glue A (ext.eval env) ((Bvexpr.pointer A V array offset).eval env) := by
  simp only [Bvexpr.eval, Nat.mod_eq_of_lt (hx.eval_lt env), glue]

theorem extractWith_computes {c : ℕ → ℕ → Bvexpr → Bvexpr → Bvexpr} (hc : Concatenates c)
    (he : Typed B e) (hE : E ≤ S) (hS : S < B) :
    Computes (S - E + 1) (fun env => slice E (S - E + 1) (e.eval env)) (extractWith c S E B e) := by
  fun_induction extractWith c S E B e with
  | case1 S E B B' v h =>
    -- a constant
    obtain ⟨rfl, -⟩ := h
    refine ⟨typed_constant _ _, fun env => ?_⟩
    have hv : v < 2 ^ B' := he.1
    rw [constant_eval, Bvexpr.eval, Nat.mod_eq_of_lt hv, Nat.shiftRight_eq_div_pow, slice]
  | case2 _ _ _ _ _ _ h | case4 _ _ _ _ _ _ _ _ _ h | case8 _ _ _ _ _ _ _ h
  | case16 _ _ _ _ _ _ _ h | case20 _ _ _ _ _ _ _ _ h => exact computes_full he h
  | case3 | case7 | case9 | case15 | case19 | case21 => exact computes_extraction he hE hS
  | case5 S E B A V X array offset ext h1 h2 =>
    -- the low word of a pointer
    obtain ⟨⟨rfl, rfl, -⟩, hr⟩ := h2
    simp only [extractPointerExtLow, Bool.and_eq_true, beq_iff_eq] at hr
    obtain ⟨⟨rfl, rfl⟩, rfl⟩ := hr
    have hp : Typed 32 (Bvexpr.pointer 32 V array offset) := ⟨he.1.1, rfl⟩
    refine ⟨hp, fun env => ?_⟩
    rw [eval_pointerExt he.1.2, slice_glue_right (by omega), slice_of_lt (hp.eval_lt env)]
  | case6 S E B A V X array offset ext h1 h2 h3 =>
    -- the word in front of it
    obtain ⟨⟨rfl, rfl, -⟩, hr⟩ := h3
    simp only [extractPointerExtHigh, Bool.and_eq_true, beq_iff_eq] at hr
    obtain ⟨⟨rfl, rfl⟩, rfl⟩ := hr
    have hp : Typed 32 (Bvexpr.pointer 32 V array offset) := ⟨he.1.1, rfl⟩
    refine ⟨he.1.2, fun env => ?_⟩
    rw [eval_pointerExt he.1.2, slice_glue_left (hp.eval_lt env) le_rfl]
    exact (slice_of_lt ((show Typed 32 ext from he.1.2).eval_lt env)).symm
  | case10 S B A' B' a b h1 h2 ih =>
    -- all of the left operand from some bit down
    obtain ⟨⟨ha, hb⟩, hw⟩ := typed_concatenation.mp he
    refine (ih ha (Nat.zero_le _) (by omega)).congr fun env => ?_
    rw [eval_concatenation ha hb, slice_glue_left (hb.eval_lt env) le_rfl, Nat.sub_self, Nat.sub_zero]
  | case11 S E B A' a b h1 h2 h3 ih =>
    -- all of the right operand from some bit up
    obtain ⟨⟨ha, hb⟩, hw⟩ := typed_concatenation.mp he
    refine (ih hb hE (Nat.lt_succ_self S)).congr fun env => ?_
    rw [eval_concatenation ha hb, slice_glue_right (by omega)]
  | case12 S E B A' B' a b h1 h2 h3 h4 h5 ih =>
    -- within the left operand
    obtain ⟨⟨ha, hb⟩, hw⟩ := typed_concatenation.mp he
    simp only [extractConcatLeft, Bool.and_eq_true, decide_eq_true_eq] at h5
    have hsub : S - B' - (E - B') + 1 = S - E + 1 := by omega
    have ih := ih ha (by omega) (by omega)
    rw [hsub] at ih
    refine ih.congr fun env => ?_
    rw [eval_concatenation ha hb, slice_glue_left (hb.eval_lt env) h5.2.1.1.2]
  | case13 S E B A' B' a b h1 h2 h3 h4 h5 h6 iha ihb =>
    -- across the seam
    obtain ⟨⟨ha, hb⟩, hw⟩ := typed_concatenation.mp he
    simp only [extractConcatMiddle, Bool.and_eq_true, decide_eq_true_eq] at h6
    have hB' : E < B' ∧ B' ≤ S := ⟨h6.2.1.2, h6.2.1.1.2⟩
    have iha := iha ha (Nat.zero_le _) (by omega)
    have ihb := ihb hb (by omega) (by omega)
    rw [Nat.sub_zero] at iha
    rw [show B' - 1 - E + 1 = B' - E by omega] at ihb
    have hconcat := hc iha.typed ihb.typed
    rw [show S - B' + 1 + (B' - E) = S - E + 1 by omega] at hconcat
    refine hconcat.congr fun env => ?_
    rw [iha.eval, ihb.eval, eval_concatenation ha hb,
      slice_glue_middle (hb.eval_lt env) (by omega) (by omega),
      show E + (S - E + 1) - B' = S - B' + 1 by omega]
  | case14 S E B A' B' a b h1 h2 h3 h4 h5 h6 h7 ih =>
    -- within the right operand
    obtain ⟨⟨ha, hb⟩, hw⟩ := typed_concatenation.mp he
    simp only [extractConcatRight, Bool.and_eq_true, decide_eq_true_eq] at h7
    refine (ih hb hE (by omega)).congr fun env => ?_
    rw [eval_concatenation ha hb, slice_glue_right (by omega)]
  | case17 S E B S' E' B' e h1 h2 ih =>
    -- from an extraction that drops bits behind
    obtain ⟨he', hSE, hw⟩ := typed_extraction.mp he
    have ih := ih he' (by omega) (by omega)
    rw [show S + E' - (E + E') + 1 = S - E + 1 by omega] at ih
    refine ih.congr fun env => ?_
    rw [(computes_extraction he' hSE.1 hSE.2).eval, slice_slice (by omega), Nat.add_comm]
  | case18 S E B S' E' B' e h1 h2 h3 ih =>
    -- from an extraction that drops bits in front
    obtain ⟨he', hSE, hw⟩ := typed_extraction.mp he
    refine (ih he' hE (by omega)).congr fun env => ?_
    rw [(computes_extraction he' hSE.1 hSE.2).eval, slice_slice (by omega), h3.1.1, Nat.zero_add]

/-! ### Concatenation is sound -/

theorem concatPointer_computes {r : Bvexpr} (ha : Typed A a) (hb : Typed B b)
    (h : concatPointer A B a b = some r) :
    Computes (A + B) (fun env => glue B (a.eval env) (b.eval env)) r := by
  cases b with
  | pointer A' V array offset =>
    rw [concatPointer] at h
    split_ifs at h with hr
    obtain rfl := Option.some.inj h
    obtain ⟨-, rfl, -⟩ := hr
    exact ⟨⟨⟨hb.1, ha⟩, Nat.add_comm A' A⟩, eval_pointerExt ha⟩
  | _ => exact nomatch h

theorem concatPointer_getD_computes {r : Bvexpr} (ha : Typed A a) (hb : Typed B b)
    (hr : Computes (A + B) (fun env => glue B (a.eval env) (b.eval env)) r) :
    Computes (A + B) (fun env => glue B (a.eval env) (b.eval env)) ((concatPointer A B a b).getD r) := by
  cases h : concatPointer A B a b with
  | none => exact hr
  | some r' => exact concatPointer_computes ha hb h

theorem concatConstant_computes {va : ℕ} (hva : va < 2 ^ A) (hb : Typed B b) :
    Computes (A + B) (fun env => glue B va (b.eval env)) (concatConstant A va B b) := by
  have hnode : ∀ {A B va b}, va < 2 ^ A → Typed B b →
      Computes (A + B) (fun env => glue B va (b.eval env)) (.concatenation A B (constant A va) b) :=
    fun hva hb => (computes_concatenation (typed_constant _ _) hb).congr fun env => by
      rw [(computes_constant hva).eval]
  fun_induction concatConstant A va B b with
  | case1 A va B B' vb h =>
    -- two constants
    obtain ⟨rfl, -⟩ := h
    have hvb : vb < 2 ^ B' := hb.1
    rw [Nat.shiftLeft_eq, ← glue]
    refine (computes_constant (glue_lt hva hvb)).congr fun env => ?_
    rw [Bvexpr.eval, Nat.mod_eq_of_lt hvb]
  | case2 | case4 | case6 => exact hnode hva hb
  | case3 A va B X Y X' vx b h ih =>
    -- a constant in front of a constant
    obtain ⟨⟨rfl, rfl⟩, -⟩ := h
    obtain ⟨⟨hx, hb⟩, -⟩ := typed_concatenation.mp hb
    have hvx : vx < 2 ^ X' := hx.1
    rw [Nat.shiftLeft_eq, ← glue] at ih ⊢
    have ih := ih (glue_lt hva hvx) hb
    rw [Nat.add_assoc] at ih
    refine ih.congr fun env => ?_
    rw [eval_concatenation hx hb, Bvexpr.eval, Nat.mod_eq_of_lt hvx, glue_assoc]
  | case5 A va B S E B' e h ih =>
    -- a constant in front of an extraction
    obtain ⟨⟨hS, rfl⟩, -⟩ := h
    obtain ⟨he, hSE, hw⟩ := typed_extraction.mp hb
    have ih := ih hva he
    rw [show A + (E + B) = E + A + B by omega] at ih
    have hextract := extractWith_computes (S := E + A + B - 1) computes_concatenation ih.typed
      (by omega : E ≤ E + A + B - 1) (by omega)
    rw [show E + A + B - 1 - E + 1 = A + B by omega] at hextract
    refine hextract.congr fun env => ?_
    rw [ih.eval, slice_glue_middle (he.eval_lt env) (by omega) (by omega),
      show E + (A + B) - (E + B) = A by omega, slice_of_lt hva, Nat.add_sub_cancel_left,
      (computes_extraction he hSE.1 hSE.2).eval, hw]
  | case7 A va B b =>
    refine (concatPointer_getD_computes (typed_constant A va) hb ?_).congr fun env => ?_
    · exact computes_concatenation (typed_constant A va) hb
    · rw [(computes_constant hva).eval]

/-- **`concat` puts two expressions one behind the other.** -/
theorem concat_computes : Concatenates concat := by
  intro A B a b ha hb
  fun_induction concat A B a b with
  | case1 B A va b =>
    refine (concatConstant_computes (show va < 2 ^ A from ha.1) hb).congr fun env => ?_
    rw [Bvexpr.eval, Nat.mod_eq_of_lt (show va < 2 ^ A from ha.1)]
  | case2 => exact computes_concatenation ha hb
  | case3 A B X Y a₁ a₂ b ih2 ih1 =>
    refine concatPointer_getD_computes ha hb ?_
    split_ifs with h
    · -- the rest of the left operand goes to the right one
      obtain ⟨⟨ha₁, ha₂⟩, rfl⟩ := typed_concatenation.mp ha
      have ih2 := ih2 ha₂ hb
      have ih1 := ih1 ha₁ ih2.typed
      rw [← Nat.add_assoc] at ih1
      refine ih1.congr fun env => ?_
      rw [ih2.eval, eval_concatenation ha₁ ha₂, glue_assoc]
    · exact computes_concatenation ha hb
  | case4 => exact concatPointer_getD_computes ha hb (computes_concatenation ha hb)

/-- **`extract` takes bits out of an expression.** -/
theorem extract_computes (he : Typed B e) (hE : E ≤ S) (hS : S < B) :
    Computes (S - E + 1) (fun env => slice E (S - E + 1) (e.eval env)) (extract S E B e) :=
  extractWith_computes concat_computes he hE hS

/-- **`extend` keeps the value.** -/
theorem extend_computes (he : Typed B e) : Computes (E + B) (fun env => e.eval env) (extend E B e) :=
  (concat_computes (typed_constant E 0) he).congr fun env => by
    rw [constant_eval, Nat.zero_mod, zero_glue]

/-! ### The two functions together -/

/-- What `concat` makes of a constant and an expression, where it is too wide to be pulled out of an
extraction again. -/
theorem concatConstant_shape {va : ℕ} (hA : 0 < A) (hAB : 33 < A + B) (hne : A + B = 64 → A < 32) :
    (∃ v, concatConstant A va B b = constant (A + B) v) ∨
      ∃ A' B' v b', concatConstant A va B b = .concatenation A' B' (constant A' v) b' ∧
        0 < A' ∧ A' + B' = A + B := by
  fun_induction concatConstant A va B b with
  | case1 => exact Or.inl ⟨_, rfl⟩
  | case2 | case4 | case6 => exact Or.inr ⟨_, _, _, _, rfl, hA, rfl⟩
  | case3 A va B X Y X' vx b h ih =>
    obtain ⟨⟨rfl, -⟩, hr⟩ := h
    simp only [concatMergeConstants, Bool.and_eq_true, decide_eq_true_eq] at hr
    have ih := ih (by omega) (by omega) (by omega)
    rwa [Nat.add_assoc] at ih
  | case5 A va B S E B' e h =>
    simp only [concatPullExtract, Bool.and_eq_true, beq_iff_eq, decide_eq_true_eq] at h
    omega
  | case7 A va B b =>
    refine Or.inr ⟨A, B, va, b, ?_, hA, rfl⟩
    cases b with
    | pointer A' V array offset =>
      rw [concatPointer, if_neg (by omega), Option.getD_none]
    | _ => rfl

/-- Taking that apart at bit 32 does not need to put anything together. -/
theorem extractWith_concatenation {c : ℕ → ℕ → Bvexpr → Bvexpr → Bvexpr} {A' B' v : ℕ} (hA : 0 < A')
    (hB : 33 < A' + B') :
    extractWith c (A' + B' - 1) 32 (A' + B') (.concatenation A' B' (constant A' v) b) =
      extractWith .concatenation (A' + B' - 1) 32 (A' + B') (.concatenation A' B' (constant A' v) b) := by
  have hconst : ∀ {S E B v}, extractWith c S E B (constant A' v) =
      extractWith .concatenation S E B (constant A' v) := fun {S E B v} => by
    simp only [constant, extractWith]
  have hfull : ¬ (A' + B' - 1 + 1 = A' + B' ∧ 32 = 0) := by omega
  have hmiddle : ¬ extractConcatMiddle (A' + B' - 1) 32 (A' + B') B' = true := by
    simp only [extractConcatMiddle, Bool.and_eq_true, Bool.or_eq_true, decide_eq_true_eq, beq_iff_eq]
    omega
  have hright : ¬ extractConcatRight (A' + B' - 1) (A' + B') A' = true := by
    simp only [extractConcatRight, Bool.and_eq_true, Bool.or_eq_true, decide_eq_true_eq, beq_iff_eq]
    omega
  simp only [extractWith, hfull, hmiddle, hright, hconst, if_false, Bool.false_eq_true,
    show B' ≠ A' + B' - 1 + 1 by omega]

/-- `h::ConcatPullExtract`, as it is in the source: what is pulled out of an extraction is taken apart by
`extract`. -/
theorem concat_extraction {va : ℕ} (hA : 0 < A) (he : Typed B (.extraction S E C e))
    (h : S + 1 = C ∧ concatPullExtract A B E) :
    concat A B (constant A va) (.extraction S E C e) =
      extract (E + A + B - 1) E (E + A + B) (concat A (E + B) (constant A va) e) := by
  obtain ⟨-, hSE, hw⟩ := typed_extraction.mp he
  have hC : C = E + B := by omega
  have hr := h.2
  simp only [concatPullExtract, Bool.and_eq_true, beq_iff_eq, decide_eq_true_eq] at hr
  obtain ⟨rfl, hr⟩ := hr
  have hconcat : ∀ B b, concat A B (constant A va) b = concatConstant A (va % 2 ^ A) B b := fun B b => by
    rw [constant, concat, if_pos rfl]
  rw [hconcat, hconcat, concatConstant, if_pos ⟨⟨h.1, hC⟩, h.2⟩, extract]
  have htotal : 32 + A + B = A + (32 + B) := by omega
  rcases @concatConstant_shape A (32 + B) e (va % 2 ^ A) hA (by omega) (by omega) with
    ⟨v, hv⟩ | ⟨A', B', v, b', hv, hA', hAB⟩
  · rw [hv, constant, extractWith, extractWith]
  · rw [hv, htotal, ← hAB]
    exact (extractWith_concatenation hA' (by omega)).symm

/-! ### Shifts are sound -/

/-- An expression of the class `pointer`, `pointer_ext` or `pointer_base`. -/
def Bvexpr.isPointer : Bvexpr → Bool
  | .pointer _ _ _ _ | .pointerExt _ _ _ _ _ _ | .pointerBase _ _ _ _ _ => true
  | _ => false

variable {s : ℕ}

theorem castConstant_typed {v : ℕ} (h : castConstant B e = some v) (he : Typed B e) :
    e = .bitvector B v ∧ ∀ env, e.eval env = v := by
  obtain rfl := castConstant_eq_some h
  exact ⟨rfl, fun env => Nat.mod_eq_of_lt he.1⟩

theorem shiftAmount_lt (h : shiftAmount B s = true) : 0 < s ∧ s < B := by
  simp only [shiftAmount, Bool.and_eq_true, Bool.or_eq_true, beq_iff_eq, decide_eq_true_eq] at h
  omega

theorem bvshlConstant_computes (ha : Typed B a) (hs : s < B) :
    Computes B (fun env => (a.eval env <<< s) % 2 ^ B) (bvshlConstant B s a) := by
  -- some bits of the operand, and zeros behind
  have hzeros : ∀ {e}, Computes (B - s) (fun env => slice 0 (B - s) (a.eval env)) e →
      Computes B (fun env => (a.eval env <<< s) % 2 ^ B) (concat (B - s) s e (constant s 0)) := by
    intro e he
    have hconcat := concat_computes he.typed (typed_constant s 0)
    rw [Nat.sub_add_cancel hs.le] at hconcat
    refine hconcat.congr fun env => ?_
    rw [he.eval, constant_eval, Nat.zero_mod, shiftLeft_mod hs.le]
  have hextract : Computes (B - s) (fun env => slice 0 (B - s) (a.eval env))
      (extract (B - s - 1) 0 B a) := by
    have h := extract_computes (S := B - s - 1) ha (Nat.zero_le _) (by omega)
    rwa [show B - s - 1 - 0 + 1 = B - s by omega] at h
  unfold bvshlConstant
  split
  · next X Y a₁ a₂ =>
    split_ifs with h
    · obtain ⟨rfl, rfl⟩ := h
      obtain ⟨⟨-, ha₂⟩, -⟩ := typed_concatenation.mp ha
      have hY : X + Y - X = Y := Nat.add_sub_cancel_left X Y
      rw [hY] at hzeros
      refine hzeros ⟨ha₂, fun env => ?_⟩
      obtain ⟨ha₁, ha₂⟩ := (typed_concatenation.mp ha).1
      rw [eval_concatenation ha₁ ha₂, slice_glue_right (by omega), slice_of_lt (ha₂.eval_lt env)]
    · exact hzeros hextract
  · exact hzeros hextract

/-- **`bvshl` shifts to the left.** -/
theorem bvshl_computes (ha : Typed B a) (hb : Typed B b) (hp : a.isPointer = false) :
    Computes B (fun env => (a.eval env <<< b.eval env) % 2 ^ B) (bvshl B a b) := by
  have hnode : Computes B (fun env => (a.eval env <<< b.eval env) % 2 ^ B) (.bvbinary .bvshiftl B a b) :=
    ⟨⟨⟨ha, hb⟩, rfl⟩, fun env => rfl⟩
  unfold bvshl
  split
  · next va vb hva hvb =>
    refine ⟨typed_constant _ _, fun env => ?_⟩
    rw [(castConstant_typed hva ha).2, (castConstant_typed hvb hb).2, constant_eval]
  · next vb _ hvb =>
    have hnone : bvshlPointerBase B vb a = none := by
      cases a with
      | pointerBase => exact nomatch hp
      | _ => rfl
    rw [hnone, Option.getD_none]
    split_ifs with hs
    · refine (bvshlConstant_computes ha (shiftAmount_lt hs).2).congr fun env => ?_
      rw [(castConstant_typed hvb hb).2]
    · exact hnode
  · exact hnode

theorem bvlshrConstant_computes (ha : Typed B a) (hs : s < 2 ^ B) :
    Computes B (fun env => a.eval env >>> s) (bvlshrConstant s B a) := by
  have hnode : ∀ {B a}, Typed B a → s < 2 ^ B →
      Computes B (fun env => a.eval env >>> s) (.bvbinary .bvlshiftr B a (constant B s)) := by
    intro B a ha hs
    refine ⟨⟨⟨ha, typed_constant B s⟩, rfl⟩, fun env => ?_⟩
    rw [Bvexpr.eval, constant_eval, Nat.mod_eq_of_lt hs, BvOp.eval, Nat.mod_eq_of_lt]
    exact (Nat.shiftRight_le _ _).trans_lt (ha.eval_lt env)
  -- the first bits of the operand, and zeros in front
  have hzeros : ∀ {B a e}, Typed B a → s ≤ B →
      Computes (B - s) (fun env => slice s (B - s) (a.eval env)) e →
      Computes B (fun env => a.eval env >>> s) (extend s (B - s) e) := by
    intro B a e ha hs he
    have hextend := extend_computes (E := s) he.typed
    rw [Nat.add_sub_cancel' hs] at hextend
    refine hextend.congr fun env => ?_
    rw [he.eval, shiftRight_eq (ha.eval_lt env)]
  have hextract : ∀ {B a}, Typed B a → s < B →
      Computes B (fun env => a.eval env >>> s) (extend s (B - s) (extract (B - 1) s B a)) := by
    intro B a ha hs
    have h := extract_computes (E := s) (S := B - 1) ha (by omega) (by omega)
    rw [show B - 1 - s + 1 = B - s by omega] at h
    exact hzeros ha hs.le h
  fun_induction bvlshrConstant s B a with
  | case1 B va =>
    refine ⟨typed_constant _ _, fun env => ?_⟩
    have hva : va < 2 ^ B := ha.1
    rw [constant_eval, Bvexpr.eval, Nat.mod_eq_of_lt hva,
      Nat.mod_eq_of_lt ((Nat.shiftRight_le _ _).trans_lt hva)]
  | case2 | case6 | case8 => exact hnode ha hs
  | case3 B X Y a₁ a₂ h1 h2 =>
    -- only the left operand stays
    obtain ⟨⟨ha₁, ha₂⟩, hw⟩ := typed_concatenation.mp ha
    have hX : B - s = X := by omega
    have hextend := hzeros (e := a₁) ha (by omega)
    rw [hX] at hextend
    refine hextend ⟨ha₁, fun env => ?_⟩
    rw [eval_concatenation ha₁ ha₂, slice_glue_left (ha₂.eval_lt env) (by omega),
      show s - Y = 0 by omega, slice_of_lt (ha₁.eval_lt env)]
  | case4 B X Y a₁ a₂ h1 h2 h3 ih =>
    -- the right operand is shifted
    obtain ⟨⟨ha₁, ha₂⟩, hw⟩ := typed_concatenation.mp ha
    have ih := ih ha₂ (by have := Nat.lt_two_pow_self (n := Y); omega)
    have hextract' := extract_computes (E := 0) (S := Y - s - 1) ih.typed (Nat.zero_le _) (by omega)
    rw [show Y - s - 1 - 0 + 1 = Y - s by omega] at hextract'
    have hconcat := concat_computes ha₁ hextract'.typed
    rw [show X + (Y - s) = B - s by omega] at hconcat
    refine hzeros ha (by omega) (hconcat.congr fun env => ?_)
    rw [hextract'.eval, ih.eval, shiftRight_eq (ha₂.eval_lt env), slice_of_lt slice_lt,
      eval_concatenation ha₁ ha₂, slice_glue_middle (ha₂.eval_lt env) (by omega) (by omega),
      show s + (B - s) - Y = X by omega, slice_of_lt (ha₁.eval_lt env)]
  | case5 B X Y a₁ a₂ h1 | case7 B a _ _ h1 => exact hextract ha (shiftAmount_lt h1).2

/-- **`bvlshr` shifts to the right.** -/
theorem bvlshr_computes (ha : Typed B a) (hb : Typed B b) :
    Computes B (fun env => a.eval env >>> b.eval env) (bvlshr B a b) := by
  unfold bvlshr
  split
  · next vb hvb =>
    obtain ⟨rfl, hvb⟩ := castConstant_typed hvb hb
    refine (bvlshrConstant_computes ha hb.1).congr fun env => ?_
    rw [hvb]
  · refine ⟨⟨⟨ha, hb⟩, rfl⟩, fun env => ?_⟩
    rw [Bvexpr.eval, BvOp.eval, Nat.mod_eq_of_lt]
    exact (Nat.shiftRight_le _ _).trans_lt (ha.eval_lt env)

/-- **The structural constructors preserve meaning**, whatever they are rewritten to. A shift that is not
below the width has no meaning in the source if both operands are constants. -/
theorem structural_eval (env : Env) :
    (∀ S E B e, Typed B e → E ≤ S → S < B →
      Typed (S - E + 1) (extract S E B e) ∧
        (extract S E B e).eval env = e.eval env / 2 ^ E % 2 ^ (S - E + 1)) ∧
    (∀ A B a b, Typed A a → Typed B b →
      Typed (A + B) (concat A B a b) ∧
        (concat A B a b).eval env = a.eval env * 2 ^ B + b.eval env) ∧
    (∀ E B e, Typed B e →
      Typed (E + B) (extend E B e) ∧ (extend E B e).eval env = e.eval env) ∧
    (∀ B a b, Typed B a → Typed B b → a.isPointer = false →
      (∀ va vb, castConstant B a = some va → castConstant B b = some vb → vb < B) →
      Typed B (bvshl B a b) ∧ (bvshl B a b).eval env = (a.eval env <<< b.eval env) % 2 ^ B) ∧
    ∀ B a b, Typed B a → Typed B b →
      (∀ va vb, castConstant B a = some va → castConstant B b = some vb → vb < B) →
      Typed B (bvlshr B a b) ∧ (bvlshr B a b).eval env = a.eval env >>> b.eval env := by
  refine ⟨fun S E B e he hE hS => ?_, fun A B a b ha hb => ?_, fun E B e he => ?_,
    fun B a b ha hb hp _ => ?_, fun B a b ha hb _ => ?_⟩
  · exact ⟨(extract_computes he hE hS).typed, (extract_computes he hE hS).eval env⟩
  · exact ⟨(concat_computes ha hb).typed, (concat_computes ha hb).eval env⟩
  · exact ⟨(extend_computes he).typed, (extend_computes he).eval env⟩
  · exact ⟨(bvshl_computes ha hb hp).typed, (bvshl_computes ha hb hp).eval env⟩
  · exact ⟨(bvlshr_computes ha hb).typed, (bvlshr_computes ha hb).eval env⟩

/-- Taking the bits of a constant across the seam of a concatenation. -/
theorem structural_eval_extract :
    (extract 15 4 24 (.concatenation 16 8 (.bitvector 16 0x1234) (.bitvector 8 0x56))).eval (.const 0) =
      0x345 := by
  have h := (structural_eval (.const 0)).1 15 4 24
    (.concatenation 16 8 (.bitvector 16 0x1234) (.bitvector 8 0x56))
    ⟨⟨⟨show 0x1234 < 2 ^ 16 by decide, rfl⟩, show 0x56 < 2 ^ 8 by decide, rfl⟩, rfl⟩ (by decide) (by decide)
  exact h.2

end NfpEstimator
