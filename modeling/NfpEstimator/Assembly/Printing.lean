import NfpEstimator.Assembly.Grammar
import NfpEstimator.Assembly.Words

/-!
# Printed instructions

What `str` prints of an instruction, and its tokens. If the operands are such as a listing has them (`Line.Valid`), the
instruction is read again from its text (`buildInstr_of_fullMask`). A mask that begins with 0 is an exception:
`std::to_string` writes it as a number of fewer digits, which is no mask (`buildInstr_eq_none`).
-/

namespace NfpEstimator

namespace Assembly

open Flex Flex.Pattern

/-! ### Texts -/

/-- `instr::str`. -/
def head (id : ℕ) (name : String) : List Char :=
  [List.leftpad 6 ' ' (".".toList ++ Nat.toDigits 10 id), "  ".toList, name.toList].flatten

/-- `gpr_wrboth` behind an instruction. -/
def wrbothStr (w : Bool) : List Char := if w then ", gpr_wrboth".toList else []

/-- `instr::branch::str`. -/
def branchStr (id : ℕ) (name : String) (target defer : ℕ) : List Char :=
  [head id name, "[".toList, ".".toList ++ Nat.toDigits 10 target, "]".toList,
    if defer = 0 then []
    else [", ".toList, "defer".toList, "[".toList, Nat.toDigits 10 defer, "]".toList].flatten].flatten

/-- A shift that need not be there. -/
def optShiftStr : Option ShiftCntl → List Char
  | some sc => ", ".toList ++ ShiftCntl.str sc
  | none => []

/-- A shift of `mem` that need not be there. -/
def memShiftStr : Option ShiftCntl → List Char
  | some sc => ShiftCntl.str sc ++ ", ".toList
  | none => []

/-- `indirect_ref` and `ctx_swap` behind `mem`. -/
def refsStr (indirectRef : Bool) (ctxSwap : Option ℕ) : List Char :=
  (if indirectRef then ", indirect_ref".toList else []) ++
    match ctxSwap with
    | some n => [", ".toList, "ctx_swap[sig".toList, Nat.toDigits 10 n, "]".toList].flatten
    | none => []

/-- `instr::mem::str`. -/
def memStr (id : ℕ) (op : String) (xfer : ℕ) (m : MemArgs) : List Char :=
  [head id "mem", "[".toList, op.toList, ", ".toList, xferStr xfer, ", ".toList, Src.str m.src1, ", ".toList,
    memShiftStr m.sc1, Src.str m.src2, ", ".toList, memShiftStr m.sc2, Nat.toDigits 10 m.refCnt, "]".toList,
    refsStr m.indirectRef m.ctxSwap].flatten

/-- `instr::ld_field_like::str`. -/
def ldFieldStr (id : ℕ) (name : String) (dst : Dst) (mask : ℕ) (src : Src) (sc : Option ShiftCntl) (w : Bool) :
    List Char :=
  [head id name, "[".toList, Dst.str dst, ", ".toList, Nat.toDigits 10 mask, ", ".toList, Src.str src, optShiftStr sc,
    "]".toList, wrbothStr w].flatten

/-- `instr::str`, of all instructions. -/
def Line.str (l : Line) : List Char :=
  match l.n with
  | .alu id dst srcA op srcB w =>
    [head id "alu", "[".toList, Dst.str dst, ", ".toList, Src.str srcA, ", ".toList, (AluOp.str op).toList, ", ".toList,
      Src.str srcB, "]".toList, wrbothStr w].flatten
  | .aluShf id dst srcA op srcB sc w =>
    [head id "alu_shf", "[".toList, Dst.str dst, ", ".toList, Src.str srcA, ", ".toList, (AluOp.str op).toList,
      ", ".toList, Src.str srcB, ",".toList, ShiftCntl.str sc, "]".toList, wrbothStr w].flatten
  | .asr id dst src sc w =>
    [head id "asr", "[".toList, Dst.str dst, ", ".toList, Src.str src, ", ".toList, Aright.str sc, "]".toList,
      wrbothStr w].flatten
  | .properBranch id cond target => branchStr id (BranchCond.name cond) target l.defer
  | .br id target => branchStr id "br" target l.defer
  | .dblShf id dst srcA srcB sc w =>
    [head id "dbl_shf", "[".toList, Dst.str dst, ", ".toList, Src.str srcA, ", ".toList, Src.str srcB, ",".toList,
      ShiftCntl.str sc, "]".toList, wrbothStr w].flatten
  | .immed id dst im sc w =>
    [head id "immed", "[".toList, Dst.str dst, ", ".toList, Nat.toDigits 10 im, optShiftStr sc, "]".toList,
      wrbothStr w].flatten
  | .immedW1 id dst im w =>
    [head id "immed_w1", "[".toList, Dst.str dst, ", ".toList, Nat.toDigits 10 im, "]".toList, wrbothStr w].flatten
  | .ldField id dst mask src sc w => ldFieldStr id "ld_field" dst mask src sc w
  | .ldFieldWClr id dst mask src sc w => ldFieldStr id "ld_field_w_clr" dst mask src sc w
  | .localCsrWr id localCsr src =>
    [head id "local_csr_wr", "[".toList, (localCsrStr localCsr).toList, ", ".toList, Src.str src, "]".toList].flatten
  | .memRead id xfer src1 sc1 src2 sc2 refCnt indirectRef ctxSwap =>
    memStr id "read32_swap" xfer ⟨src1, sc1, src2, sc2, refCnt, indirectRef, ctxSwap⟩
  | .memWrite id op xfer src1 sc1 src2 sc2 refCnt indirectRef ctxSwap =>
    memStr id (MemWriteOp.str op) xfer ⟨src1, sc1, src2, sc2, refCnt, indirectRef, ctxSwap⟩
  | .mulStep id srcA srcB tok =>
    [head id "mul_step", "[".toList, Src.str srcA, ", ".toList, Src.str srcB, "]".toList, ", ".toList,
      (MulTok.str tok).toList].flatten
  | .mulStepLast id dst tok w =>
    [head id "mul_step", "[".toList, Dst.str dst, ", ".toList, "--".toList, "]".toList, ", ".toList,
      (MulLast.str tok).toList, wrbothStr w].flatten
  | .nop id => head id "nop"
  | .fin => head NfpEstimator.Instr.finID "fin"

/-! ### What can be read -/

/-- Registers and offsets have at most two digits. -/
def Dst.Valid : Dst → Prop
  | .gpr g => g.number < 100
  | .lmindexed _ offset => offset < 100
  | .xferOut number => number < 100
  | .omitted => True

@[inherit_doc Dst.Valid]
def Src.Valid : Src → Prop
  | .gpr g => g.number < 100
  | .lmindexed _ offset => offset < 100
  | .xferIn number => number < 100
  | .constant value => value < 2 ^ 32
  | .omitted => True

/-- The amount of an immediate shift is between 1 and 99. -/
def Aright.Valid : Aright → Prop
  | .rightim amount => 0 < amount ∧ amount < 100
  | .rightindirect => True

@[inherit_doc Aright.Valid]
def ShiftCntl.Valid : ShiftCntl → Prop
  | .leftim amount | .rotleftim amount | .rotrightim amount => 0 < amount ∧ amount < 100
  | .leftindirect => True
  | .aright sc => Aright.Valid sc

/-- A mask has four digits, 0 or 1. -/
def MaskValid (mask : ℕ) : Prop := bits.accepts (Scanf.pad 10 4 mask)

/-- At most one source of `mem` is shifted. Without a signal the number is `-1`. -/
structure MemArgs.Valid (m : MemArgs) : Prop where
  src1 : Src.Valid m.src1
  sc1 : ∀ sc ∈ m.sc1, ShiftCntl.Valid sc
  src2 : Src.Valid m.src2
  sc2 : ∀ sc ∈ m.sc2, ShiftCntl.Valid sc
  one : m.sc1 = none ∨ m.sc2 = none
  refCnt : m.refCnt < 2 ^ 32
  ctxSwap : ∀ n ∈ m.ctxSwap, n < 2 ^ 32 - 1

/-- The operands are such as a listing has them. -/
def operandsValid : Operation → Prop
  | .alu id dst srcA _ srcB _ => id < 2 ^ 32 ∧ Dst.Valid dst ∧ Src.Valid srcA ∧ Src.Valid srcB
  | .aluShf id dst srcA _ srcB sc _ =>
    id < 2 ^ 32 ∧ Dst.Valid dst ∧ Src.Valid srcA ∧ Src.Valid srcB ∧ ShiftCntl.Valid sc
  | .asr id dst src sc _ => id < 2 ^ 32 ∧ Dst.Valid dst ∧ Src.Valid src ∧ Aright.Valid sc
  | .properBranch id _ target | .br id target => id < 2 ^ 32 ∧ target < 2 ^ 32
  | .dblShf id dst srcA srcB sc _ =>
    id < 2 ^ 32 ∧ Dst.Valid dst ∧ Src.Valid srcA ∧ Src.Valid srcB ∧ ShiftCntl.Valid sc
  | .immed id dst im sc _ => id < 2 ^ 32 ∧ Dst.Valid dst ∧ im < 2 ^ 32 ∧ ∀ s ∈ sc, ShiftCntl.Valid s
  | .immedW1 id dst im _ => id < 2 ^ 32 ∧ (∃ g, dst = .gpr g) ∧ Dst.Valid dst ∧ im < 2 ^ 32
  | .ldField id dst mask src sc _ | .ldFieldWClr id dst mask src sc _ =>
    id < 2 ^ 32 ∧ Dst.Valid dst ∧ MaskValid mask ∧ Src.Valid src ∧ ∀ s ∈ sc, ShiftCntl.Valid s
  | .localCsrWr id _ src => id < 2 ^ 32 ∧ Src.Valid src
  | .memRead id xfer src1 sc1 src2 sc2 refCnt indirectRef ctxSwap
  | .memWrite id _ xfer src1 sc1 src2 sc2 refCnt indirectRef ctxSwap =>
    id < 2 ^ 32 ∧ xfer < 100 ∧ MemArgs.Valid ⟨src1, sc1, src2, sc2, refCnt, indirectRef, ctxSwap⟩
  | .mulStep id srcA srcB _ =>
    id < 2 ^ 32 ∧ (∃ t, mulSrc t = some srcA) ∧ Src.Valid srcA ∧ (∃ t, mulSrc t = some srcB) ∧ Src.Valid srcB
  | .mulStepLast id dst _ _ => id < 2 ^ 32 ∧ (∃ t, mulDst t = some dst) ∧ Dst.Valid dst
  | .nop id => id < 2 ^ 32
  | .fin => False

/-- Only branches are deferred. -/
def deferValid (defer : ℕ) : Operation → Prop
  | .properBranch _ _ _ | .br _ _ => defer < 2 ^ 32
  | _ => defer = 0

/-- An instruction that a listing can have. -/
structure Line.Valid (l : Line) : Prop where
  operands : operandsValid l.n
  defer : deferValid l.defer l.n

/-- The mask, if there is one, does not begin with 0. -/
def Line.fullMask (l : Line) : Bool :=
  match l.n with
  | .ldField _ _ mask _ _ _ | .ldFieldWClr _ _ mask _ _ _ => 1000 ≤ mask
  | _ => true

variable {cs w : List Char} {a : Token} {id n : ℕ} {name : String} {l : Line} {sc : Option ShiftCntl} {b : Bool}

/-! ### Tokens of what is printed -/

/-- The token of an operand. -/
def dstToken : Dst → Token
  | .gpr g => .gpr g
  | .lmindexed addr offset => .indexed addr offset
  | .xferOut number => .xfer number
  | .omitted => .omitted

@[inherit_doc dstToken]
def srcToken : Src → Token
  | .gpr g => .gpr g
  | .lmindexed addr offset => .indexed addr offset
  | .xferIn number => .xfer number
  | .constant value => intToken value
  | .omitted => .omitted

@[inherit_doc dstToken]
def shiftToken : ShiftCntl → Token
  | .aright sc => .shiftARight sc
  | sc => .shift sc

theorem word_omitted : Word "--".toList .omitted := word_fixed (by simp [fixedWords])

theorem word_dst {d : Dst} (h : Dst.Valid d) : Word (Dst.str d) (dstToken d) := by
  cases d with
  | gpr g => exact word_gpr h
  | lmindexed addr offset => exact word_lmindexed addr h
  | xferOut number => exact word_xfer h
  | omitted => exact word_omitted

theorem word_src {s : Src} (h : Src.Valid s) : Word (Src.str s) (srcToken s) := by
  cases s with
  | gpr g => exact word_gpr h
  | lmindexed addr offset => exact word_lmindexed addr h
  | xferIn number => exact word_xfer h
  | constant value => exact word_int h
  | omitted => exact word_omitted

theorem word_aright {sc : Aright} (h : Aright.Valid sc) : Word (Aright.str sc) (.shiftARight sc) := by
  cases sc with
  | rightim amount => exact word_rightim h.1 h.2
  | rightindirect => exact word_fixed (s := ">>indirect") (by simp [fixedWords])

theorem word_shift {sc : ShiftCntl} (h : ShiftCntl.Valid sc) : Word (ShiftCntl.str sc) (shiftToken sc) := by
  cases sc with
  | leftim amount => exact word_leftim h.1 h.2
  | rotleftim amount => exact word_rotleftim h.1 h.2
  | rotrightim amount => exact word_rotrightim h.1 h.2
  | leftindirect =>
    have h : Word "<<indirect".toList (.shift .leftindirect) := word_fixed (by simp [fixedWords])
    exact h
  | aright sc => exact word_aright h

theorem dst_dstToken (d : Dst) : dst (dstToken d) = some d := by cases d <;> rfl

theorem int_intToken : int (intToken n) = some n := by
  rw [intToken]
  split <;> rfl

theorem src_srcToken (s : Src) : src (srcToken s) = some s := by
  cases s with
  | constant value =>
    rw [srcToken, intToken]
    split <;> rfl
  | _ => rfl

theorem shift_shiftToken (sc : ShiftCntl) : shift (shiftToken sc) = some sc := by cases sc <;> rfl

theorem mulSrc_srcToken {s : Src} (h : ∃ t, mulSrc t = some s) : mulSrc (srcToken s) = some s := by
  obtain ⟨t, ht⟩ := h
  cases s with
  | gpr g => rfl
  | constant value =>
    rw [srcToken, intToken]
    split <;> rfl
  | lmindexed | xferIn | omitted => cases t <;> simp [mulSrc, int] at ht

theorem mulDst_dstToken {d : Dst} (h : ∃ t, mulDst t = some d) : mulDst (dstToken d) = some d := by
  obtain ⟨t, ht⟩ := h
  cases d with
  | gpr | omitted => rfl
  | lmindexed | xferOut => cases t <;> simp [mulDst] at ht

/-- The tokens of what `str` puts behind the operands. -/
def wrbothTokens (w : Bool) : List Token := if w then [.comma, .gprWrboth] else []

@[inherit_doc wrbothTokens]
def deferTokens (defer : ℕ) : List Token :=
  if defer = 0 then [] else [.comma, .defer, .lbrack, intToken defer, .rbrack]

@[inherit_doc wrbothTokens]
def optShiftTokens : Option ShiftCntl → List Token
  | some sc => [.comma, shiftToken sc]
  | none => []

@[inherit_doc wrbothTokens]
def ctxSwapTokens : Option ℕ → List Token
  | some n => [.comma, .ctxSwap, intToken n, .rbrack]
  | none => []

@[inherit_doc wrbothTokens]
def refsTokens (indirectRef : Bool) (ctxSwap : Option ℕ) : List Token :=
  if indirectRef then .comma :: .indirectRef :: ctxSwapTokens ctxSwap else ctxSwapTokens ctxSwap

theorem tokens_sep : tokens (", ".toList ++ cs) = .comma :: tokens cs := by
  have hcomma : tokens (',' :: ' ' :: cs) = .comma :: tokens (' ' :: cs) := tokens_comma
  rw [tokens_blank] at hcomma
  exact hcomma

theorem tokens_blanks (k : ℕ) : tokens (List.replicate k ' ' ++ cs) = tokens cs := by
  induction k with
  | zero => rfl
  | succ k ih => rw [List.replicate_succ, List.cons_append, tokens_blank, ih]

theorem tokens_head (hid : id < 2 ^ 32) : tokens (head id name ++ cs) = .id id :: tokens (name.toList ++ cs) := by
  have hblank : tokens (" ".toList ++ (name.toList ++ cs)) = tokens (name.toList ++ cs) := tokens_blanks 1
  unfold head
  simp only [List.flatten_cons, List.flatten_nil, List.append_nil, List.append_assoc, List.leftpad]
  rw [tokens_blanks, ← hblank, ← (word_id hid).blank, List.append_assoc]
  rfl

theorem tokens_wrboth : tokens (wrbothStr b) = wrbothTokens b := by
  cases b with
  | false => rfl
  | true =>
    have h : tokens (", ".toList ++ "gpr_wrboth".toList) = [.comma, .gprWrboth] := by
      rw [tokens_sep, (word_fixed (a := .gprWrboth) (by simp [fixedWords])).last]
    exact h

theorem tokens_last_wrboth (h : Word w a) : tokens (w ++ wrbothStr b) = a :: wrbothTokens b := by
  cases b with
  | false =>
    have hnil : wrbothStr false = [] := rfl
    rw [hnil, List.append_nil, h.last]
    rfl
  | true =>
    have hstr : wrbothStr true = ", ".toList ++ "gpr_wrboth".toList := rfl
    rw [← tokens_wrboth, hstr, h.sep, tokens_sep]

/-- The tokens between an operand and the bracket behind it. -/
theorem tokens_optShift (h : Word w a) (hsc : ∀ s ∈ sc, ShiftCntl.Valid s) :
    tokens (w ++ (optShiftStr sc ++ ("]".toList ++ cs))) = a :: (optShiftTokens sc ++ .rbrack :: tokens cs) := by
  cases sc with
  | none => exact h.close
  | some s =>
    have hs : Word (ShiftCntl.str s) (shiftToken s) := word_shift (hsc s rfl)
    have hstr : optShiftStr (some s) = ", ".toList ++ ShiftCntl.str s := rfl
    rw [hstr, List.append_assoc, h.sep, hs.close]
    rfl

theorem tokens_defer (hn : n < 2 ^ 32) : tokens
    (if n = 0 then [] else [", ".toList, "defer".toList, "[".toList, Nat.toDigits 10 n, "]".toList].flatten) =
      deferTokens n := by
  rw [deferTokens]
  split
  · rfl
  · have hname : ("defer", Token.defer) ∈ names := by simp [names]
    simp only [List.flatten_cons, List.flatten_nil]
    rw [tokens_sep, tokens_name hname, (word_int hn).close]
    rfl

theorem tokens_branch (hname : (name, a) ∈ names) (hid : id < 2 ^ 32) {target : ℕ} (htarget : target < 2 ^ 32)
    (hn : n < 2 ^ 32) :
    tokens (branchStr id name target n) = .id id :: a :: .lbrack :: .id target :: .rbrack :: deferTokens n := by
  unfold branchStr
  rw [List.flatten_cons, tokens_head hid, List.flatten_cons, tokens_name hname, List.flatten_cons, List.flatten_cons,
    (word_id htarget).close, List.flatten_cons, List.flatten_nil, List.append_nil, tokens_defer hn]

theorem tokens_refs {s : Option ℕ} (hs : ∀ n ∈ s, n < 2 ^ 32 - 1) : tokens (refsStr b s) = refsTokens b s := by
  have hctx : ∀ n, n < 2 ^ 32 - 1 → tokens (", ".toList ++ ("ctx_swap[sig".toList ++ (Nat.toDigits 10 n ++
      ("]".toList ++ [])))) = [.comma, .ctxSwap, intToken n, .rbrack] := by
    intro n hn
    rw [tokens_sep, tokens_ctxSwap (by omega)]
    rfl
  have hword : Word "indirect_ref".toList .indirectRef := word_fixed (by simp [fixedWords])
  have htrue : ", indirect_ref".toList = ", ".toList ++ "indirect_ref".toList := rfl
  unfold refsStr
  cases b with
  | false =>
    cases s with
    | none => rfl
    | some n => exact hctx n (hs n rfl)
  | true =>
    rw [if_pos rfl, htrue, List.append_assoc, tokens_sep]
    cases s with
    | none =>
      rw [List.append_nil, hword.last]
      rfl
    | some n =>
      have hsome := hctx n (hs n rfl)
      rw [tokens_sep] at hsome
      simp only [List.flatten_cons, List.flatten_nil]
      rw [hword.sep, (List.cons.inj hsome).2]
      rfl

/-! ### What is printed is read -/

theorem gprWrboth_tokens : GprWrboth (wrbothTokens b) b := by
  cases b with
  | false => exact .nil
  | true => exact .wrboth

theorem defer_tokens : Defer (deferTokens n) n := by
  rw [deferTokens]
  split
  · next h =>
    subst h
    exact .nil
  · exact .defer int_intToken

theorem optShift_tokens : OptShift (optShiftTokens sc) sc := by
  cases sc with
  | none => exact .nil
  | some s => exact .shift (shift_shiftToken s)

theorem refs_tokens {s : Option ℕ} (hs : ∀ n ∈ s, n < 2 ^ 32 - 1) : Refs (refsTokens b s) b s := by
  have hctx : CtxSwap (ctxSwapTokens s) s := by
    cases s with
    | none => exact .nil
    | some n =>
      have hlt := hs n rfl
      have h : CtxSwap [.comma, .ctxSwap, intToken n, .rbrack] (signal n) := .ctxSwap int_intToken
      rw [signal, if_neg (by omega)] at h
      exact h
  cases b with
  | false => exact .direct hctx
  | true => exact .indirect hctx

/-- The tokens that `mem` has behind its register. -/
def memTokens (m : MemArgs) : List Token :=
  srcToken m.src1 :: .comma :: ((m.sc1.elim [] fun sc => [shiftToken sc, .comma]) ++ srcToken m.src2 :: .comma ::
    ((m.sc2.elim [] fun sc => [shiftToken sc, .comma]) ++
      intToken m.refCnt :: .rbrack :: refsTokens m.indirectRef m.ctxSwap))

theorem mem_tokens {m : MemArgs} (h : m.Valid) : Mem (memTokens m) m := by
  obtain ⟨src1, sc1, src2, sc2, refCnt, indirectRef, ctxSwap⟩ := m
  have hrefs : Refs (refsTokens indirectRef ctxSwap) indirectRef ctxSwap := refs_tokens h.ctxSwap
  cases sc1 with
  | none =>
    cases sc2 with
    | none => exact .local_ (src_srcToken src1) (src_srcToken src2) int_intToken hrefs
    | some sc => exact .shift2 (src_srcToken src1) (src_srcToken src2) (shift_shiftToken sc) int_intToken hrefs
  | some sc =>
    obtain rfl : sc2 = none := h.one.resolve_left nofun
    exact .shift1 (src_srcToken src1) (shift_shiftToken sc) (src_srcToken src2) int_intToken hrefs

theorem tokens_memShift (hsc : ∀ s ∈ sc, ShiftCntl.Valid s) :
    tokens (memShiftStr sc ++ cs) = (sc.elim [] fun s => [shiftToken s, .comma]) ++ tokens cs := by
  cases sc with
  | none => rfl
  | some s =>
    have hs : Word (ShiftCntl.str s) (shiftToken s) := word_shift (hsc s rfl)
    have hstr : memShiftStr (some s) = ShiftCntl.str s ++ ", ".toList := rfl
    rw [hstr, List.append_assoc, hs.sep]
    rfl

theorem tokens_mem {op : String} {xfer : ℕ} {m : MemArgs} (hid : id < 2 ^ 32) (hop : Word op.toList a) (hx : xfer < 100)
    (h : m.Valid) :
    tokens (memStr id op xfer m) = .id id :: .mem :: .lbrack :: a :: .comma :: .xfer xfer :: .comma :: memTokens m := by
  have hname : ("mem", Token.mem) ∈ names := by simp [names]
  unfold memStr
  simp only [List.flatten_cons, List.flatten_nil, List.append_nil]
  rw [tokens_head hid, tokens_name hname, hop.sep, (word_xfer hx).sep, (word_src h.src1).sep, tokens_memShift h.sc1,
    (word_src h.src2).sep, tokens_memShift h.sc2, (word_int h.refCnt).close, tokens_refs h.ctxSwap]
  rfl

theorem length_of_bits {v : List Char} (h : v ∈ bits.lang) : v.length = 4 := by
  obtain ⟨_, ⟨_, -, rfl⟩, _, ⟨_, ⟨_, -, rfl⟩, _, ⟨_, ⟨_, -, rfl⟩, _, ⟨_, -, rfl⟩, rfl⟩, rfl⟩, rfl⟩ := h
  rfl

/-- A mask is written with all digits. -/
theorem intToken_mask {mask : ℕ} (h : MaskValid mask) (hfull : 1000 ≤ mask) : intToken mask = .mask mask := by
  have hlen : ¬(Nat.toDigits 10 mask).length ≤ 3 := by
    rw [Nat.length_toDigits_le_iff (by decide) (by decide)]
    omega
  have hpad : Scanf.pad 10 4 mask = Nat.toDigits 10 mask := by
    rw [Scanf.pad, Nat.sub_eq_zero_of_le (by omega)]
    rfl
  rw [MaskValid, hpad] at h
  rw [intToken, if_pos h]

/-- A number of fewer than four digits is no mask. -/
theorem intToken_uint (h : n < 1000) : intToken n = .uint n := by
  have hlen : (Nat.toDigits 10 n).length ≤ 3 := (Nat.length_toDigits_le_iff (by decide) (by decide)).mpr h
  rw [intToken, if_neg]
  intro hacc
  have hfour := length_of_bits (accepts_iff.mp hacc)
  omega

theorem buildInstr_eq {text : List Char} {ts : List Token} (htext : tokens text = .id id :: ts) (h : Instr id ts l) :
    buildInstr text = some l := by
  rw [buildInstr, htext]
  exact parseInstr_eq_some_iff.mpr h

theorem tokens_ldField {dst : Dst} {mask : ℕ} {src : Src} {w : Bool} (hname : (name, a) ∈ names) (hid : id < 2 ^ 32)
    (hdst : Dst.Valid dst) (hmask : mask < 2 ^ 32) (hsrc : Src.Valid src) (hsc : ∀ s ∈ sc, ShiftCntl.Valid s) :
    tokens (ldFieldStr id name dst mask src sc w) =
      .id id :: a :: .lbrack :: dstToken dst :: .comma :: intToken mask :: .comma :: srcToken src ::
        (optShiftTokens sc ++ .rbrack :: wrbothTokens w) := by
  unfold ldFieldStr
  simp only [List.flatten_cons, List.flatten_nil, List.append_nil]
  rw [tokens_head hid, tokens_name hname, (word_dst hdst).sep, (word_int hmask).sep,
    tokens_optShift (word_src hsrc) hsc, tokens_wrboth]

theorem MaskValid.lt {mask : ℕ} (h : MaskValid mask) : mask < 2 ^ 32 := by
  have hlen := length_of_bits (accepts_iff.mp h)
  rw [Scanf.pad, List.length_append, List.length_replicate] at hlen
  have hlt : mask < 10 ^ 4 := (Nat.length_toDigits_le_iff (by decide) (by decide)).mp (by omega)
  omega

theorem mem_names {cond : BranchCond} : (BranchCond.name cond, Token.branch cond) ∈ names := by
  cases cond <;> simp [names, BranchCond.name]

section
variable {dst : Dst} {srcA srcB src : Src} {op : AluOp} {w : Bool}

theorem buildInstr_alu (h : operandsValid (.alu id dst srcA op srcB w)) :
    buildInstr (Line.mk (.alu id dst srcA op srcB w) 0).str = some ⟨.alu id dst srcA op srcB w, 0⟩ := by
  obtain ⟨hid, hdst, hA, hB⟩ := h
  refine buildInstr_eq ?_ (.alu (dst_dstToken dst) (src_srcToken srcA) (src_srcToken srcB) gprWrboth_tokens)
  unfold Line.str
  simp only [List.flatten_cons, List.flatten_nil, List.append_nil]
  rw [tokens_head hid, tokens_name (a := .alu) (by simp [names]), (word_dst hdst).sep, (word_src hA).sep,
    (word_aluOp op).sep, (word_src hB).close, tokens_wrboth]

theorem buildInstr_aluShf {sc : ShiftCntl} (h : operandsValid (.aluShf id dst srcA op srcB sc w)) :
    buildInstr (Line.mk (.aluShf id dst srcA op srcB sc w) 0).str = some ⟨.aluShf id dst srcA op srcB sc w, 0⟩ := by
  obtain ⟨hid, hdst, hA, hB, hsc⟩ := h
  refine buildInstr_eq ?_ (.aluShf (dst_dstToken dst) (src_srcToken srcA) (src_srcToken srcB) (shift_shiftToken sc)
    gprWrboth_tokens)
  unfold Line.str
  simp only [List.flatten_cons, List.flatten_nil, List.append_nil]
  rw [tokens_head hid, tokens_name (a := .aluShf) (by simp [names]), (word_dst hdst).sep, (word_src hA).sep,
    (word_aluOp op).sep, (word_src hB).comma, (word_shift hsc).close, tokens_wrboth]

theorem buildInstr_asr {sc : Aright} (h : operandsValid (.asr id dst src sc w)) :
    buildInstr (Line.mk (.asr id dst src sc w) 0).str = some ⟨.asr id dst src sc w, 0⟩ := by
  obtain ⟨hid, hdst, hsrc, hsc⟩ := h
  refine buildInstr_eq ?_ (.asr (dst_dstToken dst) (src_srcToken src) gprWrboth_tokens)
  unfold Line.str
  simp only [List.flatten_cons, List.flatten_nil, List.append_nil]
  rw [tokens_head hid, tokens_name (a := .asr) (by simp [names]), (word_dst hdst).sep, (word_src hsrc).sep,
    (word_aright hsc).close, tokens_wrboth]

theorem buildInstr_dblShf {sc : ShiftCntl} (h : operandsValid (.dblShf id dst srcA srcB sc w)) :
    buildInstr (Line.mk (.dblShf id dst srcA srcB sc w) 0).str = some ⟨.dblShf id dst srcA srcB sc w, 0⟩ := by
  obtain ⟨hid, hdst, hA, hB, hsc⟩ := h
  refine buildInstr_eq ?_ (.dblShf (dst_dstToken dst) (src_srcToken srcA) (src_srcToken srcB) (shift_shiftToken sc)
    gprWrboth_tokens)
  unfold Line.str
  simp only [List.flatten_cons, List.flatten_nil, List.append_nil]
  rw [tokens_head hid, tokens_name (a := .dblShf) (by simp [names]), (word_dst hdst).sep, (word_src hA).sep,
    (word_src hB).comma, (word_shift hsc).close, tokens_wrboth]

theorem buildInstr_immed {im : ℕ} (h : operandsValid (.immed id dst im sc w)) :
    buildInstr (Line.mk (.immed id dst im sc w) 0).str = some ⟨.immed id dst im sc w, 0⟩ := by
  obtain ⟨hid, hdst, him, hsc⟩ := h
  refine buildInstr_eq ?_ (.immed (dst_dstToken dst) int_intToken optShift_tokens gprWrboth_tokens)
  unfold Line.str
  simp only [List.flatten_cons, List.flatten_nil, List.append_nil]
  rw [tokens_head hid, tokens_name (a := .immed) (by simp [names]), (word_dst hdst).sep,
    tokens_optShift (word_int him) hsc, tokens_wrboth]

theorem buildInstr_immedW1 {im : ℕ} (h : operandsValid (.immedW1 id dst im w)) :
    buildInstr (Line.mk (.immedW1 id dst im w) 0).str = some ⟨.immedW1 id dst im w, 0⟩ := by
  obtain ⟨hid, ⟨g, rfl⟩, hdst, him⟩ := h
  refine buildInstr_eq ?_ (.immedW1 int_intToken gprWrboth_tokens)
  unfold Line.str
  simp only [List.flatten_cons, List.flatten_nil, List.append_nil]
  rw [tokens_head hid, tokens_name (a := .immedW1) (by simp [names]), (word_dst hdst).sep, (word_int him).close,
    tokens_wrboth]
  rfl

theorem buildInstr_ldField {mask : ℕ} (h : operandsValid (.ldField id dst mask src sc w)) (hfull : 1000 ≤ mask) :
    buildInstr (Line.mk (.ldField id dst mask src sc w) 0).str = some ⟨.ldField id dst mask src sc w, 0⟩ := by
  obtain ⟨hid, hdst, hmask, hsrc, hsc⟩ := h
  have hname : ("ld_field", Token.ldField) ∈ names := by simp [names]
  have htokens := tokens_ldField (w := w) hname hid hdst hmask.lt hsrc hsc
  rw [intToken_mask hmask hfull] at htokens
  exact buildInstr_eq htokens (.ldField (dst_dstToken dst) (src_srcToken src) optShift_tokens gprWrboth_tokens)

theorem buildInstr_ldFieldWClr {mask : ℕ} (h : operandsValid (.ldFieldWClr id dst mask src sc w))
    (hfull : 1000 ≤ mask) :
    buildInstr (Line.mk (.ldFieldWClr id dst mask src sc w) 0).str = some ⟨.ldFieldWClr id dst mask src sc w, 0⟩ := by
  obtain ⟨hid, hdst, hmask, hsrc, hsc⟩ := h
  have hname : ("ld_field_w_clr", Token.ldFieldWClr) ∈ names := by simp [names]
  have htokens := tokens_ldField (w := w) hname hid hdst hmask.lt hsrc hsc
  rw [intToken_mask hmask hfull] at htokens
  exact buildInstr_eq htokens (.ldFieldWClr (dst_dstToken dst) (src_srcToken src) optShift_tokens gprWrboth_tokens)

theorem buildInstr_localCsrWr {localCsr : Fin 4} (h : operandsValid (.localCsrWr id localCsr src)) :
    buildInstr (Line.mk (.localCsrWr id localCsr src) 0).str = some ⟨.localCsrWr id localCsr src, 0⟩ := by
  obtain ⟨hid, hsrc⟩ := h
  refine buildInstr_eq ?_ (.localCsrWr (src_srcToken src))
  unfold Line.str
  simp only [List.flatten_cons, List.flatten_nil]
  rw [tokens_head hid, tokens_name (a := .localCsrWr) (by simp [names]), (word_localCsr localCsr).sep,
    (word_src hsrc).close]
  rfl

theorem buildInstr_mulStep {tok : MulTok} (h : operandsValid (.mulStep id srcA srcB tok)) :
    buildInstr (Line.mk (.mulStep id srcA srcB tok) 0).str = some ⟨.mulStep id srcA srcB tok, 0⟩ := by
  obtain ⟨hid, hmulA, hA, hmulB, hB⟩ := h
  refine buildInstr_eq ?_ (.mulStep (mulSrc_srcToken hmulA) (mulSrc_srcToken hmulB))
  unfold Line.str
  simp only [List.flatten_cons, List.flatten_nil, List.append_nil]
  rw [tokens_head hid, tokens_name (a := .mulStep) (by simp [names]), (word_src hA).sep, (word_src hB).close,
    tokens_sep, (word_mulTok tok).last]

theorem buildInstr_mulStepLast {tok : MulLast} (h : operandsValid (.mulStepLast id dst tok w)) :
    buildInstr (Line.mk (.mulStepLast id dst tok w) 0).str = some ⟨.mulStepLast id dst tok w, 0⟩ := by
  obtain ⟨hid, hmul, hdst⟩ := h
  refine buildInstr_eq ?_ (.mulStepLast (mulDst_dstToken hmul) gprWrboth_tokens)
  unfold Line.str
  simp only [List.flatten_cons, List.flatten_nil, List.append_nil]
  rw [tokens_head hid, tokens_name (a := .mulStep) (by simp [names]), (word_dst hdst).sep, word_omitted.close,
    tokens_sep, tokens_last_wrboth (word_mulLast tok)]

theorem buildInstr_nop (h : operandsValid (.nop id)) :
    buildInstr (Line.mk (.nop id) 0).str = some ⟨.nop id, 0⟩ := by
  refine buildInstr_eq ?_ .nop
  have hnop : Word "nop".toList .nop := word_fixed (by simp [fixedWords])
  unfold Line.str
  dsimp only
  rw [← List.append_nil (head id "nop"), tokens_head h, List.append_nil, hnop.last]

end

/-- **A printed instruction is read again**, if its mask does not begin with 0. -/
theorem buildInstr_of_fullMask (h : l.Valid) (hfull : l.fullMask) : buildInstr l.str = some l := by
  obtain ⟨n, defer⟩ := l
  obtain ⟨hops, hdefer⟩ := h
  cases n with
  | alu id dst srcA op srcB w =>
    obtain rfl : defer = 0 := hdefer
    exact buildInstr_alu hops
  | aluShf id dst srcA op srcB sc w =>
    obtain rfl : defer = 0 := hdefer
    exact buildInstr_aluShf hops
  | asr id dst src sc w =>
    obtain rfl : defer = 0 := hdefer
    exact buildInstr_asr hops
  | properBranch id cond target =>
    obtain ⟨hid, htarget⟩ := hops
    exact buildInstr_eq (tokens_branch mem_names hid htarget hdefer) (.branch defer_tokens)
  | br id target =>
    obtain ⟨hid, htarget⟩ := hops
    exact buildInstr_eq (tokens_branch (a := .br) (by simp [names]) hid htarget hdefer) (.br defer_tokens)
  | dblShf id dst srcA srcB sc w =>
    obtain rfl : defer = 0 := hdefer
    exact buildInstr_dblShf hops
  | immed id dst im sc w =>
    obtain rfl : defer = 0 := hdefer
    exact buildInstr_immed hops
  | immedW1 id dst im w =>
    obtain rfl : defer = 0 := hdefer
    exact buildInstr_immedW1 hops
  | ldField id dst mask src sc w =>
    obtain rfl : defer = 0 := hdefer
    exact buildInstr_ldField hops (of_decide_eq_true hfull)
  | ldFieldWClr id dst mask src sc w =>
    obtain rfl : defer = 0 := hdefer
    exact buildInstr_ldFieldWClr hops (of_decide_eq_true hfull)
  | localCsrWr id localCsr src =>
    obtain rfl : defer = 0 := hdefer
    exact buildInstr_localCsrWr hops
  | memRead id xfer src1 sc1 src2 sc2 refCnt indirectRef ctxSwap =>
    obtain rfl : defer = 0 := hdefer
    obtain ⟨hid, hx, hm⟩ := hops
    have hop : Word "read32_swap".toList .memReadOp := word_fixed (by simp [fixedWords])
    exact buildInstr_eq (tokens_mem hid hop hx hm) (.memRead (mem_tokens hm))
  | memWrite id op xfer src1 sc1 src2 sc2 refCnt indirectRef ctxSwap =>
    obtain rfl : defer = 0 := hdefer
    obtain ⟨hid, hx, hm⟩ := hops
    exact buildInstr_eq (tokens_mem hid (word_memWriteOp op) hx hm) (.memWrite (mem_tokens hm))
  | mulStep id srcA srcB tok =>
    obtain rfl : defer = 0 := hdefer
    exact buildInstr_mulStep hops
  | mulStepLast id dst tok w =>
    obtain rfl : defer = 0 := hdefer
    exact buildInstr_mulStepLast hops
  | nop id =>
    obtain rfl : defer = 0 := hdefer
    exact buildInstr_nop hops
  | fin => exact hops.elim

/-- A mask that begins with 0 is not read again. -/
theorem buildInstr_eq_none (h : l.Valid) (hfull : l.fullMask = false) : buildInstr l.str = none := by
  obtain ⟨n, defer⟩ := l
  obtain ⟨hops, hdefer⟩ := h
  cases n with
  | ldField id dst mask src sc w =>
    obtain ⟨hid, hdst, hmask, hsrc, hsc⟩ := hops
    have hlt : mask < 1000 := Nat.lt_of_not_le (of_decide_eq_false hfull)
    have hname : ("ld_field", Token.ldField) ∈ names := by simp [names]
    have htokens := tokens_ldField (w := w) hname hid hdst hmask.lt hsrc hsc
    rw [intToken_uint hlt] at htokens
    have hstr : (Line.mk (.ldField id dst mask src sc w) defer).str = ldFieldStr id "ld_field" dst mask src sc w := rfl
    rw [buildInstr, hstr, htokens]
    rfl
  | ldFieldWClr id dst mask src sc w =>
    obtain ⟨hid, hdst, hmask, hsrc, hsc⟩ := hops
    have hlt : mask < 1000 := Nat.lt_of_not_le (of_decide_eq_false hfull)
    have hname : ("ld_field_w_clr", Token.ldFieldWClr) ∈ names := by simp [names]
    have htokens := tokens_ldField (w := w) hname hid hdst hmask.lt hsrc hsc
    rw [intToken_uint hlt] at htokens
    have hstr : (Line.mk (.ldFieldWClr id dst mask src sc w) defer).str =
        ldFieldStr id "ld_field_w_clr" dst mask src sc w := rfl
    rw [buildInstr, hstr, htokens]
    rfl
  | _ => exact nomatch hfull

end Assembly

end NfpEstimator
