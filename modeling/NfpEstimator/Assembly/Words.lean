import NfpEstimator.Assembly.Lexer

/-!
# Words of a listing

A text that is one token wherever it stands between commas, blanks and brackets (`Word`): the names, the registers, the
shifts and the numbers that `str` of the operands writes.
-/

namespace NfpEstimator

namespace Assembly

open Flex Flex.Pattern

/-! ### Operands -/

/-- `instr::gpr::str`. -/
def Gpr.str (g : Gpr) : List Char := g.location.toList

/-- `instr::lmindexed::str`. -/
def lmindexedStr (addr : Fin 4) (offset : ℕ) : List Char :=
  "*l$index".toList ++ Nat.toDigits 10 addr ++
    if offset = 0 then [] else "[".toList ++ Nat.toDigits 10 offset ++ "]".toList

/-- `instr::xfer::str`. -/
def xferStr (number : ℕ) : List Char := "$xfer_".toList ++ Nat.toDigits 10 number

/-- `instr::dst::str`. -/
def Dst.str : Dst → List Char
  | .gpr g => Gpr.str g
  | .lmindexed addr offset => lmindexedStr addr offset
  | .xferOut number => xferStr number
  | .omitted => "--".toList

/-- `instr::src::str`. -/
def Src.str : Src → List Char
  | .gpr g => Gpr.str g
  | .lmindexed addr offset => lmindexedStr addr offset
  | .xferIn number => xferStr number
  | .constant value => Nat.toDigits 10 value
  | .omitted => "--".toList

/-- `instr::shift_cntl::aright::str`. -/
def Aright.str : Aright → List Char
  | .rightim amount => ">>".toList ++ Nat.toDigits 10 amount
  | .rightindirect => ">>indirect".toList

/-- `instr::shift_cntl::str`. -/
def ShiftCntl.str : ShiftCntl → List Char
  | .leftim amount => "<<".toList ++ Nat.toDigits 10 amount
  | .rotleftim amount => "<<rot".toList ++ Nat.toDigits 10 amount
  | .rotrightim amount => ">>rot".toList ++ Nat.toDigits 10 amount
  | .leftindirect => "<<indirect".toList
  | .aright sc => Aright.str sc

/-- `instr::alu_op::str`. -/
def AluOp.str : AluOp → String
  | .plus => "+"
  | .plus16 => "+16"
  | .plus8 => "+8"
  | .plusCarry => "+carry"
  | .minus => "-"
  | .minusCarry => "-carry"
  | .negMinus => "B-A"
  | .B => "B"
  | .invB => "~B"
  | .opAnd => "AND"
  | .invAnd => "~AND"
  | .andInv => "AND~"
  | .opOr => "OR"
  | .opXor => "XOR"

/-- `instr::mem_write_op::str`. -/
def MemWriteOp.str : MemWriteOp → String
  | .write8Swap => "write8_swap"
  | .write32Swap => "write32_swap"
  | .addImm => "add_imm"

/-- `instr::mul_step_tok::str`. -/
def MulTok.str : MulTok → String
  | .start => "start"
  | .s16x16Step1 => "16x16_step1"
  | .s16x16Step2 => "16x16_step2"
  | .s32x32Step1 => "32x32_step1"
  | .s32x32Step2 => "32x32_step2"
  | .s32x32Step3 => "32x32_step3"
  | .s32x32Step4 => "32x32_step4"

@[inherit_doc MulTok.str]
def MulLast.str : MulLast → String
  | .s16x16Last => "16x16_last"
  | .s32x32Last => "32x32_last"
  | .s32x32Last2 => "32x32_last2"

/-- `instr::hreg::str`, of `instr::ActLMAddr`. -/
def localCsrStr (addr : Fin 4) : String := (Hreg.actLMAddr addr).location

/-- The names of the branches. -/
def BranchCond.name : BranchCond → String
  | .bcc => "bcc"
  | .bcs => "bcs"
  | .beq => "beq"
  | .bge => "bge"
  | .bgt => "bgt"
  | .ble => "ble"
  | .blt => "blt"
  | .bmi => "bmi"
  | .bne => "bne"
  | .bpl => "bpl"
  | .bvc => "bvc"
  | .bvs => "bvs"

/-! ### Words -/

/-- The text is the token, and ends before a comma, a blank and a closing bracket. -/
structure Word (w : List Char) (a : Token) : Prop where
  ne_nil : w ≠ []
  first_eq : first rules w = some (.token a)
  ends : ∀ c ∈ [',', ' ', ']'], ∀ rest, Ends rules w (c :: rest)

variable {w cs rest : List Char} {a : Token} {c : Char} {n : ℕ}

/-- A character that no longer text begins with ends where it is. -/
theorem ends_single (h : ∀ r ∈ rules, r.pattern.short || !r.pattern.starts c) : Ends rules [c] rest := by
  cases rest with
  | nil => exact ends_nil
  | cons d rest =>
    refine ends_of_blocks (List.cons_ne_nil c []) fun r hr => ?_
    rcases Bool.or_eq_true_iff.mp (h r hr) with hshort | hstarts
    · simp [Rule.blocks, hshort]
    · simp only [Bool.not_eq_true'] at hstarts
      simp [Rule.blocks, hstarts]

/-- The characters between the words. -/
def punctuation : List (Char × Action Token) :=
  [(' ', .skip), (',', .token .comma), ('[', .token .lbrack), (']', .token .rbrack)]

/-- The words that are written in one way only. -/
def fixedWords : List (String × Token) :=
  [("--", .omitted), ("<<indirect", .shift .leftindirect), (">>indirect", .shiftARight .rightindirect),
    ("+", .aluOp .plus), ("+16", .aluOp .plus16), ("+8", .aluOp .plus8), ("+carry", .aluOp .plusCarry),
    ("-", .aluOp .minus), ("-carry", .aluOp .minusCarry), ("B-A", .aluOp .negMinus), ("B", .aluOp .B),
    ("~B", .aluOp .invB), ("AND", .aluOp .opAnd), ("~AND", .aluOp .invAnd), ("AND~", .aluOp .andInv),
    ("OR", .aluOp .opOr), ("XOR", .aluOp .opXor), ("read32_swap", .memReadOp),
    ("write8_swap", .memWriteOp .write8Swap), ("write32_swap", .memWriteOp .write32Swap),
    ("add_imm", .memWriteOp .addImm), ("start", .mulStepTok .start), ("16x16_step1", .mulStepTok .s16x16Step1),
    ("16x16_step2", .mulStepTok .s16x16Step2), ("32x32_step1", .mulStepTok .s32x32Step1),
    ("32x32_step2", .mulStepTok .s32x32Step2), ("32x32_step3", .mulStepTok .s32x32Step3),
    ("32x32_step4", .mulStepTok .s32x32Step4), ("16x16_last", .mulStepLastTok .s16x16Last),
    ("32x32_last", .mulStepLastTok .s32x32Last), ("32x32_last2", .mulStepLastTok .s32x32Last2),
    ("ActLMAddr0", .localCsr 0), ("ActLMAddr1", .localCsr 1), ("ActLMAddr2", .localCsr 2), ("ActLMAddr3", .localCsr 3),
    ("gpr_wrboth", .gprWrboth), ("indirect_ref", .indirectRef), ("nop", .nop), ("ctx_swap[sig", .ctxSwap)]

/-- The names, with the bracket behind them. -/
def names : List (String × Token) :=
  [("alu", .alu), ("alu_shf", .aluShf), ("asr", .asr), ("bcc", .branch .bcc), ("bcs", .branch .bcs),
    ("beq", .branch .beq), ("bge", .branch .bge), ("bgt", .branch .bgt), ("ble", .branch .ble), ("blt", .branch .blt),
    ("bmi", .branch .bmi), ("bne", .branch .bne), ("bpl", .branch .bpl), ("bvc", .branch .bvc), ("bvs", .branch .bvs),
    ("br", .br), ("dbl_shf", .dblShf), ("immed", .immed), ("immed_w1", .immedW1), ("ld_field", .ldField),
    ("ld_field_w_clr", .ldFieldWClr), ("local_csr_wr", .localCsrWr), ("mem", .mem), ("mul_step", .mulStep),
    ("defer", .defer)]

/-- What the rules make of the words in the tables, and where these end. -/
theorem tables :
    (∀ p ∈ punctuation, first rules [p.1] = some p.2 ∧ rules.all fun r => r.pattern.short || !r.pattern.starts p.1) ∧
    (∀ p ∈ fixedWords,
      p.1.toList ≠ [] ∧ p.1.toList.head? ≠ some '*' ∧ first rules p.1.toList = some (.token p.2)) ∧
    (∀ p ∈ names, p.1.toList ≠ [] ∧ first rules p.1.toList = some (.token p.2) ∧
      rules.all (·.blocks p.1.toList '[')) ∧
    ∀ addr, first rules (lmindexedStr addr 0) = some (.token (.indexed addr 0)) := by decide +kernel

theorem first_punctuation {act : Action Token} (h : (c, act) ∈ punctuation) : first rules [c] = some act :=
  (tables.1 _ h).1

theorem ends_punctuation {act : Action Token} (h : (c, act) ∈ punctuation) : Ends rules [c] rest :=
  ends_single (List.all_eq_true.mp (tables.1 _ h).2)

theorem tokens_blank : tokens (' ' :: cs) = tokens cs :=
  have h : (' ', .skip) ∈ punctuation := by simp [punctuation]
  lex_append_skip (List.cons_ne_nil ' ' []) (first_punctuation h) (ends_punctuation h)

theorem tokens_comma : tokens (',' :: cs) = .comma :: tokens cs :=
  have h : (',', .token .comma) ∈ punctuation := by simp [punctuation]
  lex_append (List.cons_ne_nil ',' []) (first_punctuation h) (ends_punctuation h)

theorem tokens_lbrack : tokens ('[' :: cs) = .lbrack :: tokens cs :=
  have h : ('[', .token .lbrack) ∈ punctuation := by simp [punctuation]
  lex_append (List.cons_ne_nil '[' []) (first_punctuation h) (ends_punctuation h)

theorem tokens_rbrack : tokens (']' :: cs) = .rbrack :: tokens cs :=
  have h : (']', .token .rbrack) ∈ punctuation := by simp [punctuation]
  lex_append (List.cons_ne_nil ']' []) (first_punctuation h) (ends_punctuation h)

theorem Word.comma (h : Word w a) : tokens (w ++ (",".toList ++ cs)) = a :: .comma :: tokens cs := by
  rw [← tokens_comma]
  exact lex_append h.ne_nil h.first_eq (h.ends ',' (by simp) cs)

theorem Word.sep (h : Word w a) : tokens (w ++ (", ".toList ++ cs)) = a :: .comma :: tokens cs := by
  have hblank : tokens (' ' :: cs) = tokens cs := tokens_blank
  rw [← hblank]
  exact h.comma

theorem Word.close (h : Word w a) : tokens (w ++ ("]".toList ++ cs)) = a :: .rbrack :: tokens cs := by
  rw [← tokens_rbrack]
  exact lex_append h.ne_nil h.first_eq (h.ends ']' (by simp) cs)

theorem Word.blank (h : Word w a) : tokens (w ++ (" ".toList ++ cs)) = a :: tokens cs := by
  have hblank : tokens (' ' :: cs) = tokens cs := tokens_blank
  rw [← hblank]
  exact lex_append h.ne_nil h.first_eq (h.ends ' ' (by simp) cs)

theorem Word.last (h : Word w a) : tokens w = [a] := by
  rw [← List.append_nil w, tokens, lex_append h.ne_nil h.first_eq ends_nil, lex_nil]

/-- Only the texts of `*l$index` with an offset have a closing bracket behind other characters. -/
theorem eq_of_later {r : Rule Token} (hr : r ∈ rules) (hc : c ∈ [',', ' ', ']'])
    (h : (!r.pattern.short && r.pattern.later c) = true) : c = ']' ∧ r.pattern = indexedOffset := by
  have hmem : r ∈ rules.filter fun r => !r.pattern.short && r.pattern.later c := List.mem_filter.mpr ⟨hr, h⟩
  simp only [List.mem_cons, List.not_mem_nil, or_false] at hc
  rcases hc with rfl | rfl | rfl
  · have hnil : (rules.filter fun r => !r.pattern.short && r.pattern.later ',') = [] := rfl
    exact nomatch hnil ▸ hmem
  · have hnil : (rules.filter fun r => !r.pattern.short && r.pattern.later ' ') = [] := rfl
    exact nomatch hnil ▸ hmem
  · have hone : (rules.filter fun r => !r.pattern.short && r.pattern.later ']') =
        [⟨indexedOffset,
          fun w => .token (.indexed (Fin.ofNat 4 (scanUint (w.drop 8))) (scanUint (w.drop 10)))⟩] := rfl
    rw [hone, List.mem_singleton] at hmem
    exact ⟨rfl, congrArg Rule.pattern hmem⟩

/-- A word ends before a comma, a blank and a closing bracket if it is no text of `*l$index` that goes on. -/
theorem ends_of_not_mem (hne : w ≠ []) (hindexed : ∀ u, w ++ ']' :: u ∉ indexedOffset.lang)
    (hc : c ∈ [',', ' ', ']']) : Ends rules w (c :: rest) := by
  intro u hu hpre
  refine first_eq_none_iff.mpr fun r hr hmem => ?_
  obtain ⟨u, rfl⟩ : ∃ u', u = c :: u' := by
    obtain ⟨v, hv⟩ := hpre
    obtain ⟨d, u, rfl⟩ := List.exists_cons_of_ne_nil hu
    exact ⟨u, by rw [(List.cons.inj hv).1]⟩
  obtain ⟨d, w, rfl⟩ := List.exists_cons_of_ne_nil hne
  have hshort : r.pattern.short = false := by
    rw [← Bool.not_eq_true]
    intro hshort
    have hlen := length_le_one hmem hshort
    simp at hlen
  have hlater : r.pattern.later c := later_of_mem hmem (by simp)
  obtain ⟨rfl, hp⟩ := eq_of_later hr hc (by rw [hshort, hlater]; rfl)
  exact hindexed u (hp ▸ hmem)

/-- What does not begin as `*l$index` is a word if it is a token. -/
theorem word_of_first (hne : w ≠ []) (hstar : w.head? ≠ some '*') (h : first rules w = some (.token a)) : Word w a := by
  refine ⟨hne, h, fun c hc rest => ends_of_not_mem hne (fun u hmem => ?_) hc⟩
  obtain ⟨d, w, rfl⟩ := List.exists_cons_of_ne_nil hne
  have hd : d ≠ '*' := fun hd => hstar (congrArg some hd)
  have hstarts : indexedOffset.starts d := starts_of_mem hmem
  simp [indexedOffset, after, starts, nullable, hd.symm] at hstarts

/-! ### Numbers -/

theorem isDigit_toDigits : ∀ c ∈ Nat.toDigits 10 n, c.isDigit := fun _ hc =>
  Nat.isDigit_of_mem_toDigits (by decide) (by decide) hc

theorem toDigits_head_ne (hc : c.isDigit = false) : (Nat.toDigits 10 n).head? ≠ some c := by
  intro h
  have hdigit := isDigit_toDigits (n := n) c (List.mem_of_mem_head? h)
  exact absurd hdigit (by simp [hc])

theorem scanUint_append (hn : n < 2 ^ 32) (hrest : Scanf.Stops 10 rest) :
    scanUint (Nat.toDigits 10 n ++ rest) = n := by
  have hpad : Scanf.pad 10 0 n = Nat.toDigits 10 n := by simp [Scanf.pad]
  have hread := Scanf.number_pad (by decide) (by decide) (by decide) hn 0 hrest
  rw [hpad] at hread
  rw [scanUint, hread]
  rfl

theorem scanUint_toDigits (hn : n < 2 ^ 32) : scanUint (Nat.toDigits 10 n) = n := by
  have h : scanUint (Nat.toDigits 10 n ++ []) = n := scanUint_append hn nofun
  rwa [List.append_nil] at h

/-- A number other than 0 does not begin with 0. -/
theorem accepts_toDigits_pos (hn : 0 < n) :
    (Pattern.seq (.chr isNonzero) (.many Char.isDigit)).accepts (Nat.toDigits 10 n) := by
  induction n using Nat.strongRecOn with
  | _ n ih =>
    rw [accepts_iff, mem_lang_seq]
    by_cases hlt : n < 10
    · have hall : ∀ d < 10, 0 < d → isNonzero d.digitChar := by decide
      exact ⟨_, ⟨_, hall n hlt hn, rfl⟩, [], nofun, by rw [Nat.toDigits_of_lt_base hlt]; rfl⟩
    · obtain ⟨u, hu, v, hv, huv⟩ := mem_lang_seq.mp (accepts_iff.mp (ih (n / 10) (by omega) (by omega)))
      refine ⟨u, hu, v ++ [(n % 10).digitChar], ?_, ?_⟩
      · intro c hc
        rcases List.mem_append.mp hc with hc | hc
        · exact hv c hc
        · refine isDigit_toDigits (n := n) c ?_
          rw [Nat.toDigits_eq_if (by decide), if_neg hlt]
          exact List.mem_append_right _ hc
      · rw [Nat.toDigits_eq_if (by decide), if_neg hlt, ← huv, List.append_assoc]

theorem accepts_toDigits : decimal.accepts (Nat.toDigits 10 n) := by
  rcases Nat.eq_zero_or_pos n with rfl | hn
  · decide
  · rw [decimal, accepts, accepts_toDigits_pos hn, Bool.or_true]

/-- The token of a number: a mask, if it has four digits 0 and 1. -/
def intToken (n : ℕ) : Token := if bits.accepts (Nat.toDigits 10 n) then .mask n else .uint n

theorem word_int (hn : n < 2 ^ 32) : Word (Nat.toDigits 10 n) (intToken n) := by
  refine word_of_first Nat.toDigits_ne_nil (toDigits_head_ne (by decide)) ?_
  have hrules : (rules.filter fun r => !r.pattern.demands fun c => !c.isDigit) =
      [⟨bits, fun w => .token (.mask (scanUint w))⟩, ⟨decimal, fun w => .token (.uint (scanUint w))⟩,
        ⟨.chr SatChecker.isBlank, fun _ => .skip⟩, ⟨.chr (· != '\n'), charAction⟩] := rfl
  rw [first_demands (f := fun c => !c.isDigit) fun c hc => by simp [isDigit_toDigits c hc], hrules]
  rw [first_cons, first_cons, if_pos accepts_toDigits]
  dsimp only
  rw [scanUint_toDigits hn, intToken]
  split <;> rfl

theorem word_id (hn : n < 2 ^ 32) : Word (".".toList ++ Nat.toDigits 10 n) (.id n) := by
  refine word_of_first (List.cons_ne_nil _ _) (by simp) ?_
  have hrules : (rules.filter fun r => r.pattern.starts '.') =
      [⟨after "." decimal, fun w => .token (.id (scanUint (w.drop 1)))⟩, ⟨.chr (· != '\n'), charAction⟩] := rfl
  have hacc : (after "." decimal).accepts (".".toList ++ Nat.toDigits 10 n) :=
    accepts_seq (by decide) accepts_toDigits
  have hcons : ".".toList ++ Nat.toDigits 10 n = '.' :: Nat.toDigits 10 n := rfl
  rw [hcons] at hacc ⊢
  rw [first_starts, hrules, first_cons, if_pos hacc]
  dsimp only
  rw [List.drop_one, List.tail_cons, scanUint_toDigits hn]

/-! ### Registers and shifts -/

/-- Only the rules count that may begin with the first character. -/
theorem first_append {s : String} {v : List Char} {act : Action Token} (hc : s.toList.head? = some c)
    (h : first (rules.filter fun r => r.pattern.starts c) (s.toList ++ v) = some act) :
    first rules (s.toList ++ v) = some act := by
  obtain ⟨t, ht⟩ := List.head?_eq_some_iff.mp hc
  rw [ht, List.cons_append] at h ⊢
  rw [first_starts, h]

theorem word_append {s : String} {v : List Char} (hc : s.toList.head? = some c) (hstar : c ≠ '*')
    (h : first (rules.filter fun r => r.pattern.starts c) (s.toList ++ v) = some (.token a)) :
    Word (s.toList ++ v) a := by
  have hhead : (s.toList ++ v).head? = some c := by rw [List.head?_append, hc, Option.some_or]
  refine word_of_first ?_ ?_ (first_append hc h)
  · intro hnil
    rw [hnil] at hhead
    exact nomatch hhead
  · rw [hhead]
    exact fun h => hstar (Option.some.inj h)

theorem accepts_after {s : String} {p : Pattern} {v : List Char} (h : p.accepts v) :
    (after s p).accepts (s.toList ++ v) := accepts_seq (beq_self_eq_true s.toList) h

theorem digitChar_digit (h : n < 10) : n.digitChar.isDigit ∧ (0 < n → isNonzero n.digitChar) := by
  have hall : ∀ d < 10, d.digitChar.isDigit ∧ (0 < d → isNonzero d.digitChar) := by decide
  exact hall n h

/-- A number below 100 has a digit, and another one in front of it from 10 on. -/
theorem toDigits_lt_hundred (h : n < 100) :
    Nat.toDigits 10 n = if n < 10 then [n.digitChar] else [(n / 10).digitChar, (n % 10).digitChar] := by
  rw [Nat.toDigits_eq_if (by decide)]
  split
  · rfl
  · rw [Nat.toDigits_of_lt_base (by omega)]
    rfl

theorem accepts_number (h : n < 100) : number.accepts (Nat.toDigits 10 n) := by
  rw [toDigits_lt_hundred h, accepts_iff]
  split
  · next hlt => exact ⟨[], .inl rfl, _, ⟨_, (digitChar_digit hlt).1, rfl⟩, rfl⟩
  · have hfront : [(n / 10).digitChar] ∈ (Pattern.opt (.chr isNonzero)).lang :=
      mem_lang_opt.mpr (.inr ⟨_, (digitChar_digit (by omega)).2 (by omega), rfl⟩)
    exact ⟨_, hfront, _, ⟨_, (digitChar_digit (Nat.mod_lt n (by decide))).1, rfl⟩, rfl⟩

theorem accepts_amount (hn : 0 < n) (h : n < 100) : amount.accepts (Nat.toDigits 10 n) := by
  rw [toDigits_lt_hundred h, accepts_iff]
  split
  · next hlt => exact ⟨_, ⟨_, (digitChar_digit hlt).2 hn, rfl⟩, [], .inl rfl, rfl⟩
  · have hback : [(n % 10).digitChar] ∈ (Pattern.opt (.chr Char.isDigit)).lang :=
      mem_lang_opt.mpr (.inr ⟨_, (digitChar_digit (Nat.mod_lt n (by decide))).1, rfl⟩)
    exact ⟨_, ⟨_, (digitChar_digit (by omega)).2 (by omega), rfl⟩, _, hback, rfl⟩

theorem word_gpr {g : Gpr} (h : g.number < 100) : Word (Gpr.str g) (.gpr g) := by
  obtain ⟨bank, n⟩ := g
  have hstr : Gpr.str ⟨bank, n⟩ = "gpr".toList ++ (bank.name.toList ++ ("_".toList ++ Nat.toDigits 10 n)) := by
    simp [Gpr.str, Gpr.location, toString, Nat.toList_repr]
  have hbank : (Pattern.alt (.lit "A") (.lit "B")).accepts bank.name.toList := by cases bank <;> rfl
  have hacc := accepts_after (s := "gpr") (accepts_seq hbank (accepts_after (s := "_") (accepts_number h)))
  have hrules : (rules.filter fun r => r.pattern.starts 'g').filter (fun r => !r.pattern.demands (· == 'w')) =
      [⟨after "gpr" (.seq (.alt (.lit "A") (.lit "B")) (after "_" number)),
        fun w => .token (.gpr ⟨bankOf (w.getD 3 'A'), scanUint (w.drop 5)⟩)⟩,
        ⟨.chr (· != '\n'), charAction⟩] := rfl
  rw [hstr]
  refine word_append (c := 'g') rfl (by decide) ?_
  rw [first_demands (f := (· == 'w')) ?_, hrules, first_cons, if_pos hacc]
  · have hlt : n < 100 := h
    have hn := scanUint_toDigits (n := n) (by omega)
    cases bank <;> exact congrArg (fun k => some (Action.token (Token.gpr ⟨_, k⟩))) hn
  · intro x hx
    simp only [List.mem_append] at hx
    rintro heq
    obtain rfl := eq_of_beq heq
    rcases hx with hx | hx | hx | hx
    · exact absurd hx (by decide)
    · cases bank <;> exact absurd hx (by decide)
    · exact absurd hx (by decide)
    · exact absurd (isDigit_toDigits 'w' hx) (by decide)

theorem word_xfer (h : n < 100) : Word (xferStr n) (.xfer n) := by
  have hrules : (rules.filter fun r => r.pattern.starts '$') =
      [⟨after "$xfer_" number, fun w => .token (.xfer (scanUint (w.drop 6)))⟩, ⟨.chr (· != '\n'), charAction⟩] := rfl
  have hacc := accepts_after (s := "$xfer_") (accepts_number h)
  refine word_append (c := '$') rfl (by decide) ?_
  rw [hrules, first_cons, if_pos hacc]
  exact congrArg (fun k => some (Action.token (Token.xfer k))) (scanUint_toDigits (by omega))

theorem word_leftim (hn : 0 < n) (h : n < 100) : Word ("<<".toList ++ Nat.toDigits 10 n) (.shift (.leftim n)) := by
  have hrules : (rules.filter fun r => r.pattern.starts '<') =
      ⟨after "<<" amount, fun w => .token (.shift (.leftim (scanUint (w.drop 2))))⟩ ::
        (rules.filter fun r => r.pattern.starts '<').tail := rfl
  have hacc := accepts_after (s := "<<") (accepts_amount hn h)
  refine word_append (c := '<') rfl (by decide) ?_
  rw [hrules, first_cons, if_pos hacc]
  exact congrArg (fun k => some (Action.token (Token.shift (.leftim k)))) (scanUint_toDigits (by omega))

theorem word_rightim (hn : 0 < n) (h : n < 100) :
    Word (">>".toList ++ Nat.toDigits 10 n) (.shiftARight (.rightim n)) := by
  have hrules : (rules.filter fun r => r.pattern.starts '>') =
      ⟨after ">>" amount, fun w => .token (.shiftARight (.rightim (scanUint (w.drop 2))))⟩ ::
        (rules.filter fun r => r.pattern.starts '>').tail := rfl
  have hacc := accepts_after (s := ">>") (accepts_amount hn h)
  refine word_append (c := '>') rfl (by decide) ?_
  rw [hrules, first_cons, if_pos hacc]
  exact congrArg (fun k => some (Action.token (Token.shiftARight (.rightim k)))) (scanUint_toDigits (by omega))

theorem word_rotleftim (hn : 0 < n) (h : n < 100) :
    Word ("<<rot".toList ++ Nat.toDigits 10 n) (.shift (.rotleftim n)) := by
  have hrules : ((rules.filter fun r => r.pattern.starts '<').filter fun r => r.pattern.uses 'r') =
      ⟨after "<<rot" amount, fun w => .token (.shift (.rotleftim (scanUint (w.drop 5))))⟩ ::
        ((rules.filter fun r => r.pattern.starts '<').filter fun r => r.pattern.uses 'r').tail := rfl
  have hacc := accepts_after (s := "<<rot") (accepts_amount hn h)
  refine word_append (c := '<') rfl (by decide) ?_
  rw [first_uses (c := 'r') (List.mem_append_left _ (by decide)), hrules, first_cons, if_pos hacc]
  exact congrArg (fun k => some (Action.token (Token.shift (.rotleftim k)))) (scanUint_toDigits (by omega))

theorem word_rotrightim (hn : 0 < n) (h : n < 100) :
    Word (">>rot".toList ++ Nat.toDigits 10 n) (.shift (.rotrightim n)) := by
  have hrules : ((rules.filter fun r => r.pattern.starts '>').filter fun r => r.pattern.uses 'r') =
      ⟨after ">>rot" amount, fun w => .token (.shift (.rotrightim (scanUint (w.drop 5))))⟩ ::
        ((rules.filter fun r => r.pattern.starts '>').filter fun r => r.pattern.uses 'r').tail := rfl
  have hacc := accepts_after (s := ">>rot") (accepts_amount hn h)
  refine word_append (c := '>') rfl (by decide) ?_
  rw [first_uses (c := 'r') (List.mem_append_left _ (by decide)), hrules, first_cons, if_pos hacc]
  exact congrArg (fun k => some (Action.token (Token.shift (.rotrightim k)))) (scanUint_toDigits (by omega))

/-- The number of a register is one character. -/
theorem toDigits_index (addr : Fin 4) : ∃ d, Nat.toDigits 10 addr = [d] ∧ isIndex d := by
  have hall : ∀ a : Fin 4, isIndex (Nat.digitChar a) := by decide
  exact ⟨_, Nat.toDigits_of_lt_base (by omega), hall addr⟩

theorem first_lmindexed_zero (addr : Fin 4) : first rules (lmindexedStr addr 0) = some (.token (.indexed addr 0)) :=
  tables.2.2.2 addr

theorem first_lmindexed (addr : Fin 4) (hn : 0 < n) (h : n < 100) :
    first rules (lmindexedStr addr n) = some (.token (.indexed addr n)) := by
  obtain ⟨d, hd, hindex⟩ := toDigits_index addr
  have hstr : lmindexedStr addr n = "*l$index".toList ++ (Nat.toDigits 10 addr ++ ("[".toList ++
      (Nat.toDigits 10 n ++ "]".toList))) := by
    unfold lmindexedStr
    simp only [if_neg hn.ne', List.append_assoc]
  have hacc : indexedOffset.accepts ("*l$index".toList ++ (Nat.toDigits 10 addr ++ ("[".toList ++
      (Nat.toDigits 10 n ++ "]".toList)))) := by
    refine accepts_after (accepts_seq ?_ (accepts_after (accepts_seq (accepts_number h) (beq_self_eq_true _))))
    rw [hd]
    exact hindex
  have hrules : (rules.filter fun r => r.pattern.starts '*') =
      ⟨indexedOffset, fun w => .token (.indexed (Fin.ofNat 4 (scanUint (w.drop 8))) (scanUint (w.drop 10)))⟩ ::
        (rules.filter fun r => r.pattern.starts '*').tail := rfl
  rw [hstr]
  refine first_append (c := '*') rfl ?_
  rw [hrules, first_cons, if_pos hacc]
  have haddr : scanUint (Nat.toDigits 10 addr ++ ("[".toList ++ (Nat.toDigits 10 n ++ "]".toList))) = addr :=
    scanUint_append (by omega) fun c hc => by obtain rfl := Option.mem_some.mp hc; decide
  have hoffset : scanUint (Nat.toDigits 10 n ++ "]".toList) = n :=
    scanUint_append (by omega) fun c hc => by obtain rfl := Option.mem_some.mp hc; decide
  have hdrop : ∀ v, ("*l$index".toList ++ v).drop 8 = v := fun v => List.drop_left' rfl
  have hdrop' : ∀ v, ("*l$index".toList ++ ([d] ++ ("[".toList ++ v))).drop 10 = v := by
    intro v
    rw [← List.append_assoc, ← List.append_assoc]
    exact List.drop_left' rfl
  dsimp only
  rw [hdrop, haddr, hd, hdrop', hoffset, Fin.ofNat_val_eq_self]

theorem word_lmindexed (addr : Fin 4) (h : n < 100) : Word (lmindexedStr addr n) (.indexed addr n) := by
  have hne : lmindexedStr addr n ≠ [] := by
    unfold lmindexedStr
    rw [List.append_assoc]
    exact List.append_ne_nil_of_left_ne_nil (show "*l$index".toList ≠ [] by decide) _
  obtain ⟨d, hd, -⟩ := toDigits_index addr
  have hindexed : ∀ u, lmindexedStr addr n ++ ']' :: u ∉ indexedOffset.lang := by
    rintro u ⟨s, rfl, v, ⟨i, ⟨x, -, rfl⟩, v, ⟨b, rfl, v, ⟨k, hk, e, rfl, rfl⟩, rfl⟩, rfl⟩, hv⟩
    have hnum : ']' ∉ k := fun hmem => absurd (uses_of_mem hk hmem) (by decide)
    have hdigits : ']' ∉ Nat.toDigits 10 n := fun hmem => absurd (isDigit_toDigits ']' hmem) (by decide)
    unfold lmindexedStr at hv
    rw [hd, List.append_assoc, List.append_assoc] at hv
    obtain ⟨-, hv⟩ := List.cons.inj (List.append_cancel_left hv)
    split at hv
    · exact absurd (List.cons.inj hv).1 (by decide)
    · rw [List.append_assoc, List.append_assoc] at hv
      have hsplit : k ++ ']' :: [] = Nat.toDigits 10 n ++ ']' :: ']' :: u := (List.cons.inj hv).2
      obtain ⟨-, -, hnil⟩ := (List.append_cons_inj_of_notMem hnum List.not_mem_nil).mp hsplit
      exact nomatch hnil
  refine ⟨hne, ?_, fun c hc rest => ends_of_not_mem hne hindexed hc⟩
  rcases Nat.eq_zero_or_pos n with rfl | hn
  · exact first_lmindexed_zero addr
  · exact first_lmindexed addr hn h

/-! ### Words without a number -/

theorem word_fixed {s : String} (h : (s, a) ∈ fixedWords) : Word s.toList a := by
  obtain ⟨hne, hstar, hfirst⟩ := tables.2.1 _ h
  exact word_of_first hne hstar hfirst

theorem word_aluOp (op : AluOp) : Word (AluOp.str op).toList (.aluOp op) := by
  cases op <;> exact word_fixed (by simp [fixedWords, AluOp.str])

theorem word_memWriteOp (op : MemWriteOp) : Word (MemWriteOp.str op).toList (.memWriteOp op) := by
  cases op <;> exact word_fixed (by simp [fixedWords, MemWriteOp.str])

theorem word_mulTok (tok : MulTok) : Word (MulTok.str tok).toList (.mulStepTok tok) := by
  cases tok <;> exact word_fixed (by simp [fixedWords, MulTok.str])

theorem word_mulLast (tok : MulLast) : Word (MulLast.str tok).toList (.mulStepLastTok tok) := by
  cases tok <;> exact word_fixed (by simp [fixedWords, MulLast.str])

theorem word_localCsr (addr : Fin 4) : Word (localCsrStr addr).toList (.localCsr addr) := by
  fin_cases addr <;> exact word_fixed (by decide)

theorem tokens_name {s : String} (h : (s, a) ∈ names) :
    tokens (s.toList ++ ("[".toList ++ cs)) = a :: .lbrack :: tokens cs := by
  obtain ⟨hne, hfirst, hblocks⟩ := tables.2.2.1 _ h
  rw [← tokens_lbrack]
  exact lex_append hne hfirst (ends_of_blocks hne (List.all_eq_true.mp hblocks))

/-- The name of the signal ends before its number. -/
theorem tokens_ctxSwap (hn : n < 2 ^ 32) :
    tokens ("ctx_swap[sig".toList ++ (Nat.toDigits 10 n ++ ("]".toList ++ cs))) =
      .ctxSwap :: intToken n :: .rbrack :: tokens cs := by
  have hword : Word "ctx_swap[sig".toList .ctxSwap := word_fixed (by simp [fixedWords])
  have hends : Ends rules "ctx_swap[sig".toList (Nat.toDigits 10 n ++ ("]".toList ++ cs)) := by
    refine fun u hu _ => first_eq_none_iff.mpr fun r hr hmem => ?_
    have hrules : (rules.filter fun r => r.pattern.starts 'c' && r.pattern.uses 't') =
        [.token (.lit "ctx_swap[sig") .ctxSwap, ⟨.chr (· != '\n'), charAction⟩] := rfl
    have hstarts : r.pattern.starts 'c' := starts_of_mem hmem
    have huses : r.pattern.uses 't' := uses_of_mem hmem (List.mem_append_left _ (by decide))
    have hin : r ∈ rules.filter fun r => r.pattern.starts 'c' && r.pattern.uses 't' :=
      List.mem_filter.mpr ⟨hr, by rw [hstarts, huses]; rfl⟩
    rw [hrules] at hin
    rcases List.mem_pair.mp hin with rfl | rfl
    · have hnil : "ctx_swap[sig".toList ++ u = "ctx_swap[sig".toList ++ [] := hmem.trans (List.append_nil _).symm
      exact hu (List.append_cancel_left hnil)
    · have hlen := length_le_one hmem rfl
      rw [List.length_append] at hlen
      have htwelve : "ctx_swap[sig".toList.length = 12 := rfl
      omega
  rw [tokens, lex_append hword.ne_nil hword.first_eq hends, ← tokens, (word_int hn).close]

end Assembly

end NfpEstimator
