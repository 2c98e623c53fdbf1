import NfpEstimator.Flex
import NfpEstimator.Instr.Perform
import NfpEstimator.SatChecker.Lexer
import NfpEstimator.Scanf

/-!
# The lexer for instructions

The tokens of a line of an assembly listing. Registers, offsets and amounts have at most two digits, so none of them is
cut to the `std::uint8_t` that it is kept in.
-/

namespace NfpEstimator

namespace Assembly

open Flex Flex.Pattern

/-- The tokens of `instr.ypp`. The branches, of which there is one for each condition, have one token here. -/
inductive Token where
  | alu | aluShf | asr
  | branch (cond : BranchCond)
  | br | dblShf | immed | immedW1 | ldField | ldFieldWClr | localCsrWr | mem | mulStep | nop
  | gprWrboth | defer | ctxSwap | indirectRef
  | aluOp (op : AluOp)
  | memReadOp
  | memWriteOp (op : MemWriteOp)
  | shift (sc : ShiftCntl)
  | shiftARight (sc : Aright)
  | mulStepTok (tok : MulTok)
  | mulStepLastTok (tok : MulLast)
  | id (n : ℕ)
  | mask (n : ℕ)
  | uint (n : ℕ)
  | hexInt (n : ℕ)
  | addr
  | omitted
  | gpr (g : Gpr)
  | xfer (number : ℕ)
  | indexed (addr : Fin 4) (offset : ℕ)
  | localCsr (addr : Fin 4)
  /-- `'['`. -/
  | lbrack
  /-- `','`. -/
  | comma
  /-- `']'`. -/
  | rbrack
  /-- Another character that stands for itself. -/
  | char (c : Char)
  deriving DecidableEq

/-- What `%u` reads. -/
def scanUint (w : List Char) : ℕ := ((Scanf.number 10 32 w).map Prod.fst).getD 0

/-- What `%x` reads. -/
def scanHex (w : List Char) : ℕ := ((Scanf.number 16 32 w).map Prod.fst).getD 0

/-- `[1-9]`. -/
def isNonzero (c : Char) : Bool := '1' ≤ c && c ≤ '9'

/-- `[0-3]`. -/
def isIndex (c : Char) : Bool := '0' ≤ c && c ≤ '3'

/-- `[01]`. -/
def isBit (c : Char) : Bool := c == '0' || c == '1'

/-- `[0-9a-fA-F]`. -/
def isHex (c : Char) : Bool := c.isDigit || ('a' ≤ c && c ≤ 'f') || ('A' ≤ c && c ≤ 'F')

/-- `[1-9][0-9]?`. -/
def amount : Pattern := .seq (.chr isNonzero) (.opt (.chr Char.isDigit))

/-- `[1-9]?[0-9]`. -/
def number : Pattern := .seq (.opt (.chr isNonzero)) (.chr Char.isDigit)

/-- `0|[1-9][0-9]*`. -/
def decimal : Pattern := .alt (.lit "0") (.seq (.chr isNonzero) (.many Char.isDigit))

/-- `[01][01][01][01]`. -/
def bits : Pattern := .seq (.chr isBit) (.seq (.chr isBit) (.seq (.chr isBit) (.chr isBit)))

/-- A pattern with a text in front of it. -/
def after (s : String) (p : Pattern) : Pattern := .seq (.lit s) p

/-- `\*l\$index[0-3]\[[1-9]?[0-9]\]`. -/
def indexedOffset : Pattern := after "*l$index" (.seq (.chr isIndex) (after "[" (.seq number (.lit "]"))))

/-- The token of a character that no other rule is made for. -/
def Token.ofChar (c : Char) : Token :=
  if c = '[' then .lbrack else if c = ',' then .comma else if c = ']' then .rbrack else .char c

/-- The bank that a letter stands for. -/
def bankOf (c : Char) : Bank := if c = 'A' then .A else .B

/-- `return yytext[0];`, where the end of the text is meant if the code is 0 or is negative as a `char`. -/
def charAction (w : List Char) : Action Token :=
  match w with
  | c :: _ => if SatChecker.endsText c then .stop else .token (.ofChar c)
  | [] => .skip

/-- The rules of `instr.l`. -/
def rules : List (Rule Token) :=
  [ .token (.lit "alu") .alu,
    .token (.lit "alu_shf") .aluShf,
    .token (.lit "asr") .asr,
    .token (.lit "bcc") (.branch .bcc),
    .token (.lit "bcs") (.branch .bcs),
    .token (.lit "beq") (.branch .beq),
    .token (.lit "bge") (.branch .bge),
    .token (.lit "bgt") (.branch .bgt),
    .token (.lit "ble") (.branch .ble),
    .token (.lit "blt") (.branch .blt),
    .token (.lit "bmi") (.branch .bmi),
    .token (.lit "bne") (.branch .bne),
    .token (.lit "bpl") (.branch .bpl),
    .token (.lit "bvc") (.branch .bvc),
    .token (.lit "bvs") (.branch .bvs),
    .token (.lit "br") .br,
    .token (.lit "dbl_shf") .dblShf,
    .token (.lit "immed") .immed,
    .token (.lit "immed_w1") .immedW1,
    .token (.lit "ld_field") .ldField,
    .token (.lit "ld_field_w_clr") .ldFieldWClr,
    .token (.lit "local_csr_wr") .localCsrWr,
    .token (.lit "mem") .mem,
    .token (.lit "mul_step") .mulStep,
    .token (.lit "nop") .nop,
    .token (.lit "gpr_wrboth") .gprWrboth,
    .token (.lit "defer") .defer,
    .token (.lit "ctx_swap[sig") .ctxSwap,
    .token (.lit "indirect_ref") .indirectRef,
    .token (.lit "+") (.aluOp .plus),
    .token (.lit "+16") (.aluOp .plus16),
    .token (.lit "+8") (.aluOp .plus8),
    .token (.lit "+carry") (.aluOp .plusCarry),
    .token (.lit "-carry") (.aluOp .minusCarry),
    .token (.lit "-") (.aluOp .minus),
    .token (.lit "B-A") (.aluOp .negMinus),
    .token (.lit "B") (.aluOp .B),
    .token (.lit "~B") (.aluOp .invB),
    .token (.lit "AND") (.aluOp .opAnd),
    .token (.lit "~AND") (.aluOp .invAnd),
    .token (.lit "AND~") (.aluOp .andInv),
    .token (.lit "OR") (.aluOp .opOr),
    .token (.lit "XOR") (.aluOp .opXor),
    .token (.lit "read32_swap") .memReadOp,
    .token (.lit "write8_swap") (.memWriteOp .write8Swap),
    .token (.lit "write32_swap") (.memWriteOp .write32Swap),
    .token (.lit "add_imm") (.memWriteOp .addImm),
    ⟨after "<<" amount, fun w => .token (.shift (.leftim (scanUint (w.drop 2))))⟩,
    ⟨after ">>" amount, fun w => .token (.shiftARight (.rightim (scanUint (w.drop 2))))⟩,
    ⟨after "<<rot" amount, fun w => .token (.shift (.rotleftim (scanUint (w.drop 5))))⟩,
    ⟨after ">>rot" amount, fun w => .token (.shift (.rotrightim (scanUint (w.drop 5))))⟩,
    .token (.lit "<<indirect") (.shift .leftindirect),
    .token (.lit ">>indirect") (.shiftARight .rightindirect),
    .token (.lit "start") (.mulStepTok .start),
    .token (.lit "16x16_step1") (.mulStepTok .s16x16Step1),
    .token (.lit "16x16_step2") (.mulStepTok .s16x16Step2),
    .token (.lit "32x32_step1") (.mulStepTok .s32x32Step1),
    .token (.lit "32x32_step2") (.mulStepTok .s32x32Step2),
    .token (.lit "32x32_step3") (.mulStepTok .s32x32Step3),
    .token (.lit "32x32_step4") (.mulStepTok .s32x32Step4),
    .token (.lit "16x16_last") (.mulStepLastTok .s16x16Last),
    .token (.lit "32x32_last") (.mulStepLastTok .s32x32Last),
    .token (.lit "32x32_last2") (.mulStepLastTok .s32x32Last2),
    ⟨after "." decimal, fun w => .token (.id (scanUint (w.drop 1)))⟩,
    ⟨bits, fun w => .token (.mask (scanUint w))⟩,
    ⟨decimal, fun w => .token (.uint (scanUint w))⟩,
    ⟨after "0x" (.seq (.chr isHex) (.many isHex)), fun w => .token (.hexInt (scanHex w))⟩,
    .token (.seq (.chr isHex) (.seq (.many isHex) (.lit ":"))) .addr,
    .token (.lit "--") .omitted,
    ⟨after "gpr" (.seq (.alt (.lit "A") (.lit "B")) (after "_" number)),
      fun w => .token (.gpr ⟨bankOf (w.getD 3 'A'), scanUint (w.drop 5)⟩)⟩,
    ⟨after "$xfer_" number, fun w => .token (.xfer (scanUint (w.drop 6)))⟩,
    ⟨indexedOffset,
      fun w => .token (.indexed (Fin.ofNat 4 (scanUint (w.drop 8))) (scanUint (w.drop 10)))⟩,
    ⟨after "*l$index" (.chr isIndex), fun w => .token (.indexed (Fin.ofNat 4 (scanUint (w.drop 8))) 0)⟩,
    ⟨after "ActLMAddr" (.chr isIndex), fun w => .token (.localCsr (Fin.ofNat 4 (scanUint (w.drop 9))))⟩,
    ⟨.chr SatChecker.isBlank, fun _ => .skip⟩,
    ⟨.chr (· != '\n'), charAction⟩ ]

/-- The tokens of a line. -/
def tokens (text : List Char) : List Token := lex rules text

end Assembly

end NfpEstimator
