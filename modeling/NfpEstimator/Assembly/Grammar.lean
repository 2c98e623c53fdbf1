import NfpEstimator.Assembly.Lexer

/-!
# The grammar of instructions

A line of a listing is an instruction with its operands between brackets. The productions are those of `instr.ypp`;
where a nonterminal is always one token, it is a function from tokens.

The main result is that the parser accepts exactly what the grammar derives, and with this instruction
(`parse_eq_some_iff`): no line can be read in two ways.
-/

namespace NfpEstimator

namespace Assembly

/-- An instruction with `instr::branch::defer`, which is only printed. -/
structure Line where
  n : Operation
  defer : ℕ

/-! ### Nonterminals of one token -/

/-- `INT`. -/
def int : Token → Option ℕ
  | .uint n | .hexInt n | .mask n => some n
  | _ => none

/-- `DST`. -/
def dst : Token → Option Dst
  | .gpr g => some (.gpr g)
  | .indexed addr offset => some (.lmindexed addr offset)
  | .xfer number => some (.xferOut number)
  | .omitted => some .omitted
  | _ => none

/-- `SRC`. -/
def src : Token → Option Src
  | .gpr g => some (.gpr g)
  | .indexed addr offset => some (.lmindexed addr offset)
  | .xfer number => some (.xferIn number)
  | .omitted => some .omitted
  | t => (int t).map .constant

/-- `Gpr` or `CONSTANT`. -/
def mulSrc : Token → Option Src
  | .gpr g => some (.gpr g)
  | t => (int t).map .constant

/-- `Gpr` or `Omitted`. -/
def mulDst : Token → Option Dst
  | .gpr g => some (.gpr g)
  | .omitted => some .omitted
  | _ => none

/-- `SHIFT`. -/
def shift : Token → Option ShiftCntl
  | .shift sc => some sc
  | .shiftARight sc => some (.aright sc)
  | _ => none

/-! ### Productions -/

/-- `GPR_WRBOTH`. -/
inductive GprWrboth : List Token → Bool → Prop where
  | wrboth : GprWrboth [.comma, .gprWrboth] true
  | nil : GprWrboth [] false

/-- `DEFER`. -/
inductive Defer : List Token → ℕ → Prop where
  | defer {t : Token} {n : ℕ} : int t = some n → Defer [.comma, .defer, .lbrack, t, .rbrack] n
  | nil : Defer [] 0

/-- `OPT_SHIFT`. -/
inductive OptShift : List Token → Option ShiftCntl → Prop where
  | shift {t : Token} {sc : ShiftCntl} : shift t = some sc → OptShift [.comma, t] (some sc)
  | nil : OptShift [] none

/-- The signal that `mem` waits for: none is `-1`. -/
def signal (n : ℕ) : Option ℕ := if n = 2 ^ 32 - 1 then none else some n

/-- `CTX_SWAP`. -/
inductive CtxSwap : List Token → Option ℕ → Prop where
  | ctxSwap {t : Token} {n : ℕ} : int t = some n → CtxSwap [.comma, .ctxSwap, t, .rbrack] (signal n)
  | nil : CtxSwap [] (signal (2 ^ 32 - 1))

/-- What follows the last bracket of `mem`, with `indirect_ref`. -/
inductive Refs : List Token → Bool → Option ℕ → Prop where
  | direct {ts : List Token} {s : Option ℕ} : CtxSwap ts s → Refs ts false s
  | indirect {ts : List Token} {s : Option ℕ} : CtxSwap ts s → Refs (.comma :: .indirectRef :: ts) true s

/-- What `mem` has behind the transfer register. -/
structure MemArgs where
  src1 : Src
  sc1 : Option ShiftCntl
  src2 : Src
  sc2 : Option ShiftCntl
  refCnt : ℕ
  indirectRef : Bool
  ctxSwap : Option ℕ

/-- The productions of `MEM_READ` and `MEM_WRITE`, from the first source on. -/
inductive Mem : List Token → MemArgs → Prop where
  | local_ {a b i : Token} {a' b' : Src} {n : ℕ} {ts : List Token} {r : Bool} {s : Option ℕ} :
    src a = some a' → src b = some b' → int i = some n → Refs ts r s →
    Mem (a :: .comma :: b :: .comma :: i :: .rbrack :: ts) ⟨a', none, b', none, n, r, s⟩
  | shift1 {a c b i : Token} {a' b' : Src} {sc : ShiftCntl} {n : ℕ} {ts : List Token} {r : Bool} {s : Option ℕ} :
    src a = some a' → shift c = some sc → src b = some b' → int i = some n → Refs ts r s →
    Mem (a :: .comma :: c :: .comma :: b :: .comma :: i :: .rbrack :: ts) ⟨a', some sc, b', none, n, r, s⟩
  | shift2 {a b c i : Token} {a' b' : Src} {sc : ShiftCntl} {n : ℕ} {ts : List Token} {r : Bool} {s : Option ℕ} :
    src a = some a' → src b = some b' → shift c = some sc → int i = some n → Refs ts r s →
    Mem (a :: .comma :: b :: .comma :: c :: .comma :: i :: .rbrack :: ts) ⟨a', none, b', some sc, n, r, s⟩

/-- The productions of `INSTR`, from the name on. -/
inductive Instr (id : ℕ) : List Token → Line → Prop where
  | alu {d a b : Token} {d' : Dst} {a' b' : Src} {op : AluOp} {ts : List Token} {w : Bool} :
    dst d = some d' → src a = some a' → src b = some b' → GprWrboth ts w →
    Instr id (.alu :: .lbrack :: d :: .comma :: a :: .comma :: .aluOp op :: .comma :: b :: .rbrack :: ts)
      ⟨.alu id d' a' op b' w, 0⟩
  | aluShf {d a b c : Token} {d' : Dst} {a' b' : Src} {op : AluOp} {sc : ShiftCntl} {ts : List Token} {w : Bool} :
    dst d = some d' → src a = some a' → src b = some b' → shift c = some sc → GprWrboth ts w →
    Instr id (.aluShf :: .lbrack :: d :: .comma :: a :: .comma :: .aluOp op :: .comma :: b :: .comma :: c ::
      .rbrack :: ts) ⟨.aluShf id d' a' op b' sc w, 0⟩
  | asr {d a : Token} {d' : Dst} {a' : Src} {sc : Aright} {ts : List Token} {w : Bool} :
    dst d = some d' → src a = some a' → GprWrboth ts w →
    Instr id (.asr :: .lbrack :: d :: .comma :: a :: .comma :: .shiftARight sc :: .rbrack :: ts) ⟨.asr id d' a' sc w, 0⟩
  | branch {cond : BranchCond} {target n : ℕ} {ts : List Token} : Defer ts n →
    Instr id (.branch cond :: .lbrack :: .id target :: .rbrack :: ts) ⟨.properBranch id cond target, n⟩
  | br {target n : ℕ} {ts : List Token} : Defer ts n →
    Instr id (.br :: .lbrack :: .id target :: .rbrack :: ts) ⟨.br id target, n⟩
  | dblShf {d a b c : Token} {d' : Dst} {a' b' : Src} {sc : ShiftCntl} {ts : List Token} {w : Bool} :
    dst d = some d' → src a = some a' → src b = some b' → shift c = some sc → GprWrboth ts w →
    Instr id (.dblShf :: .lbrack :: d :: .comma :: a :: .comma :: b :: .comma :: c :: .rbrack :: ts)
      ⟨.dblShf id d' a' b' sc w, 0⟩
  | immed {d i : Token} {d' : Dst} {n : ℕ} {sc : Option ShiftCntl} {us ts : List Token} {w : Bool} :
    dst d = some d' → int i = some n → OptShift us sc → GprWrboth ts w →
    Instr id (.immed :: .lbrack :: d :: .comma :: i :: (us ++ .rbrack :: ts)) ⟨.immed id d' n sc w, 0⟩
  | immedW1 {g : Gpr} {i : Token} {n : ℕ} {ts : List Token} {w : Bool} : int i = some n → GprWrboth ts w →
    Instr id (.immedW1 :: .lbrack :: .gpr g :: .comma :: i :: .rbrack :: ts) ⟨.immedW1 id (.gpr g) n w, 0⟩
  | ldField {d a : Token} {d' : Dst} {a' : Src} {m : ℕ} {sc : Option ShiftCntl} {us ts : List Token} {w : Bool} :
    dst d = some d' → src a = some a' → OptShift us sc → GprWrboth ts w →
    Instr id (.ldField :: .lbrack :: d :: .comma :: .mask m :: .comma :: a :: (us ++ .rbrack :: ts))
      ⟨.ldField id d' m a' sc w, 0⟩
  | ldFieldWClr {d a : Token} {d' : Dst} {a' : Src} {m : ℕ} {sc : Option ShiftCntl} {us ts : List Token} {w : Bool} :
    dst d = some d' → src a = some a' → OptShift us sc → GprWrboth ts w →
    Instr id (.ldFieldWClr :: .lbrack :: d :: .comma :: .mask m :: .comma :: a :: (us ++ .rbrack :: ts))
      ⟨.ldFieldWClr id d' m a' sc w, 0⟩
  | localCsrWr {addr : Fin 4} {a : Token} {a' : Src} : src a = some a' →
    Instr id [.localCsrWr, .lbrack, .localCsr addr, .comma, a, .rbrack] ⟨.localCsrWr id addr a', 0⟩
  | memRead {x : ℕ} {ts : List Token} {m : MemArgs} : Mem ts m →
    Instr id (.mem :: .lbrack :: .memReadOp :: .comma :: .xfer x :: .comma :: ts)
      ⟨.memRead id x m.src1 m.sc1 m.src2 m.sc2 m.refCnt m.indirectRef m.ctxSwap, 0⟩
  | memWrite {op : MemWriteOp} {x : ℕ} {ts : List Token} {m : MemArgs} : Mem ts m →
    Instr id (.mem :: .lbrack :: .memWriteOp op :: .comma :: .xfer x :: .comma :: ts)
      ⟨.memWrite id op x m.src1 m.sc1 m.src2 m.sc2 m.refCnt m.indirectRef m.ctxSwap, 0⟩
  | mulStep {a b : Token} {a' b' : Src} {tok : MulTok} : mulSrc a = some a' → mulSrc b = some b' →
    Instr id [.mulStep, .lbrack, a, .comma, b, .rbrack, .comma, .mulStepTok tok] ⟨.mulStep id a' b' tok, 0⟩
  | mulStepLast {d : Token} {d' : Dst} {tok : MulLast} {ts : List Token} {w : Bool} :
    mulDst d = some d' → GprWrboth ts w →
    Instr id (.mulStep :: .lbrack :: d :: .comma :: .omitted :: .rbrack :: .comma :: .mulStepLastTok tok :: ts)
      ⟨.mulStepLast id d' tok w, 0⟩
  | nop : Instr id [.nop] ⟨.nop id, 0⟩

/-- `INSTR_NUM`. -/
inductive InstrNum : List Token → ℕ → Prop where
  | addr {id : ℕ} : InstrNum [.addr, .id id] id
  | id {id : ℕ} : InstrNum [.id id] id

/-- `S`. -/
inductive Grammar : List Token → Line → Prop where
  | instr {id : ℕ} {us ts : List Token} {l : Line} : InstrNum us id → Instr id ts l → Grammar (us ++ ts) l

/-! ### The parser -/

/-- A `GPR_WRBOTH`. -/
def parseGprWrboth : List Token → Option Bool
  | [.comma, .gprWrboth] => some true
  | [] => some false
  | _ => none

/-- A `DEFER`. -/
def parseDefer : List Token → Option ℕ
  | [.comma, .defer, .lbrack, t, .rbrack] => int t
  | [] => some 0
  | _ => none

/-- An `OPT_SHIFT`, and what follows the bracket behind it. -/
def parseOptShift : List Token → Option (Option ShiftCntl × List Token)
  | .comma :: t :: .rbrack :: ts => (shift t).map fun sc => (some sc, ts)
  | .rbrack :: ts => some (none, ts)
  | _ => none

/-- A `CTX_SWAP`. -/
def parseCtxSwap : List Token → Option (Option ℕ)
  | [.comma, .ctxSwap, t, .rbrack] => (int t).map signal
  | [] => some (signal (2 ^ 32 - 1))
  | _ => none

/-- What follows the last bracket of `mem`. -/
def parseRefs : List Token → Option (Bool × Option ℕ)
  | .comma :: .indirectRef :: ts => (parseCtxSwap ts).map (true, ·)
  | ts => (parseCtxSwap ts).map (false, ·)

/-- What `mem` has behind the transfer register. Which source is shifted is seen from the second token. -/
def parseMem : List Token → Option MemArgs
  | a :: .comma :: b :: .comma :: i :: .rbrack :: ts => do
    let r ← parseRefs ts
    return ⟨← src a, none, ← src b, none, ← int i, r.1, r.2⟩
  | a :: .comma :: b :: .comma :: c :: .comma :: i :: .rbrack :: ts => do
    let r ← parseRefs ts
    match shift b with
    | some sc => return ⟨← src a, some sc, ← src c, none, ← int i, r.1, r.2⟩
    | none => return ⟨← src a, none, ← src b, some (← shift c), ← int i, r.1, r.2⟩
  | _ => none

/-- An instruction, from its name on. -/
def parseInstr (id : ℕ) : List Token → Option Line
  | .alu :: .lbrack :: d :: .comma :: a :: .comma :: .aluOp op :: .comma :: b :: .rbrack :: ts => do
    return ⟨.alu id (← dst d) (← src a) op (← src b) (← parseGprWrboth ts), 0⟩
  | .aluShf :: .lbrack :: d :: .comma :: a :: .comma :: .aluOp op :: .comma :: b :: .comma :: c :: .rbrack :: ts => do
    return ⟨.aluShf id (← dst d) (← src a) op (← src b) (← shift c) (← parseGprWrboth ts), 0⟩
  | .asr :: .lbrack :: d :: .comma :: a :: .comma :: .shiftARight sc :: .rbrack :: ts => do
    return ⟨.asr id (← dst d) (← src a) sc (← parseGprWrboth ts), 0⟩
  | .branch cond :: .lbrack :: .id target :: .rbrack :: ts => do
    return ⟨.properBranch id cond target, ← parseDefer ts⟩
  | .br :: .lbrack :: .id target :: .rbrack :: ts => do
    return ⟨.br id target, ← parseDefer ts⟩
  | .dblShf :: .lbrack :: d :: .comma :: a :: .comma :: b :: .comma :: c :: .rbrack :: ts => do
    return ⟨.dblShf id (← dst d) (← src a) (← src b) (← shift c) (← parseGprWrboth ts), 0⟩
  | .immed :: .lbrack :: d :: .comma :: i :: ts => do
    let r ← parseOptShift ts
    return ⟨.immed id (← dst d) (← int i) r.1 (← parseGprWrboth r.2), 0⟩
  | .immedW1 :: .lbrack :: .gpr g :: .comma :: i :: .rbrack :: ts => do
    return ⟨.immedW1 id (.gpr g) (← int i) (← parseGprWrboth ts), 0⟩
  | .ldField :: .lbrack :: d :: .comma :: .mask m :: .comma :: a :: ts => do
    let r ← parseOptShift ts
    return ⟨.ldField id (← dst d) m (← src a) r.1 (← parseGprWrboth r.2), 0⟩
  | .ldFieldWClr :: .lbrack :: d :: .comma :: .mask m :: .comma :: a :: ts => do
    let r ← parseOptShift ts
    return ⟨.ldFieldWClr id (← dst d) m (← src a) r.1 (← parseGprWrboth r.2), 0⟩
  | [.localCsrWr, .lbrack, .localCsr addr, .comma, a, .rbrack] => do
    return ⟨.localCsrWr id addr (← src a), 0⟩
  | .mem :: .lbrack :: .memReadOp :: .comma :: .xfer x :: .comma :: ts => do
    let m ← parseMem ts
    return ⟨.memRead id x m.src1 m.sc1 m.src2 m.sc2 m.refCnt m.indirectRef m.ctxSwap, 0⟩
  | .mem :: .lbrack :: .memWriteOp op :: .comma :: .xfer x :: .comma :: ts => do
    let m ← parseMem ts
    return ⟨.memWrite id op x m.src1 m.sc1 m.src2 m.sc2 m.refCnt m.indirectRef m.ctxSwap, 0⟩
  | [.mulStep, .lbrack, a, .comma, b, .rbrack, .comma, .mulStepTok tok] => do
    return ⟨.mulStep id (← mulSrc a) (← mulSrc b) tok, 0⟩
  | .mulStep :: .lbrack :: d :: .comma :: .omitted :: .rbrack :: .comma :: .mulStepLastTok tok :: ts => do
    return ⟨.mulStepLast id (← mulDst d) tok (← parseGprWrboth ts), 0⟩
  | [.nop] => some ⟨.nop id, 0⟩
  | _ => none

/-- `instr_parse`. -/
def parse : List Token → Option Line
  | .addr :: .id id :: ts | .id id :: ts => parseInstr id ts
  | _ => none

/-- `instr::build_instr`. Without a result the program ends. -/
def buildInstr (text : List Char) : Option Line := parse (tokens text)

variable {id n : ℕ} {ts us : List Token} {w r : Bool} {sc : Option ShiftCntl} {s : Option ℕ} {m : MemArgs} {l : Line}

/-! ### What is parsed is what is derived -/

theorem parseGprWrboth_eq_some_iff : parseGprWrboth ts = some w ↔ GprWrboth ts w := by
  constructor
  · fun_cases parseGprWrboth ts with
    | case1 | case2 =>
      rintro ⟨⟩
      constructor
    | case3 => exact nofun
  · rintro (_ | _) <;> rfl

theorem parseDefer_eq_some_iff : parseDefer ts = some n ↔ Defer ts n := by
  constructor
  · fun_cases parseDefer ts with
    | case1 t => exact .defer
    | case2 =>
      rintro ⟨⟩
      exact .nil
    | case3 =>
      intro h
      cases h
  · rintro (h | _)
    · exact h
    · rfl

theorem parseOptShift_eq_some_iff :
    parseOptShift ts = some (sc, us) ↔ ∃ vs, OptShift vs sc ∧ ts = vs ++ .rbrack :: us := by
  constructor
  · fun_cases parseOptShift ts with
    | case1 t ts =>
      intro h
      obtain ⟨sc', hsc, he⟩ := Option.map_eq_some_iff.mp h
      obtain ⟨rfl, rfl⟩ := Prod.mk.inj he
      exact ⟨_, .shift hsc, rfl⟩
    | case2 ts =>
      rintro ⟨⟩
      exact ⟨_, .nil, rfl⟩
    | case3 => exact nofun
  · rintro ⟨vs, hsc | _, rfl⟩
    · simp [parseOptShift, hsc]
    · rfl

theorem parseCtxSwap_eq_some_iff : parseCtxSwap ts = some s ↔ CtxSwap ts s := by
  constructor
  · fun_cases parseCtxSwap ts with
    | case1 t =>
      intro h
      obtain ⟨n, hn, rfl⟩ := Option.map_eq_some_iff.mp h
      exact .ctxSwap hn
    | case2 =>
      rintro ⟨⟩
      exact .nil
    | case3 => exact nofun
  · rintro (hn | _)
    · simp [parseCtxSwap, hn]
    · rfl

theorem parseRefs_eq_some_iff : parseRefs ts = some (r, s) ↔ Refs ts r s := by
  constructor
  · fun_cases parseRefs ts with
    | case1 ts | case2 =>
      intro h
      obtain ⟨s', hs, he⟩ := Option.map_eq_some_iff.mp h
      obtain ⟨rfl, rfl⟩ := Prod.mk.inj he
      first
        | exact .indirect (parseCtxSwap_eq_some_iff.mp hs)
        | exact .direct (parseCtxSwap_eq_some_iff.mp hs)
  · rintro (hs | hs)
    · have hparse := parseCtxSwap_eq_some_iff.mpr hs
      rcases hs with _ | _ <;> simp [parseRefs, hparse]
    · simp [parseRefs, parseCtxSwap_eq_some_iff.mpr hs]

/-- No source is a shift. -/
theorem shift_eq_none {t : Token} {a : Src} (h : src t = some a) : shift t = none := by
  cases t <;> simp_all [src, shift, int]

theorem parseMem_eq_some_iff : parseMem ts = some m ↔ Mem ts m := by
  constructor
  · fun_cases parseMem ts with
    | case1 a b i ts =>
      intro h
      simp only [Option.bind_eq_bind, Option.bind_eq_some_iff, Option.pure_def, Option.some.injEq] at h
      obtain ⟨⟨r, s⟩, hr, a', ha, b', hb, n, hn, rfl⟩ := h
      exact .local_ ha hb hn (parseRefs_eq_some_iff.mp hr)
    | case2 a b c i ts =>
      intro h
      simp only [Option.bind_eq_bind, Option.bind_eq_some_iff, Option.pure_def] at h
      obtain ⟨⟨r, s⟩, hr, h⟩ := h
      split at h
      · next sc hsc =>
        simp only [Option.bind_eq_some_iff, Option.some.injEq] at h
        obtain ⟨a', ha, b', hb, n, hn, rfl⟩ := h
        exact .shift1 ha hsc hb hn (parseRefs_eq_some_iff.mp hr)
      · simp only [Option.bind_eq_some_iff, Option.some.injEq] at h
        obtain ⟨a', ha, b', hb, sc, hsc, n, hn, rfl⟩ := h
        exact .shift2 ha hb hsc hn (parseRefs_eq_some_iff.mp hr)
    | case3 => exact nofun
  · rintro (⟨ha, hb, hn, hr⟩ | ⟨ha, hc, hb, hn, hr⟩ | ⟨ha, hb, hc, hn, hr⟩)
    · simp [parseMem, ha, hb, hn, parseRefs_eq_some_iff.mpr hr]
    · simp [parseMem, ha, hb, hc, hn, parseRefs_eq_some_iff.mpr hr]
    · simp [parseMem, ha, hb, hc, hn, shift_eq_none hb, parseRefs_eq_some_iff.mpr hr]

theorem parseInstr_eq_some_iff : parseInstr id ts = some l ↔ Instr id ts l := by
  constructor
  · intro h
    revert h
    fun_cases parseInstr id ts
    case case17 => exact nofun
    case case16 =>
      rintro ⟨⟩
      exact .nop
    all_goals
      intro h
      simp only [Option.bind_eq_bind, Option.bind_eq_some_iff, Option.pure_def, Option.some.injEq] at h
    case case1 =>
      obtain ⟨d', hd, a', ha, b', hb, w, hw, rfl⟩ := h
      exact .alu hd ha hb (parseGprWrboth_eq_some_iff.mp hw)
    case case2 =>
      obtain ⟨d', hd, a', ha, b', hb, sc, hsc, w, hw, rfl⟩ := h
      exact .aluShf hd ha hb hsc (parseGprWrboth_eq_some_iff.mp hw)
    case case3 =>
      obtain ⟨d', hd, a', ha, w, hw, rfl⟩ := h
      exact .asr hd ha (parseGprWrboth_eq_some_iff.mp hw)
    case case4 =>
      obtain ⟨n, hn, rfl⟩ := h
      exact .branch (parseDefer_eq_some_iff.mp hn)
    case case5 =>
      obtain ⟨n, hn, rfl⟩ := h
      exact .br (parseDefer_eq_some_iff.mp hn)
    case case6 =>
      obtain ⟨d', hd, a', ha, b', hb, sc, hsc, w, hw, rfl⟩ := h
      exact .dblShf hd ha hb hsc (parseGprWrboth_eq_some_iff.mp hw)
    case case7 =>
      obtain ⟨⟨sc, us⟩, hr, d', hd, n, hn, w, hw, rfl⟩ := h
      obtain ⟨vs, hvs, rfl⟩ := parseOptShift_eq_some_iff.mp hr
      exact .immed hd hn hvs (parseGprWrboth_eq_some_iff.mp hw)
    case case8 =>
      obtain ⟨n, hn, w, hw, rfl⟩ := h
      exact .immedW1 hn (parseGprWrboth_eq_some_iff.mp hw)
    case case9 =>
      obtain ⟨⟨sc, us⟩, hr, d', hd, a', ha, w, hw, rfl⟩ := h
      obtain ⟨vs, hvs, rfl⟩ := parseOptShift_eq_some_iff.mp hr
      exact .ldField hd ha hvs (parseGprWrboth_eq_some_iff.mp hw)
    case case10 =>
      obtain ⟨⟨sc, us⟩, hr, d', hd, a', ha, w, hw, rfl⟩ := h
      obtain ⟨vs, hvs, rfl⟩ := parseOptShift_eq_some_iff.mp hr
      exact .ldFieldWClr hd ha hvs (parseGprWrboth_eq_some_iff.mp hw)
    case case11 =>
      obtain ⟨a', ha, rfl⟩ := h
      exact .localCsrWr ha
    case case12 =>
      obtain ⟨m, hm, rfl⟩ := h
      exact .memRead (parseMem_eq_some_iff.mp hm)
    case case13 =>
      obtain ⟨m, hm, rfl⟩ := h
      exact .memWrite (parseMem_eq_some_iff.mp hm)
    case case14 =>
      obtain ⟨a', ha, b', hb, rfl⟩ := h
      exact .mulStep ha hb
    case case15 =>
      obtain ⟨d', hd, w, hw, rfl⟩ := h
      exact .mulStepLast hd (parseGprWrboth_eq_some_iff.mp hw)
  · intro h
    cases h with
    | alu hd ha hb hw => simp [parseInstr, hd, ha, hb, parseGprWrboth_eq_some_iff.mpr hw]
    | aluShf hd ha hb hsc hw => simp [parseInstr, hd, ha, hb, hsc, parseGprWrboth_eq_some_iff.mpr hw]
    | asr hd ha hw => simp [parseInstr, hd, ha, parseGprWrboth_eq_some_iff.mpr hw]
    | branch hn | br hn => simp [parseInstr, parseDefer_eq_some_iff.mpr hn]
    | dblShf hd ha hb hsc hw => simp [parseInstr, hd, ha, hb, hsc, parseGprWrboth_eq_some_iff.mpr hw]
    | immed hd hn hsc hw =>
      simp [parseInstr, hd, hn, parseOptShift_eq_some_iff.mpr ⟨_, hsc, rfl⟩, parseGprWrboth_eq_some_iff.mpr hw]
    | immedW1 hn hw => simp [parseInstr, hn, parseGprWrboth_eq_some_iff.mpr hw]
    | ldField hd ha hsc hw | ldFieldWClr hd ha hsc hw =>
      simp [parseInstr, hd, ha, parseOptShift_eq_some_iff.mpr ⟨_, hsc, rfl⟩, parseGprWrboth_eq_some_iff.mpr hw]
    | localCsrWr ha => simp [parseInstr, ha]
    | memRead hm | memWrite hm => simp [parseInstr, parseMem_eq_some_iff.mpr hm]
    | mulStep ha hb => simp [parseInstr, ha, hb]
    | mulStepLast hd hw => simp [parseInstr, hd, parseGprWrboth_eq_some_iff.mpr hw]
    | nop => rfl

/-- **The parser accepts what the grammar derives, and nothing else.** -/
theorem parse_eq_some_iff : parse ts = some l ↔ Grammar ts l := by
  constructor
  · fun_cases parse ts with
    | case1 id ts =>
      intro h
      have hnum : InstrNum [.addr, .id id] id := .addr
      exact .instr hnum (parseInstr_eq_some_iff.mp h)
    | case2 id ts =>
      intro h
      have hnum : InstrNum [.id id] id := .id
      exact .instr hnum (parseInstr_eq_some_iff.mp h)
    | case3 => exact nofun
  · rintro ⟨_ | _, h⟩
    · exact parseInstr_eq_some_iff.mpr h
    · exact parseInstr_eq_some_iff.mpr h

end Assembly

end NfpEstimator
