import NfpEstimator.Assembly.Printing

/-!
# Instructions of a listing

Every rule of the lexer keeps the numbers in their range, so whatever is read from a line is such that it can be
printed (`valid_of_buildInstr`). What is read and printed is read again (`buildInstr_str`).
-/

namespace NfpEstimator

namespace Assembly

open Flex Flex.Pattern

variable {w : List Char} {a : Token} {id n : ℕ} {l : Line} {sc : Option ShiftCntl} {b : Bool}

/-! ### Rules -/

/-- The values of a token are in their range. -/
def Token.Valid : Token → Prop
  | .shift sc => ShiftCntl.Valid sc
  | .shiftARight sc => Aright.Valid sc
  | .id n | .uint n | .hexInt n => n < 2 ^ 32
  | .mask n => MaskValid n
  | .gpr g => g.number < 100
  | .xfer number => number < 100
  | .indexed _ offset => offset < 100
  | _ => True

/-- Every token of the rule is valid. -/
def RuleValid (r : Rule Token) : Prop := ∀ w ∈ r.pattern.lang, ∀ a, r.action w = .token a → a.Valid

theorem ruleValid_token {p : Pattern} (h : a.Valid) : RuleValid (.token p a) := by
  rintro w - b hb
  obtain rfl : a = b := Action.token.inj hb
  exact h

/-- A rule for a number behind a text. -/
theorem ruleValid_after {s : String} {p : Pattern} {k : ℕ} {f : ℕ → Token} (hk : s.toList.length = k)
    (h : ∀ v ∈ p.lang, (f (scanUint v)).Valid) : RuleValid ⟨after s p, fun w => .token (f (scanUint (w.drop k)))⟩ := by
  rintro w ⟨_, rfl, v, hv, rfl⟩ b hb
  obtain rfl := Action.token.inj hb
  have hdrop : (s.toList ++ v).drop k = v := List.drop_left' hk
  dsimp only
  rw [hdrop]
  exact h v hv

theorem number_lt {text rest : List Char} {base bits k : ℕ} (h : Scanf.number base bits text = some (k, rest)) :
    k < 2 ^ bits := by
  rw [Scanf.number] at h
  dsimp only at h
  split at h
  · cases h
  · obtain ⟨rfl, -⟩ := Prod.mk.inj (Option.some.inj h)
    exact Nat.mod_lt _ (Nat.two_pow_pos bits)

theorem scanned_lt {text : List Char} {base : ℕ} : ((Scanf.number base 32 text).map Prod.fst).getD 0 < 2 ^ 32 := by
  cases h : Scanf.number base 32 text with
  | none => exact Nat.two_pow_pos 32
  | some p => exact number_lt h

/-- The digits. -/
def digits : List Char := "0123456789".toList

theorem mem_digits {c : Char} (h : c.isDigit) : c ∈ digits := by
  have hall : ∀ k < 58, 48 ≤ k → Char.ofNat k ∈ digits := by decide
  have hofNat : Char.ofNat c.toNat = c := Char.ofNat_toNat c
  simp only [Char.isDigit, Bool.and_eq_true, decide_eq_true_eq] at h
  rw [← hofNat]
  exact hall c.toNat (Nat.lt_succ_of_le h.2) h.1

theorem isDigit_ten {c : Char} (h : c.isDigit) : Scanf.isDigit 10 c := by
  have hall : (digits.all fun c => Scanf.isDigit 10 c) = true := by decide
  exact List.all_eq_true.mp hall c (mem_digits h)

theorem digitVal_pos {c : Char} (h : isNonzero c) (hdigit : c.isDigit) : 0 < Scanf.digitVal c := by
  have hall : (digits.all fun c => !isNonzero c || decide (0 < Scanf.digitVal c)) = true := by decide
  simpa [h] using List.all_eq_true.mp hall c (mem_digits hdigit)

theorem isDigit_of_isNonzero {c : Char} (h : isNonzero c) : c.isDigit := by
  simp only [isNonzero, Bool.and_eq_true, decide_eq_true_eq] at h
  simp only [Char.isDigit, Bool.and_eq_true, decide_eq_true_eq]
  exact ⟨le_trans (by decide) h.1, h.2⟩

theorem scanUint_digits {v rest : List Char} (hv : ∀ c ∈ v, c.isDigit) (hne : v ≠ []) (hlen : v.length ≤ 4)
    (hrest : Scanf.Stops 10 rest) : scanUint (v ++ rest) = Scanf.ofDigits 10 v := by
  have hds : ∀ c ∈ v, Scanf.isDigit 10 c := fun c hc => isDigit_ten (hv c hc)
  have hlt : Scanf.ofDigits 10 v < 2 ^ 32 :=
    calc Scanf.ofDigits 10 v < 10 ^ v.length := Scanf.ofDigits_lt hds
      _ ≤ 10 ^ 4 := Nat.pow_le_pow_right (by decide) hlen
      _ ≤ 2 ^ 32 := by decide
  rw [scanUint, Scanf.number_digits hds hne hrest (by decide) (by decide) hlt]
  rfl

theorem ofDigits_lt_hundred {v : List Char} (hv : ∀ c ∈ v, c.isDigit) (hlen : v.length ≤ 2) :
    Scanf.ofDigits 10 v < 100 := by
  calc Scanf.ofDigits 10 v < 10 ^ v.length := Scanf.ofDigits_lt fun c hc => isDigit_ten (hv c hc)
    _ ≤ 10 ^ 2 := Nat.pow_le_pow_right (by decide) hlen

theorem number_bounds {v rest : List Char} (h : v ∈ number.lang) (hrest : Scanf.Stops 10 rest) :
    scanUint (v ++ rest) < 100 := by
  have hdigits : (∀ c ∈ v, c.isDigit) ∧ v ≠ [] ∧ v.length ≤ 2 := by
    obtain ⟨a, ha, b, ⟨d, hd, rfl⟩, rfl⟩ := mem_lang_seq.mp h
    rcases mem_lang_opt.mp ha with rfl | ⟨c, hc, rfl⟩
    · simpa using hd
    · simpa using ⟨isDigit_of_isNonzero hc, hd⟩
  obtain ⟨hv, hne, hlen⟩ := hdigits
  rw [scanUint_digits hv hne (by omega) hrest]
  exact ofDigits_lt_hundred hv hlen

theorem amount_bounds {v : List Char} (h : v ∈ amount.lang) : 0 < scanUint v ∧ scanUint v < 100 := by
  have hdigits : (∀ c ∈ v, c.isDigit) ∧ v ≠ [] ∧ v.length ≤ 2 ∧ 0 < Scanf.ofDigits 10 v := by
    obtain ⟨a, ⟨c, hc, rfl⟩, b, hb, rfl⟩ := mem_lang_seq.mp h
    have hdigit := isDigit_of_isNonzero hc
    have hval := digitVal_pos hc hdigit
    rcases mem_lang_opt.mp hb with rfl | ⟨d, hd, rfl⟩
    · simpa [Scanf.ofDigits, hdigit] using hval
    · simp [Scanf.ofDigits, hdigit, hd]
      omega
  obtain ⟨hv, hne, hlen, hlo⟩ := hdigits
  have heq : scanUint (v ++ []) = Scanf.ofDigits 10 v := scanUint_digits hv hne (by omega) (by simp [Scanf.Stops])
  rw [List.append_nil] at heq
  rw [heq]
  exact ⟨hlo, ofDigits_lt_hundred hv hlen⟩

theorem bits_valid {v : List Char} (h : v ∈ bits.lang) : MaskValid (scanUint v) := by
  have hbit : ∀ c, isBit c → c = '0' ∨ c = '1' := by
    intro c hc
    simpa [isBit] using hc
  have hdigit : ∀ c, isBit c → c.isDigit := by
    intro c hc
    rcases hbit c hc with rfl | rfl <;> rfl
  obtain ⟨_, ⟨a, ha, rfl⟩, _, ⟨_, ⟨b, hb, rfl⟩, _, ⟨_, ⟨c, hc, rfl⟩, _, ⟨d, hd, rfl⟩, rfl⟩, rfl⟩, rfl⟩ := h
  have hv : ∀ x ∈ [a, b, c, d], x.isDigit := by
    simp [hdigit a ha, hdigit b hb, hdigit c hc, hdigit d hd]
  have heq : scanUint ([a, b, c, d] ++ []) = Scanf.ofDigits 10 [a, b, c, d] :=
    scanUint_digits hv (List.cons_ne_nil _ _) le_rfl nofun
  rw [List.append_nil] at heq
  change MaskValid (scanUint [a, b, c, d])
  rw [heq]
  rcases hbit a ha with rfl | rfl <;> rcases hbit b hb with rfl | rfl <;> rcases hbit c hc with rfl | rfl <;>
    rcases hbit d hd with rfl | rfl <;> rfl

theorem ruleValid_gpr : RuleValid ⟨after "gpr" (.seq (.alt (.lit "A") (.lit "B")) (after "_" number)),
    fun w => .token (.gpr ⟨bankOf (w.getD 3 'A'), scanUint (w.drop 5)⟩)⟩ := by
  rintro w ⟨_, rfl, _, ⟨b, hb, _, ⟨_, rfl, v, hv, rfl⟩, rfl⟩, rfl⟩ a ha
  obtain rfl := Action.token.inj ha
  have hdrop : ∀ s : String, s.toList.length = 1 →
      ("gpr".toList ++ (s.toList ++ ("_".toList ++ v))).drop 5 = v := by
    intro s hs
    rw [← List.append_assoc, ← List.append_assoc]
    exact List.drop_left' (by simp [hs])
  have hlt : scanUint (v ++ []) < 100 := number_bounds hv nofun
  rw [List.append_nil] at hlt
  rcases mem_lang_alt.mp hb with rfl | rfl
  · change scanUint (List.drop 5 ("gpr".toList ++ ("A".toList ++ ("_".toList ++ v)))) < 100
    rwa [hdrop "A" rfl]
  · change scanUint (List.drop 5 ("gpr".toList ++ ("B".toList ++ ("_".toList ++ v)))) < 100
    rwa [hdrop "B" rfl]

theorem ruleValid_indexed : RuleValid ⟨indexedOffset,
    fun w => .token (.indexed (Fin.ofNat 4 (scanUint (w.drop 8))) (scanUint (w.drop 10)))⟩ := by
  rintro w ⟨_, rfl, _, ⟨_, ⟨c, -, rfl⟩, _, ⟨_, rfl, _, ⟨v, hv, _, rfl, rfl⟩, rfl⟩, rfl⟩, rfl⟩ a ha
  obtain rfl := Action.token.inj ha
  have hdrop : ("*l$index".toList ++ ([c] ++ ("[".toList ++ (v ++ "]".toList)))).drop 10 = v ++ "]".toList := by
    rw [← List.append_assoc, ← List.append_assoc]
    exact List.drop_left' rfl
  change scanUint (List.drop 10 ("*l$index".toList ++ ([c] ++ ("[".toList ++ (v ++ "]".toList))))) < 100
  rw [hdrop]
  exact number_bounds hv fun c hc => by obtain rfl := Option.mem_some.mp hc; decide

theorem ruleValid_char : RuleValid ⟨.chr (· != '\n'), charAction⟩ := by
  rintro w ⟨c, -, rfl⟩ a ha
  change (if SatChecker.endsText c then Action.stop else .token (Token.ofChar c)) = .token a at ha
  split at ha
  · exact nomatch ha
  · obtain rfl := Action.token.inj ha
    rw [Token.ofChar]
    split_ifs <;> trivial

theorem ruleValid {r : Rule Token} (hr : r ∈ rules) : RuleValid r := by
  revert r
  simp only [rules, List.forall_mem_cons]
  repeat' apply And.intro
  -- only the rules for numbers are left, and those for a single character
  any_goals exact ruleValid_token trivial
  · exact ruleValid_after (f := fun n => .shift (.leftim n)) rfl fun v hv => amount_bounds hv
  · exact ruleValid_after (f := fun n => .shiftARight (.rightim n)) rfl fun v hv => amount_bounds hv
  · exact ruleValid_after (f := fun n => .shift (.rotleftim n)) rfl fun v hv => amount_bounds hv
  · exact ruleValid_after (f := fun n => .shift (.rotrightim n)) rfl fun v hv => amount_bounds hv
  · exact ruleValid_after (f := .id) rfl fun v hv => scanned_lt
  · rintro w hw a ha
    obtain rfl := Action.token.inj ha
    exact bits_valid hw
  · rintro w - a ha
    obtain rfl := Action.token.inj ha
    exact scanned_lt
  · rintro w - a ha
    obtain rfl := Action.token.inj ha
    exact scanned_lt
  · exact ruleValid_gpr
  · refine ruleValid_after (f := .xfer) rfl fun v hv => ?_
    have hlt : scanUint (v ++ []) < 100 := number_bounds hv nofun
    rwa [List.append_nil] at hlt
  · exact ruleValid_indexed
  · exact ruleValid_after (f := fun n => .indexed (Fin.ofNat 4 n) 0) rfl fun v hv => Nat.zero_lt_succ 99
  · exact ruleValid_after (f := fun n => .localCsr (Fin.ofNat 4 n)) rfl fun v hv => trivial
  · rintro w - a ha
    exact nomatch ha
  · exact ruleValid_char
  · exact fun r hr => nomatch hr

/-! ### Nonterminals and productions -/

theorem valid_of_mem {text : List Char} (h : a ∈ tokens text) : a.Valid := by
  obtain ⟨r, hr, w, hw, ha⟩ := mem_lex h
  exact ruleValid hr w hw a ha

theorem valid_int {t : Token} (ht : t.Valid) (h : int t = some n) : n < 2 ^ 32 := by
  cases t with
  | uint k | hexInt k =>
    obtain rfl := Option.some.inj h
    exact ht
  | mask k =>
    obtain rfl := Option.some.inj h
    exact MaskValid.lt ht
  | _ => exact nomatch h

theorem valid_dst {t : Token} {d : Dst} (ht : t.Valid) (h : dst t = some d) : Dst.Valid d := by
  cases t with
  | gpr | indexed | xfer | omitted =>
    obtain rfl := Option.some.inj h
    exact ht
  | _ => exact nomatch h

theorem valid_src {t : Token} {s : Src} (ht : t.Valid) (h : src t = some s) : Src.Valid s := by
  cases t with
  | gpr | indexed | xfer | omitted =>
    obtain rfl := Option.some.inj h
    exact ht
  | uint k | hexInt k | mask k =>
    obtain rfl := Option.some.inj h
    exact valid_int ht rfl
  | _ => exact nomatch h

theorem valid_mulSrc {t : Token} {s : Src} (ht : t.Valid) (h : mulSrc t = some s) : Src.Valid s := by
  cases t with
  | gpr =>
    obtain rfl := Option.some.inj h
    exact ht
  | uint k | hexInt k | mask k =>
    obtain rfl := Option.some.inj h
    exact valid_int ht rfl
  | _ => exact nomatch h

theorem valid_mulDst {t : Token} {d : Dst} (ht : t.Valid) (h : mulDst t = some d) : Dst.Valid d := by
  cases t with
  | gpr | omitted =>
    obtain rfl := Option.some.inj h
    exact ht
  | _ => exact nomatch h

theorem valid_shift {t : Token} {s : ShiftCntl} (ht : t.Valid) (h : shift t = some s) : ShiftCntl.Valid s := by
  cases t with
  | shift | shiftARight =>
    obtain rfl := Option.some.inj h
    exact ht
  | _ => exact nomatch h

theorem valid_optShift {ts : List Token} (h : OptShift ts sc) (hts : ∀ t ∈ ts, t.Valid) :
    ∀ s ∈ sc, ShiftCntl.Valid s := by
  cases h with
  | shift hsc =>
    rintro s ⟨⟩
    exact valid_shift (hts _ (by simp)) hsc
  | nil => exact nofun

theorem valid_defer {ts : List Token} (h : Defer ts n) (hts : ∀ t ∈ ts, t.Valid) : n < 2 ^ 32 := by
  cases h with
  | defer hn => exact valid_int (hts _ (by simp)) hn
  | nil => exact Nat.two_pow_pos 32

theorem valid_refs {ts : List Token} {s : Option ℕ} (h : Refs ts b s) (hts : ∀ t ∈ ts, t.Valid) :
    ∀ n ∈ s, n < 2 ^ 32 - 1 := by
  have hctx : ∀ us, (∀ t ∈ us, t.Valid) → CtxSwap us s → ∀ n ∈ s, n < 2 ^ 32 - 1 := by
    intro us hus hs n hn
    cases hs with
    | ctxSwap hk =>
      have hlt := valid_int (hus _ (by simp)) hk
      rw [signal] at hn
      split at hn
      · simp at hn
      · obtain rfl := Option.some.inj hn
        omega
    | nil => simp [signal] at hn
  cases h with
  | direct hs => exact hctx _ hts hs
  | indirect hs => exact hctx _ (fun t ht => hts t (by simp [ht])) hs

theorem valid_mem {ts : List Token} {m : MemArgs} (h : Mem ts m) (hts : ∀ t ∈ ts, t.Valid) : m.Valid := by
  cases h with
  | local_ ha hb hn hr =>
    exact ⟨valid_src (hts _ (by simp)) ha, nofun, valid_src (hts _ (by simp)) hb, nofun, .inl rfl,
      valid_int (hts _ (by simp)) hn, valid_refs hr fun t ht => hts t (by simp [ht])⟩
  | shift1 ha hc hb hn hr =>
    refine ⟨valid_src (hts _ (by simp)) ha, ?_, valid_src (hts _ (by simp)) hb, nofun, .inr rfl,
      valid_int (hts _ (by simp)) hn, valid_refs hr fun t ht => hts t (by simp [ht])⟩
    rintro s ⟨⟩
    exact valid_shift (hts _ (by simp)) hc
  | shift2 ha hb hc hn hr =>
    refine ⟨valid_src (hts _ (by simp)) ha, nofun, valid_src (hts _ (by simp)) hb, ?_, .inl rfl,
      valid_int (hts _ (by simp)) hn, valid_refs hr fun t ht => hts t (by simp [ht])⟩
    rintro s ⟨⟩
    exact valid_shift (hts _ (by simp)) hc

theorem valid_instr {ts : List Token} (hid : id < 2 ^ 32) (h : Instr id ts l) (hts : ∀ t ∈ ts, t.Valid) : l.Valid := by
  cases h with
  | alu hd ha hb hw =>
    exact ⟨⟨hid, valid_dst (hts _ (by simp)) hd, valid_src (hts _ (by simp)) ha, valid_src (hts _ (by simp)) hb⟩, rfl⟩
  | aluShf hd ha hb hc hw | dblShf hd ha hb hc hw =>
    exact ⟨⟨hid, valid_dst (hts _ (by simp)) hd, valid_src (hts _ (by simp)) ha, valid_src (hts _ (by simp)) hb,
      valid_shift (hts _ (by simp)) hc⟩, rfl⟩
  | @asr d a d' a' sc ts w hd ha hw =>
    have hsc : (Token.shiftARight sc).Valid := hts _ (by simp)
    exact ⟨⟨hid, valid_dst (hts _ (by simp)) hd, valid_src (hts _ (by simp)) ha, hsc⟩, rfl⟩
  | @branch cond target n ts hn | @br target n ts hn =>
    have htarget : (Token.id target).Valid := hts _ (by simp)
    exact ⟨⟨hid, htarget⟩, valid_defer hn fun t ht => hts t (by simp [ht])⟩
  | immed hd hn hsc hw =>
    exact ⟨⟨hid, valid_dst (hts _ (by simp)) hd, valid_int (hts _ (by simp)) hn,
      valid_optShift hsc fun t ht => hts t (by simp [ht])⟩, rfl⟩
  | @immedW1 g i n ts w hn hw =>
    have hg : (Token.gpr g).Valid := hts _ (by simp)
    exact ⟨⟨hid, ⟨g, rfl⟩, hg, valid_int (hts _ (by simp)) hn⟩, rfl⟩
  | @ldField d a d' a' m sc us ts w hd ha hsc hw | @ldFieldWClr d a d' a' m sc us ts w hd ha hsc hw =>
    have hm : (Token.mask m).Valid := hts _ (by simp)
    exact ⟨⟨hid, valid_dst (hts _ (by simp)) hd, hm, valid_src (hts _ (by simp)) ha,
      valid_optShift hsc fun t ht => hts t (by simp [ht])⟩, rfl⟩
  | localCsrWr ha => exact ⟨⟨hid, valid_src (hts _ (by simp)) ha⟩, rfl⟩
  | @memRead x ts m hm =>
    have hx : (Token.xfer x).Valid := hts _ (by simp)
    exact ⟨⟨hid, hx, valid_mem hm fun t ht => hts t (by simp [ht])⟩, rfl⟩
  | @memWrite op x ts m hm =>
    have hx : (Token.xfer x).Valid := hts _ (by simp)
    exact ⟨⟨hid, hx, valid_mem hm fun t ht => hts t (by simp [ht])⟩, rfl⟩
  | mulStep ha hb =>
    exact ⟨⟨hid, ⟨_, ha⟩, valid_mulSrc (hts _ (by simp)) ha, ⟨_, hb⟩, valid_mulSrc (hts _ (by simp)) hb⟩, rfl⟩
  | mulStepLast hd hw => exact ⟨⟨hid, ⟨_, hd⟩, valid_mulDst (hts _ (by simp)) hd⟩, rfl⟩
  | nop => exact ⟨hid, rfl⟩

/-! ### Lines -/

/-- **What is read from a listing is valid**: no number is cut when it is kept. -/
theorem valid_of_buildInstr {text : List Char} (h : buildInstr text = some l) : l.Valid := by
  have hts : ∀ t ∈ tokens text, t.Valid := fun t => valid_of_mem
  rw [buildInstr, parse_eq_some_iff] at h
  generalize tokens text = ts at h hts
  obtain @⟨id, us, ts, l, hnum, hinstr⟩ := h
  have hid : (Token.id id).Valid := by
    cases hnum with
    | addr | id => exact hts _ (by simp)
  exact valid_instr hid hinstr fun t ht => hts t (List.mem_append_right _ ht)

/-- **What is read and printed is read again**, and is the same; a mask that begins with 0 is refused. -/
theorem buildInstr_str {text : List Char} (h : buildInstr text = some l) :
    buildInstr l.str = if l.fullMask then some l else none := by
  have hvalid := valid_of_buildInstr h
  split_ifs with hfull
  · exact buildInstr_of_fullMask hvalid hfull
  · exact buildInstr_eq_none hvalid (Bool.eq_false_iff.mpr hfull)

theorem buildInstr_example : buildInstr ".1 ld_field[gprA_3, 0011, $xfer_2]".toList =
    some ⟨.ldField 1 (.gpr ⟨.A, 3⟩) 11 (.xferIn 2) none false, 0⟩ := by
  have htokens : tokens ".1 ld_field[gprA_3, 0011, $xfer_2]".toList =
      [.id 1, .ldField, .lbrack, .gpr ⟨.A, 3⟩, .comma, .mask 11, .comma, .xfer 2, .rbrack] := by decide +kernel
  rw [buildInstr, htokens]
  rfl

theorem buildInstr_str_mask :
    buildInstr (Line.str ⟨.ldField 1 (.gpr ⟨.A, 3⟩) 11 (.xferIn 2) none false, 0⟩) = none :=
  buildInstr_str buildInstr_example

theorem valid_of_buildInstr_mask : Line.Valid ⟨.ldField 1 (.gpr ⟨.A, 3⟩) 11 (.xferIn 2) none false, 0⟩ :=
  valid_of_buildInstr buildInstr_example

end Assembly

end NfpEstimator
