import NfpEstimator.Flex

/-!
# The lexer for models

The tokens of a model that the solver prints. Blanks are no token. What no other rule is made for is a token of one
character.
-/

namespace NfpEstimator

namespace SatChecker

open Flex Flex.Pattern

/-- The values of the type `std::uint64_t`. -/
abbrev Word := Fin (2 ^ 64)

instance instNeZeroWord : NeZero (2 ^ 64) := ⟨by decide⟩

/-- The tokens of `model.ypp`. The value of a `Number` is not used. -/
inductive Token where
  | model | defineFun | bitvec | bool_ | array | asArray | asConst32x0 | ite | eq | unspecified
  | BV (value : Word)
  | Boolean (value : Bool)
  | Number
  | Name (str : String)
  /-- `'('`. -/
  | lparen
  /-- `')'`. -/
  | rparen
  /-- Another character that stands for itself. -/
  | char (c : Char)
  deriving DecidableEq

/-- `[\t\n ]`. -/
def isBlank (c : Char) : Bool := c == '\t' || c == '\n' || c == ' '

/-- `[0-9a-f]`. -/
def isHex (c : Char) : Bool := ('0' ≤ c && c ≤ '9') || ('a' ≤ c && c ≤ 'f')

/-- `[01]`. -/
def isBit (c : Char) : Bool := c == '0' || c == '1'

/-- `[a-z]`. -/
def isNameStart (c : Char) : Bool := 'a' ≤ c && c ≤ 'z'

/-- `[a-zA-Z0-9_!]`. -/
def isNameRest (c : Char) : Bool := c.isAlphanum || c == '_' || c == '!'

/-- `[\t\n ]+`. -/
def blanks : Pattern := seq (chr isBlank) (many isBlank)

/-- Texts, one or more, with blanks between them. -/
def spaced (s : String) : List String → Pattern
  | [] => lit s
  | t :: ts => seq (lit s) (seq blanks (spaced t ts))

/-- `(6[0-4]|[1-5]?[0-9])`. -/
def width : Pattern :=
  alt (seq (lit "6") (chr fun c => '0' ≤ c && c ≤ '4')) (seq (opt (chr fun c => '1' ≤ c && c ≤ '5')) (chr Char.isDigit))

/-- The value of a digit. -/
def digit (c : Char) : ℕ := if c.isDigit then c.toNat - '0'.toNat else c.toNat - 'a'.toNat + 10

/-- A number in base `b`, as one of 64 bits. -/
def number (b : ℕ) (cs : List Char) : Word := Fin.ofNat _ (cs.foldl (fun n c => b * n + digit c) 0)

/-- The token of a character that no other rule is made for. -/
def Token.ofChar (c : Char) : Token := if c = '(' then .lparen else if c = ')' then .rparen else .char c

/-- A character that ends the text: its code is 0 or is negative as a `char`. -/
def endsText (c : Char) : Bool := c.toNat == 0 || 128 ≤ c.toNat

/-- `return yytext[0];`. -/
def charAction (w : List Char) : Action Token :=
  match w with
  | c :: _ => if endsText c then .stop else .token (.ofChar c)
  | [] => .skip

/-- The rule for a `Name`. -/
def nameRule : Rule Token := ⟨seq (chr isNameStart) (many isNameRest), fun w => .token (.Name (String.ofList w))⟩

/-- The rules of `model.l`. -/
def rules : List (Rule Token) :=
  [ .token (lit "(model") .model,
    .token (lit "(define-fun") .defineFun,
    .token (lit "(Array") .array,
    .token (lit "(ite") .ite,
    .token (lit "(=") .eq,
    .token (lit "#unspecified") .unspecified,
    .token (lit "Bool") .bool_,
    .token (spaced "(_" ["as-array"]) .asArray,
    .token (spaced "((as" ["const", "(Array", "(_", "BitVec", "32)", "(_", "BitVec", "32)))", "#x00000000)"])
      .asConst32x0,
    .token (seq (spaced "(_" ["BitVec"]) (seq blanks (seq width (lit ")")))) .bitvec,
    ⟨seq (lit "#x") (seq (chr isHex) (upTo isHex 15)), fun w => .token (.BV (number 16 (w.drop 2)))⟩,
    ⟨seq (lit "#b") (seq (chr isBit) (upTo isBit 63)), fun w => .token (.BV (number 2 (w.drop 2)))⟩,
    .token (alt (lit "0") (seq (chr fun c => '1' ≤ c && c ≤ '9') (seq (chr Char.isDigit) (many Char.isDigit)))) .Number,
    .token (lit "true") (.Boolean true),
    .token (lit "false") (.Boolean false),
    nameRule,
    ⟨chr isBlank, fun _ => .skip⟩,
    ⟨chr (· != '\n'), charAction⟩ ]

/-- The tokens of a text. -/
def lex (text : String) : List Token := Flex.lex rules text.toList

/-- They can be found from the lengths of the matches. -/
theorem lex_ofList (cs : List Char) : lex (String.ofList cs) = Flex.run rules cs.length cs := by
  rw [lex, String.toList_ofList, Flex.lex, Flex.run_eq]

/-! ### Names -/

theorem charAction_ne_name {w : List Char} {s : String} : charAction w ≠ .token (.Name s) := by
  fun_cases charAction w with
  | case1 | case3 => simp
  | case2 c w =>
    unfold Token.ofChar
    split_ifs <;> simp

/-- No other rule is for names. -/
theorem eq_nameRule {r : Rule Token} {w : List Char} {s : String} (hr : r ∈ rules)
    (h : r.action w = .token (.Name s)) : r = nameRule := by
  simp only [rules, List.mem_cons, List.not_mem_nil, or_false] at hr
  rcases hr with rfl | rfl | rfl | rfl | rfl | rfl | rfl | rfl | rfl | rfl | rfl | rfl | rfl | rfl | rfl | rfl | rfl | rfl
  all_goals first | rfl | exact absurd h charAction_ne_name | simp [Rule.token] at h

/-- A name is not empty. -/
theorem name_ne_empty {text s : String} (h : .Name s ∈ lex text) : s ≠ "" := by
  obtain ⟨r, hr, w, hw, haction⟩ := Flex.mem_lex h
  obtain rfl := eq_nameRule hr haction
  obtain ⟨_, ⟨c, -, rfl⟩, v, -, rfl⟩ := mem_lang_seq.mp hw
  obtain rfl := Token.Name.inj (Action.token.inj haction)
  exact fun hs => nomatch String.ofList_eq_empty_iff.mp hs

end SatChecker

end NfpEstimator
