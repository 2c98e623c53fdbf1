import NfpEstimator.SatChecker.Lexer

/-!
# The grammar of models

A model is a list of definitions between parentheses: bit-vectors, Booleans, arrays that are functions, constant
arrays, and functions as chains of `ite`. The productions are those of `model.ypp`.

The parser that `bison` generates refuses what does not fit into a stack of `YYMAXDEPTH` symbols, 10000 if nothing else
is said; a chain takes six of them for each branch. There is no such limit here.

The main result is that the parser accepts exactly what the grammar derives, and with these definitions
(`parse_eq_some_iff`).
-/

namespace NfpEstimator

namespace SatChecker

/-- What is defined. -/
inductive Definition where
  | bv (name : String) (value : Word)
  | bool_ (name : String)
  | arrayFun (name fun_ : String)
  | arrayConst (name : String)
  | fun_ (name : String) (kv : List (Word × Word))
  deriving DecidableEq

/-- The name that is defined. -/
def Definition.name : Definition → String
  | .bv n _ | .bool_ n | .arrayFun n _ | .arrayConst n | .fun_ n _ => n

/-! ### Productions -/

/-- `KV_LIST`. -/
inductive KvList : List Token → List (Word × Word) → Prop where
  | ite {ts : List Token} {kv : List (Word × Word)} {x : String} {k v : Word} : KvList ts kv →
    KvList (.ite :: .eq :: .Name x :: .BV k :: .rparen :: .BV v :: (ts ++ [.rparen])) ((k, v) :: kv)
  | unspecified : KvList [.unspecified] []

/-- What follows `LIST` in a production of `LIST`. -/
inductive Item : List Token → Definition → Prop where
  | funbv {n : String} {v : Word} :
    Item [.defineFun, .Name n, .lparen, .rparen, .bitvec, .BV v, .rparen] (.bv n v)
  | funbool {n : String} {b : Bool} :
    Item [.defineFun, .Name n, .lparen, .rparen, .bool_, .Boolean b, .rparen] (.bool_ n)
  | funa {n f : String} :
    Item [.defineFun, .Name n, .lparen, .rparen, .array, .bitvec, .bitvec, .rparen, .asArray, .Name f, .rparen, .rparen]
      (.arrayFun n f)
  | funaConst {n : String} :
    Item [.defineFun, .Name n, .lparen, .rparen, .array, .bitvec, .bitvec, .rparen, .asConst32x0, .rparen]
      (.arrayConst n)
  | funf {n x : String} {ts : List Token} {kv : List (Word × Word)} : KvList ts kv →
    Item (.defineFun :: .Name n :: .lparen :: .lparen :: .Name x :: .bitvec :: .rparen :: .rparen :: .bitvec ::
      (ts ++ [.rparen])) (.fun_ n kv)

/-- `LIST`. -/
inductive Items : List Token → List Definition → Prop where
  | one {ts : List Token} {d : Definition} : Item ts d → Items ts [d]
  | snoc {ts us : List Token} {ds : List Definition} {d : Definition} :
    Items ts ds → Item us d → Items (ts ++ us) (ds ++ [d])

/-- `S`. -/
inductive Grammar : List Token → List Definition → Prop where
  | modelNil : Grammar [.model, .rparen] []
  | model {ts : List Token} {ds : List Definition} : Items ts ds → Grammar (.model :: (ts ++ [.rparen])) ds
  | parenNil : Grammar [.lparen, .rparen] []
  | paren {ts : List Token} {ds : List Definition} : Items ts ds → Grammar (.lparen :: (ts ++ [.rparen])) ds

/-! ### The parser -/

/-- A `KV_LIST`, and what follows it. -/
def parseKvList : List Token → Option (List (Word × Word) × List Token)
  | .ite :: .eq :: .Name _ :: .BV k :: .rparen :: .BV v :: ts =>
    match parseKvList ts with
    | some (kv, .rparen :: rest) => some ((k, v) :: kv, rest)
    | _ => none
  | .unspecified :: ts => some ([], ts)
  | _ => none

/-- A definition, and what follows it. -/
def parseItem : List Token → Option (Definition × List Token)
  | .defineFun :: .Name n :: .lparen :: .rparen :: .bitvec :: .BV v :: .rparen :: ts => some (.bv n v, ts)
  | .defineFun :: .Name n :: .lparen :: .rparen :: .bool_ :: .Boolean _ :: .rparen :: ts => some (.bool_ n, ts)
  | .defineFun :: .Name n :: .lparen :: .rparen :: .array :: .bitvec :: .bitvec :: .rparen :: .asArray :: .Name f ::
      .rparen :: .rparen :: ts => some (.arrayFun n f, ts)
  | .defineFun :: .Name n :: .lparen :: .rparen :: .array :: .bitvec :: .bitvec :: .rparen :: .asConst32x0 ::
      .rparen :: ts => some (.arrayConst n, ts)
  | .defineFun :: .Name n :: .lparen :: .lparen :: .Name _ :: .bitvec :: .rparen :: .rparen :: .bitvec :: ts =>
    match parseKvList ts with
    | some (kv, .rparen :: rest) => some (.fun_ n kv, rest)
    | _ => none
  | _ => none

/-- At most `n` definitions, and the last parenthesis. -/
def parseItems : ℕ → List Token → Option (List Definition)
  | _, [.rparen] => some []
  | 0, _ => none
  | n + 1, ts =>
    match parseItem ts with
    | some (d, rest) => (parseItems n rest).map (d :: ·)
    | none => none

/-- `model_parse`. -/
def parse : List Token → Option (List Definition)
  | .model :: ts => parseItems ts.length ts
  | .lparen :: ts => parseItems ts.length ts
  | _ => none

variable {ts us rest : List Token} {kv : List (Word × Word)} {d : Definition} {ds : List Definition}

/-! ### What is parsed is derived -/

theorem parseKvList_sound (h : parseKvList ts = some (kv, rest)) : ∃ us, KvList us kv ∧ ts = us ++ rest := by
  fun_induction parseKvList ts generalizing kv rest with
  | case1 x k v ts kv' rest' hts ih =>
    obtain ⟨rfl, rfl⟩ := Prod.mk.inj (Option.some.inj h)
    obtain ⟨us, hus, rfl⟩ := ih hts
    exact ⟨_, .ite (x := x) hus, by simp⟩
  | case3 ts =>
    obtain ⟨rfl, rfl⟩ := Prod.mk.inj (Option.some.inj h)
    exact ⟨_, .unspecified, rfl⟩
  | case2 | case4 => exact nomatch h

theorem parseItem_sound (h : parseItem ts = some (d, rest)) : ∃ us, Item us d ∧ ts = us ++ rest := by
  revert h
  fun_cases parseItem ts with
  | case1 n v ts =>
    intro h
    obtain ⟨rfl, rfl⟩ := Prod.mk.inj (Option.some.inj h)
    exact ⟨_, .funbv, rfl⟩
  | case2 n b ts =>
    intro h
    obtain ⟨rfl, rfl⟩ := Prod.mk.inj (Option.some.inj h)
    exact ⟨_, .funbool (b := b), rfl⟩
  | case3 n f ts =>
    intro h
    obtain ⟨rfl, rfl⟩ := Prod.mk.inj (Option.some.inj h)
    exact ⟨_, .funa, rfl⟩
  | case4 n ts =>
    intro h
    obtain ⟨rfl, rfl⟩ := Prod.mk.inj (Option.some.inj h)
    exact ⟨_, .funaConst, rfl⟩
  | case5 n x ts kv rest' hts =>
    intro h
    obtain ⟨rfl, rfl⟩ := Prod.mk.inj (Option.some.inj h)
    obtain ⟨us, hus, rfl⟩ := parseKvList_sound hts
    exact ⟨_, .funf (x := x) hus, by simp⟩
  | case6 | case7 => exact nofun

theorem parseItems_sound {n : ℕ} (h : parseItems n ts = some ds) :
    ∃ parts, List.Forall₂ Item parts ds ∧ ts = parts.flatten ++ [.rparen] := by
  fun_induction parseItems n ts generalizing ds with
  | case1 =>
    obtain rfl := Option.some.inj h
    exact ⟨[], .nil, rfl⟩
  | case2 | case4 => exact nomatch h
  | case3 n ts hts d rest hd ih =>
    obtain ⟨ds', hds, rfl⟩ := Option.map_eq_some_iff.mp h
    obtain ⟨us, hus, rfl⟩ := parseItem_sound hd
    obtain ⟨parts, hparts, rfl⟩ := ih hds
    exact ⟨us :: parts, .cons hus hparts, by simp⟩

/-! ### What is derived is parsed -/

theorem KvList.parse (h : KvList ts kv) (rest : List Token) : parseKvList (ts ++ rest) = some (kv, rest) := by
  induction h generalizing rest with
  | ite h ih => simp [parseKvList, ih]
  | unspecified => rfl

theorem Item.parse (h : Item ts d) (rest : List Token) : parseItem (ts ++ rest) = some (d, rest) := by
  cases h with
  | funf h => simp [parseItem, h.parse]
  | _ => rfl

theorem Item.two_le_length (h : Item ts d) : 2 ≤ ts.length := by
  cases h <;> simp

theorem length_le_flatten {parts : List (List Token)} (h : List.Forall₂ Item parts ds) :
    parts.length ≤ parts.flatten.length := by
  induction h with
  | nil => exact Nat.le_refl _
  | cons hd _ ih =>
    have htwo := hd.two_le_length
    simp only [List.length_cons, List.flatten_cons, List.length_append]
    omega

theorem parseItems_complete {parts : List (List Token)} (h : List.Forall₂ Item parts ds) {n : ℕ}
    (hn : parts.length ≤ n) : parseItems n (parts.flatten ++ [.rparen]) = some ds := by
  induction h generalizing n with
  | nil => cases n <;> rfl
  | @cons us d parts ds hd hds ih =>
    obtain ⟨n, rfl⟩ := Nat.exists_eq_add_one_of_ne_zero (Nat.ne_of_gt (Nat.lt_of_lt_of_le (Nat.succ_pos _) hn))
    have hne : us ++ (parts.flatten ++ [Token.rparen]) ≠ [.rparen] := by
      intro he
      have hlen := congrArg List.length he
      have htwo := hd.two_le_length
      simp only [List.length_append, List.length_singleton] at hlen
      omega
    rw [List.flatten_cons, List.append_assoc, parseItems]
    · simp only [hd.parse, ih (Nat.le_of_succ_le_succ hn), Option.map_some]
    · exact hne

/-! ### Derivations -/

theorem Items.append (h : Items ts ds) {parts : List (List Token)} {ds' : List Definition}
    (hparts : List.Forall₂ Item parts ds') : Items (ts ++ parts.flatten) (ds ++ ds') := by
  induction hparts generalizing ts ds with
  | nil => simpa using h
  | cons hd _ ih => simpa using ih (h.snoc hd)

/-- A list of definitions, one after the other. -/
theorem items_iff : Items ts ds ↔ ds ≠ [] ∧ ∃ parts, List.Forall₂ Item parts ds ∧ ts = parts.flatten := by
  constructor
  · intro h
    induction h with
    | @one ts d h => exact ⟨List.cons_ne_nil _ _, [ts], .cons h .nil, by simp⟩
    | @snoc ts us ds d _ h ih =>
      obtain ⟨-, parts, hparts, rfl⟩ := ih
      exact ⟨by simp, parts ++ [us], List.rel_append hparts (.cons h .nil), by simp⟩
  · rintro ⟨hne, parts, hparts, rfl⟩
    cases hparts with
    | nil => exact absurd rfl hne
    | cons hd hds => simpa using (Items.one hd).append hds

/-- A model, in either form. -/
theorem grammar_iff : Grammar ts ds ↔
    ∃ t parts, (t = .model ∨ t = .lparen) ∧ List.Forall₂ Item parts ds ∧
      ts = t :: (parts.flatten ++ [.rparen]) := by
  constructor
  · intro h
    cases h with
    | modelNil => exact ⟨_, [], .inl rfl, .nil, rfl⟩
    | parenNil => exact ⟨_, [], .inr rfl, .nil, rfl⟩
    | model h =>
      obtain ⟨-, parts, hparts, rfl⟩ := items_iff.mp h
      exact ⟨_, parts, .inl rfl, hparts, rfl⟩
    | paren h =>
      obtain ⟨-, parts, hparts, rfl⟩ := items_iff.mp h
      exact ⟨_, parts, .inr rfl, hparts, rfl⟩
  · rintro ⟨t, parts, ht, hparts, rfl⟩
    cases hparts with
    | nil =>
      rcases ht with rfl | rfl
      · exact .modelNil
      · exact .parenNil
    | cons hd hds =>
      have hitems := items_iff.mpr ⟨List.cons_ne_nil _ _, _, .cons hd hds, rfl⟩
      rcases ht with rfl | rfl
      · exact .model hitems
      · exact .paren hitems

/-- **The parser accepts exactly what the grammar derives.** -/
theorem parse_eq_some_iff : parse ts = some ds ↔ Grammar ts ds := by
  rw [grammar_iff]
  constructor
  · fun_cases parse ts with
    | case1 ts =>
      intro h
      obtain ⟨parts, hparts, rfl⟩ := parseItems_sound h
      exact ⟨_, parts, .inl rfl, hparts, rfl⟩
    | case2 ts =>
      intro h
      obtain ⟨parts, hparts, rfl⟩ := parseItems_sound h
      exact ⟨_, parts, .inr rfl, hparts, rfl⟩
    | case3 => exact nofun
  · rintro ⟨t, parts, ht, hparts, rfl⟩
    have hn : parts.length ≤ (parts.flatten ++ [Token.rparen]).length :=
      Nat.le_trans (length_le_flatten hparts) (by simp)
    rcases ht with rfl | rfl <;> exact parseItems_complete hparts hn

/-- A text has one meaning. -/
theorem Grammar.unique {ds' : List Definition} (h : Grammar ts ds) (h' : Grammar ts ds') : ds = ds' :=
  Option.some.inj ((parse_eq_some_iff.mpr h).symm.trans (parse_eq_some_iff.mpr h'))

theorem grammar_ofList {cs : List Char} (h : parse (Flex.run rules cs.length cs) = some ds) :
    Grammar (lex (String.ofList cs)) ds := by
  rw [← parse_eq_some_iff, lex_ofList, h]

theorem Item.name_mem (h : Item ts d) : .Name d.name ∈ ts := by
  cases h <;> simp [Definition.name]

/-- Names are in the text. -/
theorem Grammar.name_mem (h : Grammar ts ds) (hd : d ∈ ds) : .Name d.name ∈ ts := by
  obtain ⟨t, parts, -, hparts, rfl⟩ := grammar_iff.mp h
  refine List.mem_cons_of_mem _ (List.mem_append_left _ ?_)
  clear h
  induction hparts with
  | nil => exact nomatch hd
  | cons hitem _ ih =>
    rcases List.mem_cons.mp hd with rfl | hd
    · exact List.mem_append_left _ hitem.name_mem
    · exact List.mem_append_right _ (ih hd)

end SatChecker

end NfpEstimator
