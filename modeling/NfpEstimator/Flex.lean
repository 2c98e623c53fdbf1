import Mathlib

/-!
# Longest matches

How a lexer that `flex` makes of rules cuts a text into tokens: at each place the longest text counts that some rule
matches, and of several such rules the first one (`lex`). What a pattern matches is a language; whether it matches a
text is computed (`accepts_iff`).

The lengths of the matches at the beginning of a text can be found without a search through its parts (`lengths`), and
so can the tokens (`run`, `run_eq`).

A text is a word of its own if some rule matches it and none matches more of what comes next (`lex_append`). The latter
can be told from the next character: it is in no rule behind the first place, or else the rule has no such beginning
(`Rule.blocks`).
-/

namespace Flex

/-! ### Patterns -/

/-- A pattern. -/
inductive Pattern where
  /-- The text itself. -/
  | lit (s : String)
  /-- A character. -/
  | chr (p : Char → Bool)
  /-- Any number of characters. -/
  | many (p : Char → Bool)
  /-- The pattern, or nothing. -/
  | opt (p : Pattern)
  /-- One pattern after the other. -/
  | seq (p q : Pattern)
  /-- One pattern or the other. -/
  | alt (p q : Pattern)

namespace Pattern

/-- The texts that are matched. -/
def lang : Pattern → Language Char
  | lit s => {s.toList}
  | chr p => {w | ∃ c, p c ∧ w = [c]}
  | many p => {w | ∀ c ∈ w, p c}
  | opt p => 1 + p.lang
  | seq p q => p.lang * q.lang
  | alt p q => p.lang + q.lang

/-- Whether a text is matched. -/
def accepts : Pattern → List Char → Bool
  | lit s, w => w == s.toList
  | chr p, [c] => p c
  | chr _, _ => false
  | many p, w => w.all p
  | opt p, w => w.isEmpty || p.accepts w
  | seq p q, w => (List.range (w.length + 1)).any fun n => p.accepts (w.take n) && q.accepts (w.drop n)
  | alt p q, w => p.accepts w || q.accepts w

/-- For a text, how many characters a match at its beginning may have. -/
def lengths : Pattern → List Char → List ℕ
  | lit s, cs => if s.toList.isPrefixOf cs then [s.toList.length] else []
  | chr _, [] => []
  | chr p, c :: _ => if p c then [1] else []
  | many p, cs => List.range ((cs.takeWhile p).length + 1)
  | opt p, cs => 0 :: p.lengths cs
  | seq p q, cs => (p.lengths cs).flatMap fun n => (q.lengths (cs.drop n)).map (n + ·)
  | alt p q, cs => p.lengths cs ++ q.lengths cs

/-- At most `n` characters. -/
def upTo (p : Char → Bool) : ℕ → Pattern
  | 0 => lit ""
  | n + 1 => opt (seq (chr p) (upTo p n))

/-- A text that is matched may be empty. -/
def nullable : Pattern → Bool
  | lit s => s.toList.isEmpty
  | chr _ => false
  | many _ | opt _ => true
  | seq p q => p.nullable && q.nullable
  | alt p q => p.nullable || q.nullable

/-- It may begin with the character. -/
def starts (c : Char) : Pattern → Bool
  | lit s => s.toList.head? == some c
  | chr p | many p => p c
  | opt p => p.starts c
  | seq p q => p.starts c || (p.nullable && q.starts c)
  | alt p q => p.starts c || q.starts c

/-- It may have the character in it. -/
def uses (c : Char) : Pattern → Bool
  | lit s => s.toList.contains c
  | chr p | many p => p c
  | opt p => p.uses c
  | seq p q | alt p q => p.uses c || q.uses c

/-- It may have the character behind its first place. -/
def later (c : Char) : Pattern → Bool
  | lit s => s.toList.tail.contains c
  | chr _ => false
  | many p => p c
  | opt p => p.later c
  | seq p q => p.later c || q.uses c
  | alt p q => p.later c || q.later c

/-- It has a character of this kind in it. -/
def demands (f : Char → Bool) : Pattern → Bool
  | lit s => s.toList.any f
  | chr _ | many _ | opt _ => false
  | seq p q => p.demands f || q.demands f
  | alt p q => p.demands f && q.demands f

/-- It has no more than one character. -/
def short : Pattern → Bool
  | lit s => s.toList.length ≤ 1
  | chr _ => true
  | many _ | seq _ _ => false
  | opt p => p.short
  | alt p q => p.short && q.short

section
variable {p q : Pattern} {c : Char} {v w cs : List Char} {n : ℕ}

@[simp] theorem mem_lang_lit {s : String} : w ∈ (lit s).lang ↔ w = s.toList := Iff.rfl

@[simp] theorem mem_lang_chr {f : Char → Bool} : w ∈ (chr f).lang ↔ ∃ c, f c ∧ w = [c] := Iff.rfl

@[simp] theorem mem_lang_many {f : Char → Bool} : w ∈ (many f).lang ↔ ∀ c ∈ w, f c := Iff.rfl

@[simp] theorem mem_lang_opt : w ∈ (opt p).lang ↔ w = [] ∨ w ∈ p.lang := by
  rw [lang, Language.mem_add, Language.mem_one]

@[simp] theorem mem_lang_seq : w ∈ (seq p q).lang ↔ ∃ a ∈ p.lang, ∃ b ∈ q.lang, a ++ b = w := by
  rw [lang, Language.mem_mul]

@[simp] theorem mem_lang_alt : w ∈ (alt p q).lang ↔ w ∈ p.lang ∨ w ∈ q.lang := by rw [lang, Language.mem_add]

theorem accepts_iff : p.accepts w ↔ w ∈ p.lang := by
  induction p generalizing w with
  | lit s => simp [accepts]
  | chr p =>
    match w with
    | [] | _ :: _ :: _ => simp [accepts]
    | [c] => simp [accepts]
  | many p => simp [accepts]
  | opt p ih => simp [accepts, ih]
  | alt p q ihp ihq => simp [accepts, ihp, ihq]
  | seq p q ihp ihq =>
    simp only [accepts, List.any_eq_true, Bool.and_eq_true, ihp, ihq, mem_lang_seq]
    constructor
    · rintro ⟨n, -, ha, hb⟩
      exact ⟨_, ha, _, hb, List.take_append_drop n w⟩
    · rintro ⟨a, ha, b, hb, rfl⟩
      refine ⟨a.length, by simp, ?_⟩
      rw [List.take_left, List.drop_left]
      exact ⟨ha, hb⟩

theorem accepts_seq (hv : p.accepts v) (hw : q.accepts w) : (seq p q).accepts (v ++ w) :=
  accepts_iff.mpr (Language.append_mem_mul (accepts_iff.mp hv) (accepts_iff.mp hw))

theorem mem_lengths : n ∈ p.lengths cs ↔ ∃ w ∈ p.lang, w <+: cs ∧ w.length = n := by
  induction p generalizing n cs with
  | lit s =>
    simp only [lengths, List.isPrefixOf_iff_prefix, mem_lang_lit, exists_eq_left]
    split_ifs with h
    · simp [h, eq_comm]
    · simp [h]
  | chr p =>
    cases cs with
    | nil => simp [lengths]
    | cons c cs =>
      by_cases h : p c
      · simp only [lengths, if_pos h, List.mem_singleton, mem_lang_chr]
        constructor
        · rintro rfl
          exact ⟨[c], ⟨c, h, rfl⟩, ⟨cs, rfl⟩, rfl⟩
        · rintro ⟨w, ⟨d, -, rfl⟩, -, rfl⟩
          rfl
      · simp only [lengths, if_neg h, List.not_mem_nil, mem_lang_chr, false_iff]
        rintro ⟨w, ⟨d, hd, rfl⟩, ⟨rest, hrest⟩, -⟩
        exact h ((List.cons.inj hrest).1 ▸ hd)
  | many p =>
    simp only [lengths, List.mem_range, Nat.lt_succ_iff, mem_lang_many]
    constructor
    · intro h
      refine ⟨(cs.takeWhile p).take n, fun c hc => ?_, ?_, ?_⟩
      · exact List.mem_takeWhile_imp (List.mem_of_mem_take hc)
      · exact (List.take_prefix _ _).trans (List.takeWhile_prefix p)
      · rw [List.length_take, Nat.min_eq_left h]
    · rintro ⟨w, hw, ⟨rest, rfl⟩, rfl⟩
      rw [List.takeWhile_append_of_pos hw, List.length_append]
      exact Nat.le_add_right _ _
  | opt p ih =>
    rw [lengths, List.mem_cons, ih]
    constructor
    · rintro (rfl | ⟨w, hw, h⟩)
      · exact ⟨[], mem_lang_opt.mpr (.inl rfl), List.nil_prefix, rfl⟩
      · exact ⟨w, mem_lang_opt.mpr (.inr hw), h⟩
    · rintro ⟨w, hw, h, rfl⟩
      rcases mem_lang_opt.mp hw with rfl | hw
      · exact .inl rfl
      · exact .inr ⟨w, hw, h, rfl⟩
  | seq p q ihp ihq =>
    simp only [lengths, List.mem_flatMap, List.mem_map, ihp, ihq, mem_lang_seq]
    constructor
    · rintro ⟨_, ⟨a, ha, ⟨rest, rfl⟩, rfl⟩, _, ⟨b, hb, hpre, rfl⟩, rfl⟩
      rw [List.drop_left] at hpre
      exact ⟨_, ⟨a, ha, b, hb, rfl⟩, (List.prefix_append_right_inj a).mpr hpre, List.length_append⟩
    · rintro ⟨_, ⟨a, ha, b, hb, rfl⟩, ⟨rest, rfl⟩, rfl⟩
      rw [List.append_assoc]
      refine ⟨_, ⟨a, ha, List.prefix_append _ _, rfl⟩, _, ⟨b, hb, ?_, rfl⟩, List.length_append.symm⟩
      rw [List.drop_left]
      exact List.prefix_append _ _
  | alt p q ihp ihq =>
    simp only [lengths, List.mem_append, ihp, ihq, mem_lang_alt, or_and_right, exists_or]

/-- A match at the beginning is the text up to its length. -/
theorem accepts_take_iff (h : n ≤ cs.length) : p.accepts (cs.take n) ↔ n ∈ p.lengths cs := by
  rw [accepts_iff, mem_lengths]
  constructor
  · exact fun hw => ⟨_, hw, List.take_prefix _ _, List.length_take_of_le h⟩
  · rintro ⟨w, hw, hpre, rfl⟩
    rwa [← List.prefix_iff_eq_take.mp hpre]

theorem le_of_mem_lengths (h : n ∈ p.lengths cs) : n ≤ cs.length := by
  obtain ⟨w, -, hpre, rfl⟩ := mem_lengths.mp h
  exact hpre.length_le

theorem nullable_of_mem (h : [] ∈ p.lang) : p.nullable := by
  induction p with
  | lit s => exact List.isEmpty_iff.mpr (mem_lang_lit.mp h).symm
  | chr p => simp at h
  | many | opt => rfl
  | seq p q ihp ihq =>
    obtain ⟨a, ha, b, hb, hab⟩ := mem_lang_seq.mp h
    obtain ⟨rfl, rfl⟩ := List.append_eq_nil_iff.mp hab
    simp [nullable, ihp ha, ihq hb]
  | alt p q ihp ihq => simpa [nullable] using (mem_lang_alt.mp h).imp ihp ihq

theorem starts_of_mem (h : c :: w ∈ p.lang) : p.starts c := by
  induction p generalizing w with
  | lit s => simp [starts, ← mem_lang_lit.mp h]
  | chr p =>
    obtain ⟨d, hd, hw⟩ := mem_lang_chr.mp h
    exact (List.cons.inj hw).1 ▸ hd
  | many p => exact h c List.mem_cons_self
  | opt p ih => exact ih ((mem_lang_opt.mp h).resolve_left nofun)
  | alt p q ihp ihq => simpa [starts] using (mem_lang_alt.mp h).imp ihp ihq
  | seq p q ihp ihq =>
    obtain ⟨a, ha, b, hb, hab⟩ := mem_lang_seq.mp h
    rw [starts, Bool.or_eq_true, Bool.and_eq_true]
    cases a with
    | nil =>
      obtain rfl : b = c :: w := hab
      exact .inr ⟨nullable_of_mem ha, ihq hb⟩
    | cons d a =>
      obtain ⟨rfl, -⟩ := List.cons.inj hab
      exact .inl (ihp ha)

theorem uses_of_mem (h : w ∈ p.lang) (hc : c ∈ w) : p.uses c := by
  induction p generalizing w with
  | lit s =>
    obtain rfl := mem_lang_lit.mp h
    simpa [uses] using hc
  | chr p =>
    obtain ⟨d, hd, rfl⟩ := mem_lang_chr.mp h
    exact List.mem_singleton.mp hc ▸ hd
  | many p => exact h c hc
  | opt p ih => exact ih ((mem_lang_opt.mp h).resolve_left (List.ne_nil_of_mem hc)) hc
  | alt p q ihp ihq => simpa [uses] using (mem_lang_alt.mp h).imp (ihp · hc) (ihq · hc)
  | seq p q ihp ihq =>
    obtain ⟨a, ha, b, hb, rfl⟩ := mem_lang_seq.mp h
    simpa [uses] using (List.mem_append.mp hc).imp (ihp ha) (ihq hb)

theorem later_of_mem (h : w ∈ p.lang) (hc : c ∈ w.tail) : p.later c := by
  induction p generalizing w with
  | lit s =>
    obtain rfl := mem_lang_lit.mp h
    simpa [later] using hc
  | chr p =>
    obtain ⟨d, -, rfl⟩ := mem_lang_chr.mp h
    exact nomatch hc
  | many p => exact h c (List.mem_of_mem_tail hc)
  | opt p ih => exact ih ((mem_lang_opt.mp h).resolve_left (List.ne_nil_of_mem (List.mem_of_mem_tail hc))) hc
  | alt p q ihp ihq => simpa [later] using (mem_lang_alt.mp h).imp (ihp · hc) (ihq · hc)
  | seq p q ihp ihq =>
    obtain ⟨a, ha, b, hb, rfl⟩ := mem_lang_seq.mp h
    rw [later, Bool.or_eq_true]
    cases a with
    | nil => exact .inr (uses_of_mem hb (List.mem_of_mem_tail hc))
    | cons d a => exact (List.mem_append.mp hc).imp (ihp ha) (uses_of_mem hb)

theorem exists_of_demands {f : Char → Bool} (h : w ∈ p.lang) (hp : p.demands f) : ∃ c ∈ w, f c := by
  induction p generalizing w with
  | lit s =>
    obtain rfl := mem_lang_lit.mp h
    exact List.any_eq_true.mp hp
  | chr | many | opt => exact nomatch hp
  | seq p q ihp ihq =>
    obtain ⟨a, ha, b, hb, rfl⟩ := mem_lang_seq.mp h
    rcases Bool.or_eq_true_iff.mp hp with hp | hq
    · obtain ⟨c, hc, hf⟩ := ihp ha hp
      exact ⟨c, List.mem_append_left _ hc, hf⟩
    · obtain ⟨c, hc, hf⟩ := ihq hb hq
      exact ⟨c, List.mem_append_right _ hc, hf⟩
  | alt p q ihp ihq =>
    obtain ⟨hp, hq⟩ := Bool.and_eq_true_iff.mp hp
    exact (mem_lang_alt.mp h).elim (ihp · hp) (ihq · hq)

theorem length_le_one (h : w ∈ p.lang) (hp : p.short) : w.length ≤ 1 := by
  induction p with
  | lit s =>
    obtain rfl := mem_lang_lit.mp h
    exact of_decide_eq_true hp
  | chr p =>
    obtain ⟨d, -, rfl⟩ := mem_lang_chr.mp h
    exact le_rfl
  | many | seq => exact nomatch hp
  | opt p ih =>
    rcases mem_lang_opt.mp h with rfl | h
    · exact Nat.zero_le 1
    · exact ih h hp
  | alt p q ihp ihq =>
    obtain ⟨hp, hq⟩ := Bool.and_eq_true_iff.mp hp
    exact (mem_lang_alt.mp h).elim (ihp · hp) (ihq · hq)

end

end Pattern

/-! ### Rules -/

/-- What is done with a text that is matched. -/
inductive Action (α : Type) where
  | token (a : α)
  /-- There is no token. -/
  | skip
  /-- Nothing is read any more. -/
  | stop
  deriving DecidableEq

/-- The tokens, where `ts` are those behind the text. -/
def Action.before {α : Type} (act : Action α) (ts : List α) : List α :=
  match act with
  | token a => a :: ts
  | skip => ts
  | stop => []

/-- A rule: its pattern, and what is done with the text. -/
structure Rule (α : Type) where
  pattern : Pattern
  action : List Char → Action α

/-- A rule for one token. -/
def Rule.token {α : Type} (p : Pattern) (a : α) : Rule α := ⟨p, fun _ => .token a⟩

/-- The rule cannot match more than the text `w` if `c` is next. -/
def Rule.blocks {α : Type} (w : List Char) (c : Char) (r : Rule α) : Bool :=
  r.pattern.short || !r.pattern.later c || w.head?.any (fun a => !r.pattern.starts a) ||
    w.any fun a => !r.pattern.uses a

section
variable {α : Type} (rules : List (Rule α))

/-- What the first rule does that matches the whole text. -/
def first (w : List Char) : Option (Action α) :=
  (rules.find? fun r => r.pattern.accepts w).map fun r => r.action w

/-- The longest text at the beginning that some rule matches. -/
def longest (cs : List Char) : Option (List Char × Action α) :=
  (List.range cs.length).reverse.findSome? fun n =>
    (first rules (cs.take (n + 1))).map fun a => (cs.take (n + 1), a)

/-- The tokens of a text of at most `n` characters. A character that no rule matches is passed over. -/
def scan : ℕ → List Char → List α
  | 0, _ => []
  | n + 1, cs =>
    match longest rules cs with
    | some (w, act) => act.before (scan n (cs.drop w.length))
    | none => scan n cs.tail

/-- The tokens of a text. -/
def lex (cs : List Char) : List α := scan rules cs.length cs

/-- The length of the longest text at the beginning that some rule matches, and what the first such rule does. -/
def best (cs : List Char) : List (Rule α) → Option (ℕ × Action α)
  | [] => none
  | r :: rules =>
    match ((r.pattern.lengths cs).filter (0 < ·)).max?, best cs rules with
    | some n, some (m, act) => if m ≤ n then some (n, r.action (cs.take n)) else some (m, act)
    | some n, none => some (n, r.action (cs.take n))
    | none, b => b

/-- The tokens of a text of at most `n` characters, from the lengths of the matches. -/
def run : ℕ → List Char → List α
  | 0, _ => []
  | n + 1, cs =>
    match best cs rules with
    | some (k, act) => act.before (run n (cs.drop k))
    | none => run n cs.tail

/-! ### Words -/

/-- No rule matches a longer text. -/
def Ends (w rest : List Char) : Prop := ∀ u, u ≠ [] → u <+: rest → first rules (w ++ u) = none

variable {rules} {w cs rest : List Char} {c : Char} {a : α} {act : Action α} {m n : ℕ}

theorem first_eq_none_iff : first rules w = none ↔ ∀ r ∈ rules, w ∉ r.pattern.lang := by
  simp [first, ← Pattern.accepts_iff]

theorem exists_rule (h : first rules w = some act) : ∃ r ∈ rules, w ∈ r.pattern.lang ∧ r.action w = act := by
  obtain ⟨r, hr, rfl⟩ := Option.map_eq_some_iff.mp h
  refine ⟨r, List.mem_of_find?_eq_some hr, ?_, rfl⟩
  exact Pattern.accepts_iff.mp (List.find?_some (p := fun r : Rule α => r.pattern.accepts w) hr)

theorem first_cons {r : Rule α} :
    first (r :: rules) w = if r.pattern.accepts w then some (r.action w) else first rules w := by
  rw [first, List.find?_cons]
  split <;> simp_all [first]

/-- Rules that cannot match the text do not count. -/
theorem first_filter {f : Rule α → Bool} (h : ∀ r ∈ rules, ¬f r → w ∉ r.pattern.lang) :
    first rules w = first (rules.filter f) w := by
  induction rules with
  | nil => rfl
  | cons r rules ih =>
    have hrules := ih fun r hr => h r (List.mem_cons_of_mem _ hr)
    by_cases hf : f r
    · simp [hf, first_cons, hrules]
    · have hr : ¬r.pattern.accepts w := fun hacc => h r List.mem_cons_self hf (Pattern.accepts_iff.mp hacc)
      simp [hf, first_cons, hr, hrules]

/-- Only rules that may begin with the first character count. -/
theorem first_starts : first rules (c :: w) = first (rules.filter fun r => r.pattern.starts c) (c :: w) :=
  first_filter fun _ _ hs hmem => hs (Pattern.starts_of_mem hmem)

/-- Only rules that may have some character of the text in them count. -/
theorem first_uses (hc : c ∈ w) : first rules w = first (rules.filter fun r => r.pattern.uses c) w :=
  first_filter fun _ _ hu hmem => hu (Pattern.uses_of_mem hmem hc)

/-- Only rules that do not ask for other characters count. -/
theorem first_demands {f : Char → Bool} (hw : ∀ c ∈ w, ¬f c) :
    first rules w = first (rules.filter fun r => !r.pattern.demands f) w := by
  refine first_filter fun r _ hr hmem => ?_
  obtain ⟨c, hc, hf⟩ := Pattern.exists_of_demands hmem (by simpa using hr)
  exact hw c hc hf

theorem ends_nil : Ends rules w [] := fun _ hne hu => absurd (List.prefix_nil.mp hu) hne

/-- A word ends where no rule can match it and the next character. -/
theorem ends_of_blocks (hw : w ≠ []) (h : ∀ r ∈ rules, r.blocks w c) : Ends rules w (c :: rest) := by
  intro u hne hu
  refine first_eq_none_iff.mpr fun r hr hmem => ?_
  obtain ⟨u, rfl⟩ : ∃ u', u = c :: u' := by
    obtain ⟨v, hv⟩ := hu
    obtain ⟨d, u, rfl⟩ := List.exists_cons_of_ne_nil hne
    exact ⟨u, by rw [(List.cons.inj hv).1]⟩
  obtain ⟨d, w, rfl⟩ := List.exists_cons_of_ne_nil hw
  have hb := h r hr
  simp only [Rule.blocks, Bool.or_eq_true, Bool.not_eq_true', List.head?_cons, Option.any_some, List.any_eq_true] at hb
  rcases hb with ((hshort | hlater) | hstarts) | ⟨x, hx, huses⟩
  · have hlen := Pattern.length_le_one hmem hshort
    simp at hlen
  · have hc := Pattern.later_of_mem hmem (c := c) (by simp)
    exact absurd hc (by simp [hlater])
  · exact absurd (Pattern.starts_of_mem hmem) (by simp [hstarts])
  · exact absurd (Pattern.uses_of_mem hmem (List.mem_append_left _ hx)) (by simp [huses])

/-- The last of some numbers that a function has a value at. -/
theorem findSome_range {β : Type} {f : ℕ → Option β} {x : β} {k : ℕ} (hf : f k = some x) (hk : k < n)
    (hnone : ∀ i, k < i → i < n → f i = none) : (List.range n).reverse.findSome? f = some x := by
  induction n with
  | zero => exact nomatch hk
  | succ n ih =>
    rw [List.range_succ, List.reverse_append, List.reverse_singleton, List.singleton_append, List.findSome?_cons]
    rcases Nat.eq_or_lt_of_le (Nat.le_of_lt_succ hk) with rfl | hlt
    · rw [hf]
    · rw [hnone n hlt n.lt_succ_self]
      exact ih hlt fun i hi hin => hnone i hi (Nat.lt_succ_of_lt hin)

theorem longest_append (hw : w ≠ []) (hfirst : first rules w = some act) (hends : Ends rules w rest) :
    longest rules (w ++ rest) = some (w, act) := by
  have hpos := List.length_pos_of_ne_nil hw
  refine findSome_range (k := w.length - 1) ?_ ?_ fun i hi hin => ?_
  · rw [Nat.sub_add_cancel hpos, List.take_left, hfirst]
    rfl
  · rw [List.length_append]
    omega
  · rw [List.length_append] at hin
    obtain ⟨j, rfl⟩ := Nat.exists_eq_add_of_le (show w.length ≤ i by omega)
    rw [Nat.add_assoc, List.take_length_add_append, hends _ ?_ (List.take_prefix _ _), Option.map_none]
    rw [Ne, List.take_eq_nil_iff, not_or]
    exact ⟨Nat.succ_ne_zero j, by rintro rfl; simp at hin⟩

theorem longest_some (h : longest rules cs = some (w, act)) :
    first rules w = some act ∧ w <+: cs ∧ w ≠ [] := by
  obtain ⟨n, hn, hmap⟩ := List.exists_of_findSome?_eq_some h
  obtain ⟨a, ha, he⟩ := Option.map_eq_some_iff.mp hmap
  obtain ⟨rfl, rfl⟩ := Prod.mk.inj he
  refine ⟨ha, List.take_prefix _ _, ?_⟩
  rw [List.mem_reverse, List.mem_range] at hn
  rw [Ne, List.take_eq_nil_iff, not_or]
  exact ⟨Nat.succ_ne_zero n, by rintro rfl; exact nomatch hn⟩

/-! ### Lengths -/

/-- Up to the length the text is matched, and no longer one is. -/
def IsBest (rules : List (Rule α)) (cs : List Char) : Option (ℕ × Action α) → Prop
  | none => ∀ n, 0 < n → n ≤ cs.length → first rules (cs.take n) = none
  | some (n, act) => 0 < n ∧ n ≤ cs.length ∧ first rules (cs.take n) = some act ∧
    ∀ m, n < m → m ≤ cs.length → first rules (cs.take m) = none

theorem first_take (hn : n ≤ cs.length) : first (r :: rules) (cs.take n) =
    if n ∈ r.pattern.lengths cs then some (r.action (cs.take n)) else first rules (cs.take n) := by
  rw [first_cons]
  exact if_congr (Pattern.accepts_take_iff hn) rfl rfl

/-- A rule that matches nothing changes nothing. -/
theorem IsBest.cons_of_none {b : Option (ℕ × Action α)} (h : IsBest rules cs b)
    (hmax : ((r.pattern.lengths cs).filter (0 < ·)).max? = none) : IsBest (r :: rules) cs b := by
  have hfirst : ∀ n, 0 < n → n ≤ cs.length → first (r :: rules) (cs.take n) = first rules (cs.take n) := by
    intro n hpos hn
    rw [first_take hn, if_neg]
    intro hmem
    have hne : n ∈ (r.pattern.lengths cs).filter (0 < ·) := List.mem_filter.mpr ⟨hmem, by simpa using hpos⟩
    rw [List.max?_eq_none_iff.mp hmax] at hne
    exact nomatch hne
  cases b with
  | none => exact fun n hpos hn => (hfirst n hpos hn).trans (h n hpos hn)
  | some b =>
    obtain ⟨hpos, hle, hb, hlonger⟩ := h
    refine ⟨hpos, hle, (hfirst _ hpos hle).trans hb, fun m hm hmle => ?_⟩
    exact (hfirst m (hpos.trans hm) hmle).trans (hlonger m hm hmle)

/-- A rule is chosen before those behind it if it matches at least as much as they do. -/
theorem IsBest.cons_of_some {b : Option (ℕ × Action α)} (h : IsBest rules cs b)
    (hmax : ((r.pattern.lengths cs).filter (0 < ·)).max? = some n) :
    IsBest (r :: rules) cs (match b with
      | some (m, act) => if m ≤ n then some (n, r.action (cs.take n)) else some (m, act)
      | none => some (n, r.action (cs.take n))) := by
  obtain ⟨hmem, hall⟩ := List.max?_eq_some_iff.mp hmax
  obtain ⟨hn, hpos⟩ := List.mem_filter.mp hmem
  have hpos : 0 < n := by simpa using hpos
  have hle := Pattern.le_of_mem_lengths hn
  have hself : first (r :: rules) (cs.take n) = some (r.action (cs.take n)) := by rw [first_take hle, if_pos hn]
  have hlonger : ∀ m, n < m → m ≤ cs.length → first (r :: rules) (cs.take m) = first rules (cs.take m) := by
    intro m hm hmle
    rw [first_take hmle, if_neg]
    intro hmem
    have hmn := hall m (List.mem_filter.mpr ⟨hmem, by simpa using Nat.zero_lt_of_lt hm⟩)
    omega
  cases b with
  | none => exact ⟨hpos, hle, hself, fun m hm hmle => (hlonger m hm hmle).trans (h m (hpos.trans hm) hmle)⟩
  | some b =>
    obtain ⟨hbpos, hble, hfirst, hnone⟩ := h
    dsimp only
    split_ifs with hcmp
    · refine ⟨hpos, hle, hself, fun m hm hmle => ?_⟩
      exact (hlonger m hm hmle).trans (hnone m (Nat.lt_of_le_of_lt hcmp hm) hmle)
    · have hlt : n < b.1 := Nat.lt_of_not_le hcmp
      refine ⟨hbpos, hble, (hlonger _ hlt hble).trans hfirst, fun m hm hmle => ?_⟩
      exact (hlonger m (hlt.trans hm) hmle).trans (hnone m hm hmle)

theorem isBest_best : IsBest rules cs (best cs rules) := by
  induction rules with
  | nil => exact fun _ _ _ => rfl
  | cons r rules ih =>
    rw [best]
    cases hmax : ((r.pattern.lengths cs).filter (0 < ·)).max? with
    | none => exact ih.cons_of_none hmax
    | some n =>
      have hcons := ih.cons_of_some hmax
      cases hbest : best cs rules with
      | none =>
        rw [hbest] at hcons
        exact hcons
      | some b =>
        rw [hbest] at hcons
        exact hcons

theorem longest_eq : longest rules cs = (best cs rules).map fun b => (cs.take b.1, b.2) := by
  have h : IsBest rules cs (best cs rules) := isBest_best
  cases hbest : best cs rules with
  | none =>
    rw [hbest] at h
    refine List.findSome?_eq_none_iff.mpr fun n hn => ?_
    rw [List.mem_reverse, List.mem_range] at hn
    rw [h (n + 1) n.succ_pos hn, Option.map_none]
  | some b =>
    rw [hbest] at h
    obtain ⟨hpos, hle, hfirst, hlonger⟩ := h
    obtain ⟨k, hk⟩ := Nat.exists_eq_add_one.mpr hpos
    refine findSome_range (k := k) ?_ (by omega) fun i hi hin => ?_
    · rw [← hk, hfirst]
      rfl
    · rw [hlonger (i + 1) (by omega) hin, Option.map_none]

/-- **The lengths of the matches give the tokens.** -/
theorem run_eq : run rules n cs = scan rules n cs := by
  induction n generalizing cs with
  | zero => rfl
  | succ n ih =>
    have h : IsBest rules cs (best cs rules) := isBest_best
    rw [run, scan, longest_eq]
    cases hbest : best cs rules with
    | none => exact ih
    | some b =>
      rw [hbest] at h
      simp only [Option.map_some, ih, List.length_take_of_le h.2.1]

/-! ### Tokens -/

theorem scan_nil : scan rules n [] = [] := by
  induction n with
  | zero => rfl
  | succ n ih => exact ih

/-- It does not matter how much longer the text may be. -/
theorem scan_eq (hm : cs.length ≤ m) (hn : cs.length ≤ n) : scan rules m cs = scan rules n cs := by
  induction m generalizing n cs with
  | zero => rw [List.length_eq_zero_iff.mp (Nat.le_zero.mp hm), scan_nil, scan_nil]
  | succ m ih =>
    cases n with
    | zero => rw [List.length_eq_zero_iff.mp (Nat.le_zero.mp hn), scan_nil, scan_nil]
    | succ n =>
      have hdrop : ∀ w act, longest rules cs = some (w, act) →
          scan rules m (cs.drop w.length) = scan rules n (cs.drop w.length) := by
        intro w act h
        have hpos := List.length_pos_of_ne_nil (longest_some h).2.2
        exact ih (by rw [List.length_drop]; omega) (by rw [List.length_drop]; omega)
      rw [scan, scan]
      split
      · next h => rw [hdrop _ _ h]
      · exact ih (by rw [List.length_tail]; omega) (by rw [List.length_tail]; omega)

@[simp] theorem lex_nil : lex rules [] = [] := rfl

/-- What is done with the longest text, and then with what comes behind it. -/
theorem lex_eq (h : longest rules cs = some (w, act)) :
    lex rules cs = act.before (lex rules (cs.drop w.length)) := by
  obtain ⟨-, hpre, hne⟩ := longest_some h
  have hpos := List.length_pos_of_ne_nil hne
  obtain ⟨n, hn⟩ := Nat.exists_eq_succ_of_ne_zero (hpos.trans_le hpre.length_le).ne'
  have hrest : scan rules n (cs.drop w.length) = lex rules (cs.drop w.length) :=
    scan_eq (by rw [List.length_drop]; omega) le_rfl
  rw [lex, hn, scan, h, ← hrest]

/-- **A word is a token.** -/
theorem lex_append (hw : w ≠ []) (hfirst : first rules w = some (.token a)) (hends : Ends rules w rest) :
    lex rules (w ++ rest) = a :: lex rules rest := by
  rw [lex_eq (longest_append hw hfirst hends), List.drop_left, Action.before]

/-- A word may be none. -/
theorem lex_append_skip (hw : w ≠ []) (hfirst : first rules w = some .skip) (hends : Ends rules w rest) :
    lex rules (w ++ rest) = lex rules rest := by
  rw [lex_eq (longest_append hw hfirst hends), List.drop_left, Action.before]

theorem mem_scan (h : a ∈ scan rules n cs) : ∃ r ∈ rules, ∃ w ∈ r.pattern.lang, r.action w = .token a := by
  induction n generalizing cs with
  | zero => exact nomatch h
  | succ n ih =>
    rw [scan] at h
    split at h
    · next w act hlong =>
      cases act with
      | token b =>
        rcases List.mem_cons.mp h with rfl | h
        · obtain ⟨r, hr, hw, hact⟩ := exists_rule (longest_some hlong).1
          exact ⟨r, hr, w, hw, hact⟩
        · exact ih h
      | skip => exact ih h
      | stop => exact nomatch h
    · exact ih h

/-- Every token is what a rule makes of a text that it matches. -/
theorem mem_lex (h : a ∈ lex rules cs) : ∃ r ∈ rules, ∃ w ∈ r.pattern.lang, r.action w = .token a := mem_scan h

end

end Flex
