import Mathlib

/-!
# Numbers in texts

`sscanf` with the directives of a format as a list, and numbers as `printf` writes them. What is written with leading
zeros is read again (`number_pad`), whatever comes behind it that is not a digit.
-/

namespace NfpEstimator

namespace Scanf

/-- `isspace` -/
def isSpace (c : Char) : Bool := c.toNat = 32 ∨ (9 ≤ c.toNat ∧ c.toNat ≤ 13)

/-- What a character is worth as a digit; 36, which is none in any base, if it is not one. -/
def digitVal (c : Char) : ℕ :=
  if 48 ≤ c.toNat ∧ c.toNat ≤ 57 then c.toNat - 48
  else if 97 ≤ c.toNat ∧ c.toNat ≤ 122 then c.toNat - 87
  else if 65 ≤ c.toNat ∧ c.toNat ≤ 90 then c.toNat - 55
  else 36

/-- A digit in this base. -/
def isDigit (base : ℕ) (c : Char) : Bool := digitVal c < base

/-- The number that digits stand for. -/
def ofDigits (base : ℕ) (ds : List Char) : ℕ := ds.foldl (fun n c => n * base + digitVal c) 0

/-- A sign, if there is one. -/
def sign : List Char → Bool × List Char
  | '-' :: s => (true, s)
  | '+' :: s => (false, s)
  | s => (false, s)

/-- Without the `0x` that a hexadecimal number may begin with. Where no digit follows, the `0` is the number and the `x`
is left, as the standard says; glibc reads both. -/
def dropBase (base : ℕ) : List Char → List Char
  | '0' :: x :: c :: s => if base = 16 ∧ (x = 'x' ∨ x = 'X') ∧ isDigit 16 c then c :: s else '0' :: x :: c :: s
  | s => s

/-- `strtoull`, converted to an unsigned type of so many bits. -/
def convert (bits : ℕ) (negative : Bool) (n : ℕ) : ℕ :=
  (if 2 ^ 64 ≤ n then 2 ^ 64 - 1 else if negative then 2 ^ 64 - n else n) % 2 ^ bits

/-- What `%u`, `%x` and `%o` read, and the rest. -/
def number (base bits : ℕ) (s : List Char) : Option (ℕ × List Char) :=
  let (negative, s) := sign (s.dropWhile isSpace)
  let s := dropBase base s
  let ds := s.takeWhile (isDigit base)
  if ds = [] then none else some (convert bits negative (ofDigits base ds), s.dropWhile (isDigit base))

/-- The directives of a format. -/
inductive Directive where
  /-- White space. -/
  | space
  /-- Any other character. -/
  | literal (c : Char)
  /-- `%u`, `%x` or `%o`, with the size of the variable. -/
  | number (base bits : ℕ)
  /-- `%n` -/
  | offset

/-- A text as a format. -/
def literals (s : List Char) : List Directive := s.map .literal

/-- The numbers that are assigned, and what `%n` assigns if it is reached. -/
structure Scanned where
  values : List ℕ
  offset : Option ℕ
  deriving DecidableEq

/-- `sscanf`, with `k` characters read already. -/
def scan : List Directive → ℕ → List Char → Scanned
  | [], _, _ => ⟨[], none⟩
  | .space :: fmt, k, s => scan fmt (k + (s.length - (s.dropWhile isSpace).length)) (s.dropWhile isSpace)
  | .literal c :: fmt, k, s =>
    match s with
    | [] => ⟨[], none⟩
    | x :: s => if x = c then scan fmt (k + 1) s else ⟨[], none⟩
  | .number base bits :: fmt, k, s =>
    match number base bits s with
    | none => ⟨[], none⟩
    | some (v, s') =>
      let r := scan fmt (k + (s.length - s'.length)) s'
      ⟨v :: r.values, r.offset⟩
  | .offset :: fmt, k, s => ⟨(scan fmt k s).values, some k⟩

/-- `sscanf` -/
def sscanf (fmt : List Directive) (s : List Char) : Scanned := scan fmt 0 s

/-- A number with at least `w` digits, zeros in front. -/
def pad (base w n : ℕ) : List Char := List.replicate (w - (Nat.toDigits base n).length) '0' ++ Nat.toDigits base n

/-- A number ends here. -/
def Stops (base : ℕ) (s : List Char) : Prop := ∀ c ∈ s.head?, isDigit base c = false ∧ c ≠ 'x' ∧ c ≠ 'X'

section
variable {base bits n k : ℕ} {c : Char} {ds s rest : List Char} {fmt : List Directive}

/-! ### Digits -/

theorem ofDigits_concat : ofDigits base (ds ++ [c]) = ofDigits base ds * base + digitVal c := by
  rw [ofDigits, ofDigits, List.foldl_append]
  rfl

theorem ofDigits_zero : ofDigits base ('0' :: ds) = ofDigits base ds := by
  rw [ofDigits, List.foldl_cons, Nat.zero_mul]
  rfl

theorem ofDigits_lt (hds : ∀ c ∈ ds, isDigit base c) : ofDigits base ds < base ^ ds.length := by
  induction ds using List.reverseRecOn with
  | nil => exact Nat.one_pos
  | append_singleton ds c ih =>
    have hc : digitVal c < base := of_decide_eq_true (hds c (by simp))
    have hlt := ih fun d hd => hds d (List.mem_append_left _ hd)
    rw [ofDigits_concat, List.length_append, List.length_singleton, Nat.pow_succ]
    calc ofDigits base ds * base + digitVal c < (ofDigits base ds + 1) * base := by rw [Nat.succ_mul]; omega
      _ ≤ base ^ ds.length * base := Nat.mul_le_mul_right _ hlt

/-- No digit is white space or a sign. -/
theorem digit_char (h : isDigit base c) (hbase : base ≤ 36) : isSpace c = false ∧ c ≠ '-' ∧ c ≠ '+' := by
  have hval : digitVal c < base := of_decide_eq_true h
  rw [digitVal] at hval
  refine ⟨decide_eq_false ?_, ?_, ?_⟩
  · split_ifs at hval <;> omega
  · rintro rfl
    exact absurd hval (Nat.not_lt.mpr hbase)
  · rintro rfl
    exact absurd hval (Nat.not_lt.mpr hbase)

theorem digitVal_digitChar (h : n < 16) : digitVal n.digitChar = n := by
  have hall : ∀ d < 16, digitVal (Nat.digitChar d) = d := by decide
  exact hall n h

theorem ofDigits_toDigits (hlo : 1 < base) (hhi : base ≤ 16) (n : ℕ) : ofDigits base (Nat.toDigits base n) = n := by
  induction n using Nat.strongRecOn with
  | _ n ih =>
    rw [Nat.toDigits_eq_if hlo]
    split_ifs with hlt
    · rw [← List.nil_append [_], ofDigits_concat, digitVal_digitChar (by omega)]
      exact (congrArg (· + n) (Nat.zero_mul base)).trans (Nat.zero_add n)
    · have hmod := Nat.mod_lt n (show 0 < base by omega)
      rw [ofDigits_concat, ih _ (Nat.div_lt_self (by omega) hlo), digitVal_digitChar (by omega)]
      exact Nat.div_add_mod' n base

theorem isDigit_toDigits (hlo : 1 < base) (hhi : base ≤ 16) (n : ℕ) : ∀ c ∈ Nat.toDigits base n, isDigit base c := by
  induction n using Nat.strongRecOn with
  | _ n ih =>
    intro c hc
    rw [Nat.toDigits_eq_if hlo] at hc
    split_ifs at hc with hlt
    · rw [List.mem_singleton.mp hc, isDigit, digitVal_digitChar (by omega)]
      exact decide_eq_true hlt
    · have hmod := Nat.mod_lt n (show 0 < base by omega)
      rcases List.mem_append.mp hc with hc | hc
      · exact ih _ (Nat.div_lt_self (by omega) hlo) c hc
      · rw [List.mem_singleton.mp hc, isDigit, digitVal_digitChar (by omega)]
        exact decide_eq_true hmod

/-! ### Numbers -/

theorem number_spaces (k : ℕ) (s : List Char) :
    number base bits (List.replicate k ' ' ++ s) = number base bits s := by
  induction k with
  | zero => rfl
  | succ k ih => exact ih

theorem takeWhile_digits (hds : ∀ c ∈ ds, isDigit base c) (hrest : Stops base rest) :
    (ds ++ rest).takeWhile (isDigit base) = ds ∧ (ds ++ rest).dropWhile (isDigit base) = rest := by
  rw [List.takeWhile_append_of_pos hds, List.dropWhile_append_of_pos hds]
  cases rest with
  | nil => exact ⟨List.append_nil ds, rfl⟩
  | cons c rest =>
    have hc := (hrest c rfl).1
    rw [List.takeWhile_cons_of_neg (by rw [hc]; nofun), List.dropWhile_cons_of_neg (by rw [hc]; nofun)]
    exact ⟨List.append_nil ds, rfl⟩

theorem dropBase_digits (hds : ∀ c ∈ ds, isDigit base c) (hne : ds ≠ []) (hrest : Stops base rest) :
    dropBase base (ds ++ rest) = ds ++ rest := by
  rw [dropBase.eq_def]
  split
  · next x c s heq =>
    split_ifs with h
    · obtain ⟨rfl, hx, -⟩ := h
      have hdigit : isDigit 16 x = false := by rcases hx with rfl | rfl <;> rfl
      match ds, hne with
      | [d], _ =>
        obtain ⟨-, rfl⟩ : d = '0' ∧ rest = x :: c :: s := by simpa using heq
        exact absurd hx (not_or.mpr (hrest x rfl).2)
      | d :: d' :: ds, _ =>
        obtain ⟨-, rfl, -⟩ : d = '0' ∧ d' = x ∧ ds ++ rest = c :: s := by simpa using heq
        exact absurd (hds d' (by simp)) (by rw [hdigit]; nofun)
    · exact heq.symm
  · rfl

/-- **Digits are read as the number they stand for.** -/
theorem number_digits (hds : ∀ c ∈ ds, isDigit base c) (hne : ds ≠ []) (hrest : Stops base rest) (hbase : base ≤ 36)
    (hbits : bits ≤ 64) (hn : ofDigits base ds < 2 ^ bits) :
    number base bits (ds ++ rest) = some (ofDigits base ds, rest) := by
  have hle : 2 ^ bits ≤ 2 ^ 64 := Nat.pow_le_pow_right (by decide) hbits
  obtain ⟨htake, hdrop⟩ := takeWhile_digits hds hrest
  obtain ⟨d, ds', rfl⟩ := List.exists_cons_of_ne_nil hne
  obtain ⟨hspace, hminus, hplus⟩ := digit_char (hds d (by simp)) hbase
  have hskip : (d :: ds' ++ rest).dropWhile isSpace = d :: ds' ++ rest :=
    List.dropWhile_cons_of_neg (by rw [hspace]; nofun)
  have hsign : sign (d :: ds' ++ rest) = (false, d :: ds' ++ rest) := by
    rw [List.cons_append, sign.eq_def]
    split
    · next heq => exact absurd (List.cons.inj heq).1 hminus
    · next heq => exact absurd (List.cons.inj heq).1 hplus
    · rfl
  rw [number, hskip, hsign]
  dsimp only
  rw [dropBase_digits hds hne hrest, htake, hdrop, if_neg hne, convert, if_neg (by omega)]
  rw [if_neg Bool.false_ne_true, Nat.mod_eq_of_lt hn]

/-! ### Written numbers -/

theorem isDigit_pad (hlo : 1 < base) (hhi : base ≤ 16) (w n : ℕ) : ∀ c ∈ pad base w n, isDigit base c := by
  intro c hc
  rcases List.mem_append.mp hc with hc | hc
  · rw [List.eq_of_mem_replicate hc]
    exact decide_eq_true (show 0 < base by omega)
  · exact isDigit_toDigits hlo hhi n c hc

theorem ofDigits_pad (hlo : 1 < base) (hhi : base ≤ 16) (w n : ℕ) : ofDigits base (pad base w n) = n := by
  rw [pad]
  induction w - (Nat.toDigits base n).length with
  | zero => exact ofDigits_toDigits hlo hhi n
  | succ k ih => rw [List.replicate_succ, List.cons_append, ofDigits_zero, ih]

theorem pad_ne_nil (base w n : ℕ) : pad base w n ≠ [] :=
  List.append_ne_nil_of_right_ne_nil _ Nat.toDigits_ne_nil

/-- A number that fits is as long as it is said to be. -/
theorem pad_length (hlo : 1 < base) {w : ℕ} (hw : 0 < w) (hn : n < base ^ w) : (pad base w n).length = w := by
  have hle := (Nat.length_toDigits_le_iff hlo hw).mpr hn
  rw [pad, List.length_append, List.length_replicate]
  omega

/-- **What is written is read.** -/
theorem number_pad (hlo : 1 < base) (hhi : base ≤ 16) (hbits : bits ≤ 64) (hn : n < 2 ^ bits) (w : ℕ)
    (hrest : Stops base rest) : number base bits (pad base w n ++ rest) = some (n, rest) := by
  have hval := ofDigits_pad hlo hhi w n
  rw [number_digits (isDigit_pad hlo hhi w n) (pad_ne_nil base w n) hrest (by omega) hbits (by rwa [hval]), hval]

/-! ### Formats -/

theorem scan_literals (l : List Char) (fmt : List Directive) (s : List Char) :
    scan (literals l ++ fmt) k (l ++ s) = scan fmt (k + l.length) s := by
  induction l generalizing k with
  | nil => rfl
  | cons c l ih =>
    rw [literals, List.map_cons, List.cons_append, List.cons_append, scan, if_pos rfl]
    exact (ih (k := k + 1)).trans (by rw [List.length_cons, Nat.add_assoc, Nat.add_comm 1])

theorem scan_number {v : ℕ} (h : number base bits s = some (v, rest)) :
    scan (.number base bits :: fmt) k s =
      ⟨v :: (scan fmt (k + (s.length - rest.length)) rest).values,
        (scan fmt (k + (s.length - rest.length)) rest).offset⟩ := by
  rw [scan, h]

/-- White space in front of a number is passed over. -/
theorem scan_space (hds : ∀ c ∈ ds, isDigit base c) (hne : ds ≠ []) (hbase : base ≤ 36) :
    scan (.space :: fmt) k (' ' :: (ds ++ rest)) = scan fmt (k + 1) (ds ++ rest) := by
  obtain ⟨d, ds', rfl⟩ := List.exists_cons_of_ne_nil hne
  have hd := (digit_char (hds d (by simp)) hbase).1
  have hdrop : (' ' :: (d :: ds' ++ rest)).dropWhile isSpace = d :: ds' ++ rest := by
    rw [List.dropWhile_cons_of_pos rfl]
    exact List.dropWhile_cons_of_neg (by rw [hd]; nofun)
  rw [scan, hdrop, List.length_cons, Nat.add_sub_cancel_left]

end

end Scanf

end NfpEstimator
