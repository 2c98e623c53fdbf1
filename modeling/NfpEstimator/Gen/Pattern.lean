import NfpEstimator.Scanf
import NfpEstimator.Stores

/-!
# Patterns of generators

A pattern is a text of pairs of hexadecimal digits and of fields that a value is written to. `pattern_size` computes how
many bytes it describes, and `pattern_parse` writes them, without any checks of its own. What the first accepts is the
text of a list of items (`patternSize_iff`), and on such a text the second one writes their bytes
(`patternParse_text`).

A character behind the end of a pattern is never read: that would stop with `outside`.
-/

namespace NfpEstimator

namespace Generators

open Scanf Store

/-- How a run ends that has no result. -/
inductive Stop where
  | errx (message : String)
  /-- A character outside of the pattern is read. -/
  | outside
  deriving DecidableEq

/-- `gen_writer`: the stores of a value, from where its field begins. -/
abbrev GenWriter := ℕ → List Store

/-- `write_be32` -/
def writeBe32 : GenWriter := fun val =>
  [⟨0, val / 2 ^ 24 % 256⟩, ⟨1, val / 2 ^ 16 % 256⟩, ⟨2, val / 2 ^ 8 % 256⟩, ⟨3, val % 256⟩]

/-- `write_le32` -/
def writeLe32 : GenWriter := fun val =>
  [⟨3, val / 2 ^ 24 % 256⟩, ⟨2, val / 2 ^ 16 % 256⟩, ⟨1, val / 2 ^ 8 % 256⟩, ⟨0, val % 256⟩]

/-- `write_be16` -/
def writeBe16 : GenWriter := fun val => [⟨0, val / 2 ^ 8 % 256⟩, ⟨1, val % 256⟩]

/-- `write_le16` -/
def writeLe16 : GenWriter := fun val => [⟨1, val / 2 ^ 8 % 256⟩, ⟨0, val % 256⟩]

/-- `write_8` -/
def write8 : GenWriter := fun val => [⟨0, val % 256⟩]

/-- `struct writer` -/
structure Writer where
  spec : List Char
  size : ℕ
  writer : GenWriter

/-- `writers` -/
def writers : List Writer :=
  [⟨['>', 'L'], 4, writeBe32⟩, ⟨['<', 'L'], 4, writeLe32⟩, ⟨['>', 'S'], 2, writeBe16⟩, ⟨['<', 'S'], 2, writeLe16⟩,
    ⟨['<', 'C'], 1, write8⟩, ⟨['>', 'C'], 1, write8⟩]

/-- The writer with this `spec`; there is none at the end of the table. -/
def findWriter (spec : List Char) : Option Writer := writers.find? fun w => w.spec == spec

/-- A pattern that `pattern_size` does not take. -/
def invalidPattern (s : List Char) : Except Stop ℕ :=
  let pattern := String.ofList s
  .error (.errx s!"invalid generator pattern '{pattern}'")

/-- `pattern_size` -/
def patternSize : List Char → Except Stop ℕ
  | [] => .ok 0
  | [a] => invalidPattern [a]
  | [a, b] => if isDigit 16 a ∧ isDigit 16 b then .ok 1 else invalidPattern [a, b]
  | a :: b :: c :: s =>
    if a = '%' then
      match findWriter [b, c] with
      | none =>
        let spec := String.ofList [a, b, c]
        .error (.errx s!"invalid generator spec '{spec}'")
      | some w => (patternSize s).map (w.size + ·)
    else if isDigit 16 a ∧ isDigit 16 b then (patternSize (c :: s)).map (1 + ·)
    else invalidPattern (a :: b :: c :: s)

/-- What `pattern_parse` does: the stores into the buffer, and what it returns. -/
structure Parsed where
  stores : List Store
  writer : Option GenWriter
  off : ℕ

/-- What is stored for two digits. -/
def storeDigits (buf : ℕ → ℕ) (o : ℕ) (a b : Char) : List Store :=
  let high : List Store := if isDigit 16 a then [⟨o, digitVal a * 2 ^ 4⟩] else []
  high ++ if isDigit 16 b then [⟨o, after buf high o ||| digitVal b⟩] else []

/-- `pattern_parse`, from the offset `o` on, with the buffer as it is. -/
def patternParse (buf : ℕ → ℕ) (o : ℕ) (writer : Option GenWriter) (off : ℕ) : List Char → Except Stop Parsed
  | [] => .ok ⟨[], writer, off⟩
  | a :: s =>
    if a = '%' then
      if writer.isSome then .error (.errx "multiple writes into generator output not supported")
      else
        match s with
        | b :: c :: s =>
          let w := findWriter [b, c]
          let size := (w.map Writer.size).getD 0
          let stores := row o size fun _ => 23
          (patternParse (after buf stores) (o + size) (w.map Writer.writer) o s).map fun p =>
            ⟨stores ++ p.stores, p.writer, p.off⟩
        | _ => .error .outside
    else
      match s with
      | b :: s =>
        let stores := storeDigits buf o a b
        (patternParse (after buf stores) (o + 1) writer off s).map fun p => ⟨stores ++ p.stores, p.writer, p.off⟩
      | [] => .error .outside

/-! ### Items -/

/-- Two digits or a field. -/
inductive Item where
  | byte (a b : Char) (ha : isDigit 16 a) (hb : isDigit 16 b)
  | field (w : Writer) (hw : w ∈ writers)

/-- How an item is written. -/
def Item.text : Item → List Char
  | byte a b _ _ => [a, b]
  | field w _ => '%' :: w.spec

/-- The bytes of an item. Those of a field are 23, until a value is written there. -/
def Item.bytes : Item → List ℕ
  | byte a b _ _ => [digitVal a * 16 + digitVal b]
  | field w _ => List.replicate w.size 23

/-- The text of items. -/
def text (items : List Item) : List Char := items.flatMap Item.text

/-- The bytes of items. -/
def bytes (items : List Item) : List ℕ := items.flatMap Item.bytes

/-- Where the first field is, behind `o` bytes. -/
def firstField (o : ℕ) : List Item → Option (ℕ × Writer)
  | [] => none
  | .byte .. :: items => firstField (o + 1) items
  | .field w _ :: _ => some (o, w)

section
variable {w : Writer} {spec s : List Char} {items : List Item} {n o off : ℕ} {buf : ℕ → ℕ} {a b : Char}
  {writer : Option GenWriter}

theorem findWriter_some (h : findWriter spec = some w) : w ∈ writers ∧ w.spec = spec := by
  have hspec := List.find?_some h
  exact ⟨List.mem_of_find?_eq_some h, eq_of_beq hspec⟩

/-- Its entry in the table is found. -/
theorem findWriter_of_mem (hw : w ∈ writers) :
    ∃ b c, w.spec = [b, c] ∧ findWriter [b, c] = some w ∧ b ≠ '%' ∧ c ≠ '%' := by
  simp only [writers, List.mem_cons, List.not_mem_nil, or_false] at hw
  rcases hw with rfl | rfl | rfl | rfl | rfl | rfl <;> exact ⟨_, _, rfl, rfl, by decide, by decide⟩

/-- It writes no more bytes than the table says. -/
theorem writer_within (hw : w ∈ writers) (val : ℕ) : Within 0 w.size (w.writer val) := by
  simp only [writers, List.mem_cons, List.not_mem_nil, or_false] at hw
  rcases hw with rfl | rfl | rfl | rfl | rfl | rfl <;>
    simp [writeBe32, writeLe32, writeBe16, writeLe16, write8]

theorem bytes_cons (item : Item) (items : List Item) : bytes (item :: items) = item.bytes ++ bytes items :=
  List.flatMap_cons

theorem text_field {c : Char} (hw : w ∈ writers) (hspec : w.spec = [b, c]) (items : List Item) :
    text (.field w hw :: items) = '%' :: b :: c :: text items := by
  rw [text, List.flatMap_cons, Item.text, hspec]
  rfl

theorem bytes_field_length (hw : w ∈ writers) (items : List Item) :
    (bytes (.field w hw :: items)).length = w.size + (bytes items).length := by
  rw [bytes_cons, List.length_append, Item.bytes, List.length_replicate]

theorem bytes_byte_length (ha : isDigit 16 a) (hb : isDigit 16 b) (items : List Item) :
    (bytes (.byte a b ha hb :: items)).length = 1 + (bytes items).length := by
  rw [bytes_cons, List.length_append]
  rfl

theorem map_ok {α β : Type} {f : α → β} {x : Except Stop α} {r : β} (h : x.map f = .ok r) :
    ∃ y, x = .ok y ∧ f y = r := by
  cases x with
  | error e => exact absurd h nofun
  | ok y => exact ⟨y, rfl, Except.ok.inj h⟩

/-- What `pattern_size` accepts is the text of items. -/
theorem patternSize_ok (h : patternSize s = .ok n) : ∃ items, s = text items ∧ (bytes items).length = n := by
  fun_induction patternSize generalizing n with
  | case1 => exact ⟨[], rfl, Except.ok.inj h⟩
  | case2 a => exact absurd h nofun
  | case3 a b hdigits => exact ⟨[.byte a b hdigits.1 hdigits.2], rfl, Except.ok.inj h⟩
  | case4 => exact absurd h nofun
  | case5 => exact absurd h nofun
  | case6 b c s w hw ih =>
    obtain ⟨k, hk, rfl⟩ := map_ok h
    obtain ⟨items, rfl, rfl⟩ := ih hk
    obtain ⟨hmem, hspec⟩ := findWriter_some hw
    exact ⟨.field w hmem :: items, (text_field hmem hspec items).symm, bytes_field_length hmem items⟩
  | case7 a b c s _ hdigits ih =>
    obtain ⟨k, hk, rfl⟩ := map_ok h
    obtain ⟨items, hitems, rfl⟩ := ih hk
    refine ⟨.byte a b hdigits.1 hdigits.2 :: items, ?_, bytes_byte_length hdigits.1 hdigits.2 items⟩
    rw [hitems]
    rfl
  | case8 => exact absurd h nofun

theorem digit_ne_percent (h : isDigit 16 a) : a ≠ '%' := by
  rintro rfl
  exact absurd h (by decide)

/-- Every text of items is accepted. -/
theorem patternSize_text (items : List Item) : patternSize (text items) = .ok (bytes items).length := by
  induction items with
  | nil => rfl
  | cons item items ih =>
    cases item with
    | byte a b ha hb =>
      have htext : text (.byte a b ha hb :: items) = a :: b :: text items := rfl
      rw [htext, bytes_byte_length]
      cases hs : text items with
      | nil =>
        rw [hs] at ih
        rw [patternSize, if_pos ⟨ha, hb⟩, ← Except.ok.inj ih]
      | cons c s =>
        rw [patternSize, if_neg (digit_ne_percent ha), if_pos ⟨ha, hb⟩, ← hs, ih]
        rfl
    | field w hw =>
      obtain ⟨b, c, hspec, hfind, -⟩ := findWriter_of_mem hw
      rw [text_field hw hspec, patternSize, if_pos rfl, hfind, ih, bytes_field_length]
      rfl

/-! ### Writing -/

theorem storeDigits_within (ha : isDigit 16 a) (hb : isDigit 16 b) :
    Within o (o + 1) (storeDigits buf o a b) ∧
      bytesAt (after buf (storeDigits buf o a b)) o 1 = [digitVal a * 16 + digitVal b] := by
  have hall : ∀ x < 16, ∀ y < 16, x * 2 ^ 4 ||| y = x * 16 + y := by decide
  have hor := hall _ (of_decide_eq_true ha) _ (of_decide_eq_true hb)
  rw [storeDigits, if_pos ha, if_pos hb]
  constructor
  · simp
  · simp [bytesAt, after]
    exact hor

/-- A field begins where it does, and no other one follows. -/
theorem count_text_cons (item : Item) : (text (item :: items)).count '%' =
    (match item with | .byte .. => 0 | .field .. => 1) + (text items).count '%' := by
  rw [text, List.flatMap_cons, List.count_append]
  congr 1
  cases item with
  | byte a b ha hb => simp [Item.text, digit_ne_percent ha, digit_ne_percent hb]
  | field w hw =>
    obtain ⟨b, c, hspec, -, hb, hc⟩ := findWriter_of_mem hw
    simp [Item.text, hspec, hb, hc]

theorem firstField_eq_none (h : (text items).count '%' = 0) : firstField o items = none := by
  induction items generalizing o with
  | nil => rfl
  | cons item items ih =>
    rw [count_text_cons] at h
    cases item with
    | byte a b ha hb => exact ih (Nat.add_eq_zero_iff.mp h).2
    | field w hw => exact absurd (Nat.add_eq_zero_iff.mp h).1 nofun

/-- Bytes written one behind the other. -/
theorem bytesAt_after_append {ss ss' : List Store} {k : ℕ} (hss' : Within (o + k) (o + k + n) ss') :
    bytesAt (after buf (ss ++ ss')) o (k + n) =
      bytesAt (after buf ss) o k ++ bytesAt (after (after buf ss) ss') (o + k) n := by
  rw [after_append, bytesAt_add, hss'.bytesAt_after (Or.inl (Nat.le_refl _))]

theorem patternParse_digits (ha : a ≠ '%') :
    patternParse buf o writer off (a :: b :: s) =
      (patternParse (after buf (storeDigits buf o a b)) (o + 1) writer off s).map fun p =>
        ⟨storeDigits buf o a b ++ p.stores, p.writer, p.off⟩ := by
  rw [patternParse.eq_def]
  exact if_neg ha

/-- **The bytes of items are written where they belong**, if there is a single field at most. -/
theorem patternParse_text (items : List Item) (buf : ℕ → ℕ) (o : ℕ) (writer : Option GenWriter) (off : ℕ)
    (hone : (text items).count '%' ≤ if writer.isSome then 0 else 1) :
    ∃ stores, Within o (o + (bytes items).length) stores ∧
      bytesAt (after buf stores) o (bytes items).length = bytes items ∧
      patternParse buf o writer off (text items) = .ok
        (match firstField o items with
        | none => ⟨stores, writer, off⟩
        | some (o', w) => ⟨stores, some w.writer, o'⟩) := by
  induction items generalizing buf o writer off with
  | nil => exact ⟨[], within_nil, rfl, rfl⟩
  | cons item items ih =>
    rw [count_text_cons] at hone
    cases item with
    | byte a b ha hb =>
      obtain ⟨hwithin, hbyte⟩ : Within o (o + 1) (storeDigits buf o a b) ∧ _ := storeDigits_within ha hb
      obtain ⟨stores, hstores, hbytes, hparse⟩ :=
        ih (after buf (storeDigits buf o a b)) (o + 1) writer off (by dsimp only at hone; omega)
      have htext : text (.byte a b ha hb :: items) = a :: b :: text items := rfl
      rw [htext, bytes_byte_length]
      refine ⟨storeDigits buf o a b ++ stores, ?_, ?_, ?_⟩
      · rw [within_append, ← Nat.add_assoc]
        exact ⟨hwithin.mono (Nat.le_refl _) (by omega), hstores.mono (by omega) (Nat.le_refl _)⟩
      · rw [bytesAt_after_append hstores, hbyte, hbytes]
        rfl
      · rw [patternParse_digits (digit_ne_percent ha), hparse, firstField]
        cases firstField (o + 1) items <;> rfl
    | field w hw =>
      obtain ⟨b, c, hspec, hfind, -⟩ := findWriter_of_mem hw
      dsimp only at hone
      have hwriter : writer.isSome = false := by
        by_contra h
        rw [Bool.not_eq_false] at h
        rw [h, if_pos rfl] at hone
        omega
      rw [hwriter, if_neg Bool.false_ne_true] at hone
      have hfill : Within o (o + w.size) (row o w.size fun _ => 23) :=
        within_row (Or.inr ⟨Nat.le_refl _, Nat.le_refl _⟩)
      obtain ⟨stores, hstores, hbytes, hparse⟩ :=
        ih (after buf (row o w.size fun _ => 23)) (o + w.size) (some w.writer) o
          (by rw [if_pos Option.isSome_some]; omega)
      rw [text_field hw hspec, bytes_field_length]
      refine ⟨(row o w.size fun _ => 23) ++ stores, ?_, ?_, ?_⟩
      · rw [within_append, ← Nat.add_assoc]
        exact ⟨hfill.mono (Nat.le_refl _) (by omega), hstores.mono (by omega) (Nat.le_refl _)⟩
      · rw [bytesAt_after_append hstores, hbytes, bytesAt_row, List.map_const', List.length_range]
        rfl
      · rw [patternParse, if_pos rfl, hwriter, if_neg Bool.false_ne_true]
        simp only [hfind, Option.map_some, Option.getD_some]
        rw [hparse, firstField_eq_none (by omega), firstField]
        rfl

/-- The field lies in the bytes. -/
theorem firstField_le {o' : ℕ} (h : firstField o items = some (o', w)) :
    w ∈ writers ∧ o ≤ o' ∧ o' + w.size ≤ o + (bytes items).length := by
  induction items generalizing o with
  | nil => exact absurd h nofun
  | cons item items ih =>
    cases item with
    | byte a b ha hb =>
      obtain ⟨hw, hlo, hhi⟩ := ih h
      rw [bytes_byte_length]
      exact ⟨hw, by omega, by omega⟩
    | field w' hw' =>
      obtain ⟨rfl, rfl⟩ : o = o' ∧ w' = w := by simpa [firstField] using h
      rw [bytes_field_length]
      exact ⟨hw', Nat.le_refl _, by omega⟩

end

end Generators

end NfpEstimator
