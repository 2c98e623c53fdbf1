import NfpEstimator.Scanf

/-!
# Texts in memory

`input_map` maps a file, or reads a pipe into memory. Behind the text there are zeros up to the end of the page, and
none if it ends there: what takes the text as a string then reads outside of the memory.
-/

namespace NfpEstimator

namespace Input

/-- `st_mode` -/
inductive FileKind where
  /-- `S_IFREG` -/
  | regular
  /-- `S_IFCHR` and `S_IFIFO` -/
  | pipe
  deriving DecidableEq

/-- How a run ends that has no result. -/
inductive Fault where
  | err (message : String)
  /-- Memory is read where there is none. -/
  | outside
  deriving DecidableEq

/-- How many bytes are left of the last page, of 4096. -/
def padding (size : ℕ) : ℕ := (4096 - size % 4096) % 4096

/-- `input_map`: the zeros behind the text. There is no memory for an empty pipe. One of more than 8192 bytes is read
beyond the end of its array, which stays as it is. -/
def inputMap (kind : FileKind) (text : List Char) : Except Fault (Option ℕ) :=
  match kind with
  | .regular => if text = [] then .error (.err "mmap") else .ok (some (padding text.length))
  | .pipe =>
    if text = [] then .ok none
    else if 8192 < text.length then .error (.err "read")
    else .ok (some (padding text.length))

/-- A string in a mapped text, which is `s` up to its end. -/
def cString (zeros : ℕ) (s : List Char) : Except Fault (List Char) :=
  if zeros = 0 ∧ '\x00' ∉ s then .error .outside else .ok (s.takeWhile (· ≠ '\x00'))

section
variable {kind : FileKind} {text s : List Char} {zeros : ℕ}

theorem padding_pos : 0 < padding text.length ↔ text.length % 4096 ≠ 0 := by
  rw [padding]
  omega

/-- A text that can be read as a string. -/
def Mappable (kind : FileKind) (text : List Char) : Prop :=
  text ≠ [] ∧ text.length % 4096 ≠ 0 ∧ (kind = .pipe → text.length < 8192)

theorem Mappable.inputMap (h : Mappable kind text) :
    inputMap kind text = .ok (some (padding text.length)) ∧ 0 < padding text.length := by
  obtain ⟨hne, hpage, hpipe⟩ := h
  refine ⟨?_, padding_pos.mpr hpage⟩
  cases kind with
  | regular => exact if_neg hne
  | pipe =>
    have hlt := hpipe rfl
    rw [Input.inputMap, if_neg hne, if_neg (by omega)]

/-- Otherwise there is no memory, or nothing behind the text. -/
theorem not_mappable (h : ¬Mappable kind text) (hne : text ≠ []) :
    (∃ e, inputMap kind text = .error e) ∨ inputMap kind text = .ok (some 0) := by
  have hzero (hpage : text.length % 4096 = 0) : padding text.length = 0 := by
    rw [padding, hpage]
  cases kind with
  | regular =>
    refine Or.inr ((if_neg hne).trans ?_)
    rw [hzero (by_contra fun hpage => h ⟨hne, hpage, nofun⟩)]
  | pipe =>
    by_cases hlong : 8192 < text.length
    · exact Or.inl ⟨_, (if_neg hne).trans (if_pos hlong)⟩
    · refine Or.inr ((if_neg hne).trans ((if_neg hlong).trans ?_))
      rw [hzero (by_contra fun hpage => h ⟨hne, hpage, fun _ => by omega⟩)]

theorem cString_text (hzeros : 0 < zeros) (hs : '\x00' ∉ s) : cString zeros s = .ok s := by
  have htake : s.takeWhile (· ≠ '\x00') = s := by
    refine List.takeWhile_eq_self_iff.mpr fun c hc => decide_eq_true ?_
    rintro rfl
    exact hs hc
  rw [cString, if_neg (by omega), htake]

theorem cString_zero (hs : '\x00' ∉ s) : cString 0 s = .error .outside := if_pos ⟨rfl, hs⟩

end

end Input

end NfpEstimator
