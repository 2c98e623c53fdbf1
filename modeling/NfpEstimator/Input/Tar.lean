import NfpEstimator.Scanf

/-!
# Members of archives

An archive is read header by header with `input_tar_next`, and the contents of the current member with `input_tar_read`,
as much of them as the caller likes. Compressed contents come from a filter, which takes them out of the archive.

A read that reaches the end of compressed contents closes the archive, and not the filter: no member is found behind
this one. All reads that ask for no more than is there leave the archive where the next header is looked for
(`tar_visits`).
-/

namespace NfpEstimator

namespace Input

namespace Tar

open Scanf

/-- `enum input_type`; archives are not read with the fourth one. -/
inductive InputType where
  | plain
  | xz
  | bzip2
  deriving DecidableEq

/-- How a run ends that has no result. -/
inductive Stop where
  | errx (message : String)
  | err (message : String)
  deriving DecidableEq

/-- `struct input_tar`. A descriptor is what can still be read from it, `none` is `-1`. Of the child there is the number
of bytes that it takes out of the archive until it exits, `none` is no child. -/
structure InputTar where
  type : InputType
  tarFd : Option (List UInt8)
  fileFd : Option (List UInt8)
  childPid : Option ℕ
  fileSize : ℕ
  fileSkip : ℕ

/-- `struct input_tar_file`; there may be no place for the header. -/
structure InputTarFile where
  rawHeader : Option (List UInt8)
  size : ℕ
  name : List UInt8

/-- What is not in the program. -/
structure System where
  /-- Whether `lseek` is possible. -/
  seekable : Bool
  /-- How many bytes a `read` returns at most, less one, in terms of what is left to read. -/
  piece : List UInt8 → ℕ
  /-- What the filters make of compressed contents. -/
  decompress : InputType → List UInt8 → List UInt8
  /-- `fnmatch` of a pattern and a name, with `FNM_PATHNAME`. -/
  fnmatch : List UInt8 → List UInt8 → Bool

section
variable (sys : System)

/-! ### Reading -/

/-- How many bytes `read` returns, of `size`. -/
def System.read (fd : List UInt8) (size : ℕ) : ℕ := min (sys.piece fd + 1) (min size fd.length)

/-- `input_read`: what is read, and what is left. -/
def inputRead (fd : List UInt8) (size : ℕ) : List UInt8 × List UInt8 :=
  if size = 0 then ([], fd)
  else
    let r := sys.read fd size
    if r = 0 then ([], fd)
    else
      let (buf, fd') := inputRead (fd.drop r) (size - r)
      (fd.take r ++ buf, fd')
termination_by size

/-- The loop of `input_seek`. -/
def seekLoop (fd : List UInt8) (offset : ℕ) : List UInt8 :=
  if offset = 0 then fd
  else
    let r := sys.read fd (if offset > 65536 then 65536 else offset)
    if r = 0 then fd else seekLoop (fd.drop r) (offset - r)
termination_by offset
decreasing_by omega

/-- `input_seek` -/
def inputSeek (fd : List UInt8) (offset : ℕ) : List UInt8 :=
  if sys.seekable then fd.drop offset else seekLoop sys fd offset

theorem inputRead_eq (fd : List UInt8) (size : ℕ) : inputRead sys fd size = (fd.take size, fd.drop size) := by
  induction hn : size using Nat.strongRecOn generalizing fd size with
  | _ n ih =>
    subst hn
    rw [inputRead]
    by_cases hsize : size = 0
    · rw [if_pos hsize, hsize]
      rfl
    have hread : sys.read fd size = min (sys.piece fd + 1) (min size fd.length) := rfl
    rw [if_neg hsize]
    dsimp only
    split_ifs with hr
    · have hfd : fd = [] := List.length_eq_zero_iff.mp (by omega)
      rw [hfd, List.take_nil, List.drop_nil]
    · have hle : sys.read fd size ≤ size := by omega
      rw [ih _ (by omega) _ _ rfl]
      dsimp only
      rw [← List.take_add, List.drop_drop, Nat.add_sub_cancel' hle]

theorem seekLoop_eq (fd : List UInt8) (offset : ℕ) : seekLoop sys fd offset = fd.drop offset := by
  induction hn : offset using Nat.strongRecOn generalizing fd offset with
  | _ n ih =>
    subst hn
    rw [seekLoop]
    by_cases hoffset : offset = 0
    · rw [if_pos hoffset, hoffset]
      rfl
    generalize hs : (if offset > 65536 then 65536 else offset) = s
    have hpos : 0 < s ∧ s ≤ offset := by
      split_ifs at hs <;> omega
    have hread : sys.read fd s = min (sys.piece fd + 1) (min s fd.length) := rfl
    rw [if_neg hoffset]
    dsimp only
    split_ifs with hr
    · have hfd : fd = [] := List.length_eq_zero_iff.mp (by omega)
      rw [hfd, List.drop_nil]
    · have hle : sys.read fd s ≤ offset := by omega
      rw [ih _ (by omega) _ _ rfl, List.drop_drop, Nat.add_sub_cancel' hle]

theorem inputSeek_eq (fd : List UInt8) (offset : ℕ) : inputSeek sys fd offset = fd.drop offset := by
  rw [inputSeek, seekLoop_eq]
  exact ite_self _

/-! ### Headers -/

/-- The characters of bytes. -/
def chars (bs : List UInt8) : List Char := bs.map fun b => Char.ofNat b.toNat

/-- A string, in an array that is filled up with zero. -/
def cString (bs : List UInt8) : List UInt8 := bs.takeWhile (· ≠ 0)

/-- `sscanf(sbuf, "%lo", &size)` -/
def scanSize (buf : List UInt8) : Option ℕ :=
  (sscanf [.number 8 64] (chars (cString ((buf.drop 124).take 12)))).values.head?

/-- The suffix of the names of members. -/
def suffix : InputType → List UInt8
  | .plain => []
  | .xz => [46, 120, 122]
  | .bzip2 => [46, 98, 122, 50]

/-- `"xz"` and `"bz2"`, in messages. -/
def suffixName : InputType → String
  | .plain => ""
  | .xz => "xz"
  | .bzip2 => "bz2"

/-- A name without its suffix. -/
def dropSuffix (type : InputType) (name : List UInt8) : Except Stop (List UInt8) :=
  let n := (suffix type).length
  if name.length < n ∨ name.drop (name.length - n) ≠ suffix type then
    let kind := suffixName type
    let file := String.ofList (chars name)
    .error (.errx s!"non {kind} filename '{file}'")
  else .ok (name.take (name.length - n))

/-- No pattern is one that fits. -/
def matchesPattern (pattern : Option (List UInt8)) (name : List UInt8) : Bool :=
  match pattern with
  | none => true
  | some p => sys.fnmatch p name

/-- `file_skip`, with the borrow of `size_t`. -/
def skipOf (size : ℕ) : ℕ := 511 - (size + 2 ^ 64 - 1) % 2 ^ 64 % 512

/-- What one header is: the end of the archive, that of a member which the pattern does not fit, with its size, or that
of the next member. -/
inductive Header where
  | empty
  | other (size : ℕ)
  | member

/-- A header, and the file with what it says. -/
def readHeader (type : InputType) (pattern : Option (List UInt8)) (file : InputTarFile) (buf : List UInt8) :
    Except Stop (InputTarFile × Header) :=
  if buf = List.replicate 512 0 then .ok (file, .empty)
  else
    let size := (scanSize buf).getD file.size
    let buf := buf.set 99 0
    (dropSuffix type (cString (buf.take 100))).map fun name =>
      if matchesPattern sys pattern name then (⟨file.rawHeader.map fun _ => buf, size, name⟩, .member)
      else (⟨file.rawHeader, size, name⟩, .other size)

/-- The loop of `input_tar_next`. Without a rest the archive has ended. -/
def nextHeader (type : InputType) (pattern : Option (List UInt8)) (file : InputTarFile) (fd : List UInt8) :
    Except Stop (InputTarFile × Option (List UInt8)) :=
  let buf := (inputRead sys fd 512).1
  let fd' := (inputRead sys fd 512).2
  if _h : buf.length ≠ 512 then .error (.errx "premature end of tar archive")
  else
    match readHeader sys type pattern file buf with
    | .error e => .error e
    | .ok (file, .empty) => .ok (file, none)
    | .ok (file, .other size) => nextHeader type pattern file (inputSeek sys fd' ((size + 511) / 512 * 512))
    | .ok (file, .member) => .ok (file, some fd')
termination_by fd.length
decreasing_by
  have hbuf : buf.length = min 512 fd.length := by simp only [buf, inputRead_eq, List.length_take]
  rw [inputSeek_eq, inputRead_eq, List.length_drop, List.length_drop]
  omega

/-! ### Archives -/

/-- Where the next header is: behind the current member. -/
def skipMember (tar : InputTar) (fd : List UInt8) : Except Stop (List UInt8) :=
  if tar.fileSize ≠ 0 ∨ tar.fileSkip ≠ 0 then .ok (inputSeek sys fd (tar.fileSize + tar.fileSkip))
  else
    match tar.childPid with
    | none => .ok fd
    | some n => if tar.fileFd.isNone then .error (.err "close") else .ok (fd.drop n)

/-- `input_tar_next` -/
def inputTarNext (tar : InputTar) (pattern : Option (List UInt8)) (file : InputTarFile) :
    Except Stop (Bool × InputTar × InputTarFile) :=
  match tar.tarFd with
  | none => .ok (false, tar, file)
  | some fd => do
    let fd ← skipMember sys tar fd
    let (file, fd') ← nextHeader sys tar.type pattern file fd
    if fd'.isNone then return (false, ⟨tar.type, none, none, none, 0, 0⟩, file)
    return (true, ⟨tar.type, fd', none, none, file.size, skipOf file.size⟩, file)

/-- `input_tar_fd`; the descriptor is in the result. -/
def inputTarFd (tar : InputTar) : InputTar :=
  if tar.fileFd.isSome then tar
  else
    let child := some (tar.fileSize + tar.fileSkip)
    let data := (tar.tarFd.getD []).take tar.fileSize
    if tar.fileSize = 0 then ⟨tar.type, tar.tarFd, some data, child, tar.fileSize, tar.fileSkip⟩
    else
      let contents := if tar.type = .plain then data else sys.decompress tar.type data
      ⟨tar.type, tar.tarFd, some contents, child, 0, 0⟩

/-- What `input_tar_read` does after it has read `r` bytes of `size`. -/
def afterRead (tar : InputTar) (r size : ℕ) : Except Stop InputTar :=
  if tar.type = .plain then .ok { tar with fileSize := (tar.fileSize + 2 ^ 64 - r) % 2 ^ 64 }
  else if r < size then
    if tar.tarFd.isNone then .error (.err "close") else .ok { tar with tarFd := none }
  else .ok tar

/-- `input_tar_read`, with the filter started if there is one. -/
def readContents (tar : InputTar) (size : ℕ) : Except Stop (List UInt8 × InputTar) :=
  match tar.fileFd with
  | some fd =>
    let (buf, fd') := inputRead sys fd size
    (afterRead { tar with fileFd := some fd' } buf.length size).map fun tar => (buf, tar)
  | none =>
    let size := min size tar.fileSize
    match tar.tarFd with
    | none => if size = 0 then .ok ([], tar) else .error (.err "read")
    | some fd =>
      let (buf, fd') := inputRead sys fd size
      (afterRead { tar with tarFd := some fd' } buf.length size).map fun tar => (buf, tar)

/-- `input_tar_read` -/
def inputTarRead (tar : InputTar) (size : ℕ) : Except Stop (List UInt8 × InputTar) :=
  readContents sys (if tar.type = .plain then tar else inputTarFd sys tar) size

/-- `input_tar_open` -/
def inputTarOpen (type : InputType) (fd : List UInt8) : InputTar := ⟨type, some fd, none, none, 0, 0⟩

/-! ### Runs -/

/-- What a caller does next. -/
inductive Op where
  | next
  | read (size : ℕ)

/-- What is returned. -/
inductive Out where
  /-- The file, or `false`. -/
  | next (file : Option InputTarFile)
  | read (buf : List UInt8)

/-- A call, with the file that the caller passes to all of them. -/
def call (pattern : Option (List UInt8)) (s : InputTar × InputTarFile) :
    Op → Except Stop (Out × InputTar × InputTarFile)
  | .next => (inputTarNext sys s.1 pattern s.2).map fun (found, tar, file) =>
    (.next (if found then some file else none), tar, file)
  | .read size => (inputTarRead sys s.1 size).map fun (buf, tar) => (.read buf, tar, s.2)

/-- A run: what all calls return. -/
def run (pattern : Option (List UInt8)) (s : InputTar × InputTarFile) : List Op → Except Stop (List Out)
  | [] => .ok []
  | op :: ops => do
    let (out, s) ← call sys pattern s op
    let outs ← run pattern s ops
    return out :: outs

end

/-! ### Well-formed archives -/

/-- A field with a size in octal digits: blanks in front of it, and a blank or zero behind it unless the field ends. -/
def SizeField (field : List UInt8) (n : ℕ) : Prop :=
  ∃ k ds rest, chars field = List.replicate k ' ' ++ ds ++ rest ∧ (∀ c ∈ ds, isDigit 8 c) ∧ ds ≠ [] ∧
    ofDigits 8 ds = n ∧ ∀ c ∈ rest.head?, c = ' ' ∨ c = '\x00'

/-- A member: its header, its contents as they are stored, and what fills up the last block. -/
structure Member where
  header : List UInt8
  data : List UInt8
  padding : List UInt8
  header_length : header.length = 512
  size : SizeField ((header.drop 124).take 12) data.length
  padding_lt : padding.length < 512
  padded : (data.length + padding.length) % 512 = 0

/-- The name of a member, in a field of 100 bytes. -/
def Member.name (m : Member) : List UInt8 := cString (m.header.take 100)

/-- The name that it is looked for under. -/
def Member.file (type : InputType) (m : Member) : List UInt8 := m.name.take (m.name.length - (suffix type).length)

/-- A member of an archive of this type. -/
def Member.Named (type : InputType) (m : Member) : Prop := suffix type <:+ m.name

/-- What is in a member. Nothing is decompressed if there is nothing. -/
def Member.contents (sys : System) (type : InputType) (m : Member) : List UInt8 :=
  if type = .plain ∨ m.data = [] then m.data else sys.decompress type m.data

/-- An archive, with anything behind the empty block. -/
def archive (trailer : List UInt8) : List Member → List UInt8
  | [] => List.replicate 512 0 ++ trailer
  | m :: ms => m.header ++ (m.data ++ m.padding ++ archive trailer ms)

/-- The members that are still to be visited, and what is left to read of the current one. -/
structure Visit where
  todo : List Member
  rest : Option (List UInt8)

section
variable (sys : System) (type : InputType) (raw : Bool)

/-- What `input_tar_next` returns about a member. -/
def found (m : Member) : InputTarFile := ⟨if raw then some m.header else none, m.data.length, m.file type⟩

/-- What a call is for: `input_tar_next` goes to the next member, and `input_tar_read` reads on. -/
def visit (v : Visit) : Op → Out × Visit
  | .next =>
    match v.todo with
    | [] => (.next none, ⟨[], none⟩)
    | m :: ms => (.next (some (found type raw m)), ⟨ms, some (m.contents sys type)⟩)
  | .read size => (.read ((v.rest.getD []).take size), ⟨v.todo, v.rest.map (List.drop size)⟩)

/-- All calls of a run. -/
def visits (v : Visit) : List Op → List Out
  | [] => []
  | op :: ops => (visit sys type raw v op).1 :: visits (visit sys type raw v op).2 ops

/-- Only a member is read from, and only a plain one beyond its end. -/
def Allowed (v : Visit) : Op → Prop
  | .next => True
  | .read size => ∃ rest, v.rest = some rest ∧ (type = .plain ∨ size ≤ rest.length)

/-- All calls of a run are allowed. -/
def AllowedRun (v : Visit) : List Op → Prop
  | [] => True
  | op :: ops => Allowed type v op ∧ AllowedRun (visit sys type raw v op).2 ops

end

section
variable {sys : System} {type : InputType} {raw : Bool} {pattern : Option (List UInt8)} {file : InputTarFile}
  {trailer : List UInt8} {m : Member} {ms : List Member} {n : ℕ} {field : List UInt8}

/-! ### Headers of members -/

theorem chars_cString (bs : List UInt8) : chars (cString bs) = (chars bs).takeWhile (· ≠ '\x00') := by
  have hall : ∀ n < 256, Char.ofNat n = '\x00' → n = 0 := by decide +kernel
  have hzero (b : UInt8) : Char.ofNat b.toNat = '\x00' ↔ b = 0 :=
    ⟨fun h => UInt8.toNat_inj.mp (hall _ b.toNat_lt h), fun h => by rw [h]; rfl⟩
  rw [chars, chars, cString, List.takeWhile_map]
  simp only [Function.comp_def, ne_eq, hzero]

/-- A size is read. -/
theorem SizeField.scan (h : SizeField field n) (hlen : field.length ≤ 12) :
    (sscanf [.number 8 64] (chars (cString field))).values.head? = some n ∧ n < 8 ^ 12 := by
  obtain ⟨k, ds, rest, hfield, hds, hne, rfl, hrest⟩ := h
  have hlt : ofDigits 8 ds < 8 ^ 12 := by
    have hle := congrArg List.length hfield
    rw [chars, List.length_map, List.length_append, List.length_append] at hle
    exact Nat.lt_of_lt_of_le (ofDigits_lt hds) (Nat.pow_le_pow_right (by decide) (by omega))
  refine ⟨?_, hlt⟩
  have hfront : ∀ c ∈ List.replicate k ' ' ++ ds, decide (c ≠ '\x00') = true := by
    intro c hc
    refine decide_eq_true ?_
    rintro rfl
    rcases List.mem_append.mp hc with hc | hc
    · exact absurd (List.eq_of_mem_replicate hc) (by decide)
    · exact absurd (hds _ hc) (by decide)
  have htake : chars (cString field) = List.replicate k ' ' ++ (ds ++ rest.takeWhile (· ≠ '\x00')) := by
    rw [chars_cString, hfield, List.takeWhile_append_of_pos hfront, List.append_assoc]
  have hstops : Stops 8 (rest.takeWhile (· ≠ '\x00')) := by
    cases rest with
    | nil => nofun
    | cons d rest =>
      rcases hrest d rfl with rfl | rfl
      · intro c hc
        obtain rfl : ' ' = c := by simpa using hc
        decide
      · nofun
  rw [htake, sscanf, Scanf.scan, number_spaces,
    number_digits hds hne hstops (by decide) (by decide) (by omega)]
  rfl

theorem Member.scanSize_eq (m : Member) : scanSize m.header = some m.data.length :=
  (m.size.scan (by rw [List.length_take]; omega)).1

theorem Member.data_lt (m : Member) : m.data.length < 2 ^ 64 :=
  Nat.lt_trans (m.size.scan (by rw [List.length_take]; omega)).2 (by decide)

theorem Member.header_ne (m : Member) : m.header ≠ List.replicate 512 0 := by
  intro h
  obtain ⟨k, ds, rest, hfield, hds, hne, -⟩ := m.size
  obtain ⟨d, hd⟩ := List.exists_mem_of_ne_nil ds hne
  have hmem : d ∈ chars ((m.header.drop 124).take 12) := by
    rw [hfield]
    exact List.mem_append_left _ (List.mem_append_right _ hd)
  obtain ⟨b, hb, rfl⟩ := List.mem_map.mp hmem
  have hzero : b = 0 := List.eq_of_mem_replicate (h ▸ List.mem_of_mem_drop (List.mem_of_mem_take hb))
  exact absurd (hds _ hd) (by rw [hzero]; decide)

/-- What fills up the last block is what is skipped. -/
theorem Member.skipOf_eq (m : Member) : skipOf m.data.length = m.padding.length := by
  have hdata := m.data_lt
  have hlt := m.padding_lt
  have hmod := m.padded
  rw [skipOf]
  omega

/-- It is skipped also if the member is passed over. -/
theorem Member.blocks_eq (m : Member) : (m.data.length + 511) / 512 * 512 = (m.data ++ m.padding).length := by
  have hlt := m.padding_lt
  have hmod := m.padded
  rw [List.length_append]
  omega

/-- A member that an archive of this type can have, with a name that leaves the last byte of its field. -/
structure Member.Good (type : InputType) (m : Member) : Prop where
  named : m.Named type
  last : m.header[99]? = some 0

theorem Member.Good.dropSuffix_eq (h : m.Good type) : dropSuffix type m.name = .ok (m.file type) := by
  obtain ⟨stem, hstem⟩ := h.named
  rw [dropSuffix, if_neg, Member.file]
  rw [← hstem, List.length_append, Nat.add_sub_cancel, List.drop_left]
  exact not_or.mpr ⟨by omega, fun hne => hne rfl⟩

/-- The pattern fits a member. -/
def fits (sys : System) (pattern : Option (List UInt8)) (type : InputType) (m : Member) : Bool :=
  matchesPattern sys pattern (m.file type)

theorem Member.Good.readHeader_eq (h : m.Good type) (hraw : file.rawHeader.isSome = raw) :
    readHeader sys type pattern file m.header =
      .ok (if fits sys pattern type m then (found type raw m, .member)
        else (⟨file.rawHeader, m.data.length, m.file type⟩, .other m.data.length)) := by
  have hset : m.header.set 99 0 = m.header := by
    obtain ⟨hlt, hlast⟩ := List.getElem?_eq_some_iff.mp h.last
    conv_lhs => rw [← hlast]
    exact List.set_getElem_self hlt
  have hname : cString (m.header.take 100) = m.name := rfl
  have hfound : ⟨file.rawHeader.map fun _ => m.header, m.data.length, m.file type⟩ = found type raw m := by
    rw [found, ← hraw]
    cases file.rawHeader <;> rfl
  rw [readHeader, if_neg m.header_ne, m.scanSize_eq]
  simp only [Option.getD_some, hset, hname, h.dropSuffix_eq, Except.map, hfound, fits]
  rfl

/-! ### One call -/

theorem nextHeader_block {header rest : List UInt8} (hlen : header.length = 512) :
    nextHeader sys type pattern file (header ++ rest) =
      match readHeader sys type pattern file header with
      | .error e => .error e
      | .ok (file, .empty) => .ok (file, none)
      | .ok (file, .other size) =>
        nextHeader sys type pattern file (inputSeek sys rest ((size + 511) / 512 * 512))
      | .ok (file, .member) => .ok (file, some rest) := by
  rw [nextHeader, inputRead_eq, ← hlen, List.take_left, List.drop_left]
  exact dif_neg fun h => h rfl

/-- The loop ends at the next member that the pattern fits, or else at the end of the archive. -/
theorem nextHeader_archive (hms : ∀ m ∈ ms, m.Good type) (hraw : file.rawHeader.isSome = raw) :
    (ms.filter (fits sys pattern type) = [] ∧ ∃ file', file'.rawHeader.isSome = raw ∧
        nextHeader sys type pattern file (archive trailer ms) = .ok (file', none)) ∨
      ∃ m ms', (∀ m' ∈ m :: ms', m'.Good type) ∧
        ms.filter (fits sys pattern type) = m :: ms'.filter (fits sys pattern type) ∧
        nextHeader sys type pattern file (archive trailer ms) =
          .ok (found type raw m, some (m.data ++ m.padding ++ archive trailer ms')) := by
  induction ms generalizing file with
  | nil =>
    refine Or.inl ⟨rfl, file, hraw, ?_⟩
    rw [archive, nextHeader_block List.length_replicate, readHeader, if_pos rfl]
  | cons m ms ih =>
    obtain ⟨hm, hrest⟩ := List.forall_mem_cons.mp hms
    rw [archive, nextHeader_block m.header_length, hm.readHeader_eq hraw]
    by_cases hfits : fits sys pattern type m
    · refine Or.inr ⟨m, ms, hms, List.filter_cons_of_pos hfits, ?_⟩
      rw [if_pos hfits]
    · rw [if_neg hfits, List.filter_cons_of_neg hfits]
      dsimp only
      rw [inputSeek_eq, m.blocks_eq, List.drop_left]
      exact ih hrest hraw

/-- Where the archive is while it is read, in terms of what is to be visited. -/
inductive Visits (sys : System) (type : InputType) (pattern : Option (List UInt8)) (trailer : List UInt8) :
    InputTar → Visit → Prop
  /-- Nothing has been read. -/
  | start {ms : List Member} (hms : ∀ m ∈ ms, m.Good type) :
    Visits sys type pattern trailer (inputTarOpen type (archive trailer ms)) ⟨ms.filter (fits sys pattern type), none⟩
  /-- The last header has been read. -/
  | ended : Visits sys type pattern trailer ⟨type, none, none, none, 0, 0⟩ ⟨[], none⟩
  /-- The contents of a plain member are read from the archive. -/
  | plain {m : Member} {ms : List Member} {rest : List UInt8} (hms : ∀ m ∈ ms, m.Good type) (htype : type = .plain)
    (hrest : rest.length < 2 ^ 64) :
    Visits sys type pattern trailer
      ⟨type, some (rest ++ m.padding ++ archive trailer ms), none, none, rest.length, m.padding.length⟩
      ⟨ms.filter (fits sys pattern type), some rest⟩
  /-- No filter has been started. -/
  | unread {m : Member} {ms : List Member} (hms : ∀ m ∈ ms, m.Good type) (htype : type ≠ .plain) :
    Visits sys type pattern trailer
      ⟨type, some (m.data ++ m.padding ++ archive trailer ms), none, none, m.data.length, m.padding.length⟩
      ⟨ms.filter (fits sys pattern type), some (m.contents sys type)⟩
  /-- The contents are read from the filter, which takes the member out of the archive. -/
  | filtered {m : Member} {ms : List Member} {rest : List UInt8} (hms : ∀ m ∈ ms, m.Good type)
    (htype : type ≠ .plain) :
    Visits sys type pattern trailer
      ⟨type, some (m.data ++ m.padding ++ archive trailer ms), some rest, some (m.data.length + m.padding.length), 0, 0⟩
      ⟨ms.filter (fits sys pattern type), some rest⟩

variable {tar : InputTar} {v : Visit} {op : Op} {ops : List Op}

/-- A header comes behind the current member. -/
def Behind (sys : System) (type : InputType) (trailer : List UInt8) (tar : InputTar) (ms : List Member) : Prop :=
  tar.type = type ∧ ∃ fd, tar.tarFd = some fd ∧ skipMember sys tar fd = .ok (archive trailer ms)

theorem skipMember_seek {fd front : List UInt8} {size skip : ℕ} (hlen : front.length = size + skip) :
    skipMember sys ⟨type, some (front ++ fd), none, none, size, skip⟩ (front ++ fd) = .ok fd := by
  rw [skipMember]
  by_cases h : size ≠ 0 ∨ skip ≠ 0
  · rw [if_pos h, inputSeek_eq, ← hlen, List.drop_left]
  · have hnil : front = [] := List.length_eq_zero_iff.mp (by omega)
    rw [if_neg h, hnil]
    rfl

/-- So it is after any number of reads. -/
theorem Visits.behind (h : Visits sys type pattern trailer tar v) :
    (tar = ⟨type, none, none, none, 0, 0⟩ ∧ v.todo = []) ∨ ∃ ms, (∀ m ∈ ms, m.Good type) ∧
      v.todo = ms.filter (fits sys pattern type) ∧ Behind sys type trailer tar ms := by
  cases h with
  | start hms => exact Or.inr ⟨_, hms, rfl, rfl, _, rfl, rfl⟩
  | ended => exact Or.inl ⟨rfl, rfl⟩
  | plain hms htype hrest => exact Or.inr ⟨_, hms, rfl, rfl, _, rfl, skipMember_seek List.length_append⟩
  | unread hms htype => exact Or.inr ⟨_, hms, rfl, rfl, _, rfl, skipMember_seek List.length_append⟩
  | filtered hms htype =>
    refine Or.inr ⟨_, hms, rfl, rfl, _, rfl, ?_⟩
    rw [skipMember, if_neg (by simp)]
    dsimp only
    rw [← List.length_append, List.drop_left]
    rfl

/-- Where the archive is behind a header. -/
theorem Visits.member {m : Member} (hms : ∀ m' ∈ m :: ms, m'.Good type) :
    Visits sys type pattern trailer
      ⟨type, some (m.data ++ m.padding ++ archive trailer ms), none, none, m.data.length, skipOf m.data.length⟩
      ⟨ms.filter (fits sys pattern type), some (m.contents sys type)⟩ := by
  have hrest := (List.forall_mem_cons.mp hms).2
  rw [m.skipOf_eq]
  by_cases htype : type = .plain
  · have hcontents : m.contents sys type = m.data := if_pos (Or.inl htype)
    rw [hcontents]
    exact .plain hrest htype m.data_lt
  · exact .unread hrest htype

/-- The next member is found, whatever has been read of this one. -/
theorem Visits.next (h : Visits sys type pattern trailer tar v) (hraw : file.rawHeader.isSome = raw) :
    ∃ tar' file', call sys pattern (tar, file) .next = .ok ((visit sys type raw v .next).1, tar', file') ∧
      Visits sys type pattern trailer tar' (visit sys type raw v .next).2 ∧ file'.rawHeader.isSome = raw := by
  obtain ⟨todo, rest⟩ := v
  rcases h.behind with ⟨rfl, rfl⟩ | ⟨ms, hms, rfl, rfl, fd, hfd, hskip⟩
  · exact ⟨_, _, rfl, .ended, hraw⟩
  rw [call, inputTarNext, hfd]
  simp only [bind, Except.bind]
  rw [hskip]
  dsimp only
  rcases nextHeader_archive hms hraw with ⟨hnil, file', hraw', hnext⟩ | ⟨m, ms', hms', hcons, hnext⟩
  · rw [hnext, hnil]
    exact ⟨_, file', rfl, .ended, hraw'⟩
  · rw [hnext, hcons]
    refine ⟨_, found tar.type raw m, rfl, .member hms', ?_⟩
    rw [found]
    cases raw <;> rfl

/-- A read from the filter that asks for no more than is there. -/
theorem readContents_filter {fd tarFd : List UInt8} {child : Option ℕ} {size skip : ℕ} (htype : type ≠ .plain)
    (hle : n ≤ fd.length) :
    readContents sys ⟨type, some tarFd, some fd, child, size, skip⟩ n =
      .ok (fd.take n, ⟨type, some tarFd, some (fd.drop n), child, size, skip⟩) := by
  rw [readContents]
  dsimp only
  rw [inputRead_eq]
  dsimp only
  rw [afterRead, if_neg htype, if_neg (by rw [List.length_take]; omega)]
  rfl

/-- A read from the archive. -/
theorem readContents_archive {data behind : List UInt8} {skip : ℕ} (hlen : data.length < 2 ^ 64) :
    readContents sys ⟨.plain, some (data ++ behind), none, none, data.length, skip⟩ n =
      .ok (data.take n, ⟨.plain, some (data.drop n ++ behind), none, none, (data.drop n).length, skip⟩) := by
  have htake : (data ++ behind).take (min n data.length) = data.take n := by
    rw [List.take_append_of_le_length (Nat.min_le_right ..), List.take_eq_take_iff]
    omega
  have hdrop : (data ++ behind).drop (min n data.length) = data.drop n ++ behind := by
    have heq : data.drop (min n data.length) = data.drop n := List.drop_eq_drop_iff.mpr (by omega)
    rw [List.drop_append_of_le_length (Nat.min_le_right ..), heq]
  rw [readContents]
  dsimp only
  rw [inputRead_eq]
  dsimp only
  rw [afterRead, if_pos rfl, htake, hdrop]
  have hsize : (data.length + 2 ^ 64 - (data.take n).length) % 2 ^ 64 = (data.drop n).length := by
    rw [List.length_take, List.length_drop]
    omega
  dsimp only
  rw [hsize]
  rfl

theorem inputTarFd_of_some {fd : List UInt8} (h : tar.fileFd = some fd) : inputTarFd sys tar = tar := by
  rw [inputTarFd, h]
  rfl

/-- The filter of a member. -/
theorem Member.inputTarFd_eq {behind : List UInt8} (htype : type ≠ .plain) (m : Member) :
    inputTarFd sys ⟨type, some (m.data ++ behind), none, none, m.data.length, m.padding.length⟩ =
      ⟨type, some (m.data ++ behind), some (m.contents sys type), some (m.data.length + m.padding.length), 0, 0⟩ := by
  have hlt := m.padding_lt
  have hmod := m.padded
  rw [inputTarFd]
  dsimp only [Option.isSome_none, Option.getD_some]
  rw [if_neg Bool.false_ne_true, List.take_left, Member.contents]
  by_cases hdata : m.data.length = 0
  · have hnil : m.data = [] := List.length_eq_zero_iff.mp hdata
    rw [if_pos hdata, if_pos (Or.inr hnil), hdata, show m.padding.length = 0 by omega]
  · have hne : m.data ≠ [] := fun h => hdata (congrArg List.length h)
    rw [if_neg hdata, if_neg htype, if_neg (not_or.mpr ⟨htype, hne⟩)]

/-- What is read is the next of the contents. -/
theorem Visits.read (h : Visits sys type pattern trailer tar v) (ha : Allowed type v (.read n)) :
    ∃ tar', call sys pattern (tar, file) (.read n) = .ok ((visit sys type raw v (.read n)).1, tar', file) ∧
      Visits sys type pattern trailer tar' (visit sys type raw v (.read n)).2 := by
  obtain ⟨rest, hrest, hle⟩ := ha
  rw [call, inputTarRead]
  cases h with
  | start hms => exact absurd hrest nofun
  | ended => exact absurd hrest nofun
  | plain hms htype hlen =>
    rw [if_pos htype, htype, List.append_assoc, readContents_archive hlen]
    refine ⟨_, rfl, ?_⟩
    rw [← List.append_assoc]
    subst htype
    exact .plain hms rfl (by rw [List.length_drop]; omega)
  | unread hms htype =>
    obtain rfl := Option.some.inj hrest
    rw [if_neg htype, List.append_assoc, Member.inputTarFd_eq htype, readContents_filter htype (hle.resolve_left htype)]
    rw [← List.append_assoc]
    exact ⟨_, rfl, .filtered hms htype⟩
  | filtered hms htype =>
    obtain rfl := Option.some.inj hrest
    rw [if_neg htype, inputTarFd_of_some rfl, readContents_filter htype (hle.resolve_left htype)]
    exact ⟨_, rfl, .filtered hms htype⟩

theorem run_cons {s s' : InputTar × InputTarFile} {out : Out} (h : call sys pattern s op = .ok (out, s')) :
    run sys pattern s (op :: ops) = (run sys pattern s' ops).map (out :: ·) := by
  rw [run, h]
  rfl

/-- A read that asks for more closes the archive. -/
theorem readContents_short {fd tarFd : List UInt8} {child : Option ℕ} {size skip : ℕ} (htype : type ≠ .plain)
    (hlt : fd.length < n) :
    readContents sys ⟨type, some tarFd, some fd, child, size, skip⟩ n =
      .ok (fd, ⟨type, none, some [], child, size, skip⟩) := by
  have hle := Nat.le_of_lt hlt
  rw [readContents]
  dsimp only
  rw [inputRead_eq, List.take_of_length_le hle, List.drop_of_length_le hle]
  dsimp only
  rw [afterRead, if_neg htype, if_pos hlt]
  rfl

/-- Then no member is found any more. -/
theorem Visits.read_short {rest : List UInt8} (h : Visits sys type pattern trailer tar v) (htype : type ≠ .plain)
    (hrest : v.rest = some rest) (hlt : rest.length < n) :
    run sys pattern (tar, file) [.read n, .next] = .ok [.read rest, .next none] := by
  have hread : ∃ tar', inputTarRead sys tar n = .ok (rest, tar') ∧ tar'.tarFd = none := by
    rw [inputTarRead]
    cases h with
    | start hms => exact absurd hrest nofun
    | ended => exact absurd hrest nofun
    | plain _ hplain => exact absurd hplain htype
    | unread hms _ =>
      obtain rfl := Option.some.inj hrest
      rw [if_neg htype, List.append_assoc, Member.inputTarFd_eq htype, readContents_short htype hlt]
      exact ⟨_, rfl, rfl⟩
    | filtered hms _ =>
      obtain rfl := Option.some.inj hrest
      rw [if_neg htype, inputTarFd_of_some rfl, readContents_short htype hlt]
      exact ⟨_, rfl, rfl⟩
  obtain ⟨tar', hread, hclosed⟩ := hread
  have hcall : call sys pattern (tar, file) (.read n) = .ok (.read rest, tar', file) := by
    rw [call, hread]
    rfl
  have hnext : call sys pattern (tar', file) .next = .ok (.next none, tar', file) := by
    rw [call, inputTarNext, hclosed]
    rfl
  rw [run_cons hcall, run_cons hnext]
  rfl

/-! ### Runs -/

theorem Visits.run (h : Visits sys type pattern trailer tar v) (hraw : file.rawHeader.isSome = raw)
    (ha : AllowedRun sys type raw v ops) : run sys pattern (tar, file) ops = .ok (visits sys type raw v ops) := by
  induction ops generalizing tar file v with
  | nil => rfl
  | cons op ops ih =>
    obtain ⟨hop, hops⟩ := ha
    have hcall : ∃ tar' file', call sys pattern (tar, file) op = .ok ((visit sys type raw v op).1, tar', file') ∧
        Visits sys type pattern trailer tar' (visit sys type raw v op).2 ∧ file'.rawHeader.isSome = raw := by
      cases op with
      | next => exact h.next hraw
      | read size =>
        obtain ⟨tar', hread, hvisits⟩ := h.read hop
        exact ⟨tar', file, hread, hvisits, hraw⟩
    obtain ⟨tar', file', hcall, hvisits, hraw'⟩ := hcall
    rw [run_cons hcall, ih hvisits hraw' hops]
    rfl

end

/-- **Every member is visited once and in order**, in all runs that read from compressed contents no more than is there:
what the calls return is what they are for. -/
theorem tar_visits {sys : System} {type : InputType} {pattern : Option (List UInt8)} {trailer : List UInt8}
    {ms : List Member} {file : InputTarFile} {ops : List Op} (hms : ∀ m ∈ ms, m.Good type)
    (ha : AllowedRun sys type file.rawHeader.isSome ⟨ms.filter (fits sys pattern type), none⟩ ops) :
    run sys pattern (inputTarOpen type (archive trailer ms), file) ops =
      .ok (visits sys type file.rawHeader.isSome ⟨ms.filter (fits sys pattern type), none⟩ ops) :=
  (Visits.start hms).run rfl ha

/-! ### Two compressed members -/

/-- What `bzip2` makes of one letter. -/
def letter : List UInt8 :=
  [66, 90, 104, 57, 49, 65, 89, 38, 83, 89, 25, 147, 155, 107, 0, 0, 0, 1, 0, 32, 0, 32, 0, 33, 24, 70, 130, 238, 72,
    167, 10, 18, 3, 50, 115, 109, 96]

/-- A member of one letter. -/
def letterMember (name : UInt8) : Member where
  header := [name, 46, 98, 122, 50] ++ List.replicate 119 0 ++ [48, 48, 48, 48, 48, 48, 48, 48, 48, 52, 53, 0] ++
    List.replicate 376 0
  data := letter
  padding := List.replicate 475 0
  header_length := by simp only [List.length_append, List.length_replicate]; rfl
  size := ⟨0, ['0', '0', '0', '0', '0', '0', '0', '0', '0', '4', '5'], ['\x00'], rfl,
    List.all_eq_true.mp rfl, by decide, rfl, fun _ h => Or.inr (Option.some.inj h).symm⟩
  padding_lt := by rw [List.length_replicate]; decide
  padded := by rw [List.length_replicate]; rfl

/-- A system that returns as much as it is asked for. -/
def letterSystem : System where
  seekable := true
  piece := List.length
  decompress _ data := if data = letter then [97] else []
  fnmatch _ _ := true

theorem letterMembers_good : ∀ m ∈ [letterMember 97, letterMember 98], m.Good .bzip2 := by
  refine List.forall_mem_cons.mpr ⟨⟨?_, rfl⟩, List.forall_mem_singleton.mpr ⟨?_, rfl⟩⟩
  · exact ⟨[97], rfl⟩
  · exact ⟨[98], rfl⟩

/-- A read from the first member that asks for one byte more than there is: the second one is not found. -/
theorem tar_closed_by_read :
    run letterSystem none (inputTarOpen .bzip2 (archive [] [letterMember 97, letterMember 98]), ⟨none, 0, []⟩)
        [.next, .read 2, .next] = .ok [.next (some (found .bzip2 false (letterMember 97))), .read [97], .next none] ∧
      visits letterSystem .bzip2 false ⟨[letterMember 97, letterMember 98], none⟩ [.next, .read 2, .next] =
        [.next (some (found .bzip2 false (letterMember 97))), .read [97],
          .next (some (found .bzip2 false (letterMember 98)))] := by
  have hstart : Visits letterSystem .bzip2 none [] (inputTarOpen .bzip2 (archive [] [letterMember 97, letterMember 98]))
      ⟨[letterMember 97, letterMember 98], none⟩ := .start letterMembers_good
  obtain ⟨tar', file', hcall, hvisits, -⟩ :=
    hstart.next (show (InputTarFile.mk none 0 []).rawHeader.isSome = false from rfl)
  refine ⟨?_, rfl⟩
  rw [run_cons hcall, hvisits.read_short (by decide) rfl (by decide)]
  rfl

/-- A run that reads each of them to its end. -/
theorem tar_visits_two :
    run letterSystem none (inputTarOpen .bzip2 (archive [] [letterMember 97, letterMember 98]), ⟨none, 0, []⟩)
        [.next, .read 1, .next, .read 0, .read 1, .next] =
      .ok (visits letterSystem .bzip2 false ⟨[letterMember 97, letterMember 98], none⟩
        [.next, .read 1, .next, .read 0, .read 1, .next]) :=
  tar_visits letterMembers_good
    ⟨trivial, ⟨_, rfl, Or.inr (Nat.le_refl 1)⟩, trivial, ⟨_, rfl, Or.inr (Nat.zero_le _)⟩,
      ⟨_, rfl, Or.inr (Nat.le_refl 1)⟩, trivial, trivial⟩

end Tar

end Input

end NfpEstimator
