import Mathlib

/-!
# Packets of ktest files

A ktest file is a header and a list of named objects. `ktest_init` looks for the object `real_sk_buff`, whose first four
bytes are the length of the packet, and the packet generator then looks for `data`, the bytes of the packet. Both are
asked for without their sizes: the four bytes, and as many bytes as they say, are read from where the objects begin,
whether they are there or not (`ktest_inside_iff`).

Every access to the buffer is a `load`, which faults outside of it.
-/

namespace NfpEstimator

namespace Ktest

/-- How a run ends that yields no packet. -/
inductive Stop where
  /-- `errx` with this message. -/
  | errx (message : String)
  /-- Bytes are read outside of the buffer. -/
  | outside (offset size : ℕ)
  deriving DecidableEq

/-- `if (c) errx(-1, message);` -/
def errxIf (c : Prop) [Decidable c] (message : String) : Except Stop Unit :=
  if c then .error (.errx message) else .ok ()

/-- What there is, or `errx`. -/
def orErrx {α : Type} (x : Option α) (message : String) : Except Stop α :=
  match x with
  | none => .error (.errx message)
  | some a => .ok a

/-- `size` bytes of the buffer. -/
def load (buf : List UInt8) (offset size : ℕ) : Except Stop (List UInt8) :=
  if offset + size ≤ buf.length then .ok ((buf.drop offset).take size) else .error (.outside offset size)

/-- `ntohl`, of the bytes in memory. -/
def ntohl (bs : List UInt8) : ℕ := bs.foldl (fun n b => n * 256 + b.toNat) 0

/-- A word in the byte order of the machine. -/
def word (bs : List UInt8) : ℕ := ntohl bs.reverse

/-- `-1`, as an `uint32_t`. -/
def minusOne : ℕ := 2 ^ 32 - 1

section
variable (buf : List UInt8)

/-! ### Reading objects -/

/-- `ktest_read` without a destination: the offset behind the bytes. -/
def ktestRead (offset size : ℕ) : Option ℕ :=
  if buf.length - offset < size then none else some (offset + size)

/-- `ktest_read_int`, and the offset behind it. -/
def ktestReadInt (offset : ℕ) : Except Stop (ℕ × ℕ) :=
  match ktestRead buf offset 4 with
  | none => .ok (minusOne, offset)
  | some offset' => (load buf offset 4).map fun b => (ntohl b, offset')

/-- Where an object is: its name and its contents. -/
structure Obj where
  name : ℕ
  nameLen : ℕ
  obj : ℕ
  objLen : ℕ

/-- An `uint32_t` and as many bytes; `-1` is the end. Where the bytes are, how many, and the offset behind them. -/
def ktestReadBytes (offset : ℕ) : Except Stop (Option (ℕ × ℕ × ℕ)) := do
  let (len, offset) ← ktestReadInt buf offset
  if len = minusOne then return none
  return (ktestRead buf offset len).map fun offset' => (offset, len, offset')

/-- The name of an object is `s`. -/
def hasName (o : Obj) (s : List UInt8) : Except Stop Bool :=
  if o.nameLen = s.length then (load buf o.name o.nameLen).map fun n => n == s else .ok false

/-- One object, and the offset behind it. -/
def ktestReadObj (offset : ℕ) : Except Stop (Option (Obj × ℕ)) := do
  match ← ktestReadBytes buf offset with
  | none => return none
  | some (name, nameLen, offset) =>
    match ← ktestReadBytes buf offset with
    | none => return none
    | some (obj, objLen, offset) => return some (⟨name, nameLen, obj, objLen⟩, offset)

end

/-- The bytes of a string. -/
def ascii (s : List Char) : List UInt8 := s.map Char.toUInt8

/-- `"KTEST"` -/
def magic : List UInt8 := ascii ['K', 'T', 'E', 'S', 'T']

/-- `"real_sk_buff"` -/
def skBuffName : List UInt8 := ascii ['r', 'e', 'a', 'l', '_', 's', 'k', '_', 'b', 'u', 'f', 'f']

/-- `"data"` -/
def dataName : List UInt8 := ascii ['d', 'a', 't', 'a']

/-- Objects that are passed over. -/
def isSkipped (buf : List UInt8) (o : Obj) : Except Stop Bool := do
  if ← hasName buf o (ascii ['s', 't', 'a', 'c', 'k']) then return true
  hasName buf o (ascii ['s', 'y', 'm', '_', 'r', 'e', 'g'])

section
variable {buf : List UInt8} {offset offset' : ℕ}

theorem bind_eq_ok {ε α β : Type} {x : Except ε α} {f : α → Except ε β} {b : β} :
    (x >>= f) = .ok b ↔ ∃ a, x = .ok a ∧ f a = .ok b := by
  cases x with
  | error e => simp [bind, Except.bind]
  | ok a => simp [bind, Except.bind]

theorem ktestRead_some {size : ℕ} (h : ktestRead buf offset size = some offset') :
    offset' = offset + size ∧ size ≤ buf.length - offset := by
  rw [ktestRead] at h
  split_ifs at h with hlt
  exact ⟨(Option.some.inj h).symm, Nat.le_of_not_lt hlt⟩

theorem ktestReadInt_ok {r : ℕ × ℕ} (h : ktestReadInt buf offset = .ok r) :
    r = (minusOne, offset) ∨ r.2 = offset + 4 ∧ offset + 4 ≤ buf.length := by
  rw [ktestReadInt] at h
  cases hr : ktestRead buf offset 4 with
  | none =>
    rw [hr] at h
    exact Or.inl (Except.ok.inj h).symm
  | some o =>
    rw [hr] at h
    obtain ⟨rfl, hle⟩ := ktestRead_some hr
    cases hl : load buf offset 4 with
    | error e =>
      rw [hl] at h
      exact absurd h nofun
    | ok b =>
      rw [hl] at h
      exact Or.inr ⟨congrArg Prod.snd (Except.ok.inj h).symm, by omega⟩

theorem ktestReadBytes_lt {p n : ℕ} (h : ktestReadBytes buf offset = .ok (some (p, n, offset'))) :
    offset < offset' ∧ offset' ≤ buf.length := by
  obtain ⟨⟨len, o⟩, hint, h⟩ := bind_eq_ok.mp h
  dsimp only at h
  split_ifs at h with hend
  · exact absurd (Except.ok.inj h) nofun
  · obtain ⟨o', hr, heq⟩ := Option.map_eq_some_iff.mp (Except.ok.inj h)
    obtain ⟨hr, hle⟩ := ktestRead_some hr
    have hlast : o' = offset' := congrArg (fun x => x.2.2) heq
    rcases ktestReadInt_ok hint with hnone | ⟨ho, hlt⟩
    · exact absurd (congrArg Prod.fst hnone) hend
    · dsimp only at ho
      omega

theorem ktestReadObj_lt {o : Obj} (h : ktestReadObj buf offset = .ok (some (o, offset'))) :
    offset < offset' ∧ offset' ≤ buf.length := by
  obtain ⟨r, hname, h⟩ := bind_eq_ok.mp h
  rcases r with _ | ⟨p, n, o₁⟩
  · exact absurd (Except.ok.inj h) nofun
  obtain ⟨r, hobj, h⟩ := bind_eq_ok.mp h
  rcases r with _ | ⟨p', n', o₂⟩
  · exact absurd (Except.ok.inj h) nofun
  have heq : o₂ = offset' := congrArg Prod.snd (Option.some.inj (Except.ok.inj h))
  have h₁ := ktestReadBytes_lt hname
  have h₂ := ktestReadBytes_lt hobj
  omega

end

section
variable (buf : List UInt8)

/-- `ktest_next_obj`, and the offset behind the object. The callers below take `NULL` as the end. -/
def ktestNextObj (offset : ℕ) : Except Stop (Option (Obj × ℕ)) :=
  match _h : ktestReadObj buf offset with
  | .error e => .error e
  | .ok none => .ok none
  | .ok (some (o, offset')) => do
    if ← isSkipped buf o then ktestNextObj offset'
    else return some (o, offset')
termination_by buf.length - offset
decreasing_by
  have := ktestReadObj_lt _h
  omega

/-- `ktest_get_obj`, without the size of the object: where it begins, and the offset behind it. -/
def ktestGetObj (name : List UInt8) (offset : ℕ) : Except Stop (Option (ℕ × ℕ)) := do
  match ← ktestNextObj buf offset with
  | none => return none
  | some (o, offset') => if ← hasName buf o name then return some (o.obj, offset') else return none

/-! ### Files -/

/-- The loop over the arguments of the program. -/
def ktestReadArgs : ℕ → ℕ → Except Stop (Option ℕ)
  | 0, offset => .ok (some offset)
  | n + 1, offset => do
    let (size, offset) ← ktestReadInt buf offset
    match ktestRead buf offset size with
    | none => return none
    | some offset => ktestReadArgs n offset

/-- What is used of a `struct ktest_buf`. -/
structure KtestBuf where
  offset : ℕ
  skBuff : ℕ

/-- `ktest_init`, up to the objects: where they begin. -/
def ktestHeader : Except Stop ℕ := do
  errxIf (buf.length < 5) "invalid ktest magic"
  errxIf ((← load buf 0 5) ≠ magic) "invalid ktest magic"
  let (version, offset) ← ktestReadInt buf 5
  errxIf (version ≠ 3) "invalid ktest version"
  let (numArgs, offset) ← ktestReadInt buf offset
  let offset ← orErrx (← ktestReadArgs buf numArgs offset) "invalid ktest args"
  let offset ← orErrx (ktestRead buf offset 8) "invalid ktest symArgs"
  orErrx (ktestRead buf offset 4) "invalid ktest numObjects"

/-- `ktest_init` -/
def ktestInit : Except Stop KtestBuf := do
  let offset ← ktestHeader buf
  let (skBuff, offset) ← orErrx (← ktestGetObj buf skBuffName offset) "invalid ktest real_sk_buff"
  return ⟨offset, skBuff⟩

/-- `ktest_sk_buff_32` -/
def ktestSkBuff32 (k : KtestBuf) (offset : ℕ) : Except Stop ℕ := (load buf (k.skBuff + offset) 4).map word

/-- `prepare_ktest`: where the packet begins in the buffer, and its length. -/
def prepareKtest : Except Stop (ℕ × ℕ) := do
  let k ← ktestInit buf
  let len ← ktestSkBuff32 buf k 0
  errxIf (len < 14) s!"non ethernet frame of size {len}"
  let (base, _) ← orErrx (← ktestGetObj buf dataName k.offset) "invalid ktest data"
  return (base, len)

/-- `prepare_tar_ktest`, of one file: the bytes of its packet, if it has one. -/
def prepareTarKtest : Except Stop (Option (List UInt8)) := do
  let k ← ktestInit buf
  let len ← ktestSkBuff32 buf k 0
  if len < 14 then return none
  let (base, _) ← orErrx (← ktestGetObj buf dataName k.offset) "invalid ktest data"
  return some (← load buf base len)

end

/-! ### The format -/

/-- `htonl`, as bytes in memory. -/
def htonl (n : ℕ) : List UInt8 :=
  [UInt8.ofNat (n / 2 ^ 24), UInt8.ofNat (n / 2 ^ 16), UInt8.ofNat (n / 2 ^ 8), UInt8.ofNat n]

/-- Bytes behind their length. -/
def chunk (bs : List UInt8) : List UInt8 := htonl bs.length ++ bs

/-- An object. -/
def object (name data : List UInt8) : List UInt8 := chunk name ++ chunk data

/-- The names of the objects that are passed over. -/
def skippedNames : List (List UInt8) := [ascii ['s', 't', 'a', 'c', 'k'], ascii ['s', 'y', 'm', '_', 'r', 'e', 'g']]

/-- Any number of such objects. -/
inductive Skipped : List UInt8 → Prop
  | nil : Skipped []
  | cons {name data bs : List UInt8} : name ∈ skippedNames → data.length < minusOne → Skipped bs →
      Skipped (object name data ++ bs)

/-- The header of a file: the magic, the version, the arguments, and twelve more bytes. -/
def Header (h : List UInt8) : Prop :=
  ∃ (args : List (List UInt8)) (symArgs numObjects : List UInt8), args.length < 2 ^ 32 ∧
    (∀ a ∈ args, a.length < 2 ^ 32) ∧ symArgs.length = 8 ∧ numObjects.length = 4 ∧
    h = magic ++ htonl 3 ++ htonl args.length ++ args.flatMap chunk ++ symArgs ++ numObjects

section
variable {buf bs rest x w name data : List UInt8} {offset offset' : ℕ}

theorem htonl_length (n : ℕ) : (htonl n).length = 4 := rfl

theorem ntohl_htonl {n : ℕ} (h : n < 2 ^ 32) : ntohl (htonl n) = n := by
  simp only [ntohl, htonl, List.foldl_cons, List.foldl_nil, UInt8.toNat_ofNat']
  omega

theorem htonl_ntohl (h : w.length = 4) : htonl (ntohl w) = w := by
  obtain ⟨a, b, c, d, rfl⟩ := List.length_eq_four.mp h
  have ha := a.toNat_lt
  have hb := b.toNat_lt
  have hc := c.toNat_lt
  have hd := d.toNat_lt
  simp only [ntohl, htonl, List.foldl_cons, List.foldl_nil, List.cons.injEq, and_true, ← UInt8.toNat_inj,
    UInt8.toNat_ofNat']
  omega

theorem ntohl_lt (h : w.length = 4) : ntohl w < 2 ^ 32 := by
  obtain ⟨a, b, c, d, rfl⟩ := List.length_eq_four.mp h
  have ha := a.toNat_lt
  have hb := b.toNat_lt
  have hc := c.toNat_lt
  have hd := d.toNat_lt
  simp only [ntohl, List.foldl_cons, List.foldl_nil]
  omega

/-! ### Parsing -/

/-- The bytes `bs` are what the buffer has from `offset` on. -/
def Rest (buf : List UInt8) (offset : ℕ) (bs : List UInt8) : Prop := ∃ pre, buf = pre ++ bs ∧ pre.length = offset

theorem Rest.start : Rest buf 0 buf := ⟨[], rfl, rfl⟩

theorem Rest.skip (h : Rest buf offset (x ++ rest)) : Rest buf (offset + x.length) rest := by
  obtain ⟨pre, rfl, rfl⟩ := h
  exact ⟨pre ++ x, (List.append_assoc ..).symm, List.length_append⟩

theorem Rest.length_eq (h : Rest buf offset bs) : buf.length = offset + bs.length := by
  obtain ⟨pre, rfl, rfl⟩ := h
  exact List.length_append

theorem Rest.load (h : Rest buf offset (x ++ rest)) : load buf offset x.length = .ok x := by
  have hlen := h.length_eq
  rw [List.length_append] at hlen
  obtain ⟨pre, rfl, rfl⟩ := h
  rw [Ktest.load, if_pos (by omega), List.drop_left, List.take_left]

theorem Rest.read (h : Rest buf offset bs) (n : ℕ) :
    ktestRead buf offset n = if bs.length < n then none else some (offset + n) := by
  have hlen := h.length_eq
  rw [ktestRead, show buf.length - offset = bs.length by omega]

theorem Rest.readInt {n : ℕ} (h : Rest buf offset (htonl n ++ rest)) (hn : n < 2 ^ 32) :
    ktestReadInt buf offset = .ok (n, offset + 4) := by
  rw [ktestReadInt, h.read, if_neg (by rw [List.length_append, htonl_length]; omega)]
  dsimp only
  rw [← htonl_length n, h.load]
  exact congrArg (fun m => Except.ok (m, offset + 4)) (ntohl_htonl hn)

/-- Any four bytes are a number, and behind the last four there is `-1`. -/
theorem Rest.readInt_total (h : Rest buf offset bs) :
    (bs.length < 4 ∧ ktestReadInt buf offset = .ok (minusOne, offset)) ∨
      ∃ n rest, n < 2 ^ 32 ∧ bs = htonl n ++ rest := by
  by_cases hlen : bs.length < 4
  · refine Or.inl ⟨hlen, ?_⟩
    rw [ktestReadInt, h.read, if_pos hlen]
  · have hw : (bs.take 4).length = 4 := by
      rw [List.length_take]
      omega
    refine Or.inr ⟨ntohl (bs.take 4), bs.drop 4, ntohl_lt hw, ?_⟩
    rw [htonl_ntohl hw, List.take_append_drop]

theorem readBytes_eq {n o : ℕ} (h : ktestReadInt buf offset = .ok (n, o)) (hn : n ≠ minusOne) :
    ktestReadBytes buf offset = .ok ((ktestRead buf o n).map fun o' => (o, n, o')) := by
  rw [ktestReadBytes, h]
  exact if_neg hn

theorem readBytes_end {o : ℕ} (h : ktestReadInt buf offset = .ok (minusOne, o)) :
    ktestReadBytes buf offset = .ok none := by
  rw [ktestReadBytes, h]
  rfl

theorem Rest.readBytes (h : Rest buf offset (chunk x ++ rest)) (hx : x.length < minusOne) :
    ktestReadBytes buf offset = .ok (some (offset + 4, x.length, offset + (chunk x).length)) := by
  rw [chunk, List.append_assoc] at h
  have hskip : Rest buf (offset + 4) (x ++ rest) := h.skip
  rw [readBytes_eq (h.readInt (by rw [minusOne] at hx; omega)) (Nat.ne_of_lt hx), hskip.read,
    if_neg (by rw [List.length_append]; omega), chunk, List.length_append, htonl_length, ← Nat.add_assoc]
  rfl

/-- Otherwise there is none. -/
theorem Rest.readBytes_total (h : Rest buf offset bs) :
    ktestReadBytes buf offset = .ok none ∨ ∃ x rest, bs = chunk x ++ rest ∧ x.length < minusOne := by
  rcases h.readInt_total with ⟨-, hnone⟩ | ⟨n, rest, hn, rfl⟩
  · exact Or.inl (readBytes_end hnone)
  have hint := h.readInt hn
  by_cases hend : n = minusOne
  · exact Or.inl (readBytes_end (hend ▸ hint))
  have hskip : Rest buf (offset + 4) rest := h.skip
  rw [readBytes_eq hint hend, hskip.read]
  split_ifs with hshort
  · exact Or.inl rfl
  · have hx : (rest.take n).length = n := by
      rw [List.length_take]
      omega
    refine Or.inr ⟨rest.take n, rest.drop n, ?_, ?_⟩
    · rw [chunk, hx, List.append_assoc, List.take_append_drop]
    · rw [hx, minusOne]
      rw [minusOne] at hend
      omega

theorem Rest.readObj (h : Rest buf offset (object name data ++ rest)) (hname : name.length < minusOne)
    (hdata : data.length < minusOne) :
    ktestReadObj buf offset = .ok (some (⟨offset + 4, name.length, offset + (chunk name).length + 4, data.length⟩,
      offset + (object name data).length)) := by
  rw [object, List.append_assoc] at h
  rw [ktestReadObj, h.readBytes hname]
  simp only [bind, Except.bind]
  rw [h.skip.readBytes hdata, object, List.length_append, ← Nat.add_assoc]
  rfl

theorem Rest.readObj_total (h : Rest buf offset bs) :
    ktestReadObj buf offset = .ok none ∨
      ∃ name data rest, bs = object name data ++ rest ∧ name.length < minusOne ∧ data.length < minusOne := by
  rcases h.readBytes_total with hnone | ⟨name, bs', rfl, hname⟩
  · refine Or.inl ?_
    rw [ktestReadObj, hnone]
    rfl
  rcases h.skip.readBytes_total with hnone | ⟨data, rest, rfl, hdata⟩
  · refine Or.inl ?_
    rw [ktestReadObj, h.readBytes hname]
    simp only [bind, Except.bind]
    rw [hnone]
    rfl
  · exact Or.inr ⟨name, data, rest, by rw [object, List.append_assoc], hname, hdata⟩

theorem Rest.hasName {o : Obj} (h : Rest buf offset (object name data ++ rest)) (ho : o.name = offset + 4)
    (hlen : o.nameLen = name.length) (s : List UInt8) : hasName buf o s = .ok (name == s) := by
  rw [Ktest.hasName, ho, hlen]
  split_ifs with hs
  · have hload : Rest buf (offset + 4) (name ++ (chunk data ++ rest)) := by
      rw [object, chunk, List.append_assoc, List.append_assoc] at h
      exact h.skip
    rw [hload.load]
    rfl
  · have hne : (name == s) = false := beq_eq_false_iff_ne.mpr fun heq => hs (congrArg List.length heq)
    rw [hne]

theorem Rest.isSkipped {o : Obj} (h : Rest buf offset (object name data ++ rest)) (ho : o.name = offset + 4)
    (hlen : o.nameLen = name.length) : isSkipped buf o = .ok (decide (name ∈ skippedNames)) := by
  rw [Ktest.isSkipped, h.hasName ho hlen, h.hasName ho hlen]
  simp only [bind, Except.bind, skippedNames, List.mem_cons, List.not_mem_nil, or_false, Bool.decide_or]
  by_cases hstack : name = ascii ['s', 't', 'a', 'c', 'k']
  · simp [hstack, pure, Except.pure]
  · simp [hstack, beq_eq_decide]

/-! ### Objects that are looked for -/

/-- What `ktest_next_obj` does with the next object. -/
theorem Rest.nextObj (h : Rest buf offset (object name data ++ rest)) (hname : name.length < minusOne)
    (hdata : data.length < minusOne) :
    ktestNextObj buf offset =
      if name ∈ skippedNames then ktestNextObj buf (offset + (object name data).length)
      else .ok (some (⟨offset + 4, name.length, offset + (chunk name).length + 4, data.length⟩,
        offset + (object name data).length)) := by
  have hobj := h.readObj hname hdata
  rw [ktestNextObj]
  split
  · next _ heq => exact absurd (hobj.symm.trans heq) nofun
  · next heq => exact absurd (hobj.symm.trans heq) nofun
  · next o o' heq =>
    obtain ⟨rfl, rfl⟩ : _ = o ∧ _ = o' := by simpa using hobj.symm.trans heq
    rw [h.isSkipped rfl rfl]
    simp only [bind, Except.bind, decide_eq_true_eq]
    rfl

theorem nextObj_none (h : ktestReadObj buf offset = .ok none) : ktestNextObj buf offset = .ok none := by
  rw [ktestNextObj]
  split
  · next _ heq => exact absurd (h.symm.trans heq) nofun
  · rfl
  · next heq => exact absurd (h.symm.trans heq) nofun

/-- An object with a certain name comes next, behind those that are passed over. -/
structure Next (name bs s data rest : List UInt8) : Prop where
  skipped : Skipped s
  length : data.length < minusOne
  eq : bs = s ++ (object name data ++ rest)

theorem skippedNames_length (h : name ∈ skippedNames) : name.length < minusOne := by
  have hall : ∀ n ∈ skippedNames, n.length < minusOne := by decide
  exact hall name h

/-- Objects that are passed over are. -/
theorem Skipped.nextObj (hs : Skipped bs) (h : Rest buf offset (bs ++ rest)) :
    ktestNextObj buf offset = ktestNextObj buf (offset + bs.length) := by
  induction hs generalizing offset with
  | nil => rfl
  | @cons name data bs hname hdata _ ih =>
    rw [List.append_assoc] at h
    rw [h.nextObj (skippedNames_length hname) hdata, if_pos hname, ih h.skip, List.length_append, Nat.add_assoc]

/-- **It finds what it looks for**, if it comes next. -/
theorem Next.getObj {s : List UInt8} (h : Next name bs s data rest) (hr : Rest buf offset bs)
    (hname : name ∉ skippedNames) (hlen : name.length < minusOne) :
    ktestGetObj buf name offset = .ok (some (offset + s.length + (chunk name).length + 4,
      offset + s.length + (object name data).length)) := by
  obtain ⟨hskipped, hdata, rfl⟩ := h
  rw [ktestGetObj, hskipped.nextObj hr, hr.skip.nextObj hlen hdata, if_neg hname]
  simp only [bind, Except.bind]
  rw [hr.skip.hasName rfl rfl]
  simp only [beq_self_eq_true, if_true]
  rfl

/-- Otherwise it finds nothing. -/
theorem Rest.getObj_total (h : Rest buf offset bs) (name : List UInt8) :
    ktestGetObj buf name offset = .ok none ∨ ∃ s data rest, Next name bs s data rest := by
  induction hn : bs.length using Nat.strongRecOn generalizing offset bs with
  | _ n ih =>
    rcases h.readObj_total with hnone | ⟨name', data, rest, rfl, hname, hdata⟩
    · refine Or.inl ?_
      rw [ktestGetObj, nextObj_none hnone]
      rfl
    by_cases hskip : name' ∈ skippedNames
    · have hget : ktestGetObj buf name offset = ktestGetObj buf name (offset + (object name' data).length) := by
        rw [ktestGetObj, h.nextObj hname hdata, if_pos hskip, ktestGetObj]
      rw [hget]
      refine (ih _ ?_ h.skip rfl).imp_right fun ⟨s, data', rest', hs, hdata', heq⟩ => ?_
      · rw [← hn, List.length_append, object, chunk, List.length_append, List.length_append, htonl_length]
        omega
      · refine ⟨object name' data ++ s, data', rest', .cons hskip hdata hs, hdata', ?_⟩
        rw [heq, List.append_assoc]
    · have hget : ktestGetObj buf name offset = .ok (if name' == name then
          some (offset + (chunk name').length + 4, offset + (object name' data).length) else none) := by
        rw [ktestGetObj, h.nextObj hname hdata, if_neg hskip]
        simp only [bind, Except.bind]
        rw [h.hasName rfl rfl]
        dsimp only
        split_ifs <;> rfl
      rw [hget]
      by_cases heq : name' = name
      · exact Or.inr ⟨[], data, rest, .nil, hdata, heq ▸ rfl⟩
      · exact Or.inl (by rw [beq_eq_false_iff_ne.mpr heq]; rfl)

/-! ### The header -/

theorem readArgs_succ {n size o : ℕ} (h : ktestReadInt buf offset = .ok (size, o)) :
    ktestReadArgs buf (n + 1) offset =
      match ktestRead buf o size with
      | none => .ok none
      | some o => ktestReadArgs buf n o := by
  rw [ktestReadArgs, h]
  rfl

theorem Rest.readArgs {args : List (List UInt8)} (h : Rest buf offset (args.flatMap chunk ++ rest))
    (hargs : ∀ a ∈ args, a.length < 2 ^ 32) :
    ktestReadArgs buf args.length offset = .ok (some (offset + (args.flatMap chunk).length)) := by
  induction args generalizing offset with
  | nil => rfl
  | cons a args ih =>
    obtain ⟨ha, hargs⟩ := List.forall_mem_cons.mp hargs
    rw [List.flatMap_cons, List.append_assoc] at h
    have hrest := ih h.skip hargs
    rw [chunk, List.append_assoc] at h
    have hskip : Rest buf (offset + 4) (a ++ (args.flatMap chunk ++ rest)) := h.skip
    have hlen : offset + (chunk a).length = offset + 4 + a.length := by
      rw [chunk, List.length_append, htonl_length, Nat.add_assoc]
    rw [List.length_cons, readArgs_succ (h.readInt ha), hskip.read, if_neg (by rw [List.length_append]; omega)]
    dsimp only
    rw [← hlen, hrest, List.flatMap_cons, List.length_append, Nat.add_assoc]

theorem Rest.readArgs_total (h : Rest buf offset bs) (n : ℕ) :
    ktestReadArgs buf n offset = .ok none ∨ ∃ (args : List (List UInt8)) (rest : List UInt8), args.length = n ∧
      (∀ a ∈ args, a.length < 2 ^ 32) ∧ bs = args.flatMap chunk ++ rest := by
  induction n generalizing offset bs with
  | zero => exact Or.inr ⟨[], bs, rfl, nofun, rfl⟩
  | succ n ih =>
    rcases h.readInt_total with ⟨hlen, hnone⟩ | ⟨size, rest, hsize, rfl⟩
    · refine Or.inl ?_
      rw [readArgs_succ hnone, h.read, if_pos (by rw [minusOne]; omega)]
    have hskip : Rest buf (offset + 4) rest := h.skip
    rw [readArgs_succ (h.readInt hsize), hskip.read]
    split_ifs with hshort
    · exact Or.inl rfl
    · have ha : (rest.take size).length = size := by
        rw [List.length_take]
        omega
      have hrest : Rest buf (offset + 4 + size) (rest.drop size) := by
        rw [← List.take_append_drop size rest] at hskip
        simpa [ha] using hskip.skip
      refine (ih hrest).imp_right fun ⟨args, rest', hn, hargs, heq⟩ => ?_
      refine ⟨rest.take size :: args, rest', by rw [List.length_cons, hn], ?_, ?_⟩
      · exact List.forall_mem_cons.mpr ⟨ha.symm ▸ hsize, hargs⟩
      · rw [List.flatMap_cons, chunk, ha, List.append_assoc, List.append_assoc, ← heq, List.take_append_drop]

theorem header_magic (h : 5 ≤ buf.length) :
    ktestHeader buf = (do
      errxIf (buf.take 5 ≠ magic) "invalid ktest magic"
      let (version, offset) ← ktestReadInt buf 5
      errxIf (version ≠ 3) "invalid ktest version"
      let (numArgs, offset) ← ktestReadInt buf offset
      let offset ← orErrx (← ktestReadArgs buf numArgs offset) "invalid ktest args"
      let offset ← orErrx (ktestRead buf offset 8) "invalid ktest symArgs"
      orErrx (ktestRead buf offset 4) "invalid ktest numObjects") := by
  rw [ktestHeader, errxIf, if_neg (by omega), load, if_pos (by omega), List.drop_zero]
  rfl

/-- A header is read to its end. -/
theorem Header.read {h : List UInt8} (hh : Header h) (hbuf : buf = h ++ bs) : ktestHeader buf = .ok h.length := by
  obtain ⟨args, symArgs, numObjects, hn, hargs, hsym, hnum, rfl⟩ := hh
  have hstart : Rest buf 0 (magic ++ (htonl 3 ++ (htonl args.length ++ (args.flatMap chunk ++
      (symArgs ++ (numObjects ++ bs)))))) := by
    simpa only [hbuf, List.append_assoc] using Rest.start
  have hmagic : buf.take 5 = magic := by
    rw [hbuf]
    simp only [List.append_assoc]
    exact List.take_left' rfl
  have hversion : Rest buf 5 _ := hstart.skip
  have hnumArgs : Rest buf 9 _ := hversion.skip
  have hall : Rest buf 13 _ := hnumArgs.skip
  have hsymArgs := hall.skip
  have hnumObjects := hsymArgs.skip
  rw [hsym] at hnumObjects
  rw [header_magic (by rw [hversion.length_eq]; omega)]
  simp only [bind, Except.bind, errxIf, hmagic, ne_eq, not_true_eq_false, if_false,
    hversion.readInt (n := 3) (by omega), hnumArgs.readInt hn, hall.readArgs hargs, orErrx, hsymArgs.read]
  rw [if_neg (by rw [List.length_append]; omega)]
  dsimp only
  rw [hnumObjects.read, if_neg (by rw [List.length_append]; omega)]
  simp only [List.length_append, hsym, hnum, htonl_length]
  rfl

/-- Otherwise there is a message. -/
theorem header_total (buf : List UInt8) :
    (∃ message, ktestHeader buf = .error (.errx message)) ∨ ∃ h bs, Header h ∧ buf = h ++ bs := by
  by_cases hlen : buf.length < 5
  · exact Or.inl ⟨_, by rw [ktestHeader, errxIf, if_pos hlen]; rfl⟩
  rw [header_magic (Nat.le_of_not_lt hlen)]
  by_cases hmagic : buf.take 5 = magic
  swap
  · exact Or.inl ⟨_, by rw [errxIf, if_pos hmagic]; rfl⟩
  simp only [bind, Except.bind, errxIf, hmagic, ne_eq, not_true_eq_false, if_false]
  have hstart : Rest buf 5 (buf.drop 5) := ⟨buf.take 5, (List.take_append_drop ..).symm, by rw [hmagic]; rfl⟩
  rcases hstart.readInt_total with ⟨-, hnone⟩ | ⟨version, bs₁, hversion, heq₁⟩
  · exact Or.inl ⟨_, by rw [hnone]; rfl⟩
  rw [heq₁] at hstart
  rw [hstart.readInt hversion]
  by_cases hthree : version = 3
  swap
  · exact Or.inl ⟨_, by dsimp only; rw [if_pos hthree]⟩
  simp only [hthree, not_true_eq_false, if_false]
  have hnumArgs : Rest buf 9 bs₁ := hstart.skip
  rcases hnumArgs.readInt_total with ⟨hshort, hnone⟩ | ⟨n, bs₂, hn, rfl⟩
  · rw [hnone]
    rcases hnumArgs.readArgs_total minusOne with hargs | ⟨args, rest, hn, -, rfl⟩
    · exact Or.inl ⟨_, by dsimp only; rw [hargs]; rfl⟩
    · obtain ⟨a, args, rfl⟩ : ∃ a as, args = a :: as :=
        List.exists_cons_of_ne_nil (by rintro rfl; exact absurd hn nofun)
      rw [List.flatMap_cons, chunk, List.length_append, List.length_append, List.length_append, htonl_length] at hshort
      omega
  rw [hnumArgs.readInt hn]
  have hall : Rest buf 13 bs₂ := hnumArgs.skip
  rcases hall.readArgs_total n with hargs | ⟨args, bs₃, rfl, hargs, rfl⟩
  · exact Or.inl ⟨_, by dsimp only; rw [hargs]; rfl⟩
  simp only [hall.readArgs hargs, orErrx, hall.skip.read]
  by_cases hsym : bs₃.length < 8
  · exact Or.inl ⟨_, by rw [if_pos hsym]⟩
  have hsymArgs : Rest buf (13 + (args.flatMap chunk).length + 8) (bs₃.drop 8) := by
    have hskip := hall.skip
    rw [← List.take_append_drop 8 bs₃] at hskip
    simpa [Nat.le_of_not_lt hsym] using hskip.skip
  rw [if_neg hsym]
  dsimp only
  rw [hsymArgs.read]
  by_cases hnum : (bs₃.drop 8).length < 4
  · exact Or.inl ⟨_, by rw [if_pos hnum]⟩
  refine Or.inr ⟨magic ++ htonl 3 ++ htonl args.length ++ args.flatMap chunk ++ bs₃.take 8 ++ (bs₃.drop 8).take 4,
    (bs₃.drop 8).drop 4, ⟨args, bs₃.take 8, (bs₃.drop 8).take 4, hn, hargs, ?_, ?_, rfl⟩, ?_⟩
  · rw [List.length_take]
    omega
  · rw [List.length_take]
    omega
  · conv_lhs => rw [← List.take_append_drop 5 buf, hmagic, heq₁, hthree]
    simp only [List.append_assoc, List.take_append_drop]

/-! ### Packets -/

/-- The object that comes next is found, with what the buffer has from there on. -/
theorem Next.getObj_rest {s : List UInt8} (h : Next name bs s data rest) (hr : Rest buf offset bs)
    (hname : name ∉ skippedNames) (hlen : name.length < minusOne) :
    ∃ base offset', ktestGetObj buf name offset = .ok (some (base, offset')) ∧ Rest buf base (data ++ rest) ∧
      Rest buf offset' rest := by
  refine ⟨_, _, h.getObj hr hname hlen, ?_, ?_⟩
  · obtain ⟨_, _, rfl⟩ := h
    have hobj := hr.skip
    rw [object, List.append_assoc] at hobj
    have hdata : Rest buf (offset + s.length + (chunk name).length) (htonl data.length ++ (data ++ rest)) := by
      rw [← List.append_assoc]
      exact hobj.skip
    exact hdata.skip
  · obtain ⟨_, _, rfl⟩ := h
    exact hr.skip.skip

theorem Header.init {h s : List UInt8} (hh : Header h) (hbuf : buf = h ++ bs) (hnext : Next skBuffName bs s data rest) :
    ∃ k, ktestInit buf = .ok k ∧ Rest buf k.skBuff (data ++ rest) ∧ Rest buf k.offset rest := by
  have hr : Rest buf h.length bs := ⟨h, hbuf, rfl⟩
  obtain ⟨base, offset', hget, hbase, hoffset⟩ := hnext.getObj_rest hr (by decide) (by decide)
  refine ⟨⟨offset', base⟩, ?_, hbase, hoffset⟩
  rw [ktestInit, hh.read hbuf]
  simp only [bind, Except.bind]
  rw [hget]
  rfl

theorem init_total (buf : List UInt8) :
    (∃ message, ktestInit buf = .error (.errx message)) ∨
      ∃ h bs s data rest, Header h ∧ buf = h ++ bs ∧ Next skBuffName bs s data rest := by
  rcases header_total buf with ⟨message, herr⟩ | ⟨h, bs, hh, hbuf⟩
  · exact Or.inl ⟨message, by rw [ktestInit, herr]; rfl⟩
  have hr : Rest buf h.length bs := ⟨h, hbuf, rfl⟩
  rcases hr.getObj_total skBuffName with hnone | ⟨s, data, rest, hnext⟩
  · refine Or.inl ⟨"invalid ktest real_sk_buff", ?_⟩
    rw [ktestInit, hh.read hbuf]
    simp only [bind, Except.bind]
    rw [hnone]
    rfl
  · exact Or.inr ⟨h, bs, s, data, rest, hh, hbuf, hnext⟩

end

/-- Nothing outside of the buffer is read, and the packet lies inside. -/
def Inside (buf : List UInt8) : Except Stop (ℕ × ℕ) → Prop
  | .ok (base, len) => base + len ≤ buf.length
  | .error (.errx _) => True
  | .error (.outside _ _) => False

/-- From the beginning of the object `real_sk_buff` on there are four bytes, and from the beginning of the object `data`
on, should it come next, as many as they say. -/
def PacketFits (skBuff rest : List UInt8) : Prop :=
  4 ≤ (skBuff ++ rest).length ∧ ∀ s data rest', Next dataName rest s data rest' →
    14 ≤ word ((skBuff ++ rest).take 4) → word ((skBuff ++ rest).take 4) ≤ (data ++ rest').length

/-- The same of a file: of what comes behind the header of a well-formed one. -/
def Fits (buf : List UInt8) : Prop :=
  ∀ h bs s skBuff rest, Header h → buf = h ++ bs → Next skBuffName bs s skBuff rest → PacketFits skBuff rest

section
variable {buf rest skBuff : List UInt8} {k : KtestBuf}

/-- Behind `ktest_init`. -/
theorem prepare_inside_iff (hinit : ktestInit buf = .ok k) (hskBuff : Rest buf k.skBuff (skBuff ++ rest))
    (hrest : Rest buf k.offset rest) : Inside buf (prepareKtest buf) ↔ PacketFits skBuff rest := by
  rw [prepareKtest, hinit]
  simp only [bind, Except.bind, ktestSkBuff32, Nat.add_zero]
  by_cases hfour : 4 ≤ (skBuff ++ rest).length
  swap
  · have hload : load buf k.skBuff 4 = .error (.outside k.skBuff 4) := by
      rw [load, if_neg (by rw [hskBuff.length_eq]; omega)]
    rw [hload]
    exact iff_of_false id fun h => hfour h.1
  have hload : load buf k.skBuff 4 = .ok ((skBuff ++ rest).take 4) := by
    have htake : ((skBuff ++ rest).take 4).length = 4 := by
      rw [List.length_take]
      omega
    rw [← List.take_append_drop 4 (skBuff ++ rest)] at hskBuff
    simpa [htake] using hskBuff.load
  simp only [hload, Except.map, errxIf]
  by_cases hlen : word ((skBuff ++ rest).take 4) < 14
  · rw [if_pos hlen]
    exact iff_of_true trivial ⟨hfour, fun _ _ _ _ hle => absurd hlen (Nat.not_lt.mpr hle)⟩
  rw [if_neg hlen]
  dsimp only
  have hdata {s data rest' : List UInt8} (hnext : Next dataName rest s data rest') :=
    hnext.getObj_rest hrest (by decide) (by decide)
  rcases hrest.getObj_total dataName with hnone | ⟨s, data, rest', hnext⟩
  · rw [hnone]
    refine iff_of_true trivial ⟨hfour, fun s data rest' hnext => ?_⟩
    obtain ⟨_, _, hget, -, -⟩ := hdata hnext
    exact absurd (hnone.symm.trans hget) nofun
  · obtain ⟨base, _, hget, hbase, -⟩ := hdata hnext
    rw [hget]
    constructor
    · refine fun hin => ⟨hfour, fun s' data' rest'' hnext' _ => ?_⟩
      obtain ⟨base', _, hget', hbase', -⟩ := hdata hnext'
      obtain ⟨rfl, -⟩ : base = base' ∧ _ := by simpa using hget.symm.trans hget'
      have hle : base + word ((skBuff ++ rest).take 4) ≤ buf.length := hin
      have := hbase'.length_eq
      omega
    · intro hfits
      have hle := hfits.2 s data rest' hnext (Nat.le_of_not_lt hlen)
      have := hbase.length_eq
      show base + word ((skBuff ++ rest).take 4) ≤ buf.length
      omega

theorem inside_error (e : Stop) :
    Inside buf (.error e) ↔
      ∀ offset size, (.error e : Except Stop (Option (List UInt8))) ≠ .error (.outside offset size) := by
  cases e with
  | errx message => exact iff_of_true trivial fun _ _ => nofun
  | outside offset size => exact iff_of_false id fun h => h offset size rfl

/-- A packet out of an archive is copied as it is read. -/
theorem tar_inside_iff (buf : List UInt8) :
    (∀ offset size, prepareTarKtest buf ≠ .error (.outside offset size)) ↔ Inside buf (prepareKtest buf) := by
  rw [prepareTarKtest, prepareKtest]
  simp only [bind, Except.bind]
  cases ktestInit buf with
  | error e => exact (inside_error e).symm
  | ok k =>
    dsimp only
    cases ktestSkBuff32 buf k 0 with
    | error e => exact (inside_error e).symm
    | ok len =>
      by_cases hlen : len < 14
      · simp only [errxIf, if_pos hlen]
        exact iff_of_true (fun _ _ => nofun) trivial
      simp only [errxIf, if_neg hlen]
      cases ktestGetObj buf dataName k.offset with
      | error e => exact (inside_error e).symm
      | ok r =>
        rcases r with _ | ⟨base, _⟩
        · exact iff_of_true (fun _ _ => nofun) trivial
        simp only [orErrx, load]
        by_cases hle : base + len ≤ buf.length
        · rw [if_pos hle]
          exact iff_of_true (fun _ _ => nofun) hle
        · rw [if_neg hle]
          exact iff_of_false (fun h => h base len rfl) hle

end

/-- **Packets are read from inside of a file** exactly if it has enough bytes behind the beginnings of its objects. -/
theorem ktest_inside_iff (buf : List UInt8) :
    (Inside buf (prepareKtest buf) ↔ Fits buf) ∧
      ((∀ offset size, prepareTarKtest buf ≠ .error (.outside offset size)) ↔ Fits buf) := by
  have hktest : Inside buf (prepareKtest buf) ↔ Fits buf := by
    rcases init_total buf with ⟨message, herr⟩ | ⟨h, bs, s, skBuff, rest, hh, hbuf, hnext⟩
    · have hprep : prepareKtest buf = .error (.errx message) := by
        rw [prepareKtest, herr]
        rfl
      rw [hprep]
      refine iff_of_true trivial fun h bs s skBuff rest hh hbuf hnext => ?_
      obtain ⟨k, hinit, -⟩ := hh.init hbuf hnext
      exact absurd (herr.symm.trans hinit) nofun
    · obtain ⟨k, hinit, hskBuff, hrest⟩ := hh.init hbuf hnext
      constructor
      · intro hin h' bs' s' skBuff' rest' hh' hbuf' hnext'
        obtain ⟨k', hinit', hskBuff', hrest'⟩ := hh'.init hbuf' hnext'
        exact (prepare_inside_iff hinit' hskBuff' hrest').mp hin
      · exact fun hfits => (prepare_inside_iff hinit hskBuff hrest).mpr (hfits h bs s skBuff rest hh hbuf hnext)
  exact ⟨hktest, (tar_inside_iff buf).trans hktest⟩

/-- A file whose packet is said to have sixteen bytes, of which there are three. -/
def truncated : List UInt8 :=
  magic ++ htonl 3 ++ htonl 0 ++ List.replicate 12 0 ++ object skBuffName [16, 0, 0, 0] ++ object dataName [1, 2, 3]

/-- It is accepted: a packet is referenced that is not there, and it is copied from behind the end of the file. -/
theorem ktest_outside :
    ¬Inside truncated (prepareKtest truncated) ∧
      prepareTarKtest truncated = .error (.outside (truncated.length - 3) 16) := by
  have hktest : prepareKtest truncated = .ok (truncated.length - 3, 16) := by decide +kernel
  refine ⟨?_, by decide +kernel⟩
  rw [hktest]
  show ¬truncated.length - 3 + 16 ≤ truncated.length
  decide +kernel

end Ktest

end NfpEstimator
