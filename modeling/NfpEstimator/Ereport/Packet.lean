import NfpEstimator.Input.Map

/-!
# Expected packets

`report_path` prints the bytes of a packet in lines of four, `--` for those that are not known, and
`ereport_packet_parse` reads them again. It enlarges two arrays byte by byte, and sets the mask only where a byte is
known: otherwise there stays what is in the memory that `realloc` returns (`ereport_packet_iff`).
-/

namespace NfpEstimator

namespace Ereport

open Input Scanf

/-- `struct ereport_packet`; the arrays are as long as `size` says. -/
structure Packet where
  size : ℕ
  mask : ℕ → ℕ
  values : ℕ → ℕ

/-- A packet of no bytes. -/
def Packet.empty : Packet := ⟨0, fun _ => 0, fun _ => 0⟩

/-- What is in memory that `realloc` adds to the arrays, by position. -/
structure Fresh where
  mask : ℕ → ℕ
  values : ℕ → ℕ

/-! ### Parsing -/

/-- The arrays of a packet are enlarged for the offset `o`. -/
def Packet.grow (fresh : Fresh) (o : ℕ) (p : Packet) : Packet :=
  if o + 1 > p.size then
    ⟨o + 1, fun i => if i < p.size then p.mask i else if i < o then 0 else fresh.mask i,
      fun i => if i < p.size then p.values i else fresh.values i⟩
  else p

/-- `"|0x%zx|%n"` -/
def lineFormat : List Directive := literals ['|', '0', 'x'] ++ [.number 16 64, .literal '|', .offset]

/-- `" %hhx |"` -/
def cellFormat : List Directive := [.space, .number 16 8, .space, .literal '|']

section
variable (fresh : Fresh) (zeros : ℕ)

/-- The loop over the bytes of a line, with the characters from `l` up to its end, and to the end of the text. -/
def packetCells (line o : ℕ) (l : List Char) (p : Packet) : Except Fault Packet :=
  if line < 5 ∨ l[4]? ≠ some '|' then .ok p
  else do
    let p := p.grow fresh o
    let r := sscanf cellFormat (← cString zeros l)
    let p :=
      match r.values with
      | [v] => ⟨p.size, Function.update p.mask o 1, Function.update p.values o v⟩
      | _ => p
    packetCells (line - 5) (o + 1) (l.drop 5) p
termination_by line

/-- What is done with a line. -/
def packetLine (line : ℕ) (l : List Char) (p : Packet) : Except Fault Packet := do
  let r := sscanf lineFormat (← cString zeros l)
  match r.values, r.offset with
  | [o], some n => packetCells fresh zeros (line - n) o (l.drop n) p
  | _, _ => return p

/-- The loop over the lines. Behind a line that is not ended, the second character is read behind the text. -/
def packetLines (l : List Char) (p : Packet) : Except Fault Packet :=
  match l with
  | [] => if zeros = 0 then .error .outside else .ok p
  | c :: s =>
    if c = '\x00' then .ok p
    else do
      let line := ((c :: s).takeWhile (· ≠ '\n')).length
      let p ← packetLine fresh zeros line (c :: s) p
      if line < (c :: s).length then packetLines ((c :: s).drop (line + 1)) p
      else if zeros ≤ 1 then throw .outside
      else return p
termination_by l.length
decreasing_by
  simp only [List.length_drop, List.length_cons]
  omega

/-- `ereport_packet_parse`, into an empty packet. -/
def ereportPacketParse (kind : FileKind) (text : List Char) : Except Fault Packet :=
  match inputMap kind text with
  | .error e => .error e
  | .ok none => .error .outside
  | .ok (some zeros) => packetLines fresh zeros text .empty

end

/-! ### Printing -/

/-- A byte of a packet, or `--`. -/
def printCell : Option UInt8 → List Char
  | some b => ' ' :: pad 16 2 b.toNat ++ [' ', '|']
  | none => [' ', '-', '-', ' ', '|']

/-- What `report_path` prints of a packet, from the byte `i` on. -/
def printPacket (i : ℕ) : List (Option UInt8) → List Char
  | [] => if i % 4 ≠ 0 then ['\n'] else []
  | b :: bs =>
    (if i % 4 = 0 then ['|', '0', 'x'] ++ pad 16 4 i ++ ['|'] else []) ++
      (printCell b ++ ((if i % 4 = 3 then ['\n'] else []) ++ printPacket (i + 1) bs))

/-! ### Lines -/

/-- A line, without its end. -/
def lineText (i : ℕ) (cells : List (Option UInt8)) : List Char :=
  ['|', '0', 'x'] ++ (pad 16 4 i ++ '|' :: cells.flatMap printCell)

section
variable {fresh : Fresh} {zeros i : ℕ} {bs cells : List (Option UInt8)} {rest : List Char} {p : Packet}

/-- A packet is printed line by line. -/
theorem printPacket_line (hi : i % 4 = 0) (hne : bs ≠ []) :
    printPacket i bs = lineText i (bs.take 4) ++ '\n' :: printPacket (i + 4) (bs.drop 4) := by
  have h1 : (i + 1) % 4 = 1 := by omega
  have h2 : (i + 1 + 1) % 4 = 2 := by omega
  have h3 : (i + 1 + 1 + 1) % 4 = 3 := by omega
  have h4 : (i + 4) % 4 = 0 := by omega
  match bs, hne with
  | [a], _ => simp [printPacket, lineText, hi, h1, h4]
  | [a, b], _ => simp [printPacket, lineText, hi, h1, h2, h4]
  | [a, b, c], _ => simp [printPacket, lineText, hi, h1, h2, h3, h4]
  | a :: b :: c :: d :: bs, _ => simp [printPacket, lineText, hi, h1, h2, h3]

/-! ### Bytes -/

/-- What a cell does to a packet: the next byte is added to it. -/
def addCell (fresh : Fresh) (p : Packet) (b : Option UInt8) : Packet :=
  let q := p.grow fresh p.size
  match b with
  | some b => ⟨q.size, Function.update q.mask p.size 1, Function.update q.values p.size b.toNat⟩
  | none => q

theorem grow_size : (p.grow fresh p.size).size = p.size + 1 := by
  rw [Packet.grow, if_pos (Nat.lt_succ_self _)]

theorem addCell_size (b : Option UInt8) : (addCell fresh p b).size = p.size + 1 := by
  cases b <;> exact grow_size

/-- A cell has five characters, with a bar at the end. -/
theorem printCell_eq (b : Option UInt8) : ∃ x y, printCell b = [' ', x, y, ' ', '|'] := by
  cases b with
  | none => exact ⟨'-', '-', rfl⟩
  | some b =>
    have hlen : (pad 16 2 b.toNat).length = 2 := pad_length (by decide) (by decide) b.toNat_lt
    obtain ⟨x, y, hpad⟩ := List.length_eq_two.mp hlen
    exact ⟨x, y, by rw [printCell, hpad]; rfl⟩

/-- A byte is read from its cell if it is known. -/
theorem sscanf_cell (b : Option UInt8) (rest : List Char) :
    (sscanf cellFormat (printCell b ++ rest)).values = (b.map UInt8.toNat).toList := by
  cases b with
  | none => rfl
  | some b =>
    have htext : printCell (some b) ++ rest = ' ' :: (pad 16 2 b.toNat ++ ' ' :: '|' :: rest) := by
      simp [printCell]
    have hstops : Stops 16 (' ' :: '|' :: rest) := by
      intro c hc
      obtain rfl := Option.some.inj hc
      decide
    have hnumber : number 16 8 (pad 16 2 b.toNat ++ ' ' :: '|' :: rest) = some (b.toNat, ' ' :: '|' :: rest) :=
      number_pad (by decide) (by decide) (by decide) b.toNat_lt 2 hstops
    rw [htext, sscanf, cellFormat, scan_space (isDigit_pad (by decide) (by decide) 2 _) (pad_ne_nil 16 2 _) (by decide),
      scan_number hnumber]
    rfl

/-- The bytes of a line are read. -/
theorem packetCells_cells (hzeros : 0 < zeros) (hcells : '\x00' ∉ cells.flatMap printCell) (hrest : '\x00' ∉ rest) :
    packetCells fresh zeros (5 * cells.length) p.size (cells.flatMap printCell ++ rest) p =
      .ok (cells.foldl (addCell fresh) p) := by
  induction cells generalizing p with
  | nil => rw [packetCells, if_pos (Or.inl (by decide))]; rfl
  | cons b cells ih =>
    rw [List.flatMap_cons] at hcells
    obtain ⟨hb, hcells⟩ := not_or.mp (mt List.mem_append.mpr hcells)
    obtain ⟨x, y, hcell⟩ := printCell_eq b
    have hnul : '\x00' ∉ (b :: cells).flatMap printCell ++ rest := by
      rw [List.flatMap_cons, List.append_assoc]
      exact mt List.mem_append.mp (not_or.mpr ⟨hb, mt List.mem_append.mp (not_or.mpr ⟨hcells, hrest⟩)⟩)
    have hstring := cString_text hzeros hnul
    have hbar : ((b :: cells).flatMap printCell ++ rest)[4]? = some '|' := by
      rw [List.flatMap_cons, hcell]
      rfl
    have hdrop : ((b :: cells).flatMap printCell ++ rest).drop 5 = cells.flatMap printCell ++ rest := by
      rw [List.flatMap_cons, hcell]
      rfl
    have hvalue : (sscanf cellFormat ((b :: cells).flatMap printCell ++ rest)).values = (b.map UInt8.toNat).toList := by
      rw [List.flatMap_cons, List.append_assoc]
      exact sscanf_cell b _
    have hadd := ih (p := addCell fresh p b) hcells
    rw [addCell_size] at hadd
    have hmore : ¬(5 * (b :: cells).length < 5 ∨ ((b :: cells).flatMap printCell ++ rest)[4]? ≠ some '|') := by
      rw [hbar, List.length_cons]
      exact fun h => h.elim (by omega) fun h => h rfl
    rw [packetCells, if_neg hmore, hstring, List.length_cons, Nat.mul_succ, Nat.add_sub_cancel, hdrop]
    simp only [bind, Except.bind, hvalue]
    rw [List.foldl_cons, ← hadd]
    cases b <;> rfl

/-! ### Texts -/

theorem digit_ne {c : Char} (h : isDigit 16 c) : c ≠ '\n' ∧ c ≠ '\x00' := by
  constructor <;>
  · rintro rfl
    exact absurd h (by decide)

/-- No cell contains what ends a line or the text. -/
theorem printCell_ne (b : Option UInt8) : ∀ c ∈ printCell b, c ≠ '\n' ∧ c ≠ '\x00' := by
  cases b with
  | none => simp [printCell]
  | some b =>
    intro c hc
    rcases List.mem_append.mp hc with hc | hc
    · rcases List.mem_cons.mp hc with rfl | hc
      · decide
      · exact digit_ne (isDigit_pad (by decide) (by decide) 2 _ c hc)
    · have hall : ∀ c ∈ [' ', '|'], c ≠ '\n' ∧ c ≠ '\x00' := by simp
      exact hall c hc

theorem lineText_ne (i : ℕ) (cells : List (Option UInt8)) : ∀ c ∈ lineText i cells, c ≠ '\n' ∧ c ≠ '\x00' := by
  intro c hc
  rcases List.mem_append.mp hc with hc | hc
  · have hall : ∀ c ∈ ['|', '0', 'x'], c ≠ '\n' ∧ c ≠ '\x00' := by simp
    exact hall c hc
  rcases List.mem_append.mp hc with hc | hc
  · exact digit_ne (isDigit_pad (by decide) (by decide) 4 _ c hc)
  rcases List.mem_cons.mp hc with rfl | hc
  · decide
  · obtain ⟨b, -, hc⟩ := List.mem_flatMap.mp hc
    exact printCell_ne b c hc

theorem cells_length (cells : List (Option UInt8)) : (cells.flatMap printCell).length = 5 * cells.length := by
  induction cells with
  | nil => rfl
  | cons b cells ih =>
    obtain ⟨x, y, hcell⟩ := printCell_eq b
    rw [List.flatMap_cons, List.length_append, ih, hcell, List.length_cons]
    exact Nat.add_comm 5 _

/-- The offset in front of a line is read. -/
theorem sscanf_line (hi : i < 2 ^ 64) :
    sscanf lineFormat (lineText i cells ++ rest) = ⟨[i], some (3 + (pad 16 4 i).length + 1)⟩ := by
  have hstops : Stops 16 ('|' :: (cells.flatMap printCell ++ rest)) := by
    intro c hc
    obtain rfl := Option.some.inj hc
    decide
  have hnumber : number 16 64 (pad 16 4 i ++ '|' :: (cells.flatMap printCell ++ rest)) =
      some (i, '|' :: (cells.flatMap printCell ++ rest)) :=
    number_pad (by decide) (by decide) (by decide) hi 4 hstops
  have htext : lineText i cells ++ rest =
      ['|', '0', 'x'] ++ (pad 16 4 i ++ '|' :: (cells.flatMap printCell ++ rest)) := by
    simp [lineText]
  rw [htext, sscanf, lineFormat, scan_literals, scan_number hnumber, List.length_append, Nat.add_sub_cancel]
  simp only [scan, if_true, Nat.zero_add, List.length_cons, List.length_nil]

/-- The bytes of a line are added. -/
theorem packetLine_text (hzeros : 0 < zeros) (hrest : '\x00' ∉ rest) (hp : p.size = i) (hi : i < 2 ^ 64) :
    packetLine fresh zeros (lineText i cells).length (lineText i cells ++ rest) p =
      .ok (cells.foldl (addCell fresh) p) := by
  have hcells : '\x00' ∉ cells.flatMap printCell := by
    intro h
    obtain ⟨b, -, hb⟩ := List.mem_flatMap.mp h
    exact (printCell_ne b _ hb).2 rfl
  have hnul : '\x00' ∉ lineText i cells ++ rest := by
    intro h
    rcases List.mem_append.mp h with h | h
    · exact (lineText_ne i cells _ h).2 rfl
    · exact hrest h
  have hlen : (lineText i cells).length - (3 + (pad 16 4 i).length + 1) = 5 * cells.length := by
    simp only [lineText, List.length_append, List.length_cons, List.length_nil, cells_length]
    omega
  have hdrop : (lineText i cells ++ rest).drop (3 + (pad 16 4 i).length + 1) = cells.flatMap printCell ++ rest := by
    have htext : lineText i cells ++ rest =
        ['|', '0', 'x'] ++ pad 16 4 i ++ ['|'] ++ (cells.flatMap printCell ++ rest) := by
      simp [lineText]
    rw [htext]
    exact List.drop_left' (by simp; omega)
  rw [packetLine, cString_text hzeros hnul]
  simp only [bind, Except.bind]
  rw [sscanf_line hi]
  dsimp only
  rw [hlen, hdrop, ← hp, packetCells_cells hzeros hcells hrest]

/-- A line and then the others. -/
theorem packetLines_line (hzeros : 0 < zeros) (hrest : '\x00' ∉ rest) (hp : p.size = i) (hi : i < 2 ^ 64) :
    packetLines fresh zeros (lineText i cells ++ '\n' :: rest) p =
      packetLines fresh zeros rest (cells.foldl (addCell fresh) p) := by
  have hhead : ∃ s, lineText i cells ++ '\n' :: rest = '|' :: s := ⟨_, rfl⟩
  have hnewline : ∀ c ∈ lineText i cells, decide (c ≠ '\n') = true := fun c hc =>
    decide_eq_true (lineText_ne i cells c hc).1
  have htake : ((lineText i cells ++ '\n' :: rest).takeWhile (· ≠ '\n')).length = (lineText i cells).length := by
    rw [List.takeWhile_append_of_pos hnewline, List.takeWhile_cons_of_neg (by simp), List.append_nil]
  have hdrop : (lineText i cells ++ '\n' :: rest).drop ((lineText i cells).length + 1) = rest := by
    rw [← List.drop_drop, List.drop_left]
    rfl
  have hline : packetLine fresh zeros (lineText i cells).length (lineText i cells ++ '\n' :: rest) p = _ :=
    packetLine_text hzeros (by simp [hrest]) hp hi
  have hlt : (lineText i cells).length < (lineText i cells ++ '\n' :: rest).length := by
    rw [List.length_append, List.length_cons]
    omega
  obtain ⟨s, hs⟩ := hhead
  rw [hs] at htake hdrop hline hlt ⊢
  rw [packetLines, if_neg (by decide)]
  dsimp only
  rw [htake, hline]
  simp only [bind, Except.bind]
  rw [if_pos hlt, hdrop]

theorem printPacket_ne (hi : i % 4 = 0) : '\x00' ∉ printPacket i bs := by
  induction hn : bs.length using Nat.strongRecOn generalizing i bs with
  | _ n ih =>
    by_cases hne : bs = []
    · rw [hne, printPacket, if_neg (by simp [hi])]
      nofun
    · have hpos := List.length_pos_of_ne_nil hne
      have hrest := ih (bs.drop 4).length (by rw [List.length_drop]; omega) (i := i + 4) (by omega) rfl
      rw [printPacket_line hi hne]
      intro h
      rcases List.mem_append.mp h with h | h
      · exact (lineText_ne i _ _ h).2 rfl
      · rcases List.mem_cons.mp h with h | h
        · exact absurd h (by decide)
        · exact hrest h

theorem addCells_size (cells : List (Option UInt8)) :
    (cells.foldl (addCell fresh) p).size = p.size + cells.length := by
  induction cells generalizing p with
  | nil => rfl
  | cons b cells ih => rw [List.foldl_cons, ih, addCell_size, List.length_cons, Nat.add_right_comm, Nat.add_assoc]

/-- **All bytes are added**, one after the other. -/
theorem packetLines_print (hzeros : 0 < zeros) (hi : i % 4 = 0) (hp : p.size = i) (hlt : i + bs.length ≤ 2 ^ 64) :
    packetLines fresh zeros (printPacket i bs) p = .ok (bs.foldl (addCell fresh) p) := by
  induction hn : bs.length using Nat.strongRecOn generalizing i bs p with
  | _ n ih =>
    by_cases hne : bs = []
    · rw [hne, printPacket, if_neg (by simp [hi]), packetLines, if_neg (by omega)]
      rfl
    have hpos := List.length_pos_of_ne_nil hne
    have hdrop : (bs.drop 4).length = bs.length - 4 := List.length_drop
    rw [printPacket_line hi hne, packetLines_line hzeros (printPacket_ne (by omega)) hp (by omega)]
    by_cases hlast : bs.drop 4 = []
    · have htake := List.take_append_drop 4 bs
      rw [hlast, List.append_nil] at htake
      rw [hlast, htake, printPacket, if_neg (by omega), packetLines, if_neg (by omega)]
    · have hlong := List.length_pos_of_ne_nil hlast
      have hsize : ((bs.take 4).foldl (addCell fresh) p).size = i + 4 := by
        rw [addCells_size, hp, List.length_take]
        omega
      rw [ih (bs.drop 4).length (by omega) (by omega) hsize (by omega) rfl, ← List.foldl_append,
        List.take_append_drop]

/-! ### What is parsed -/

/-- The bytes that have been added, in the arrays: the mask of one that is not known is what was in the memory. -/
theorem addCells (fresh : Fresh) (bs : List (Option UInt8)) :
    (bs.foldl (addCell fresh) .empty).size = bs.length ∧
      ∀ i (hi : i < bs.length),
        (bs.foldl (addCell fresh) .empty).mask i = (if bs[i].isSome then 1 else fresh.mask i) ∧
        ∀ b ∈ bs[i], (bs.foldl (addCell fresh) .empty).values i = b.toNat := by
  refine ⟨(addCells_size bs).trans (Nat.zero_add _), ?_⟩
  induction bs using List.reverseRecOn with
  | nil => nofun
  | append_singleton bs b ih =>
    have hsize : (bs.foldl (addCell fresh) .empty).size = bs.length := (addCells_size bs).trans (Nat.zero_add _)
    intro i hi
    rw [List.foldl_append, List.foldl_cons, List.foldl_nil]
    generalize bs.foldl (addCell fresh) .empty = p at ih hsize ⊢
    rw [List.length_append, List.length_singleton] at hi
    rcases Nat.lt_or_eq_of_le (Nat.le_of_lt_succ hi) with hlt | rfl
    · have hold : (addCell fresh p b).mask i = p.mask i ∧ (addCell fresh p b).values i = p.values i := by
        cases b <;> simp [addCell, Packet.grow, hsize, hlt, Nat.ne_of_lt hlt]
      rw [hold.1, hold.2, List.getElem_append_left hlt]
      exact ih i hlt
    · rw [List.getElem_concat_length rfl]
      cases b <;> simp [addCell, Packet.grow, hsize]

/-- What is printed of a packet. -/
structure Expected where
  bytes : List (Option UInt8)
  /-- `packetsize` has 32 bits. -/
  lt : bytes.length < 2 ^ 32

/-- The packet lines. -/
def Expected.text (e : Expected) : List Char := printPacket 0 e.bytes

/-- The parsed packet is the one that was printed. -/
structure RoundTrips (e : Expected) (p : Packet) : Prop where
  size : p.size = e.bytes.length
  mask : ∀ i (hi : i < e.bytes.length), p.mask i = if e.bytes[i].isSome then 1 else 0
  values : ∀ i (hi : i < e.bytes.length), ∀ b ∈ e.bytes[i], p.values i = b.toNat

variable {kind : FileKind} {text : List Char}

/-- Without memory, or without a zero behind the text, no packet is returned. -/
theorem ereportPacketParse_error (fresh : Fresh) (h : ¬Mappable kind text) (htext : '\x00' ∉ text) :
    ∃ e, ereportPacketParse fresh kind text = .error e := by
  by_cases hne : text = []
  · rw [hne]
    cases kind <;> exact ⟨_, rfl⟩
  obtain ⟨c, s, rfl⟩ := List.exists_cons_of_ne_nil hne
  have hline (line : ℕ) (p : Packet) : packetLine fresh 0 line (c :: s) p = .error .outside := by
    rw [packetLine, cString_zero htext]
    rfl
  rw [ereportPacketParse]
  rcases not_mappable h hne with ⟨e, hmap⟩ | hmap
  · exact ⟨e, by rw [hmap]⟩
  · have hc : c ≠ '\x00' := fun hc => htext (hc ▸ List.mem_cons_self)
    refine ⟨.outside, ?_⟩
    rw [hmap]
    dsimp only
    rw [packetLines, if_neg hc]
    dsimp only
    rw [hline]
    rfl

theorem ereportPacketParse_text (e : Expected) (h : Mappable kind e.text) :
    ereportPacketParse fresh kind e.text = .ok (e.bytes.foldl (addCell fresh) .empty) := by
  obtain ⟨hmap, hzeros⟩ := h.inputMap
  have hlt := e.lt
  rw [ereportPacketParse, hmap]
  exact packetLines_print hzeros rfl rfl (by omega)

/-- **What `report_path` prints of a packet is parsed as it was** if all its bytes are known, and only then, whatever
is in the memory. -/
theorem ereport_packet_iff (e : Expected) :
    (∀ fresh, ∃ p, ereportPacketParse fresh kind e.text = .ok p ∧ RoundTrips e p) ↔
      Mappable kind e.text ∧ ∀ b ∈ e.bytes, b.isSome := by
  constructor
  · intro h
    have hmappable : Mappable kind e.text := by
      by_contra hnot
      obtain ⟨p, hparse, -⟩ := h ⟨fun _ => 0, fun _ => 0⟩
      obtain ⟨f, hfault⟩ := ereportPacketParse_error ⟨fun _ => 0, fun _ => 0⟩ hnot (printPacket_ne rfl)
      rw [hfault] at hparse
      cases hparse
    refine ⟨hmappable, fun b hb => ?_⟩
    -- the memory is chosen so that an unknown byte shows
    obtain ⟨p, hparse, hp⟩ := h ⟨fun _ => 1, fun _ => 0⟩
    rw [ereportPacketParse_text e hmappable] at hparse
    obtain rfl := Except.ok.inj hparse
    obtain ⟨i, hi, rfl⟩ := List.getElem_of_mem hb
    have hmask := ((addCells ⟨fun _ => 1, fun _ => 0⟩ e.bytes).2 i hi).1.symm.trans (hp.mask i hi)
    by_contra hnone
    rw [if_neg hnone, if_neg hnone] at hmask
    cases hmask
  · rintro ⟨hmappable, hknown⟩ fresh
    obtain ⟨hsize, hread⟩ := addCells fresh e.bytes
    refine ⟨_, ereportPacketParse_text e hmappable, hsize, fun i hi => ?_, fun i hi => (hread i hi).2⟩
    have hsome := hknown _ (List.getElem_mem hi)
    rw [(hread i hi).1, if_pos hsome, if_pos hsome]

/-- One byte that is not known: its mask is what was in the memory. -/
theorem ereport_packet_unknown :
    ∃ e : Expected, e.bytes = [none] ∧ Mappable .regular e.text ∧
      ∃ fresh p, ereportPacketParse fresh .regular e.text = .ok p ∧ p.mask 0 = 7 ∧ ¬RoundTrips e p := by
  have hmappable : Mappable .regular (printPacket 0 [none]) := ⟨by decide, by decide, nofun⟩
  have hread := ((addCells ⟨fun _ => 7, fun _ => 0⟩ [none]).2 0 (by decide)).1
  refine ⟨⟨[none], by decide⟩, rfl, hmappable, ⟨fun _ => 7, fun _ => 0⟩, _, ?_, hread, ?_⟩
  · exact ereportPacketParse_text _ hmappable
  intro h
  exact absurd (hread.symm.trans (h.mask 0 (by decide))) (by decide)

end

end Ereport

end NfpEstimator
