import NfpEstimator.Cfg.Mpathq
import NfpEstimator.Increasing

/-!
# How vectors of sizes are computed

`cfg::mpathq::sizev` keeps packet sizes with numbers of paths in increasing order. All its operators go through two
vectors with one iterator, `intersection`, which stands at the next size of both; at each size they look at the entries
of the two vectors, if there are some. So what they compute is determined size by size (`sizev_pointwise`), and is what
the functions `Sizev.add` and so on, with which the queues are modelled, say (`add_entries`).
-/

namespace NfpEstimator

namespace SizeVector

/-- A size with its number. -/
abbrev Entry := ℕ × ℕ

/-! ### The iterator -/

/-- `intersection::iterator`: what is left of both vectors. -/
structure Iterator where
  a : List Entry
  b : List Entry

/-- `operator !=`, with the end. -/
def Iterator.notEnd (it : Iterator) : Bool := it.a ≠ [] || it.b ≠ []

/-- `operator ++` -/
def Iterator.next : Iterator → Iterator
  | ⟨[], b⟩ => ⟨[], b.tail⟩
  | ⟨_ :: a, []⟩ => ⟨a, []⟩
  | ⟨x :: a, y :: b⟩ =>
    if x.1 < y.1 then ⟨a, y :: b⟩
    else if y.1 < x.1 then ⟨x :: a, b⟩
    else ⟨a, b⟩

/-- `operator *` -/
def Iterator.deref : Iterator → Option Entry × Option Entry
  | ⟨[], b⟩ => (none, b.head?)
  | ⟨x :: _, []⟩ => (some x, none)
  | ⟨x :: _, y :: _⟩ =>
    if x.1 < y.1 then (some x, none)
    else if y.1 < x.1 then (none, some y)
    else (some x, some y)

theorem Iterator.length_next {it : Iterator} (h : it.notEnd) :
    it.next.a.length + it.next.b.length < it.a.length + it.b.length := by
  obtain ⟨a, b⟩ := it
  cases a with
  | nil =>
    cases b with
    | nil => exact absurd h (by decide)
    | cons y b => simp [next]
  | cons x a =>
    cases b with
    | nil => simp [next]
    | cons y b =>
      rw [next]
      split_ifs <;> simp only [List.length_cons] <;> omega

/-- What a loop over the iterator goes through. -/
def Iterator.items (it : Iterator) : List (Option Entry × Option Entry) :=
  if _h : it.notEnd then it.deref :: it.next.items else []
termination_by it.a.length + it.b.length
decreasing_by exact Iterator.length_next _h

/-- `for (… : intersection(v, w))` -/
def intersection (v w : List Entry) : List (Option Entry × Option Entry) := (Iterator.mk v w).items

/-! ### The operators

The first loops, which find out how much is to be reserved, are left out. -/

/-- `operator []`, the number at a size. -/
def count (s : ℕ) : List Entry → ℕ
  | [] => 0
  | x :: v => if x.1 = s then x.2 else if x.1 > s then 0 else count s v

/-- The body of the loop of `operator +`. -/
def addEntries (a b : Option Entry) : Option Entry :=
  let r := 0
  let r := match a with
    | some x => sizetAdd r x.2
    | none => r
  let r := match b with
    | some y => sizetAdd r y.2
    | none => r
  (a <|> b).map fun x => (x.1, r)

/-- Of `operator -`. -/
def subEntries : Option Entry → Option Entry → Option Entry
  | some x, none => some x
  | some x, some y => if x.2 > y.2 then some (x.1, sizetSub x.2 y.2) else none
  | none, _ => none

/-- Of `operator |`. -/
def orEntries (a b : Option Entry) : Option Entry :=
  let r := 0
  let r := match a with
    | some x => r ||| x.2
    | none => r
  let r := match b with
    | some y => r ||| y.2
    | none => r
  (a <|> b).map fun x => (x.1, r)

/-- Of `operator &`. -/
def andEntries : Option Entry → Option Entry → Option Entry
  | some x, some y => if x.2 &&& y.2 ≠ 0 then some (x.1, x.2 &&& y.2) else none
  | _, _ => none

/-- A vector is made of what the body gives for the entries. -/
def collect (f : Option Entry → Option Entry → Option Entry) (v w : List Entry) : List Entry :=
  (intersection v w).filterMap fun t => f t.1 t.2

/-- `operator +` -/
def add : List Entry → List Entry → List Entry := collect addEntries

/-- `operator -` -/
def sub : List Entry → List Entry → List Entry := collect subEntries

/-- `operator |` -/
def or : List Entry → List Entry → List Entry := collect orEntries

/-- `operator &` -/
def and : List Entry → List Entry → List Entry := collect andEntries

/-- `operator &` with a size. -/
def cut (v : List Entry) (m : ℕ) : List Entry := v.dropWhile fun x => x.1 < m

/-- `operator <` -/
def lt (v w : List Entry) : Bool :=
  (intersection v w).any fun
    | (none, some _) => true
    | (some x, some y) => x.2 < y.2
    | (_, none) => false

/-! ### The iterator goes through both vectors -/

section
variable {v w : List Entry} {s m : ℕ}

theorem intersection_cons (h : (Iterator.mk v w).notEnd) :
    intersection v w = (Iterator.mk v w).deref :: (Iterator.mk v w).next.items := by
  rw [intersection, Iterator.items, dif_pos h]

/-- Behind a key, the entries are those of the rest. -/
theorem entry_rest {x : Entry} (hs : x.1 < s) : entry s v = entry s (x :: v) := (entry_cons_ne hs.ne).symm

theorem intersection_joint (hv : Increasing v) (hw : Increasing w) : ∃ keys, Joint v w keys (intersection v w) := by
  induction hn : v.length + w.length using Nat.strongRecOn generalizing v w with
  | _ n ih =>
    subst hn
    cases v with
    | nil =>
      cases w with
      | nil =>
        have hend : intersection [] [] = [] := by
          rw [intersection, Iterator.items]
          rfl
        exact ⟨[], hend ▸ ⟨.nil, by simp, rfl⟩⟩
      | cons y w =>
        obtain ⟨keys, h⟩ := ih ([].length + w.length) (by simp) hv hw.tail rfl
        have hcons : Joint [] (y :: w) (y.1 :: keys) ((none, entry y.1 (y :: w)) :: intersection [] w) :=
          h.cons (fun z hz => hw.lt z (hz.resolve_left nofun)) (by simp [eq_comm]) fun s hs => ⟨rfl, entry_rest hs⟩
        rw [entry_cons_self] at hcons
        rw [intersection_cons rfl]
        exact ⟨y.1 :: keys, hcons⟩
    | cons x v =>
      cases w with
      | nil =>
        obtain ⟨keys, h⟩ := ih (v.length + [].length) (by simp) hv.tail hw rfl
        have hcons : Joint (x :: v) [] (x.1 :: keys) ((entry x.1 (x :: v), none) :: intersection v []) :=
          h.cons (fun z hz => hv.lt z (hz.resolve_right nofun)) (by simp [eq_comm]) fun s hs => ⟨entry_rest hs, rfl⟩
        rw [entry_cons_self] at hcons
        rw [intersection_cons rfl]
        exact ⟨x.1 :: keys, hcons⟩
      | cons y w =>
        rw [intersection_cons rfl, Iterator.deref, Iterator.next]
        rcases lt_trichotomy x.1 y.1 with hlt | heq | hlt
        · obtain ⟨keys, h⟩ := ih (v.length + (y :: w).length) (by simp) hv.tail hw rfl
          have hcons : Joint (x :: v) (y :: w) (x.1 :: keys)
              ((entry x.1 (x :: v), entry x.1 (y :: w)) :: intersection v (y :: w)) := by
            refine h.cons ?_ (by simp [eq_comm, or_assoc]) fun s hs => ⟨entry_rest hs, rfl⟩
            rintro z (hz | hz)
            · exact hv.lt z hz
            · exact hw.lt_of_lt hlt z hz
          rw [entry_cons_self, hw.entry_of_lt hlt] at hcons
          rw [if_pos hlt, if_pos hlt]
          exact ⟨x.1 :: keys, hcons⟩
        · obtain ⟨keys, h⟩ := ih (v.length + w.length) (by simp only [List.length_cons]; omega) hv.tail hw.tail rfl
          have hcons : Joint (x :: v) (y :: w) (x.1 :: keys)
              ((entry x.1 (x :: v), entry x.1 (y :: w)) :: intersection v w) := by
            refine h.cons ?_ (by simp [heq, eq_comm, or_left_comm, or_assoc]) fun s hs =>
              ⟨entry_rest hs, entry_rest (heq ▸ hs)⟩
            rintro z (hz | hz)
            · exact hv.lt z hz
            · exact heq ▸ hw.lt z hz
          have hsame : entry x.1 (y :: w) = some y := heq ▸ entry_cons_self y w
          rw [entry_cons_self, hsame] at hcons
          rw [if_neg heq.not_lt, if_neg heq.not_gt, if_neg heq.not_lt, if_neg heq.not_gt]
          exact ⟨x.1 :: keys, hcons⟩
        · obtain ⟨keys, h⟩ := ih ((x :: v).length + w.length) (by simp) hv hw.tail rfl
          have hcons : Joint (x :: v) (y :: w) (y.1 :: keys)
              ((entry y.1 (x :: v), entry y.1 (y :: w)) :: intersection (x :: v) w) := by
            refine h.cons ?_ (by simp [eq_comm, or_left_comm]) fun s hs => ⟨rfl, entry_rest hs⟩
            rintro z (hz | hz)
            · exact hv.lt_of_lt hlt z hz
            · exact hw.lt z hz
          rw [entry_cons_self, hv.entry_of_lt hlt] at hcons
          rw [if_neg hlt.asymm, if_pos hlt, if_neg hlt.asymm, if_pos hlt]
          exact ⟨y.1 :: keys, hcons⟩

/-! ### The numbers -/

/-- The number at a size is that of its entry, 0 if there is none. -/
theorem count_eq (hv : Increasing v) (s : ℕ) : count s v = (entry s v).elim 0 Prod.snd := by
  induction v with
  | nil => rfl
  | cons x v ih =>
    rw [count]
    split_ifs with heq hgt
    · rw [← heq, entry_cons_self]
      rfl
    · rw [hv.entry_of_lt hgt]
      rfl
    · rw [entry_cons_ne heq]
      exact ih hv.tail

section
variable {f : Option Entry → Option Entry → Option Entry}

theorem collect_increasing (hf : Keyed f) (hv : Increasing v) (hw : Increasing w) : Increasing (collect f v w) := by
  obtain ⟨keys, h⟩ := intersection_joint hv hw
  exact h.increasing hf

theorem entry_collect (hf : Keyed f) (hnone : f none none = none) (hv : Increasing v) (hw : Increasing w) (s : ℕ) :
    entry s (collect f v w) = f (entry s v) (entry s w) := by
  obtain ⟨keys, h⟩ := intersection_joint hv hw
  exact h.entry_filterMap hf hnone s

end

theorem addEntries_keyed : Keyed addEntries := by
  intro s a b z ha hb hz
  cases a with
  | some x => cases hz; exact ha x rfl
  | none =>
    cases b with
    | some y => cases hz; exact hb y rfl
    | none => cases hz

theorem orEntries_keyed : Keyed orEntries := by
  intro s a b z ha hb hz
  cases a with
  | some x => cases hz; exact ha x rfl
  | none =>
    cases b with
    | some y => cases hz; exact hb y rfl
    | none => cases hz

theorem subEntries_keyed : Keyed subEntries := by
  intro s a b z ha hb hz
  cases a with
  | none => cases hz
  | some x =>
    cases b with
    | none => exact ha z hz
    | some y =>
      rw [subEntries] at hz
      split_ifs at hz
      cases hz
      exact ha x rfl

theorem andEntries_keyed : Keyed andEntries := by
  intro s a b z ha hb hz
  cases a with
  | none => cases hz
  | some x =>
    cases b with
    | none => cases hz
    | some y =>
      rw [andEntries] at hz
      split_ifs at hz
      cases hz
      exact ha x rfl

theorem cut_eq_filter (hv : Increasing v) (m : ℕ) : cut v m = v.filter fun x => m ≤ x.1 := by
  induction v with
  | nil => rfl
  | cons x v ih =>
    by_cases hlt : x.1 < m
    · rw [cut, List.dropWhile_cons_of_pos (by simpa using hlt), List.filter_cons_of_neg (by simpa using hlt)]
      exact ih hv.tail
    · rw [cut, List.dropWhile_cons_of_neg (by simpa using hlt), List.filter_eq_self.mpr]
      intro y hy
      rcases List.mem_cons.mp hy with rfl | hy
      · simpa using hlt
      · have hxy := hv.lt y hy
        simp only [decide_eq_true_eq]
        omega

theorem lt_iff (hv : Increasing v) (hw : Increasing w) :
    lt v w = true ↔ ∃ s y, entry s w = some y ∧ (entry s v = none ∨ ∃ x, entry s v = some x ∧ x.2 < y.2) := by
  obtain ⟨keys, h⟩ := intersection_joint hv hw
  rw [lt, h.items, List.any_eq_true]
  constructor
  · rintro ⟨t, ht, hlt⟩
    obtain ⟨s, -, rfl⟩ := List.mem_map.mp ht
    refine ⟨s, ?_⟩
    cases hx : entry s v <;> cases hy : entry s w <;> simp_all
  · rintro ⟨s, y, hy, hx⟩
    refine ⟨_, List.mem_map.mpr ⟨s, (h.mem s).mpr (.inr ⟨y, mem_of_entry hy, entry_key hy⟩), rfl⟩, ?_⟩
    rw [hy]
    rcases hx with hx | ⟨x, hx, hlt⟩
    · rw [hx]
    · rw [hx]
      simpa using hlt

end

/-! ### Vectors of sizes -/

/-- What a `sizev` can be: sizes in increasing order, with numbers of 64 bits. -/
structure Sizes where
  entries : List Entry
  increasing : Increasing entries
  fits : ∀ x ∈ entries, x.2 ≤ sizeMax

namespace Sizes

/-- `operator []` -/
def get (v : Sizes) (s : ℕ) : ℕ := count s v.entries

/-- A body of a loop that makes entries of entries. -/
structure Body where
  f : Option Entry → Option Entry → Option Entry
  keyed : Keyed f
  none : f none none = none
  fits : ∀ a b z, (∀ x ∈ a, x.2 ≤ sizeMax) → (∀ y ∈ b, y.2 ≤ sizeMax) → f a b = some z → z.2 ≤ sizeMax

/-- The operators, by their bodies. -/
def collect (o : Body) (v w : Sizes) : Sizes where
  entries := SizeVector.collect o.f v.entries w.entries
  increasing := collect_increasing o.keyed v.increasing w.increasing
  fits z hz := by
    have hentry := (collect_increasing o.keyed v.increasing w.increasing).entry_of_mem hz
    rw [entry_collect o.keyed o.none v.increasing w.increasing] at hentry
    exact o.fits _ _ z (fun x hx => v.fits x (mem_of_entry hx)) (fun y hy => w.fits y (mem_of_entry hy)) hentry

/-- **What the body makes of the numbers is what comes of the vectors, size by size.** -/
theorem get_collect (o : Body) {g : ℕ → ℕ → ℕ} (hnone : g 0 0 = 0)
    (hleft : ∀ x : Entry, x.2 ≤ sizeMax → (o.f (some x) none).elim 0 Prod.snd = g x.2 0)
    (hright : ∀ y : Entry, y.2 ≤ sizeMax → (o.f none (some y)).elim 0 Prod.snd = g 0 y.2)
    (hboth : ∀ x y : Entry, x.2 ≤ sizeMax → y.2 ≤ sizeMax → (o.f (some x) (some y)).elim 0 Prod.snd = g x.2 y.2)
    (v w : Sizes) (s : ℕ) : (collect o v w).get s = g (v.get s) (w.get s) := by
  rw [get, get, get, count_eq (collect o v w).increasing, count_eq v.increasing, count_eq w.increasing, collect,
    entry_collect o.keyed o.none v.increasing w.increasing]
  cases hx : entry s v.entries with
  | none =>
    cases hy : entry s w.entries with
    | none => rw [o.none, Option.elim_none, hnone]
    | some y => exact hright y (w.fits y (mem_of_entry hy))
  | some x =>
    cases hy : entry s w.entries with
    | none => exact hleft x (v.fits x (mem_of_entry hx))
    | some y => exact hboth x y (v.fits x (mem_of_entry hx)) (w.fits y (mem_of_entry hy))

theorem fits_iff {n : ℕ} : n ≤ sizeMax ↔ n < 2 ^ 64 := by
  have hmax : sizeMax = 2 ^ 64 - 1 := rfl
  omega

/-- The loop body of `operator+=`. -/
def addBody : Body where
  f := addEntries
  keyed := addEntries_keyed
  none := rfl
  fits a b z ha hb hz := by
    cases a <;> cases b <;> cases hz
    · exact (sizetAdd_eq (Nat.zero_le _) _).trans_le (min_le_left _ _)
    · exact (sizetAdd_eq (Nat.zero_le _) _).trans_le (min_le_left _ _)
    · refine (sizetAdd_eq ?_ _).trans_le (min_le_left _ _)
      exact (sizetAdd_eq (Nat.zero_le _) _).trans_le (min_le_left _ _)

/-- The loop body of `operator-=`. -/
def subBody : Body where
  f := subEntries
  keyed := subEntries_keyed
  none := rfl
  fits a b z ha hb hz := by
    cases a with
    | none => cases hz
    | some x =>
      cases b with
      | none => exact ha z hz
      | some y =>
        rw [subEntries] at hz
        split_ifs at hz
        cases hz
        have hx := ha x rfl
        rw [sizetSub]
        split_ifs <;> omega

/-- The loop body of `operator|=`. -/
def orBody : Body where
  f := orEntries
  keyed := orEntries_keyed
  none := rfl
  fits a b z ha hb hz := by
    cases a <;> cases b <;> cases hz
    · exact (Nat.zero_or _).trans_le (hb _ rfl)
    · exact (Nat.zero_or _).trans_le (ha _ rfl)
    · refine fits_iff.mpr (Nat.or_lt_two_pow ?_ (fits_iff.mp (hb _ rfl)))
      exact (Nat.zero_or _).trans_lt (fits_iff.mp (ha _ rfl))

/-- The loop body of `operator&=`. -/
def andBody : Body where
  f := andEntries
  keyed := andEntries_keyed
  none := rfl
  fits a b z ha hb hz := by
    cases a with
    | none => cases hz
    | some x =>
      cases b with
      | none => cases hz
      | some y =>
        rw [andEntries] at hz
        split_ifs at hz
        cases hz
        exact Nat.and_le_left.trans (ha x rfl)

/-- `operator +` -/
def add : Sizes → Sizes → Sizes := collect addBody

/-- `operator -` -/
def sub : Sizes → Sizes → Sizes := collect subBody

/-- `operator |` -/
def or : Sizes → Sizes → Sizes := collect orBody

/-- `operator &` -/
def and : Sizes → Sizes → Sizes := collect andBody

/-- `operator &` with a size. -/
def cut (v : Sizes) (m : ℕ) : Sizes where
  entries := SizeVector.cut v.entries m
  increasing := v.increasing.sublist (List.dropWhile_sublist _)
  fits x hx := v.fits x ((List.dropWhile_sublist _).subset hx)

theorem get_add (v w : Sizes) (s : ℕ) : (v.add w).get s = min sizeMax (v.get s + w.get s) := by
  refine get_collect addBody (g := fun m n => min sizeMax (m + n)) rfl ?_ ?_ ?_ v w s
  · intro x hx
    exact (sizetAdd_eq (Nat.zero_le _) _).trans (by rw [Nat.zero_add, Nat.add_zero])
  · intro y hy
    exact sizetAdd_eq (Nat.zero_le _) _
  · intro x y hx hy
    change sizetAdd (sizetAdd 0 x.2) y.2 = _
    rw [sizetAdd_eq (Nat.zero_le _), Nat.zero_add, sizetAdd_min_left]

/-- A number that stands for more than it says is not made less, but by one of its kind. -/
theorem get_sub (v w : Sizes) (s : ℕ) :
    (v.sub w).get s = if v.get s = sizeMax ∧ w.get s ≠ sizeMax then sizeMax else v.get s - w.get s := by
  refine get_collect subBody (g := fun m n => if m = sizeMax ∧ n ≠ sizeMax then sizeMax else m - n) rfl ?_ ?_ ?_ v w s
  · intro x hx
    change x.2 = _
    split_ifs with h
    · exact h.1
    · rfl
  · intro y hy
    change 0 = _
    rw [if_neg fun h => absurd h.1 (by decide), Nat.zero_sub]
  · intro x y hx hy
    change (if x.2 > y.2 then some (x.1, sizetSub x.2 y.2) else none).elim 0 Prod.snd = _
    split_ifs with hgt hmax hmax
    · change sizetSub x.2 y.2 = _
      rw [sizetSub, if_pos hmax.1]
    · change sizetSub x.2 y.2 = _
      rw [sizetSub, if_neg (by omega), if_neg (by omega)]
    · change 0 = _
      omega
    · change 0 = _
      omega

theorem get_or (v w : Sizes) (s : ℕ) : (v.or w).get s = v.get s ||| w.get s := by
  refine get_collect orBody (g := fun m n => m ||| n) rfl ?_ ?_ ?_ v w s
  · intro x hx
    exact (Nat.zero_or _).trans (Nat.or_zero _).symm
  · intro y hy
    rfl
  · intro x y hx hy
    exact congrArg (· ||| y.2) (Nat.zero_or _)

theorem get_and (v w : Sizes) (s : ℕ) : (v.and w).get s = v.get s &&& w.get s := by
  refine get_collect andBody (g := fun m n => m &&& n) rfl ?_ ?_ ?_ v w s
  · intro x hx
    exact (Nat.and_zero _).symm
  · intro y hy
    exact (Nat.zero_and _).symm
  · intro x y hx hy
    change (if x.2 &&& y.2 ≠ 0 then some (x.1, x.2 &&& y.2) else none).elim 0 Prod.snd = _
    split_ifs with hne
    · rfl
    · exact (not_not.mp hne).symm

/-- **The operators work size by size**, and their results are in increasing order. -/
theorem sizev_pointwise (v w : Sizes) :
    (∀ s, (v.add w).get s = min sizeMax (v.get s + w.get s)) ∧
    (∀ s, (v.sub w).get s = if v.get s = sizeMax ∧ w.get s ≠ sizeMax then sizeMax else v.get s - w.get s) ∧
    (∀ s, (v.or w).get s = v.get s ||| w.get s) ∧
    (∀ s, (v.and w).get s = v.get s &&& w.get s) ∧
    (∀ u ∈ [v.add w, v.sub w, v.or w, v.and w], Increasing u.entries) ∧
    (∀ m, (v.cut m).entries = v.entries.filter fun x => m ≤ x.1) ∧
    (lt v.entries w.entries = true ↔
      ∃ s y, entry s w.entries = some y ∧
        (entry s v.entries = none ∨ ∃ x, entry s v.entries = some x ∧ x.2 < y.2)) :=
  ⟨get_add v w, get_sub v w, get_or v w, get_and v w, fun u _ => u.increasing, cut_eq_filter v.increasing,
    lt_iff v.increasing w.increasing⟩

end Sizes

/-! ### The vectors of the queues -/

section
variable {v w : Sizev}

theorem entry_entries (v : Sizev) (s : ℕ) : entry s v.entries = if v.get s = 0 then none else some (s, v.get s) := by
  split_ifs with h
  · refine entry_eq_none.mpr fun x hx hs => ?_
    obtain ⟨hget, hne⟩ := Sparse.mem_entries_iff.mp hx
    rw [hs, h] at hget
    exact hne hget.symm
  · have hmem : (s, v.get s) ∈ v.entries := Sparse.mem_entries_iff.mpr ⟨rfl, h⟩
    exact Increasing.entry_of_mem v.sorted hmem

/-- Where the bodies agree, the vectors do. -/
theorem collect_entries {f : Option Entry → Option Entry → Option Entry} {g : ℕ → ℕ → ℕ} (hf : Keyed f)
    (hnone : f none none = none) (hg : g 0 0 = 0) (v w : Sizev)
    (h : ∀ s, f (entry s v.entries) (entry s w.entries) =
      if g (v.get s) (w.get s) = 0 then none else some (s, g (v.get s) (w.get s))) :
    collect f v.entries w.entries = (Sparse.combine g v w).entries := by
  refine (collect_increasing hf v.sorted w.sorted).ext (Sparse.combine g v w).sorted fun s => ?_
  rw [entry_collect hf hnone v.sorted w.sorted, h, entry_entries, Sparse.get_combine hg]

theorem add_entries (hv : ∀ s, v.get s ≤ sizeMax) (hw : ∀ s, w.get s ≤ sizeMax) :
    add v.entries w.entries = (v.add w).entries := by
  refine collect_entries addEntries_keyed rfl rfl v w fun s => ?_
  have hmax : sizeMax ≠ 0 := by decide
  rw [entry_entries, entry_entries, sizetAdd_eq (hv s)]
  have hvs := hv s
  have hws := hw s
  split_ifs <;> simp_all [addEntries, sizetAdd_eq]

theorem sub_entries (v w : Sizev) : sub v.entries w.entries = (v.sub w).entries := by
  refine collect_entries subEntries_keyed rfl rfl v w fun s => ?_
  have hpos {m n : ℕ} (h : n < m) : sizetSub m n ≠ 0 := by
    have hmax : sizeMax ≠ 0 := by decide
    rw [sizetSub]
    split_ifs <;> omega
  have hzero (m : ℕ) : sizetSub m 0 = m := by
    rw [sizetSub]
    split_ifs <;> omega
  rw [entry_entries, entry_entries]
  by_cases hv : v.get s = 0
  · simp [hv, subEntries]
  · by_cases hw : w.get s = 0
    · simp [hv, hw, subEntries, hzero, Nat.pos_of_ne_zero hv]
    · by_cases hgt : w.get s < v.get s
      · simp [hv, hw, subEntries, hgt, hpos hgt]
      · simp [hv, hw, subEntries, hgt]

theorem or_entries (v w : Sizev) : or v.entries w.entries = (v.or w).entries := by
  refine collect_entries orEntries_keyed rfl rfl v w fun s => ?_
  rw [entry_entries, entry_entries]
  split_ifs <;> simp_all [orEntries]

theorem and_entries (v w : Sizev) : and v.entries w.entries = (v.and w).entries := by
  refine collect_entries andEntries_keyed rfl rfl v w fun s => ?_
  rw [entry_entries, entry_entries]
  split_ifs <;> simp_all [andEntries]

theorem cut_entries (v : Sizev) (m : ℕ) : cut v.entries m = (v.cut m).entries := rfl

theorem lt_entries (v w : Sizev) : lt v.entries w.entries = v.lt w := by
  rw [Bool.eq_iff_iff, lt_iff v.sorted w.sorted, Sizev.lt, List.any_eq_true]
  constructor
  · rintro ⟨s, y, hy, hx⟩
    obtain rfl := entry_key hy
    refine ⟨y, mem_of_entry hy, decide_eq_true ?_⟩
    have hne : y.2 ≠ 0 := w.ne_zero y (mem_of_entry hy)
    rw [entry_entries] at hx
    by_cases hv : v.get y.1 = 0
    · omega
    · simpa [hv] using hx
  · rintro ⟨y, hy, hlt⟩
    have hlt' : v.get y.1 < y.2 := of_decide_eq_true hlt
    refine ⟨y.1, y, Increasing.entry_of_mem w.sorted hy, ?_⟩
    rw [entry_entries]
    by_cases hv : v.get y.1 = 0
    · exact .inl (if_pos hv)
    · exact .inr ⟨(y.1, v.get y.1), if_neg hv, hlt'⟩

end

end SizeVector

end NfpEstimator
