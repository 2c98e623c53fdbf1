import Mathlib

/-!
# Sparse functions

A function that is 0 almost everywhere, as the list of the arguments where it is not, in
order, with its values there. Two such functions are combined by going through both lists
at the same time.

The main result is that this combines the values at each argument (`get_combine`).
-/

variable {α β : Type*}

/-- A function that is 0 almost everywhere. -/
structure Sparse (α β : Type*) [LT α] [Zero β] where
  entries : List (α × β)
  sorted : entries.Pairwise fun x y => x.1 < y.1
  ne_zero : ∀ x ∈ entries, x.2 ≠ 0

namespace Sparse

/-! ### Lists in order -/

/-- The value at an argument. -/
def valueAt [DecidableEq α] [Zero β] (k : α) : List (α × β) → β
  | [] => 0
  | x :: l => if x.1 = k then x.2 else valueAt k l

section

variable [LinearOrder α] [Zero β] {l as bs : List (α × β)} {k : α}

theorem valueAt_eq_zero (h : ∀ x ∈ l, x.1 ≠ k) : valueAt k l = 0 := by
  induction l with
  | nil => rfl
  | cons x l ih =>
    rw [valueAt, if_neg (h x List.mem_cons_self), ih fun y hy => h y (List.mem_cons_of_mem _ hy)]

theorem valueAt_of_mem (hl : l.Pairwise fun x y => x.1 < y.1) {x : α × β} (hx : x ∈ l) :
    valueAt x.1 l = x.2 := by
  induction l with
  | nil => exact nomatch hx
  | cons y l ih =>
    obtain ⟨hy, hl⟩ := List.pairwise_cons.mp hl
    rw [valueAt]
    rcases List.mem_cons.mp hx with rfl | hx
    · rw [if_pos rfl]
    · rw [if_neg (hy x hx).ne, ih hl hx]

/-- An argument that comes before the first one of a list has no value there. -/
theorem valueAt_eq_zero_of_lt {y : α × β} (hb : (y :: bs).Pairwise fun x y => x.1 < y.1)
    (h : k < y.1) : valueAt k (y :: bs) = 0 := by
  refine valueAt_eq_zero fun x hx => ?_
  rcases List.mem_cons.mp hx with rfl | hx
  · exact h.ne'
  · exact (h.trans ((List.pairwise_cons.mp hb).1 x hx)).ne'

/-! ### Going through two lists -/

/-- The next argument is that of `x`, or it comes before it. -/
def alignWith (x : α × β) (rest : List (α × β) → List (α × β × β)) :
    List (α × β) → List (α × β × β)
  | [] => (x.1, x.2, 0) :: rest []
  | y :: bs =>
    if x.1 < y.1 then (x.1, x.2, 0) :: rest (y :: bs)
    else if y.1 < x.1 then (y.1, 0, y.2) :: alignWith x rest bs
    else (x.1, x.2, y.2) :: rest bs

/-- The arguments of two lists in order, with the values in both of them. -/
def align : List (α × β) → List (α × β) → List (α × β × β)
  | [] => fun bs => bs.map fun y => (y.1, 0, y.2)
  | x :: as => alignWith x (align as)

/-- What going through two lists comes to: the arguments of both of them in order, with the values
there. -/
structure Aligned (as bs : List (α × β)) (ts : List (α × β × β)) : Prop where
  sorted : ts.Pairwise fun s t => s.1 < t.1
  mem : ∀ t, t ∈ ts ↔ ((∃ x ∈ as, x.1 = t.1) ∨ ∃ y ∈ bs, y.1 = t.1) ∧
    t.2 = (valueAt t.1 as, valueAt t.1 bs)

/-- The first argument is taken off the lists. -/
theorem Aligned.cons {as' bs' : List (α × β)} {ts : List (α × β × β)} (h : Aligned as' bs' ts)
    (hlt : ∀ z, z ∈ as' ∨ z ∈ bs' → k < z.1)
    (hkey : ∀ j, ((∃ x ∈ as, x.1 = j) ∨ ∃ y ∈ bs, y.1 = j) ↔
      j = k ∨ (∃ x ∈ as', x.1 = j) ∨ ∃ y ∈ bs', y.1 = j)
    (hval : ∀ j, j ≠ k → valueAt j as = valueAt j as' ∧ valueAt j bs = valueAt j bs') :
    Aligned as bs ((k, valueAt k as, valueAt k bs) :: ts) := by
  have hold : ∀ j, (∃ x ∈ as', x.1 = j) ∨ (∃ y ∈ bs', y.1 = j) → k < j := by
    rintro j (⟨x, hx, rfl⟩ | ⟨y, hy, rfl⟩)
    · exact hlt x (.inl hx)
    · exact hlt y (.inr hy)
  refine ⟨List.pairwise_cons.mpr ⟨fun t ht => hold _ ((h.mem t).mp ht).1, h.sorted⟩, ?_⟩
  rintro ⟨j, v⟩
  rw [List.mem_cons, h.mem, hkey]
  by_cases hj : j = k
  · subst hj
    have hnot : ¬((∃ x ∈ as', x.1 = j) ∨ ∃ y ∈ bs', y.1 = j) := fun hk => lt_irrefl _ (hold j hk)
    simp only [hnot, false_and, or_false, true_and, Prod.mk.injEq]
  · simp [hj, (hval j hj).1, (hval j hj).2]

/-- **Going through two lists**, one finds the values at all arguments. -/
theorem aligned (ha : as.Pairwise fun x y => x.1 < y.1) (hb : bs.Pairwise fun x y => x.1 < y.1) :
    Aligned as bs (align as bs) := by
  induction as generalizing bs with
  | nil =>
    refine ⟨List.pairwise_map.mpr hb, ?_⟩
    rintro ⟨j, m, n⟩
    rw [align, List.mem_map]
    constructor
    · rintro ⟨y, hy, heq⟩
      obtain ⟨rfl, rfl, rfl⟩ := by simpa using heq
      exact ⟨.inr ⟨y, hy, rfl⟩, by rw [valueAt_of_mem hb hy]; rfl⟩
    · rintro ⟨⟨x, hx, -⟩ | ⟨y, hy, rfl⟩, heq⟩
      · exact nomatch hx
      · refine ⟨y, hy, ?_⟩
        rw [valueAt_of_mem hb hy] at heq
        rw [show (m, n) = (0, y.2) from heq]
  | cons x as iha =>
    obtain ⟨hx, has⟩ := List.pairwise_cons.mp ha
    have hself : valueAt x.1 (x :: as) = x.2 := if_pos rfl
    have htail : ∀ j, j ≠ x.1 → valueAt j (x :: as) = valueAt j as := fun j hj => if_neg (Ne.symm hj)
    induction bs with
    | nil =>
      have h := (iha has List.Pairwise.nil).cons (k := x.1)
        (fun z hz => hx z (hz.resolve_right List.not_mem_nil)) (by simp [eq_comm])
        fun j hj => ⟨htail j hj, rfl⟩
      rwa [hself] at h
    | cons y bs ihb =>
      obtain ⟨hy, hbs⟩ := List.pairwise_cons.mp hb
      have hself' : valueAt y.1 (y :: bs) = y.2 := if_pos rfl
      have htail' : ∀ j, j ≠ y.1 → valueAt j (y :: bs) = valueAt j bs :=
        fun j hj => if_neg (Ne.symm hj)
      rw [align, alignWith]
      split
      next hlt =>
        have hz := valueAt_eq_zero_of_lt hb hlt
        have h := (iha has hb).cons (k := x.1) (by
          rintro z (hz | hz)
          · exact hx z hz
          · rcases List.mem_cons.mp hz with rfl | hz
            · exact hlt
            · exact hlt.trans (hy z hz)) (by simp [eq_comm, or_assoc]) fun j hj => ⟨htail j hj, rfl⟩
        rwa [hself, hz] at h
      next hle =>
        split
        next hlt =>
          have hz := valueAt_eq_zero_of_lt ha hlt
          have h := (ihb hbs).cons (k := y.1) (by
            rintro z (hz | hz)
            · rcases List.mem_cons.mp hz with rfl | hz
              · exact hlt
              · exact hlt.trans (hx z hz)
            · exact hy z hz) (by simp [eq_comm, or_left_comm]) fun j hj => ⟨rfl, htail' j hj⟩
          rwa [hself', hz] at h
        next hle' =>
          have heq : x.1 = y.1 := le_antisymm (not_lt.mp hle') (not_lt.mp hle)
          have h := (iha has hbs).cons (k := x.1) (by
            rintro z (hz | hz)
            · exact hx z hz
            · exact heq ▸ hy z hz) (by simp [heq, eq_comm, or_left_comm, or_assoc])
            fun j hj => ⟨htail j hj, htail' j (by rwa [← heq])⟩
          rw [hself, heq, hself'] at h
          rwa [heq]

end

/-! ### Functions -/

section

variable [LinearOrder α] [Zero β] {v w : Sparse α β} {k : α}

/-- The value at an argument. -/
def get (v : Sparse α β) (k : α) : β := valueAt k v.entries

theorem mem_entries_iff {x : α × β} : x ∈ v.entries ↔ v.get x.1 = x.2 ∧ x.2 ≠ 0 := by
  constructor
  · exact fun h => ⟨valueAt_of_mem v.sorted h, v.ne_zero x h⟩
  · rintro ⟨h, hne⟩
    by_contra hnot
    refine hne (h.symm.trans (valueAt_eq_zero fun y hy heq => hnot ?_))
    have hval := valueAt_of_mem v.sorted hy
    rw [heq] at hval
    obtain rfl : y = x := Prod.ext heq (hval.symm.trans h)
    exact hy

/-- The function is not 0 at an argument. -/
instance : Membership α (Sparse α β) := ⟨fun v k => v.get k ≠ 0⟩

theorem mem_iff : k ∈ v ↔ v.get k ≠ 0 := Iff.rfl

theorem mem_iff_exists : k ∈ v ↔ ∃ n, (k, n) ∈ v.entries := by
  simp only [mem_entries_iff, mem_iff, exists_eq_left']

variable (α β) in
/-- The function that is 0 everywhere. -/
def zero : Sparse α β := ⟨[], List.Pairwise.nil, fun _ h => nomatch h⟩

@[simp] theorem get_zero (k : α) : (zero α β).get k = 0 := rfl

/-- The function is set to 0 before an argument. -/
def cut (k : α) (v : Sparse α β) : Sparse α β where
  entries := v.entries.dropWhile fun x => x.1 < k
  sorted := v.sorted.sublist (List.dropWhile_sublist _)
  ne_zero x hx := v.ne_zero x ((List.dropWhile_sublist _).subset hx)

theorem get_cut (m : α) (v : Sparse α β) (k : α) :
    (cut m v).get k = if k < m then 0 else v.get k := by
  obtain ⟨l, hl, hne⟩ := v
  unfold cut get
  dsimp only
  clear hne
  induction l with
  | nil => simp [valueAt]
  | cons x l ih =>
    obtain ⟨hx, hl⟩ := List.pairwise_cons.mp hl
    rw [List.dropWhile_cons]
    by_cases hxm : x.1 < m
    · rw [if_pos (decide_eq_true hxm), ih hl, valueAt]
      by_cases hxk : x.1 = k
      · rw [if_pos hxk, if_pos (hxk ▸ hxm), if_pos (hxk ▸ hxm)]
      · rw [if_neg hxk]
    · rw [if_neg (by simpa using hxm)]
      split
      next hkm => exact valueAt_eq_zero_of_lt (List.pairwise_cons.mpr ⟨hx, hl⟩) (hkm.trans_le (not_lt.mp hxm))
      · rfl

variable [DecidableEq β]

/-- The function that is `n` at one argument. -/
def single (k : α) (n : β) : Sparse α β where
  entries := if n = 0 then [] else [(k, n)]
  sorted := by split <;> simp
  ne_zero := by split <;> simp_all

theorem get_single (k : α) (n : β) (j : α) : (single k n).get j = if k = j then n else 0 := by
  unfold single get
  by_cases hn : n = 0
  · simp [hn, valueAt]
  · simp [hn, valueAt]

/-- The values of `f` where the function is not 0. -/
def restrict (f : α → β) (v : Sparse α β) : Sparse α β where
  entries := v.entries.filterMap fun x => if f x.1 = 0 then none else some (x.1, f x.1)
  sorted := by
    refine List.pairwise_filterMap.mpr (v.sorted.imp ?_)
    intro s t hlt x hx y hy
    split at hx <;> split at hy
    any_goals simp at hx hy
    obtain ⟨rfl, rfl⟩ := And.intro hx hy
    exact hlt
  ne_zero := by
    intro x hx
    obtain ⟨y, -, hy⟩ := List.mem_filterMap.mp hx
    split at hy
    · exact nomatch hy
    next hne =>
      obtain rfl := Option.some.inj hy
      exact hne

theorem mem_of_mem_restrict {f : α → β} (h : k ∈ restrict f v) : k ∈ v := by
  obtain ⟨n, hn⟩ := mem_iff_exists.mp h
  obtain ⟨x, hx, heq⟩ := List.mem_filterMap.mp hn
  split at heq
  · exact nomatch heq
  · obtain ⟨rfl, -⟩ := Prod.mk.inj (Option.some.inj heq)
    exact mem_iff_exists.mpr ⟨x.2, hx⟩

instance (k : α) (v : Sparse α β) : Decidable (k ∈ v) := inferInstanceAs (Decidable (v.get k ≠ 0))

/-- The values of two functions are combined. -/
def combine (f : β → β → β) (v w : Sparse α β) : Sparse α β where
  entries := (align v.entries w.entries).filterMap fun t =>
    if f t.2.1 t.2.2 = 0 then none else some (t.1, f t.2.1 t.2.2)
  sorted := by
    refine List.pairwise_filterMap.mpr ((aligned v.sorted w.sorted).sorted.imp ?_)
    intro s t hlt x hx y hy
    split at hx <;> split at hy
    any_goals simp at hx hy
    obtain ⟨rfl, rfl⟩ := And.intro hx hy
    exact hlt
  ne_zero := by
    intro x hx
    obtain ⟨t, -, ht⟩ := List.mem_filterMap.mp hx
    split at ht
    · exact nomatch ht
    next hne =>
      obtain rfl := Option.some.inj ht
      exact hne

/-- **The values are combined at each argument.** -/
theorem get_combine {f : β → β → β} (hf : f 0 0 = 0) (v w : Sparse α β) (k : α) :
    (combine f v w).get k = f (v.get k) (w.get k) := by
  have hmem := (aligned v.sorted w.sorted).mem
  by_cases hne : f (v.get k) (w.get k) = 0
  · rw [hne]
    refine valueAt_eq_zero fun x hx hk => ?_
    obtain ⟨t, ht, hx⟩ := List.mem_filterMap.mp hx
    have hval := ((hmem t).mp ht).2
    split at hx
    · exact nomatch hx
    next hne' =>
      obtain rfl := Option.some.inj hx
      obtain rfl : t.1 = k := hk
      rw [hval] at hne'
      exact hne' hne
  · refine valueAt_of_mem (x := (k, f (v.get k) (w.get k))) (combine f v w).sorted ?_
    refine List.mem_filterMap.mpr ⟨(k, v.get k, w.get k), (hmem _).mpr ⟨?_, rfl⟩, if_neg hne⟩
    by_contra hnot
    simp only [not_or, not_exists, not_and] at hnot
    have hv : v.get k = 0 := valueAt_eq_zero hnot.1
    have hw : w.get k = 0 := valueAt_eq_zero hnot.2
    rw [hv, hw, hf] at hne
    exact hne rfl

end

end Sparse
