import Mathlib

/-!
# Lists with increasing keys

Lists of keys with values, in the order of the keys. Such a list is determined by the entries that it has (`ext`). Two
of them are joined by going through the keys of both (`Joint`); what is made of the two entries at each key is again
such a list, and its entries are known (`entry_filterMap`).
-/

namespace NfpEstimator

variable {α β : Type*} [LinearOrder α]

/-- Every key is greater than the ones before it. -/
def Increasing (l : List (α × β)) : Prop := l.Pairwise fun x y => x.1 < y.1

/-- The entry with a key. -/
def entry (k : α) (l : List (α × β)) : Option (α × β) := l.find? fun x => x.1 = k

section
variable {l l' as bs as' bs' : List (α × β)} {x y : α × β} {k : α} {keys : List α}

theorem entry_key (h : entry k l = some x) : x.1 = k := by simpa using List.find?_some h

theorem mem_of_entry (h : entry k l = some x) : x ∈ l := List.mem_of_find?_eq_some h

theorem entry_eq_none : entry k l = none ↔ ∀ x ∈ l, x.1 ≠ k := by
  rw [entry, List.find?_eq_none]
  simp

theorem entry_cons_self (x : α × β) (l : List (α × β)) : entry x.1 (x :: l) = some x :=
  List.find?_cons_of_pos (by simp)

theorem entry_cons_ne (h : x.1 ≠ k) : entry k (x :: l) = entry k l := List.find?_cons_of_neg (by simpa using h)

theorem Increasing.lt (h : Increasing (x :: l)) : ∀ y ∈ l, x.1 < y.1 := (List.pairwise_cons.mp h).1

theorem Increasing.tail (h : Increasing (x :: l)) : Increasing l := (List.pairwise_cons.mp h).2

theorem Increasing.entry_of_mem (h : Increasing l) (hx : x ∈ l) : entry x.1 l = some x := by
  induction l with
  | nil => exact nomatch hx
  | cons y l ih =>
    rcases List.mem_cons.mp hx with rfl | hx
    · exact entry_cons_self x l
    · rw [entry_cons_ne (h.lt x hx).ne]
      exact ih h.tail hx

theorem Increasing.entry_eq_some (h : Increasing l) : entry k l = some x ↔ x ∈ l ∧ x.1 = k :=
  ⟨fun he => ⟨mem_of_entry he, entry_key he⟩, fun ⟨hx, hk⟩ => hk ▸ h.entry_of_mem hx⟩

theorem Increasing.lt_of_lt (h : Increasing (y :: l)) (hlt : k < y.1) : ∀ z ∈ y :: l, k < z.1 := by
  intro z hz
  rcases List.mem_cons.mp hz with rfl | hz
  · exact hlt
  · exact hlt.trans (h.lt z hz)

theorem Increasing.entry_of_lt (h : Increasing (y :: l)) (hlt : k < y.1) : entry k (y :: l) = none :=
  entry_eq_none.mpr fun z hz => (h.lt_of_lt hlt z hz).ne'

/-- The list is determined by its entries. -/
theorem Increasing.ext (h : Increasing l) (h' : Increasing l') (hentry : ∀ k, entry k l = entry k l') : l = l' := by
  have hmem (x : α × β) : x ∈ l ↔ x ∈ l' := by
    have hiff : x ∈ l ∧ x.1 = x.1 ↔ x ∈ l' ∧ x.1 = x.1 := by
      rw [← h.entry_eq_some, hentry, h'.entry_eq_some]
    simpa using hiff
  refine List.Perm.eq_of_pairwise (fun x y _ _ hlt hlt' => absurd hlt' (not_lt.mpr hlt.le)) h h' ?_
  refine (List.perm_ext_iff_of_nodup ?_ ?_).mpr hmem
  · exact h.imp fun hlt heq => hlt.ne (congrArg Prod.fst heq)
  · exact h'.imp fun hlt heq => hlt.ne (congrArg Prod.fst heq)

/-! ### Joining two lists -/

/-- The entries of both lists, key by key. -/
structure Joint (as bs : List (α × β)) (keys : List α) (ts : List (Option (α × β) × Option (α × β))) : Prop where
  sorted : keys.Pairwise (· < ·)
  mem : ∀ k, k ∈ keys ↔ (∃ x ∈ as, x.1 = k) ∨ ∃ y ∈ bs, y.1 = k
  items : ts = keys.map fun k => (entry k as, entry k bs)

/-- The least key is taken off the lists. -/
theorem Joint.cons {ts : List (Option (α × β) × Option (α × β))} (h : Joint as' bs' keys ts)
    (hlt : ∀ x, x ∈ as' ∨ x ∈ bs' → k < x.1)
    (hmem : ∀ j, ((∃ x ∈ as, x.1 = j) ∨ ∃ y ∈ bs, y.1 = j) ↔ j = k ∨ (∃ x ∈ as', x.1 = j) ∨ ∃ y ∈ bs', y.1 = j)
    (hentry : ∀ j, k < j → entry j as' = entry j as ∧ entry j bs' = entry j bs) :
    Joint as bs (k :: keys) ((entry k as, entry k bs) :: ts) := by
  have hkeys : ∀ j ∈ keys, k < j := by
    intro j hj
    rcases (h.mem j).mp hj with ⟨x, hx, rfl⟩ | ⟨y, hy, rfl⟩
    · exact hlt x (.inl hx)
    · exact hlt y (.inr hy)
  refine ⟨List.pairwise_cons.mpr ⟨hkeys, h.sorted⟩, fun j => ?_, ?_⟩
  · rw [List.mem_cons, hmem, h.mem]
  · rw [List.map_cons, h.items]
    refine congrArg _ (List.map_congr_left fun j hj => ?_)
    rw [(hentry j (hkeys j hj)).1, (hentry j (hkeys j hj)).2]

/-- What is made of two entries has their key. -/
def Keyed (f : Option (α × β) → Option (α × β) → Option (α × β)) : Prop :=
  ∀ k a b z, (∀ x ∈ a, x.1 = k) → (∀ y ∈ b, y.1 = k) → f a b = some z → z.1 = k

section
variable {f : Option (α × β) → Option (α × β) → Option (α × β)} {ts : List (Option (α × β) × Option (α × β))}

theorem Joint.filterMap_eq (h : Joint as bs keys ts) :
    ts.filterMap (fun t => f t.1 t.2) = keys.filterMap fun k => f (entry k as) (entry k bs) := by
  rw [h.items, List.filterMap_map]
  rfl

theorem Keyed.key (hf : Keyed f) (hx : f (entry k as) (entry k bs) = some x) : x.1 = k :=
  hf k _ _ x (fun _ h => entry_key h) (fun _ h => entry_key h) hx

theorem Joint.increasing (h : Joint as bs keys ts) (hf : Keyed f) :
    Increasing (ts.filterMap fun t => f t.1 t.2) := by
  rw [h.filterMap_eq]
  refine List.pairwise_filterMap.mpr (h.sorted.imp fun {j k} hlt x hx y hy => ?_)
  rwa [hf.key hx, hf.key hy]

/-- **The entry is what is made of both.** -/
theorem Joint.entry_filterMap (h : Joint as bs keys ts) (hf : Keyed f) (hnone : f none none = none) (k : α) :
    entry k (ts.filterMap fun t => f t.1 t.2) = f (entry k as) (entry k bs) := by
  cases hz : f (entry k as) (entry k bs) with
  | some z =>
    refine ((h.increasing hf).entry_eq_some).mpr ⟨?_, hf.key hz⟩
    rw [h.filterMap_eq]
    refine List.mem_filterMap.mpr ⟨k, (h.mem k).mpr ?_, hz⟩
    by_contra hno
    rw [not_or] at hno
    rw [entry_eq_none.mpr fun x hx hk => hno.1 ⟨x, hx, hk⟩, entry_eq_none.mpr fun y hy hk => hno.2 ⟨y, hy, hk⟩,
      hnone] at hz
    exact nomatch hz
  | none =>
    rw [entry_eq_none, h.filterMap_eq]
    intro x hx hk
    obtain ⟨j, -, hj⟩ := List.mem_filterMap.mp hx
    obtain rfl : j = k := (hf.key hj).symm.trans hk
    rw [hz] at hj
    exact nomatch hj

end

end

end NfpEstimator
