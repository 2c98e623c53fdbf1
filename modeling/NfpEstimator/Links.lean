import Mathlib

/-!
# Objects that keep links

Objects are made one after the other and are known by their numbers. An object keeps links to others that stand for
results it has had before, and what an object stands for (its view) never changes. A link is good if it leads to what
the relation `R` between views allows it to. All links stay good as long as objects are only added and changed in such a
way (`Linked.append`, `Linked.set`), whatever links are dropped.
-/

namespace NfpEstimator

variable {ο α β : Type*}

/-- What the objects of a type stand for, and their links by label. -/
structure LinkKind (ο α β : Type*) where
  view : ο → α
  link : ο → β → Option ℕ

namespace LinkKind

variable (K : LinkKind ο α β) (R : α → β → α → Prop)

/-- All objects are still there and stand for the same. -/
def Kept (os os' : List ο) : Prop := ∀ p : ℕ, ∀ x ∈ os[p]?, ∃ y ∈ os'[p]?, K.view y = K.view x

/-- All links of an object are good. -/
def GoodLinks (os : List ο) (x : ο) : Prop :=
  ∀ b, ∀ q ∈ K.link x b, ∃ y ∈ os[q]?, R (K.view x) b (K.view y)

/-- All links of all objects are good. -/
def Linked (os : List ο) : Prop := ∀ p : ℕ, ∀ x ∈ os[p]?, K.GoodLinks R os x

variable {K R} {os os' os'' : List ο} {x x' : ο} {p : ℕ}

theorem Kept.refl (os : List ο) : K.Kept os os := fun _ x hx => ⟨x, hx, rfl⟩

theorem Kept.trans (h : K.Kept os os') (h' : K.Kept os' os'') : K.Kept os os'' := by
  intro p x hx
  obtain ⟨y, hy, hxy⟩ := h p x hx
  obtain ⟨z, hz, hyz⟩ := h' p y hy
  exact ⟨z, hz, hyz.trans hxy⟩

theorem kept_append (os : List ο) (x : ο) : K.Kept os (os ++ [x]) := by
  intro p y hy
  exact ⟨y, List.getElem?_append_left (List.getElem?_eq_some_iff.mp hy).1 ▸ hy, rfl⟩

theorem kept_set (hx : x ∈ os[p]?) (hv : K.view x' = K.view x) : K.Kept os (os.set p x') := by
  intro q y hy
  by_cases hpq : p = q
  · subst hpq
    obtain rfl : x = y := Option.mem_unique hx hy
    exact ⟨x', List.getElem?_set_self (List.getElem?_eq_some_iff.mp hx).1, hv⟩
  · exact ⟨y, (List.getElem?_set_ne hpq).trans hy, rfl⟩

theorem GoodLinks.kept (h : K.GoodLinks R os x) (hk : K.Kept os os') : K.GoodLinks R os' x := by
  intro b q hq
  obtain ⟨y, hy, hr⟩ := h b q hq
  obtain ⟨z, hz, hyz⟩ := hk q y hy
  exact ⟨z, hz, hyz ▸ hr⟩

/-- Links that were there before, of an object that stands for the same. -/
theorem GoodLinks.of_subset (h : K.GoodLinks R os x) (hv : K.view x' = K.view x)
    (hl : ∀ b, ∀ q ∈ K.link x' b, q ∈ K.link x b) : K.GoodLinks R os x' :=
  fun b q hq => hv ▸ h b q (hl b q hq)

theorem goodLinks_of_none (h : ∀ b, K.link x b = none) : K.GoodLinks R os x :=
  fun b _ hq => by cases (h b).symm.trans hq

theorem linked_nil : K.Linked R [] := fun _ _ hx => nomatch hx

/-- An object is added. -/
theorem Linked.append (h : K.Linked R os) (hx : K.GoodLinks R os x) : K.Linked R (os ++ [x]) := by
  intro p y hy
  by_cases hp : p < os.length
  · rw [List.getElem?_append_left hp] at hy
    exact (h p y hy).kept (kept_append os x)
  · rw [List.getElem?_append_right (Nat.le_of_not_lt hp)] at hy
    obtain rfl := List.mem_singleton.mp (List.mem_of_getElem? hy)
    exact hx.kept (kept_append os y)

/-- An object is changed. -/
theorem Linked.set (h : K.Linked R os) (hx : x ∈ os[p]?) (hv : K.view x' = K.view x)
    (hg : K.GoodLinks R os x') : K.Linked R (os.set p x') := by
  have hk : K.Kept os (os.set p x') := kept_set hx hv
  intro q y hy
  by_cases hpq : p = q
  · subst hpq
    rw [List.getElem?_set_self (List.getElem?_eq_some_iff.mp hx).1] at hy
    exact Option.some.inj hy ▸ hg.kept hk
  · rw [List.getElem?_set_ne hpq] at hy
    exact (h q y hy).kept hk

/-- Where a good link leads. -/
theorem Linked.link (h : K.Linked R os) (hx : x ∈ os[p]?) {b : β} {q : ℕ} (hq : q ∈ K.link x b) :
    ∃ y ∈ os[q]?, R (K.view x) b (K.view y) := h p x hx b q hq

end LinkKind

end NfpEstimator
