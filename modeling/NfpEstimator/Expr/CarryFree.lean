import NfpEstimator.Expr.Arrays
import NfpEstimator.Expr.Closed

/-!
# What the solver understands

`bvadd_carry`, `bvsub_carry`, pointers and undefined values are nodes of the estimator only; there are no such
operators in the theory of bit-vectors and arrays. Pointers and undefined values are what an expression may
stand for in the end. A carry is not: whoever comes across one is expected to replace it.

No function that builds an expression puts a carry into it (`carryFree_closed`, `bvult_carryFree` and so on): what
they return has a carry in it only if an operand has.
-/

namespace NfpEstimator

/-! ### The nodes of an expression -/

section

variable (p : Bvexpr → Prop) (q : Bvarray → Prop)

mutual

/-- What holds of every node of bit-vectors and of arrays. -/
def Lexpr.Nodes : Lexpr → Prop
  | .boolean _ => True
  | .negation e => e.Nodes
  | .lbinary _ a b => a.Nodes ∧ b.Nodes
  | .comparison _ _ a b => a.Nodes ∧ b.Nodes
  | .ifthenelse l a b => l.Nodes ∧ a.Nodes ∧ b.Nodes

@[inherit_doc Lexpr.Nodes]
def Bvexpr.Nodes : Bvexpr → Prop
  | .undefined B obj => p (.undefined B obj)
  | .ifthenelse B l a b => p (.ifthenelse B l a b) ∧ l.Nodes ∧ a.Nodes ∧ b.Nodes
  | .bitvector B value => p (.bitvector B value)
  | .bvvariable B declname => p (.bvvariable B declname)
  | .pointer A V array o => p (.pointer A V array o) ∧ o.Nodes
  | .pointerExt A V E array o x => p (.pointerExt A V E array o x) ∧ o.Nodes ∧ x.Nodes
  | .pointerBase A V array s o => p (.pointerBase A V array s o) ∧ o.Nodes
  | .selection A V a o => p (.selection A V a o) ∧ a.Nodes ∧ o.Nodes
  | .extraction S E B e => p (.extraction S E B e) ∧ e.Nodes
  | .bvnegation B e => p (.bvnegation B e) ∧ e.Nodes
  | .concatenation A B a b => p (.concatenation A B a b) ∧ a.Nodes ∧ b.Nodes
  | .bvbinary op B a b => p (.bvbinary op B a b) ∧ a.Nodes ∧ b.Nodes
  | .bvrotationl B i e => p (.bvrotationl B i e) ∧ e.Nodes
  | .bvrotationr B i e => p (.bvrotationr B i e) ∧ e.Nodes

@[inherit_doc Lexpr.Nodes]
def Bvarray.Nodes : Bvarray → Prop
  | .undefinedArray A V obj => q (.undefinedArray A V obj)
  | .bvavariable A V declname => q (.bvavariable A V declname)
  | .ifthenelse A V l a b => q (.ifthenelse A V l a b) ∧ l.Nodes ∧ a.Nodes ∧ b.Nodes
  | .storing A V a o v => q (.storing A V a o v) ∧ a.Nodes ∧ o.Nodes ∧ v.Nodes
  | .concreteStoring A V a m => q (.concreteStoring A V a m) ∧ a.Nodes ∧ m.Nodes

@[inherit_doc Lexpr.Nodes]
def StoreMap.Nodes : StoreMap → Prop
  | .nil => True
  | .cons _ v m => v.Nodes ∧ m.Nodes

end

end

/-- The nodes of bit-vectors that there are in the theory. -/
def Bvexpr.InTheory : Bvexpr → Prop
  | .undefined _ _ | .pointer _ _ _ _ | .pointerExt _ _ _ _ _ _ | .pointerBase _ _ _ _ _ => False
  | .bvbinary op _ _ _ => op.inTheory = true
  | _ => True

/-- A node that is not undefined and not a pointer. -/
def Bvexpr.Known : Bvexpr → Prop
  | .undefined _ _ | .pointer _ _ _ _ | .pointerExt _ _ _ _ _ _ | .pointerBase _ _ _ _ _ => False
  | _ => True

/-- An array node that is not undefined. -/
def Bvarray.Known : Bvarray → Prop
  | .undefinedArray _ _ _ => False
  | _ => True

/-- A node that is not a carry. -/
def Bvexpr.NotCarry : Bvexpr → Prop
  | .bvbinary op _ _ _ => op.inTheory = true
  | _ => True

/-- There is no carry in an expression. -/
abbrev Lexpr.CarryFree (e : Lexpr) : Prop := e.Nodes Bvexpr.NotCarry fun _ => True

@[inherit_doc Lexpr.CarryFree]
abbrev Bvexpr.CarryFree (e : Bvexpr) : Prop := e.Nodes Bvexpr.NotCarry fun _ => True

@[inherit_doc Lexpr.CarryFree]
abbrev Bvarray.CarryFree (a : Bvarray) : Prop := a.Nodes Bvexpr.NotCarry fun _ => True

@[inherit_doc Lexpr.CarryFree]
abbrev StoreMap.CarryFree (m : StoreMap) : Prop := m.Nodes Bvexpr.NotCarry fun _ => True

section

variable {p p' r : Bvexpr → Prop} {q q' s : Bvarray → Prop}

mutual

/-- Two things that hold of every node hold of it together. -/
theorem Lexpr.Nodes.and (hr : ∀ e, p e → p' e → r e) (hs : ∀ a, q a → q' a → s a) :
    ∀ e : Lexpr, e.Nodes p q → e.Nodes p' q' → e.Nodes r s
  | .boolean _, _, _ => trivial
  | .negation e, h, h' => Lexpr.Nodes.and hr hs e h h'
  | .lbinary _ a b, h, h' => ⟨Lexpr.Nodes.and hr hs a h.1 h'.1, Lexpr.Nodes.and hr hs b h.2 h'.2⟩
  | .comparison _ _ a b, h, h' => ⟨Bvexpr.Nodes.and hr hs a h.1 h'.1, Bvexpr.Nodes.and hr hs b h.2 h'.2⟩
  | .ifthenelse l a b, h, h' =>
    ⟨Lexpr.Nodes.and hr hs l h.1 h'.1, Lexpr.Nodes.and hr hs a h.2.1 h'.2.1, Lexpr.Nodes.and hr hs b h.2.2 h'.2.2⟩

@[inherit_doc Lexpr.Nodes.and]
theorem Bvexpr.Nodes.and (hr : ∀ e, p e → p' e → r e) (hs : ∀ a, q a → q' a → s a) :
    ∀ e : Bvexpr, e.Nodes p q → e.Nodes p' q' → e.Nodes r s
  | .undefined _ _, h, h' | .bitvector _ _, h, h' | .bvvariable _ _, h, h' => hr _ h h'
  | .ifthenelse _ l a b, h, h' => ⟨hr _ h.1 h'.1, Lexpr.Nodes.and hr hs l h.2.1 h'.2.1,
    Bvexpr.Nodes.and hr hs a h.2.2.1 h'.2.2.1, Bvexpr.Nodes.and hr hs b h.2.2.2 h'.2.2.2⟩
  | .pointer _ _ _ e, h, h' | .pointerBase _ _ _ _ e, h, h' | .extraction _ _ _ e, h, h' | .bvnegation _ e, h, h'
  | .bvrotationl _ _ e, h, h' | .bvrotationr _ _ e, h, h' => ⟨hr _ h.1 h'.1, Bvexpr.Nodes.and hr hs e h.2 h'.2⟩
  | .pointerExt _ _ _ _ a b, h, h' | .concatenation _ _ a b, h, h' | .bvbinary _ _ a b, h, h' =>
    ⟨hr _ h.1 h'.1, Bvexpr.Nodes.and hr hs a h.2.1 h'.2.1, Bvexpr.Nodes.and hr hs b h.2.2 h'.2.2⟩
  | .selection _ _ a o, h, h' =>
    ⟨hr _ h.1 h'.1, Bvarray.Nodes.and hr hs a h.2.1 h'.2.1, Bvexpr.Nodes.and hr hs o h.2.2 h'.2.2⟩

@[inherit_doc Lexpr.Nodes.and]
theorem Bvarray.Nodes.and (hr : ∀ e, p e → p' e → r e) (hs : ∀ a, q a → q' a → s a) :
    ∀ a : Bvarray, a.Nodes p q → a.Nodes p' q' → a.Nodes r s
  | .undefinedArray _ _ _, h, h' | .bvavariable _ _ _, h, h' => hs _ h h'
  | .ifthenelse _ _ l a b, h, h' => ⟨hs _ h.1 h'.1, Lexpr.Nodes.and hr hs l h.2.1 h'.2.1,
    Bvarray.Nodes.and hr hs a h.2.2.1 h'.2.2.1, Bvarray.Nodes.and hr hs b h.2.2.2 h'.2.2.2⟩
  | .storing _ _ a o v, h, h' => ⟨hs _ h.1 h'.1, Bvarray.Nodes.and hr hs a h.2.1 h'.2.1,
    Bvexpr.Nodes.and hr hs o h.2.2.1 h'.2.2.1, Bvexpr.Nodes.and hr hs v h.2.2.2 h'.2.2.2⟩
  | .concreteStoring _ _ a m, h, h' =>
    ⟨hs _ h.1 h'.1, Bvarray.Nodes.and hr hs a h.2.1 h'.2.1, StoreMap.Nodes.and hr hs m h.2.2 h'.2.2⟩

@[inherit_doc Lexpr.Nodes.and]
theorem StoreMap.Nodes.and (hr : ∀ e, p e → p' e → r e) (hs : ∀ a, q a → q' a → s a) :
    ∀ m : StoreMap, m.Nodes p q → m.Nodes p' q' → m.Nodes r s
  | .nil, _, _ => trivial
  | .cons _ v m, h, h' => ⟨Bvexpr.Nodes.and hr hs v h.1 h'.1, StoreMap.Nodes.and hr hs m h.2 h'.2⟩

end

end

/-- **Where nothing is undefined and there is no pointer, only a carry is not in the theory.** -/
theorem Lexpr.CarryFree.inTheory {e : Lexpr} (h : e.CarryFree) (hknown : e.Nodes Bvexpr.Known Bvarray.Known) :
    e.Nodes Bvexpr.InTheory Bvarray.Known := by
  refine Lexpr.Nodes.and (fun e hknown hcarry => ?_) (fun a hknown _ => hknown) e hknown h
  cases e <;> simp_all [Bvexpr.Known, Bvexpr.InTheory, Bvexpr.NotCarry]

/-! ### Bit-vectors -/

/-- What is built of expressions without a carry has none. -/
theorem carryFree_closed : Bvexpr.Closed True Bvexpr.CarryFree where
  constant _ _ := trivial
  pointer _ _ _ _ := Iff.rfl
  pointerExt _ _ _ _ _ _ := Iff.rfl
  pointerBase _ _ _ _ _ := Iff.rfl
  extraction _ _ _ _ := ⟨fun h => h.2, fun h => ⟨trivial, h⟩⟩
  bvnegation _ _ h := ⟨trivial, h⟩
  concatenation _ _ _ _ := ⟨fun h => h.2, fun h => ⟨trivial, h⟩⟩
  bvbinary _ _ _ _ hop ha hb := ⟨hop, ha, hb⟩
  bvoring _ _ _ h := h.2

theorem constant_carryFree (B v : ℕ) : (constant B v).CarryFree := trivial

/-! ### Comparisons -/

theorem bvugeConstant_carryFree {B vb : ℕ} {a : Bvexpr} (ha : a.CarryFree) : (bvugeConstant B a vb).CarryFree := by
  fun_induction bvugeConstant B a vb with
  | case1 | case3 | case4 => exact trivial
  | case5 _ _ _ _ _ _ _ _ _ _ ih => exact ih ha.2.2
  | case2 | case6 | case7 => exact ⟨ha, constant_carryFree _ _⟩

theorem bvuge_carryFree {B : ℕ} {a b : Bvexpr} (ha : a.CarryFree) (hb : b.CarryFree) :
    (bvuge B a b).CarryFree := by
  unfold bvuge
  split
  · exact bvugeConstant_carryFree ha
  · exact ⟨ha, hb⟩

theorem bvule_carryFree {B : ℕ} {a b : Bvexpr} (ha : a.CarryFree) (hb : b.CarryFree) :
    (bvule B a b).CarryFree := by
  unfold bvule
  split
  · exact trivial
  · exact ⟨ha, hb⟩

theorem bvultConstant_carryFree {B vb : ℕ} {a : Bvexpr} (ha : a.CarryFree) : (bvultConstant B a vb).CarryFree := by
  fun_induction bvultConstant B a vb with
  | case1 | case3 | case4 => exact trivial
  | case5 _ _ _ _ _ _ _ _ _ _ ih => exact ih ha.2.2
  | case2 | case6 | case7 => exact ⟨ha, constant_carryFree _ _⟩

theorem bvult_carryFree {B : ℕ} {a b : Bvexpr} (ha : a.CarryFree) (hb : b.CarryFree) :
    (bvult B a b).CarryFree := by
  unfold bvult
  split
  · exact bvultConstant_carryFree ha
  · exact ⟨ha, hb⟩

theorem bvugt_carryFree {B : ℕ} {a b : Bvexpr} (ha : a.CarryFree) (hb : b.CarryFree) :
    (bvugt B a b).CarryFree := by
  unfold bvugt
  split
  · exact trivial
  · exact ⟨ha, hb⟩

theorem eq_carryFree [PastEnd] {B : ℕ} {a b : Bvexpr} (ha : a.CarryFree) (hb : b.CarryFree) :
    (eq B a b).CarryFree := by
  unfold eq
  split_ifs
  · exact trivial
  · exact ⟨ha, hb⟩

theorem isfalse_carryFree {e : Lexpr} (he : e.CarryFree) : (isfalse e).CarryFree := by
  cases e with
  | comparison c B a b =>
    cases c with
    | bvult =>
      rw [isfalse]
      split
      · exact bvuge_carryFree he.1 he.2
      · exact he
    | _ => exact he
  | boolean value => exact trivial
  | _ => exact he

/-! ### Connectives -/

theorem lor_carryFree {a b : Lexpr} (ha : a.CarryFree) (hb : b.CarryFree) : (lor a b).CarryFree := by
  unfold lor
  cases a with
  | boolean va => cases va <;> assumption
  | _ => cases b with
    | boolean vb => cases vb <;> assumption
    | _ => exact ⟨ha, hb⟩

theorem land_carryFree {a b : Lexpr} (ha : a.CarryFree) (hb : b.CarryFree) : (land a b).CarryFree := by
  unfold land
  cases a with
  | boolean va => cases va <;> assumption
  | _ => cases b with
    | boolean vb => cases vb <;> assumption
    | _ => exact ⟨ha, hb⟩

theorem ite_carryFree {B : ℕ} {l : Lexpr} {a b : Bvexpr} (hl : l.CarryFree) (ha : a.CarryFree) (hb : b.CarryFree) :
    (Bvexpr.ite B l a b).CarryFree := by
  cases l with
  | boolean value => cases value <;> assumption
  | _ => exact ⟨trivial, hl, ha, hb⟩

theorem arrayIte_carryFree {A V : ℕ} {l : Lexpr} {a b : Bvarray} (hl : l.CarryFree) (ha : a.CarryFree)
    (hb : b.CarryFree) : (Bvarray.ite A V l a b).CarryFree := by
  cases l with
  | boolean value => cases value <;> assumption
  | _ => exact ⟨trivial, hl, ha, hb⟩

/-! ### Arrays -/

theorem find_carryFree {offset : ℕ} {v : Bvexpr} :
    ∀ {m : StoreMap}, m.CarryFree → m.find offset = some v → v.CarryFree
  | .nil, _, h => nomatch h
  | .cons o w m, hm, h => by
    simp only [StoreMap.find] at h
    split_ifs at h
    · exact Option.some.inj h ▸ hm.1
    · exact find_carryFree hm.2 h

theorem assign_carryFree {offset : ℕ} {v : Bvexpr} (hv : v.CarryFree) :
    ∀ {m : StoreMap}, m.CarryFree → (m.assign offset v).CarryFree
  | .nil, _ => ⟨hv, trivial⟩
  | .cons o w m, hm => by
    simp only [StoreMap.assign]
    split_ifs
    · exact ⟨hv, hm.2⟩
    · exact ⟨hv, hm⟩
    · exact ⟨hm.1, assign_carryFree hv hm.2⟩

theorem select_carryFree {A V : ℕ} {a : Bvarray} {o : Bvexpr} (ha : a.CarryFree) (ho : o.CarryFree) :
    (select A V a o).CarryFree := by
  unfold select
  split
  · next A' V' array map i hi =>
    cases h : map.find i with
    | none => exact ⟨trivial, ha.2.1, ho⟩
    | some v => exact find_carryFree ha.2.2 h
  · exact ⟨trivial, ha, ho⟩

theorem store_carryFree {A V : ℕ} {a : Bvarray} {o v : Bvexpr} (ha : a.CarryFree) (ho : o.CarryFree)
    (hv : v.CarryFree) : (store A V a o v).CarryFree := by
  unfold store
  split
  · exact ⟨trivial, ha, ho, hv⟩
  · split
    · exact ⟨trivial, ha.2.1, assign_carryFree hv ha.2.2⟩
    · exact ⟨trivial, ha, hv, trivial⟩

end NfpEstimator
