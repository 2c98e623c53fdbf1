import NfpEstimator.Expr.Structural

/-!
# Arrays

`expr::select` and `expr::store`. Elements at constant offsets are kept in the map of a `concrete_storing`.

The main result is that what is read after any sequence of writes is what the last one to the same offset has
written, where offsets are the same if their values are (`select_after_stores`).
-/

namespace NfpEstimator

/-! ### Store maps -/

/-- `std::map::find`. -/
def StoreMap.find (offset : ℕ) : StoreMap → Option Bvexpr
  | .nil => none
  | .cons o v m => if o = offset then some v else m.find offset

/-- `map[offset] = value`. -/
def StoreMap.assign (offset : ℕ) (value : Bvexpr) : StoreMap → StoreMap
  | .nil => .cons offset value .nil
  | .cons o v m =>
    if o = offset then .cons o value m
    else if offset < o then .cons offset value (.cons o v m)
    else .cons o v (m.assign offset value)

variable {A V : ℕ} {env : Env}

theorem StoreMap.eval_eq_find (env : Env) (i : ℕ) :
    ∀ m : StoreMap, m.eval env i = (m.find i).map fun v => v.eval env
  | .nil => rfl
  | .cons o v m => by
    simp only [StoreMap.eval, StoreMap.find, eq_comm (a := i)]
    split
    · rfl
    · exact m.eval_eq_find env i

theorem StoreMap.find_typed {offset : ℕ} {v : Bvexpr} :
    ∀ {m : StoreMap}, m.WF A V → m.find offset = some v → Typed V v
  | .nil, _, h => nomatch h
  | .cons o w m, hm, h => by
    simp only [StoreMap.find] at h
    split_ifs at h
    · exact Option.some.inj h ▸ hm.2.1
    · exact find_typed hm.2.2 h

theorem StoreMap.above_assign {k offset : ℕ} {value : Bvexpr} {m : StoreMap} (hm : m.Above k) (h : k < offset) :
    (m.assign offset value).Above k := by
  cases m with
  | nil => exact h
  | cons o v m =>
    simp only [StoreMap.assign]
    split_ifs
    · exact hm
    · exact h
    · exact hm

theorem StoreMap.assign_wf {offset : ℕ} {value : Bvexpr} (ho : offset < 2 ^ A) (hv : Typed V value) :
    ∀ {m : StoreMap}, m.WF A V → (m.assign offset value).WF A V
  | .nil, _ => ⟨⟨ho, trivial⟩, hv, trivial⟩
  | .cons o v m, hm => by
    simp only [StoreMap.assign]
    split_ifs with heq hlt
    · exact ⟨hm.1, hv, hm.2.2⟩
    · exact ⟨⟨ho, hlt⟩, hv, hm⟩
    · exact ⟨⟨hm.1.1, above_assign hm.1.2 (by omega)⟩, hm.2.1, assign_wf ho hv hm.2.2⟩

theorem StoreMap.eval_assign (env : Env) (offset : ℕ) (value : Bvexpr) (i : ℕ) :
    ∀ {m : StoreMap}, (m.assign offset value).eval env i =
      if i = offset then some (value.eval env) else m.eval env i
  | .nil => rfl
  | .cons o v m => by
    simp only [StoreMap.assign]
    split_ifs with heq hlt hi hi <;> simp only [StoreMap.eval, eval_assign env offset value i] <;> split_ifs <;>
      first | rfl | omega

/-! ### Reading and writing -/

/-- `expr::select<A,V>`. -/
def select (A V : ℕ) (array : Bvarray) (offset : Bvexpr) : Bvexpr :=
  match array, castConstant A offset with
  | .concreteStoring _ _ array map, some o => (map.find o).getD (.selection A V array offset)
  | array, _ => .selection A V array offset

/-- `expr::store<A,V>`. -/
def store (A V : ℕ) (array : Bvarray) (offset value : Bvexpr) : Bvarray :=
  match castConstant A offset with
  | none => .storing A V array offset value
  | some o =>
    match array with
    | .concreteStoring _ _ array map => .concreteStoring A V array (map.assign o value)
    | array => .concreteStoring A V array (.cons o value .nil)

/-- An expression of the type `bvarray<A,V>`. -/
def Bvarray.Typed (A V : ℕ) (a : Bvarray) : Prop := a.WF ∧ a.widths = (A, V)

variable {a : Bvarray} {o v : Bvexpr}

/-- **`select` reads.** -/
theorem select_computes (ha : a.Typed A V) (ho : Typed A o) :
    Computes V (fun env => a.eval env (o.eval env) % 2 ^ V) (select A V a o) := by
  have hnode : Computes V (fun env => a.eval env (o.eval env) % 2 ^ V) (.selection A V a o) :=
    ⟨⟨⟨ha, ho⟩, rfl⟩, fun env => rfl⟩
  unfold select
  split
  · next A' V' array map i hi =>
    obtain ⟨⟨harray, hmap⟩, hw⟩ := ha
    obtain ⟨rfl, rfl⟩ := Prod.mk.inj hw
    have heval : ∀ env, o.eval env = i := (castConstant_typed hi ho).2
    cases h : map.find i with
    | none =>
      refine ⟨⟨⟨harray, ho⟩, rfl⟩, fun env => ?_⟩
      simp only [Option.getD_none, Bvexpr.eval, Bvarray.eval, StoreMap.eval_eq_find, heval, h, Option.map_none]
    | some v =>
      have hv := StoreMap.find_typed hmap h
      refine ⟨hv, fun env => ?_⟩
      simp only [Option.getD_some, Bvarray.eval, StoreMap.eval_eq_find, heval, h, Option.map_some,
        Nat.mod_eq_of_lt (hv.eval_lt env)]
  · exact hnode

/-- **`store` writes.** -/
theorem store_typed (ha : a.Typed A V) (ho : Typed A o) (hv : Typed V v) :
    (store A V a o v).Typed A V := by
  unfold store
  split
  · exact ⟨⟨ha, ho, hv⟩, rfl⟩
  · next i hi =>
    obtain ⟨rfl, -⟩ := castConstant_typed hi ho
    have hi : i < 2 ^ A := ho.1
    split
    · next A' V' array map =>
      obtain ⟨⟨harray, hmap⟩, hw⟩ := ha
      obtain ⟨rfl, rfl⟩ := Prod.mk.inj hw
      exact ⟨⟨harray, StoreMap.assign_wf hi hv hmap⟩, rfl⟩
    · exact ⟨⟨ha, ⟨hi, trivial⟩, hv, trivial⟩, rfl⟩

@[inherit_doc store_typed]
theorem store_eval (ho : Typed A o) (env : Env) :
    (store A V a o v).eval env = Function.update (a.eval env) (o.eval env) (v.eval env) := by
  funext j
  unfold store
  split
  · rw [Bvarray.eval, Function.update_apply]
  · next i hi =>
    rw [(castConstant_typed hi ho).2, Function.update_apply]
    split
    · simp only [Bvarray.eval, StoreMap.eval_assign]
      split_ifs <;> rfl
    · simp only [Bvarray.eval, StoreMap.eval]
      split_ifs <;> rfl

/-! ### Reading after writing -/

/-- A sequence of writes, each an offset and a value, in the order in which they are made. -/
def storeSeq (A V : ℕ) (a : Bvarray) (ss : List (Bvexpr × Bvexpr)) : Bvarray :=
  ss.foldl (fun a s => store A V a s.1 s.2) a

/-- What the last write to offset `i` has written, if there is one. -/
def lastWritten (env : Env) (i : ℕ) (ss : List (Bvexpr × Bvexpr)) : Option ℕ :=
  (ss.reverse.find? fun s => s.1.eval env == i).map fun s => s.2.eval env

@[simp] theorem storeSeq_snoc (A V : ℕ) (a : Bvarray) (ss : List (Bvexpr × Bvexpr)) (s : Bvexpr × Bvexpr) :
    storeSeq A V a (ss ++ [s]) = store A V (storeSeq A V a ss) s.1 s.2 := by
  simp [storeSeq]

theorem lastWritten_snoc (env : Env) (i : ℕ) (ss : List (Bvexpr × Bvexpr)) (s : Bvexpr × Bvexpr) :
    lastWritten env i (ss ++ [s]) = if i = s.1.eval env then some (s.2.eval env) else lastWritten env i ss := by
  simp only [lastWritten, List.reverse_concat, List.find?_cons, beq_eq_decide, eq_comm (a := i)]
  split_ifs with h <;> simp [h]

/-- Every write of a sequence has the widths of the array. -/
def StoresTyped (A V : ℕ) (ss : List (Bvexpr × Bvexpr)) : Prop := ∀ s ∈ ss, Typed A s.1 ∧ Typed V s.2

theorem StoresTyped.of_snoc {ss : List (Bvexpr × Bvexpr)} {s : Bvexpr × Bvexpr} (h : StoresTyped A V (ss ++ [s])) :
    StoresTyped A V ss ∧ Typed A s.1 ∧ Typed V s.2 :=
  ⟨fun s hs => h s (List.mem_append_left _ hs), h s (by simp)⟩

variable {ss : List (Bvexpr × Bvexpr)}

theorem storeSeq_typed (ha : a.Typed A V) (hs : StoresTyped A V ss) : (storeSeq A V a ss).Typed A V := by
  induction ss using List.reverseRecOn with
  | nil => exact ha
  | append_singleton ss s ih =>
    obtain ⟨hss, ho, hv⟩ := hs.of_snoc
    rw [storeSeq_snoc]
    exact store_typed (ih hss) ho hv

/-- An array after any sequence of writes. -/
theorem storeSeq_eval (hs : StoresTyped A V ss) (env : Env) (i : ℕ) :
    (storeSeq A V a ss).eval env i = (lastWritten env i ss).getD (a.eval env i) := by
  induction ss using List.reverseRecOn with
  | nil => rfl
  | append_singleton ss s ih =>
    obtain ⟨hss, ho, -⟩ := hs.of_snoc
    rw [storeSeq_snoc, store_eval ho, Function.update_apply, lastWritten_snoc, ih hss]
    split_ifs <;> rfl

theorem lastWritten_lt (hs : StoresTyped A V ss) {env : Env} {i v : ℕ} (h : lastWritten env i ss = some v) :
    v < 2 ^ V := by
  obtain ⟨s, hfind, rfl⟩ := Option.map_eq_some_iff.mp h
  exact (hs s (List.mem_reverse.mp (List.mem_of_find?_eq_some hfind))).2.eval_lt env

/-- **Reads see the last write**: what is selected after any sequence of writes is what the last one whose offset
has the value of the selected one has written, and what the array held before if there is none. -/
theorem select_after_stores (ha : a.Typed A V) (hs : StoresTyped A V ss) (ho : Typed A o) (env : Env) :
    (select A V (storeSeq A V a ss) o).eval env =
      (lastWritten env (o.eval env) ss).getD (a.eval env (o.eval env) % 2 ^ V) := by
  rw [(select_computes (storeSeq_typed ha hs) ho).eval, storeSeq_eval hs]
  cases h : lastWritten env (o.eval env) ss with
  | none => rfl
  | some v => exact Nat.mod_eq_of_lt (lastWritten_lt hs h)

/-- A write at a symbolic offset between two at a constant one: the element at 3 is that of the symbolic write if
the offset is 3 there, and else that of the first. -/
theorem select_after_stores_aliased :
    let ss := [(constant 32 3, constant 8 1), (.bvvariable 32 "i", constant 8 2), (constant 32 4, constant 8 5)]
    let e := select 32 8 (storeSeq 32 8 (.bvavariable 32 8 "packet") ss) (constant 32 3)
    e.eval (.const 3) = 2 ∧ e.eval (.const 7) = 1 := by
  intro ss e
  have hs : StoresTyped 32 8 ss := by
    intro s hs
    simp only [ss, List.mem_cons, List.not_mem_nil, or_false] at hs
    rcases hs with rfl | rfl | rfl
    · exact ⟨typed_constant 32 3, typed_constant 8 1⟩
    · exact ⟨⟨trivial, rfl⟩, typed_constant 8 2⟩
    · exact ⟨typed_constant 32 4, typed_constant 8 5⟩
  have h := @select_after_stores 32 8 (.bvavariable 32 8 "packet") (constant 32 3) ss ⟨trivial, rfl⟩ hs
    (typed_constant 32 3)
  exact ⟨(h (.const 3)).trans (by decide), (h (.const 7)).trans (by decide)⟩

end NfpEstimator
