import NfpEstimator.SatChecker.Grammar
import NfpEstimator.Table

/-!
# Models

What `sat_checker::get_model` makes of the text of a model: the values of the bit-vectors, and those of the arrays,
which come from the functions that the arrays are. The definitions are gone through from the last one to the first
one, so that the first one counts if there are several for one name. Within a chain of `ite` it is the last branch
that counts.

The main result is when a model has the values that its text defines (`model_faithful_iff`).
-/

namespace NfpEstimator

namespace SatChecker

open Table

/-! ### Definitions that have been read -/

/-- `model_fun`. -/
inductive ModelFun where
  | bv (name : String) (bv : Word)
  | arrayFun (name fun_ : String)
  | fun_ (name : String) (kv : List (Word × Word))

/-- The action of `LIST`: a definition goes in front of those before it. -/
def Definition.push (list : List ModelFun) : Definition → List ModelFun
  | .bv n v => .bv n v :: list
  | .bool_ _ => list
  | .arrayFun n f => .arrayFun n f :: list
  | .arrayConst _ => list
  | .fun_ n kv => .fun_ n kv :: list

/-- The list of `model_parse`. -/
def modelFuns (ds : List Definition) : List ModelFun := ds.foldl Definition.push []

/-! ### Models -/

/-- `sat_checker::model`. -/
structure Model where
  variables_ : Map String Word
  arrays : Map (String ×ₗ Word) Word

/-- One step of the first loop of `sat_checker::get_model`. -/
def ModelFun.bind (fa : Map String String) : ModelFun → Map String String
  | .arrayFun n f => fa.assign f n
  | _ => fa

/-- One step of the second loop. -/
def ModelFun.store (fa : Map String String) (m : Model) : ModelFun → Model
  | .bv n v => { m with variables_ := m.variables_.assign n v }
  | .fun_ n kv =>
    let a := (fa.find n).getD ""
    kv.foldl (fun m p => { m with arrays := m.arrays.assign (toLex (a, p.1)) p.2 }) m
  | .arrayFun _ _ => m

/-- `sat_checker::get_model` for the definitions that have been read. -/
def modelOf (list : List ModelFun) : Model :=
  list.foldl (ModelFun.store (list.foldl ModelFun.bind .empty)) ⟨.empty, .empty⟩

/-- `sat_checker::get_model` for the text that the solver prints. Nothing comes back from an error. -/
def getModel (text : String) : Option Model := (parse (lex text)).map fun ds => modelOf (modelFuns ds)

namespace Model

/-- `sat_checker::model::get_value` of a variable. -/
def getValue (m : Model) (n : String) : Option Word := m.variables_.find n

/-- `sat_checker::model::get_value` of an array. -/
def getArrayValue (m : Model) (n : String) (o : Word) : Option Word := m.arrays.find (toLex (n, o))

/-- `sat_checker::model::get_values`. -/
def getValues (m : Model) (n : String) : Map Word Word :=
  (range (toLex (n, 0)) (toLex (n, ⟨2 ^ 64 - 1, by decide⟩)) m.arrays.entries).foldl
    (fun map i => map.assign (ofLex i.1).2 i.2) .empty

end Model

variable {ds : List Definition} {d : Definition} {a f v : String} {k x : Word} {kv kv' : List (Word × Word)}
  {m : Model}

/-! ### What is read back -/

theorem push_append (list : List ModelFun) (d : Definition) : d.push list = d.push [] ++ list := by
  cases d <;> rfl

/-- The first definition is at the end of the list. -/
theorem modelFuns_cons (d : Definition) (ds : List Definition) : modelFuns (d :: ds) = modelFuns ds ++ d.push [] := by
  have happend : ∀ list : List ModelFun, ds.foldl Definition.push list = ds.foldl Definition.push [] ++ list := by
    induction ds with
    | nil => exact fun list => rfl
    | cons d ds ih =>
      intro list
      rw [List.foldl_cons, List.foldl_cons, ih, ih (d.push []), push_append, List.append_assoc]
  exact happend _

/-- The array that a function belongs to: the first one that it is said to be. -/
def firstArray (ds : List Definition) (f : String) : Option String :=
  ds.findSome? fun
    | .arrayFun n g => if g = f then some n else none
    | _ => none

theorem find_bind : ((modelFuns ds).foldl ModelFun.bind .empty).find f = firstArray ds f := by
  induction ds with
  | nil => rfl
  | cons d ds ih =>
    rw [modelFuns_cons, List.foldl_append]
    cases d with
    | arrayFun n g =>
      simp only [Definition.push, List.foldl_cons, List.foldl_nil, ModelFun.bind, Map.find_assign, ih, firstArray,
        List.findSome?_cons, eq_comm (a := f)]
      split_ifs <;> rfl
    | _ => exact ih

/-- The value of a variable in the text. -/
def firstValue (ds : List Definition) (v : String) : Option Word :=
  ds.findSome? fun
    | .bv n x => if n = v then some x else none
    | _ => none

theorem find_store (fa : Map String String) :
    ((modelFuns ds).foldl (ModelFun.store fa) ⟨.empty, .empty⟩).variables_.find v = firstValue ds v := by
  have hkv : ∀ (b : String) (kv : List (Word × Word)) (m : Model), (kv.foldl (fun m p =>
      { m with arrays := m.arrays.assign (toLex (b, p.1)) p.2 }) m).variables_ = m.variables_ := by
    intro b kv
    induction kv with
    | nil => exact fun m => rfl
    | cons p kv ih => exact fun m => ih _
  induction ds with
  | nil => rfl
  | cons d ds ih =>
    rw [modelFuns_cons, List.foldl_append]
    cases d with
    | bv n x =>
      simp only [Definition.push, List.foldl_cons, List.foldl_nil, ModelFun.store, Map.find_assign, ih, firstValue,
        List.findSome?_cons, eq_comm (a := v)]
      split_ifs <;> rfl
    | fun_ n kv =>
      simp only [Definition.push, List.foldl_cons, List.foldl_nil, ModelFun.store, hkv, ih, firstValue,
        List.findSome?_cons]
    | _ => exact ih

/-- The last branch of a chain for a key is what is stored. -/
theorem find_storeKv (b : String) (kv : List (Word × Word)) (m : Model) :
    (kv.foldl (fun m p => { m with arrays := m.arrays.assign (toLex (b, p.1)) p.2 }) m).arrays.find (toLex (a, k)) =
      (if b = a then kv.reverse.lookup k else none).or (m.arrays.find (toLex (a, k))) := by
  induction kv generalizing m with
  | nil => simp
  | cons p kv ih =>
    have hkey : toLex (a, k) = toLex (b, p.1) ↔ b = a ∧ k = p.1 := by
      rw [toLex_inj, Prod.mk.injEq, eq_comm (a := a)]
    rw [List.foldl_cons, ih, Map.find_assign, List.reverse_cons, List.lookup_append, List.lookup_cons, List.lookup_nil]
    by_cases hb : b = a
    · by_cases hk : k = p.1
      · rw [if_pos (hkey.mpr ⟨hb, hk⟩), if_pos hb, if_pos hb, hk, beq_self_eq_true, Option.or_assoc]
        rfl
      · rw [if_neg fun h => hk (hkey.mp h).2, if_pos hb, if_pos hb, beq_false_of_ne hk, Option.or_none]
    · rw [if_neg fun h => hb (hkey.mp h).1, if_neg hb, if_neg hb]

/-- The value of an array in the text: that of the first chain that has one, and within it that of the last branch. -/
def lastBranch (ds : List Definition) (owner : String → String) (a : String) (k : Word) : Option Word :=
  ds.findSome? fun
    | .fun_ f kv => if owner f = a then kv.reverse.lookup k else none
    | _ => none

theorem find_store_array (fa : Map String String) :
    ((modelFuns ds).foldl (ModelFun.store fa) ⟨.empty, .empty⟩).arrays.find (toLex (a, k)) =
      lastBranch ds (fun f => (fa.find f).getD "") a k := by
  induction ds with
  | nil => rfl
  | cons d ds ih =>
    rw [modelFuns_cons, List.foldl_append]
    cases d with
    | fun_ n kv =>
      simp only [Definition.push, List.foldl_cons, List.foldl_nil, ModelFun.store, find_storeKv, ih, lastBranch,
        List.findSome?_cons]
      cases (if (fa.find n).getD "" = a then kv.reverse.lookup k else none) <;> rfl
    | _ => exact ih

theorem modelOf_getValue : (modelOf (modelFuns ds)).getValue v = firstValue ds v := find_store _

theorem modelOf_getArrayValue :
    (modelOf (modelFuns ds)).getArrayValue a k = lastBranch ds (fun f => (firstArray ds f).getD "") a k := by
  refine (find_store_array _).trans ?_
  simp only [find_bind]

theorem Model.mem_range (m : Model) (e : (String ×ₗ Word) × Word) :
    e ∈ range (toLex (a, 0)) (toLex (a, ⟨2 ^ 64 - 1, by decide⟩)) m.arrays.entries ↔
      e ∈ m.arrays.entries ∧ (ofLex e.1).1 = a := by
  rw [m.arrays.sorted.mem_range, Prod.Lex.le_iff', Prod.Lex.le_iff']
  refine and_congr_right fun _ => ⟨fun h => le_antisymm h.2.1 h.1.1, fun h => ?_⟩
  have hle : (ofLex e.1).2 ≤ ⟨2 ^ 64 - 1, by decide⟩ := Nat.le_sub_one_of_lt (ofLex e.1).2.isLt
  exact ⟨⟨h.ge, fun _ => Fin.zero_le _⟩, h.le, fun _ => hle⟩

/-- **`get_values` lists what `get_value` returns.** -/
theorem find_getValues (m : Model) (a : String) (k : Word) : (m.getValues a).find k = m.getArrayValue a k := by
  set es := (range (toLex (a, 0)) (toLex (a, ⟨2 ^ 64 - 1, by decide⟩)) m.arrays.entries).map
    fun i => ((ofLex i.1).2, i.2) with hes
  have hall : m.getValues a = Map.empty.assignAll es := by
    rw [hes, Map.assignAll, List.foldl_map]
    rfl
  have hmem : ∀ x, (k, x) ∈ es ↔ (toLex (a, k), x) ∈ m.arrays.entries := by
    intro x
    rw [hes, List.mem_map]
    constructor
    · rintro ⟨⟨i, y⟩, hi, he⟩
      obtain ⟨hentry, rfl⟩ := (m.mem_range _).mp hi
      obtain ⟨rfl, rfl⟩ := Prod.mk.inj he
      exact hentry
    · exact fun h => ⟨_, (m.mem_range _).mpr ⟨h, rfl⟩, rfl⟩
  refine Option.ext fun x => ?_
  rw [hall, Map.find_assignAll, Map.find_empty, Option.or_none, Model.getArrayValue, Map.find_eq_some_iff, ← hmem]
  constructor
  · exact fun h => List.mem_reverse.mp (Table.mem_of_lookup h)
  · intro h
    obtain ⟨y, hy⟩ := Table.exists_lookup (List.mem_reverse.mpr h)
    have hy' := List.mem_reverse.mp (Table.mem_of_lookup hy)
    rwa [m.arrays.sorted.eq_of_mem ((hmem x).mp h) ((hmem y).mp hy')]

/-! ### Faithful models -/

/-- A chain that a function has: one that it is defined by, or the empty one if there is none. -/
def HasChain (ds : List Definition) (f : String) (kv : List (Word × Word)) : Prop :=
  .fun_ f kv ∈ ds ∨ kv = [] ∧ ∀ kv', .fun_ f kv' ∉ ds

/-- The model has the values that are defined: of a chain, the value of the first branch for a key. -/
structure Model.Faithful (m : Model) (ds : List Definition) : Prop where
  value : ∀ v x, .bv v x ∈ ds → m.getValue v = some x
  arrayValue : ∀ a f kv, .arrayFun a f ∈ ds → HasChain ds f kv → ∀ k, m.getArrayValue a k = kv.lookup k
  values : ∀ a f kv, .arrayFun a f ∈ ds → HasChain ds f kv →
    ∀ k x, (k, x) ∈ (m.getValues a).entries ↔ kv.lookup k = some x

/-- The first chain in the text of a function that belongs to the array. -/
def firstChain (ds : List Definition) (a : String) : Option (List (Word × Word)) :=
  ds.findSome? fun
    | .fun_ f kv => if firstArray ds f = some a then some kv else none
    | _ => none

/-- What is defined more than once is defined alike, and the values of an array are in a chain that is its own, where
the last branch for a key has the value of the first one. -/
structure Consistent (ds : List Definition) : Prop where
  value : ∀ v x y, .bv v x ∈ ds → .bv v y ∈ ds → x = y
  chain : ∀ a f g kv kv', .arrayFun a f ∈ ds → .arrayFun a g ∈ ds → HasChain ds f kv → HasChain ds g kv' →
    ∀ k, kv.lookup k = kv'.lookup k
  own : ∀ a f kv, .arrayFun a f ∈ ds → .fun_ f kv ∈ ds → kv ≠ [] →
    ∃ kv', firstChain ds a = some kv' ∧ ∀ k, kv'.reverse.lookup k = kv'.lookup k

theorem lookup_reverse_eq_none : kv.reverse.lookup k = none ↔ kv.lookup k = none := by
  simp only [List.lookup_eq_none_iff, List.mem_reverse]

theorem firstValue_mem (h : firstValue ds v = some x) : .bv v x ∈ ds := by
  obtain ⟨d, hd, h⟩ := List.exists_of_findSome?_eq_some h
  cases d with
  | bv n y =>
    simp only [Option.ite_none_right_eq_some, Option.some.injEq] at h
    obtain ⟨rfl, rfl⟩ := h
    exact hd
  | _ => exact nomatch h

theorem firstArray_mem (h : firstArray ds f = some a) : .arrayFun a f ∈ ds := by
  obtain ⟨d, hd, h⟩ := List.exists_of_findSome?_eq_some h
  cases d with
  | arrayFun n g =>
    simp only [Option.ite_none_right_eq_some, Option.some.injEq] at h
    obtain ⟨rfl, rfl⟩ := h
    exact hd
  | _ => exact nomatch h

theorem firstChain_mem (h : firstChain ds a = some kv) : ∃ f, .fun_ f kv ∈ ds ∧ firstArray ds f = some a := by
  obtain ⟨d, hd, h⟩ := List.exists_of_findSome?_eq_some h
  cases d with
  | fun_ f kv' =>
    simp only [Option.ite_none_right_eq_some, Option.some.injEq] at h
    obtain ⟨ha, rfl⟩ := h
    exact ⟨f, hd, ha⟩
  | _ => exact nomatch h

theorem getD_eq_iff (ha : a ≠ "") {o : Option String} : o.getD "" = a ↔ o = some a := by
  cases o with
  | none => exact iff_of_false ha.symm nofun
  | some b => exact Option.some_inj.symm

/-- A value of an array is from a chain of its own. -/
theorem lastBranch_mem (ha : a ≠ "") (h : lastBranch ds (fun f => (firstArray ds f).getD "") a k = some x) :
    ∃ f kv, .fun_ f kv ∈ ds ∧ firstArray ds f = some a ∧ kv.reverse.lookup k = some x := by
  obtain ⟨d, hd, h⟩ := List.exists_of_findSome?_eq_some h
  cases d with
  | fun_ f kv =>
    simp only [Option.ite_none_right_eq_some, getD_eq_iff ha] at h
    exact ⟨f, kv, hd, h.1, h.2⟩
  | _ => exact nomatch h

/-- The first chain counts, where it has a value. -/
theorem lastBranch_of_firstChain (ha : a ≠ "") (h : firstChain ds a = some kv) (hx : kv.reverse.lookup k = some x) :
    lastBranch ds (fun f => (firstArray ds f).getD "") a k = some x := by
  unfold firstChain at h
  unfold lastBranch
  generalize firstArray ds = owner at h ⊢
  induction ds with
  | nil => exact nomatch h
  | cons d ds ih =>
    rw [List.findSome?_cons] at h ⊢
    cases d with
    | fun_ f kv' =>
      by_cases hf : owner f = some a
      · simp only [hf, if_true, Option.some.injEq] at h
        simp only [getD_eq_iff ha, hf, if_true, h, hx]
      · have howner : ¬ (owner f).getD "" = a := mt (getD_eq_iff ha).mp hf
        simp only [hf, if_false] at h
        simp only [howner, if_false]
        exact ih h
    | _ => exact ih h

/-- **A model is faithful exactly if its text is consistent.** -/
theorem modelOf_faithful_iff (hne : ∀ a f, .arrayFun a f ∈ ds → a ≠ "") :
    (modelOf (modelFuns ds)).Faithful ds ↔ Consistent ds := by
  constructor
  · intro h
    refine ⟨fun v x y hx hy => ?_, fun a f g kv kv' hf hg hkv hkv' k => ?_, fun a f kv hf hkv hnil => ?_⟩
    · exact Option.some.inj ((h.value v x hx).symm.trans (h.value v y hy))
    · rw [← h.arrayValue a f kv hf hkv, h.arrayValue a g kv' hg hkv']
    · have ha := hne a f hf
      -- a key of the chain has a value, which is in a chain of the array's own
      obtain ⟨p, kv₀, rfl⟩ := List.exists_cons_of_ne_nil hnil
      have hp : ((p :: kv₀).lookup p.1) = some p.2 := List.lookup_cons_self
      rw [← h.arrayValue a f _ hf (.inl hkv), modelOf_getArrayValue] at hp
      obtain ⟨g, kv₁, hkv₁, hg, -⟩ := lastBranch_mem ha hp
      obtain ⟨kv', hfirst⟩ : ∃ kv', firstChain ds a = some kv' := by
        refine Option.isSome_iff_exists.mp (List.findSome?_isSome_iff.mpr ⟨_, hkv₁, ?_⟩)
        simp [hg]
      refine ⟨kv', hfirst, fun k => ?_⟩
      obtain ⟨g', hkv', hg'⟩ := firstChain_mem hfirst
      have hvalue := h.arrayValue a g' kv' (firstArray_mem hg') (.inl hkv') k
      cases hx : kv'.reverse.lookup k with
      | none => exact (lookup_reverse_eq_none.mp hx).symm
      | some x => rw [← hvalue, modelOf_getArrayValue, lastBranch_of_firstChain ha hfirst hx]
  · intro h
    have harray : ∀ a f kv, .arrayFun a f ∈ ds → HasChain ds f kv →
        ∀ k, (modelOf (modelFuns ds)).getArrayValue a k = kv.lookup k := by
      intro a f kv hf hkv k
      have ha := hne a f hf
      rw [modelOf_getArrayValue]
      cases hx : kv.lookup k with
      | none =>
        refine Option.eq_none_iff_forall_ne_some.mpr fun y hy => ?_
        obtain ⟨g, kv', hkv', hg, hy⟩ := lastBranch_mem ha hy
        have hsame := h.chain a f g kv kv' hf (firstArray_mem hg) hkv (.inl hkv') k
        rw [hx, eq_comm, ← lookup_reverse_eq_none, hy] at hsame
        exact nomatch hsame
      | some x =>
        have hdef : .fun_ f kv ∈ ds := by
          rcases hkv with hkv | ⟨rfl, -⟩
          · exact hkv
          · exact nomatch hx
        obtain ⟨kv', hfirst, hlast⟩ := h.own a f kv hf hdef fun hnil => by rw [hnil] at hx; exact nomatch hx
        obtain ⟨g, hkv', hg⟩ := firstChain_mem hfirst
        have hsame := h.chain a f g kv kv' hf (firstArray_mem hg) hkv (.inl hkv') k
        exact lastBranch_of_firstChain ha hfirst ((hlast k).trans (hsame.symm.trans hx))
    refine ⟨fun v x hx => ?_, harray, fun a f kv hf hkv k x => ?_⟩
    · rw [modelOf_getValue]
      obtain ⟨y, hy⟩ : ∃ y, firstValue ds v = some y := by
        refine Option.isSome_iff_exists.mp (List.findSome?_isSome_iff.mpr ⟨_, hx, ?_⟩)
        simp
      rw [hy, h.value v x y hx (firstValue_mem hy)]
    · rw [← Map.find_eq_some_iff, find_getValues, harray a f kv hf hkv]

/-- **For every text of the grammar the solver's model has the values that are defined, exactly if the text is
consistent.** -/
theorem model_faithful_iff {text : String} (h : Grammar (lex text) ds) :
    ∃ m, getModel text = some m ∧ (m.Faithful ds ↔ Consistent ds) := by
  refine ⟨modelOf (modelFuns ds), ?_, modelOf_faithful_iff fun a f hf => name_ne_empty (h.name_mem hf)⟩
  rw [getModel, parse_eq_some_iff.mpr h, Option.map_some]

/-- If every name is defined once, a text is consistent exactly if every chain that is not empty is that of its first
array only, and if the last branch for a key has the value of the first one. -/
theorem consistent_iff_of_nodup (h : (ds.map Definition.name).Nodup) :
    Consistent ds ↔ ∀ a f kv, .arrayFun a f ∈ ds → .fun_ f kv ∈ ds → kv ≠ [] →
      firstArray ds f = some a ∧ ∀ k, kv.reverse.lookup k = kv.lookup k := by
  have hinj : ∀ {d d'}, d ∈ ds → d' ∈ ds → d.name = d'.name → d = d' :=
    fun hd hd' => List.inj_on_of_nodup_map h hd hd'
  have harray : ∀ {a f g}, .arrayFun a f ∈ ds → .arrayFun a g ∈ ds → f = g :=
    fun hf hg => (Definition.arrayFun.inj (hinj hf hg rfl)).2
  have hfun : ∀ {f kv kv'}, .fun_ f kv ∈ ds → .fun_ f kv' ∈ ds → kv = kv' :=
    fun hf hg => (Definition.fun_.inj (hinj hf hg rfl)).2
  constructor
  · intro hc a f kv hf hkv hnil
    obtain ⟨kv', hfirst, hlast⟩ := hc.own a f kv hf hkv hnil
    obtain ⟨g, hkv', hg⟩ := firstChain_mem hfirst
    obtain rfl := harray hf (firstArray_mem hg)
    obtain rfl := hfun hkv hkv'
    exact ⟨hg, hlast⟩
  · intro hc
    refine ⟨fun v x y hx hy => ?_, fun a f g kv kv' hf hg hkv hkv' k => ?_, fun a f kv hf hkv hnil => ?_⟩
    · exact (Definition.bv.inj (hinj hx hy rfl)).2
    · obtain rfl := harray hf hg
      rcases hkv with hkv | ⟨rfl, hnone⟩ <;> rcases hkv' with hkv' | ⟨rfl, hnone'⟩
      · rw [hfun hkv hkv']
      · exact absurd hkv (hnone' _)
      · exact absurd hkv' (hnone _)
      · rfl
    · obtain ⟨howner, hlast⟩ := hc a f kv hf hkv hnil
      obtain ⟨kv', hfirst⟩ : ∃ kv', firstChain ds a = some kv' := by
        refine Option.isSome_iff_exists.mp (List.findSome?_isSome_iff.mpr ⟨_, hkv, ?_⟩)
        simp [howner]
      obtain ⟨g, hkv', hg⟩ := firstChain_mem hfirst
      obtain rfl := harray hf (firstArray_mem hg)
      obtain rfl := hfun hkv hkv'
      exact ⟨kv, hfirst, hlast⟩

set_option maxRecDepth 2000 in
/-- A byte of the packet is 5, although the function is defined first. -/
theorem model_faithful_iff_packet :
    let text := "((define-fun f ((x (_ BitVec 32))) (_ BitVec 8) (ite (= x #x00000010) #x05 #unspecified))
      (define-fun packet () (Array (_ BitVec 32) (_ BitVec 8)) (_ as-array f)))"
    ∃ m, getModel text = some m ∧ m.getArrayValue "packet" 16 = some 5 ∧ m.getArrayValue "packet" 17 = none := by
  intro text
  have hgrammar : Grammar (lex text) [.fun_ "f" [(16, 5)], .arrayFun "packet" "f"] := grammar_ofList (by decide +kernel)
  obtain ⟨m, hm, hiff⟩ := model_faithful_iff hgrammar
  have hconsistent : Consistent [.fun_ "f" [(16, 5)], .arrayFun "packet" "f"] := by
    refine (consistent_iff_of_nodup (by decide)).mpr fun a f kv hf hkv _ => ?_
    obtain ⟨rfl, rfl⟩ : a = "packet" ∧ f = "f" := by simpa using hf
    obtain rfl : kv = [(16, 5)] := by simpa using hkv
    exact ⟨rfl, fun k => rfl⟩
  have hvalue := (hiff.mpr hconsistent).arrayValue "packet" "f" [(16, 5)] (by decide) (.inl (by decide))
  exact ⟨m, hm, hvalue 16, hvalue 17⟩

set_option maxRecDepth 2000 in
/-- Of two arrays that are one function the second one has no values, and of two branches for a key the second one
counts. -/
theorem model_wrong :
    let text := "((define-fun p () (Array (_ BitVec 32) (_ BitVec 8)) (_ as-array f))
      (define-fun q () (Array (_ BitVec 32) (_ BitVec 8)) (_ as-array f))
      (define-fun f ((x (_ BitVec 32))) (_ BitVec 8)
        (ite (= x #x00000010) #x05 (ite (= x #x00000010) #x06 #unspecified))))"
    Grammar (lex text) [.arrayFun "p" "f", .arrayFun "q" "f", .fun_ "f" [(16, 5), (16, 6)]] ∧
      ∃ m, getModel text = some m ∧ m.getArrayValue "p" 16 = some 6 ∧ m.getArrayValue "q" 16 = none := by
  intro text
  have hgrammar : Grammar (lex text) [.arrayFun "p" "f", .arrayFun "q" "f", .fun_ "f" [(16, 5), (16, 6)]] :=
    grammar_ofList (by decide +kernel)
  refine ⟨hgrammar, _, by rw [getModel, parse_eq_some_iff.mpr hgrammar, Option.map_some], ?_, ?_⟩ <;>
    · rw [modelOf_getArrayValue]
      decide

end SatChecker

end NfpEstimator
