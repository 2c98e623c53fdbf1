import NfpEstimator.Smt

/-!
# Sharing sub-expressions in the input of the solver

An expression is a graph of objects. Before it is written for the solver, `expr::defs` counts
how often each object is met; those that are met twice get a name, by their number in the
order of the traversal, and are written as that name.

A `Term` is an object with all that hangs on it. Its address tells it from other objects of
the same shape, so two terms are equal if and only if they are the same object. The classes
of `expr.hpp` differ in the text that they write and in how they take part in the counting
(`Kind`).
-/

namespace NfpEstimator

open Smt

/-! ### Objects -/

/-- `expr::decl`, which is also an expression. -/
structure Decl where
  addr : ℕ
  declname : String
  type : String
  deriving DecidableEq, Repr

/-- How a class takes part in the sharing. -/
inductive Kind where
  /-- Counted, and written as a name if there is one. -/
  | shared
  /-- What hangs on it is counted. -/
  | passing
  /-- An `expr::undefined`, which is remembered. -/
  | undefined
  /-- Not counted, and neither is what hangs on it. -/
  | pointer
  /-- As before, and written without names. -/
  | pointerBase
  deriving DecidableEq, Repr

mutual

/-- An object of a class derived from `expr`. -/
inductive Term where
  /-- `expr::boolean` and `expr::bitvector`. -/
  | literal (text : String)
  /-- `expr::bvvariable` and `expr::bvavariable`. -/
  | variable (d : Decl)
  | node (kind : Kind) (addr : ℕ) (type head : String) (args : Args)
  deriving DecidableEq

/-- What hangs on an object, with the text before and after it. -/
inductive Args where
  | nil
  | cons (before : String) (e : Term) (after : String) (rest : Args)
  deriving DecidableEq

end

namespace Term

/-- `expr::unary`. -/
def unary (addr : ℕ) (type name : String) (e : Term) : Term :=
  .node .passing addr type s!"({name} " (.cons "" e ")" .nil)

/-- `expr::extraction`. -/
def extraction (addr : ℕ) (type : String) (S E : ℕ) (e : Term) : Term :=
  .node .passing addr type s!"((_ extract {S} {E}) " (.cons "" e ")" .nil)

/-- `expr::binary`. -/
def binary (addr : ℕ) (type name : String) (a b : Term) : Term :=
  .node .shared addr type s!"({name} " (.cons "" a " " (.cons "" b ")" .nil))

/-- `expr::ifthenelse`. -/
def ifthenelse (addr : ℕ) (type : String) (l a b : Term) : Term :=
  .node .shared addr type "(ite " (.cons "" l " " (.cons "" a " " (.cons "" b ")" .nil)))

/-- `expr::selection`. -/
def selection (addr : ℕ) (type : String) (array offset : Term) : Term :=
  .node .shared addr type "(select " (.cons "" array " " (.cons "" offset ")" .nil))

/-- `expr::storing`. -/
def storing (addr : ℕ) (type : String) (array offset value : Term) : Term :=
  .node .shared addr type "(store "
    (.cons "" array " " (.cons "" offset " " (.cons "" value ")" .nil)))

/-- The entries of the map of an `expr::concrete_storing`, with the text of the keys. -/
def entries : List (String × Term) → Args
  | [] => .nil
  | (offset, value) :: map => .cons s!"{offset} " value ")" (entries map)

/-- `expr::concrete_storing`. -/
def concreteStoring (addr : ℕ) (type : String) (array : Term) (map : List (String × Term)) : Term :=
  .node .shared addr type (String.join (List.replicate map.length "(store "))
    (.cons "" array "" (entries map))

/-- `expr::undefined` and `expr::undefined_array`. -/
def undefined (addr : ℕ) (type name : String) (e : Option Term) : Term :=
  .node .undefined addr type (if name.isEmpty then "(undefined" else s!"(undefined {name}")
    (match e with
      | none => .cons "" (.literal "") ")" .nil
      | some e => .cons " " e ")" .nil)

/-- `expr::pointer`. -/
def pointer (addr : ℕ) (type : String) (array : Decl) (offset : Term) : Term :=
  .node .pointer addr type "" (.cons "&" (.variable array) "[" (.cons "" offset "]" .nil))

/-- `expr::pointer_ext`. -/
def pointerExt (addr : ℕ) (type : String) (array : Decl) (offset ext : Term) : Term :=
  .node .pointer addr type ""
    (.cons "&" (.variable array) "[" (.cons "" ext ", " (.cons "" offset "]" .nil)))

/-- `expr::pointer_base`. -/
def pointerBase (addr : ℕ) (type : String) (array : Decl) (shift : ℕ) (offset : Term) : Term :=
  .node .pointerBase addr type ""
    (.cons "&" (.variable array) "[" (.cons "" offset s!"]>>{shift}" .nil))

/-- `expr::type`. -/
def type : Term → String
  | .literal _ => ""
  | .variable d => d.type
  | .node _ _ type _ _ => type

end Term

mutual

/-- `expr::str`. -/
def Term.str : Term → Text
  | .literal text => [.text text]
  | .variable d => [.symbol d.declname]
  | .node _ _ _ head args => .text head :: args.str

@[inherit_doc Term.str]
def Args.str : Args → Text
  | .nil => []
  | .cons before e after rest => .text before :: e.str ++ .text after :: rest.str

end

/-! ### The table -/

/-- `expr::defs`, and `expr::defs::scoped` where `inherited` are the declarations of its parents.
An expression that is counted has the number of its place in the list. -/
structure Defs where
  before : String
  expressions : List (Term × ℕ)
  declarations : List Decl
  undefined : List Term
  inherited : List Decl

namespace Defs

/-- The constructors of `expr::defs`, with the prefix of the names. -/
def empty (before : String) : Defs := ⟨before ++ "f", [], [], [], []⟩

/-- `expr::defs::has_decl`. -/
def hasDecl (d : Defs) (v : Decl) : Prop := v ∈ d.declarations ∨ v ∈ d.inherited

instance (d : Defs) (v : Decl) : Decidable (d.hasDecl v) :=
  inferInstanceAs (Decidable (v ∈ d.declarations ∨ v ∈ d.inherited))

/-- The constructor of `expr::defs::scoped`. -/
def scopedDefs (before : String) (parent : Defs) : Defs :=
  { empty before with inherited := parent.declarations ++ parent.inherited }

/-- `expr::defs::add_expr`. -/
def addExpr (d : Defs) (e : Term) : Defs :=
  if e ∈ d.expressions.map Prod.fst then
    { d with expressions := d.expressions.map fun x => if x.1 = e then (x.1, x.2 + 1) else x }
  else { d with expressions := d.expressions ++ [(e, 1)] }

/-- `expr::defs::has_expr`. -/
def hasExpr (d : Defs) (e : Term) : Prop := e ∈ d.expressions.map Prod.fst

instance (d : Defs) (e : Term) : Decidable (d.hasExpr e) :=
  inferInstanceAs (Decidable (e ∈ d.expressions.map Prod.fst))

/-- `expr::defs::add_decl`. -/
def addDecl (d : Defs) (v : Decl) : Defs :=
  if d.hasDecl v then d else { d with declarations := d.declarations ++ [v] }

/-- `expr::defs::add_undef`. -/
def addUndef (d : Defs) (e : Term) : Defs := { d with undefined := d.undefined.insert e }

/-- The name of the expression with a number. -/
def nameOf (d : Defs) (n : ℕ) : String := d.before ++ toString n

/-- `expr::defs::defines`. -/
def defines (d : Defs) (e : Term) : Option String :=
  match d.expressions.findIdx? fun x => x.1 = e with
  | none => none
  | some n => if (d.expressions.map Prod.snd).getD n 0 < 2 then none else some (d.nameOf n)

/-- `expr::defs::decls`: in the order of the addresses. -/
def decls (d : Defs) : List Decl := d.declarations.insertionSort fun v w => v.addr ≤ w.addr

/-- The expressions from a number on that have a name. -/
def defFrom : ℕ → List (Term × ℕ) → List (ℕ × Term)
  | _, [] => []
  | n, (e, count) :: l => if 2 ≤ count then (n, e) :: defFrom (n + 1) l else defFrom (n + 1) l

/-- `expr::defs::def`. -/
def defList (d : Defs) : List (ℕ × Term) := defFrom 0 d.expressions

end Defs

mutual

/-- `expr::defs(d)`: what is met is counted. -/
def Term.defs : Term → Defs → Defs
  | .literal _, d => d
  | .variable v, d => d.addDecl v
  | .node kind addr type head args, d =>
    match kind with
    | .shared =>
      let e := Term.node kind addr type head args
      (if d.hasExpr e then d else args.defs d).addExpr e
    | .passing => args.defs d
    | .undefined => args.defs (d.addUndef (.node kind addr type head args))
    | .pointer | .pointerBase => d

@[inherit_doc Term.defs]
def Args.defs : Args → Defs → Defs
  | .nil, d => d
  | .cons _ e _ rest, d => rest.defs (e.defs d)

end

mutual

/-- `expr::write`, with `use_f`. -/
def Term.write (d : Defs) : Term → Bool → Text
  | .literal text, _ => [.text text]
  | .variable v, _ => [.symbol v.declname]
  | .node kind addr type head args, useF =>
    let e := Term.node kind addr type head args
    match kind with
    | .shared =>
      match if useF then d.defines e else none with
      | some name => [.symbol name]
      | none => .text head :: args.write d
    | .passing | .undefined | .pointer => .text head :: args.write d
    | .pointerBase => e.str

@[inherit_doc Term.write]
def Args.write (d : Defs) : Args → Text
  | .nil => []
  | .cons before e after rest => .text before :: e.write d true ++ .text after :: rest.write d

end

namespace Defs

/-- `sat_checker::declare` for each of the declarations. -/
def declareCommands (d : Defs) : List Command := d.decls.map fun v => .declare v.declname v.type

/-- `sat_checker::define` for each of the definitions. -/
def defineCommands (d : Defs) : List Command :=
  d.defList.map fun x => .define (d.nameOf x.1) x.2.type (x.2.write d false)

end Defs

/-! ### What is met -/

mutual

/-- No pointer hangs on the object. -/
def Term.pointerFree : Term → Bool
  | .literal _ | .variable _ => true
  | .node kind _ _ _ args =>
    match kind with
    | .pointer | .pointerBase => false
    | .shared | .passing | .undefined => args.pointerFree

@[inherit_doc Term.pointerFree]
def Args.pointerFree : Args → Bool
  | .nil => true
  | .cons _ e _ rest => e.pointerFree && rest.pointerFree

end

mutual

/-- The objects that are counted, in the order in which they get their numbers. -/
def Term.counted : Term → List Term
  | .literal _ | .variable _ => []
  | .node kind addr type head args =>
    match kind with
    | .shared => args.counted ++ [.node kind addr type head args]
    | .passing | .undefined => args.counted
    | .pointer | .pointerBase => []

@[inherit_doc Term.counted]
def Args.counted : Args → List Term
  | .nil => []
  | .cons _ e _ rest => e.counted ++ rest.counted

end

mutual

/-- The declarations that are met. -/
def Term.vars : Term → List Decl
  | .literal _ => []
  | .variable v => [v]
  | .node _ _ _ _ args => args.vars

@[inherit_doc Term.vars]
def Args.vars : Args → List Decl
  | .nil => []
  | .cons _ e _ rest => e.vars ++ rest.vars

end

/-- The objects that are counted below this one. -/
def Term.inner : Term → List Term
  | .literal _ | .variable _ => []
  | .node _ _ _ _ args => args.counted

namespace Defs

/-- The expressions that have been counted, by their numbers. -/
def keys (d : Defs) : List Term := d.expressions.map Prod.fst

/-- The table as it is after expressions without pointers. -/
structure Valid (d : Defs) : Prop where
  nodup : d.keys.Nodup
  shared : ∀ e ∈ d.keys, ∃ addr type head args, e = .node .shared addr type head args
  pointerFree : ∀ e ∈ d.keys, e.pointerFree = true
  /-- What is counted below an expression has a smaller number. -/
  ordered : ∀ pre e post, d.keys = pre ++ e :: post → ∀ c ∈ e.inner, c ∈ pre
  vars : ∀ e ∈ d.keys, ∀ v ∈ e.vars, d.hasDecl v
  declarations_nodup : d.declarations.Nodup
  new : ∀ v ∈ d.declarations, v ∉ d.inherited

/-- More has been counted. -/
structure Extends (d d' : Defs) : Prop where
  before : d'.before = d.before
  inherited : d'.inherited = d.inherited
  keys : d.keys <+: d'.keys
  declarations : d.declarations ⊆ d'.declarations

variable {d d' d'' : Defs}

theorem Extends.refl (d : Defs) : Extends d d := ⟨rfl, rfl, List.prefix_refl _, List.Subset.refl _⟩

theorem Extends.trans (h : Extends d d') (h' : Extends d' d'') : Extends d d'' :=
  ⟨h'.before.trans h.before, h'.inherited.trans h.inherited, h.keys.trans h'.keys,
    List.Subset.trans h.declarations h'.declarations⟩

theorem Extends.hasDecl (h : Extends d d') {v : Decl} (hv : d.hasDecl v) : d'.hasDecl v :=
  hv.imp (fun hv => h.declarations hv) fun hv => h.inherited.symm ▸ hv

theorem Extends.mem (h : Extends d d') {e : Term} (he : e ∈ d.keys) : e ∈ d'.keys := h.keys.subset he

theorem keys_addExpr (d : Defs) (e : Term) :
    (d.addExpr e).keys = if e ∈ d.keys then d.keys else d.keys ++ [e] := by
  unfold addExpr keys
  split
  · rw [List.map_map]
    refine List.map_congr_left fun x _ => ?_
    by_cases hx : x.1 = e <;> simp [hx]
  · simp

theorem extends_addExpr (d : Defs) (e : Term) : Extends d (d.addExpr e) := by
  refine ⟨?_, ?_, ?_, ?_⟩
  · unfold addExpr
    split <;> rfl
  · unfold addExpr
    split <;> rfl
  · rw [keys_addExpr]
    split
    · exact List.prefix_refl _
    · exact List.prefix_append _ _
  · unfold addExpr
    split <;> exact List.Subset.refl _

theorem declarations_addExpr (d : Defs) (e : Term) :
    (d.addExpr e).declarations = d.declarations := by
  unfold addExpr
  split <;> rfl

theorem extends_addDecl (d : Defs) (v : Decl) : Extends d (d.addDecl v) := by
  unfold addDecl
  split
  · exact .refl d
  · exact ⟨rfl, rfl, List.prefix_refl _, List.subset_append_left _ _⟩

theorem hasDecl_addDecl (d : Defs) (v : Decl) : (d.addDecl v).hasDecl v := by
  unfold addDecl
  split
  next h => exact h
  · exact .inl (by simp)

/-- An expression is counted when all below it has been. -/
theorem Valid.addExpr (h : Valid d) {addr : ℕ} {type head : String} {args : Args}
    (hpf : args.pointerFree = true) (hin : ∀ c ∈ args.counted, c ∈ d.keys)
    (hvars : ∀ v ∈ args.vars, d.hasDecl v) :
    Valid (d.addExpr (.node .shared addr type head args)) := by
  have hext := extends_addExpr d (.node .shared addr type head args)
  have hdecl := declarations_addExpr d (.node .shared addr type head args)
  have hmem : ∀ e ∈ (d.addExpr (.node .shared addr type head args)).keys,
      e ∈ d.keys ∨ e = .node .shared addr type head args := by
    intro e he
    rw [keys_addExpr] at he
    split at he
    · exact .inl he
    · simpa using he
  refine ⟨?_, ?_, ?_, ?_, ?_, hdecl ▸ h.declarations_nodup, ?_⟩
  · rw [keys_addExpr]
    split
    · exact h.nodup
    next hnew => exact List.Nodup.append h.nodup (List.nodup_singleton _) (by simpa using hnew)
  · intro e he
    rcases hmem e he with he | rfl
    · exact h.shared e he
    · exact ⟨addr, type, head, args, rfl⟩
  · intro e he
    rcases hmem e he with he | rfl
    · exact h.pointerFree e he
    · simpa [Term.pointerFree] using hpf
  · intro pre e post heq c hc
    rw [keys_addExpr] at heq
    split at heq
    · exact h.ordered pre e post heq c hc
    · rcases List.append_eq_append_iff.mp heq with ⟨l, hpre, hpost⟩ | ⟨l, hkeys, hpost⟩
      · cases l with
        | nil =>
          obtain ⟨rfl, -⟩ := List.cons.inj hpost
          rw [hpre, List.append_nil]
          exact hin c hc
        | cons x l => simp at hpost
      · cases l with
        | nil =>
          obtain ⟨rfl, -⟩ := List.cons.inj hpost
          rw [List.append_nil] at hkeys
          exact hkeys ▸ hin c hc
        | cons x l =>
          obtain ⟨rfl, -⟩ := List.cons.inj hpost
          exact h.ordered pre e l hkeys c hc
  · intro e he v hv
    rcases hmem e he with he | rfl
    · exact hext.hasDecl (h.vars e he v hv)
    · exact hext.hasDecl (hvars v hv)
  · rw [hdecl, hext.inherited]
    exact h.new

theorem Valid.addDecl (h : Valid d) (v : Decl) : Valid (d.addDecl v) := by
  unfold Defs.addDecl
  split
  · exact h
  next hnew =>
    unfold hasDecl at hnew
    rw [not_or] at hnew
    refine ⟨h.nodup, h.shared, h.pointerFree, h.ordered, ?_, ?_, ?_⟩
    · exact fun e he w hw => (h.vars e he w hw).imp_left (List.mem_append_left _)
    · exact List.Nodup.append h.declarations_nodup (List.nodup_singleton _) (by simpa using hnew.1)
    · intro w hw
      rcases List.mem_append.mp hw with hw | hw
      · exact h.new w hw
      · exact List.mem_singleton.mp hw ▸ hnew.2

theorem Valid.addUndef (h : Valid d) (e : Term) : Valid (d.addUndef e) :=
  ⟨h.nodup, h.shared, h.pointerFree, h.ordered, h.vars, h.declarations_nodup, h.new⟩

/-- What a traversal that meets `cs` and `vs` does to the table. -/
structure Visits (cs : List Term) (vs : List Decl) (d d' : Defs) : Prop where
  valid : Valid d'
  more : Extends d d'
  counted : ∀ c ∈ cs, c ∈ d'.keys
  vars : ∀ v ∈ vs, d'.hasDecl v
  declarations : ∀ v ∈ d'.declarations, v ∈ d.declarations ∨ v ∈ vs

theorem Visits.nil (h : Valid d) : Visits [] [] d d :=
  ⟨h, .refl d, by simp, by simp, fun _ => .inl⟩

theorem Visits.append {cs cs' : List Term} {vs vs' : List Decl} (h : Visits cs vs d d')
    (h' : Visits cs' vs' d' d'') : Visits (cs ++ cs') (vs ++ vs') d d'' where
  valid := h'.valid
  more := h.more.trans h'.more
  counted c hc := by
    rcases List.mem_append.mp hc with hc | hc
    · exact h'.more.mem (h.counted c hc)
    · exact h'.counted c hc
  vars v hv := by
    rcases List.mem_append.mp hv with hv | hv
    · exact h'.more.hasDecl (h.vars v hv)
    · exact h'.vars v hv
  declarations v hv := by
    rcases h'.declarations v hv with hv | hv
    · exact (h.declarations v hv).imp_right (List.mem_append_left _)
    · exact .inr (List.mem_append_right _ hv)

/-- An expression that is met again has all below it in the table. -/
theorem Visits.again (h : Valid d) {addr : ℕ} {type head : String} {args : Args}
    (he : d.hasExpr (.node .shared addr type head args)) : Visits args.counted args.vars d d := by
  have hmem : Term.node .shared addr type head args ∈ d.keys := he
  refine ⟨h, .refl d, fun c hc => ?_, fun v hv => h.vars _ hmem v hv, fun _ => .inl⟩
  obtain ⟨pre, post, heq⟩ := List.append_of_mem hmem
  rw [heq]
  exact List.mem_append_left _ (h.ordered pre _ post heq c hc)

/-- An expression is counted after all below it. -/
theorem Visits.addExpr {addr : ℕ} {type head : String} {args : Args}
    (h : Visits args.counted args.vars d d') (hpf : args.pointerFree = true) :
    Visits (args.counted ++ [.node .shared addr type head args]) args.vars d
      (d'.addExpr (.node .shared addr type head args)) := by
  have hext := extends_addExpr d' (.node .shared addr type head args)
  refine ⟨h.valid.addExpr hpf h.counted h.vars, h.more.trans hext, fun c hc => ?_,
    fun v hv => hext.hasDecl (h.vars v hv), fun v hv => ?_⟩
  · rcases List.mem_append.mp hc with hc | hc
    · exact hext.mem (h.counted c hc)
    · rw [List.mem_singleton.mp hc, keys_addExpr]
      split
      next hmem => exact hmem
      · simp
  · rw [declarations_addExpr] at hv
    exact h.declarations v hv

end Defs

mutual

/-- **The traversal of an expression.** -/
theorem Term.visits_defs {d : Defs} (h : d.Valid) :
    ∀ e : Term, e.pointerFree = true → Defs.Visits e.counted e.vars d (e.defs d)
  | .literal _, _ => .nil h
  | .variable v, _ => by
    refine ⟨h.addDecl v, Defs.extends_addDecl d v, by simp [Term.counted], ?_, ?_⟩
    · intro w hw
      rw [Term.vars, List.mem_singleton] at hw
      exact hw ▸ Defs.hasDecl_addDecl d v
    · intro w hw
      rw [Term.defs, Defs.addDecl] at hw
      split at hw
      · exact .inl hw
      · simpa [Term.vars] using hw
  | .node kind addr type head args, hpf => by
    cases kind with
    | shared =>
      have hargs : args.pointerFree = true := by simpa [Term.pointerFree] using hpf
      have hbelow : Defs.Visits args.counted args.vars d
          (if d.hasExpr (.node .shared addr type head args) then d else args.defs d) := by
        split
        next he => exact .again h he
        · exact Args.visits_defs h args hargs
      have hall : Defs.Visits (args.counted ++ [.node .shared addr type head args]) args.vars d _ :=
        hbelow.addExpr hargs
      simpa only [Term.counted, Term.vars, Term.defs] using hall
    | passing =>
      have hargs : args.pointerFree = true := by simpa [Term.pointerFree] using hpf
      simpa only [Term.counted, Term.vars, Term.defs] using Args.visits_defs h args hargs
    | undefined =>
      have hargs : args.pointerFree = true := by simpa [Term.pointerFree] using hpf
      have hundef := Args.visits_defs (h.addUndef (.node .undefined addr type head args)) args hargs
      simp only [Term.counted, Term.vars, Term.defs]
      exact ⟨hundef.valid, ⟨hundef.more.before, hundef.more.inherited, hundef.more.keys,
        hundef.more.declarations⟩, hundef.counted, hundef.vars, hundef.declarations⟩
    | pointer => simp [Term.pointerFree] at hpf
    | pointerBase => simp [Term.pointerFree] at hpf

@[inherit_doc Term.visits_defs]
theorem Args.visits_defs {d : Defs} (h : d.Valid) :
    ∀ args : Args, args.pointerFree = true → Defs.Visits args.counted args.vars d (args.defs d)
  | .nil, _ => .nil h
  | .cons _ e _ rest, hpf => by
    rw [Args.pointerFree, Bool.and_eq_true] at hpf
    have he := Term.visits_defs h e hpf.1
    have hrest := Args.visits_defs he.valid rest hpf.2
    simpa only [Args.counted, Args.vars, Args.defs] using he.append hrest

end

/-! ### What is written -/

/-- The names of declarations and of expressions mean what they should. -/
structure Means (d : Defs) (e : Smt.Env) (cs : List Term) (vs : List Decl) : Prop where
  defined : ∀ c ∈ cs, ∀ name, d.defines c = some name → e.lookup name = some (some c.str)
  declared : ∀ v ∈ vs, e.lookup v.declname = some none

theorem Means.of_append_left {d : Defs} {e : Smt.Env} {cs cs' : List Term} {vs vs' : List Decl}
    (h : Means d e (cs ++ cs') (vs ++ vs')) : Means d e cs vs :=
  ⟨fun c hc => h.defined c (List.mem_append_left _ hc),
    fun v hv => h.declared v (List.mem_append_left _ hv)⟩

theorem Means.of_append_right {d : Defs} {e : Smt.Env} {cs cs' : List Term} {vs vs' : List Decl}
    (h : Means d e (cs ++ cs') (vs ++ vs')) : Means d e cs' vs' :=
  ⟨fun c hc => h.defined c (List.mem_append_right _ hc),
    fun v hv => h.declared v (List.mem_append_right _ hv)⟩

/-- A text uses names that are alive only, and it stands for another text. -/
def Stands (e : Smt.Env) (t t' : Text) : Prop := Closed e t ∧ expand e t = t'

section

variable {e : Smt.Env}

theorem mem_of_lookup {name : String} {body : Option Text} (h : e.lookup name = some body) :
    name ∈ e.map Prod.fst := by
  induction e with
  | nil => exact nomatch h
  | cons x e ih =>
    obtain ⟨name', body'⟩ := x
    rw [List.lookup_cons] at h
    split at h
    next heq => exact (beq_iff_eq.mp heq) ▸ List.mem_cons_self
    · exact List.mem_cons_of_mem _ (ih h)

theorem stands_nil : Stands e [] [] := ⟨by simp [Closed], rfl⟩

theorem Stands.append {t t' u u' : Text} (h : Stands e t t') (h' : Stands e u u') :
    Stands e (t ++ u) (t' ++ u') := by
  refine ⟨fun name hname => ?_, by rw [expand_append, h.2, h'.2]⟩
  rw [symbols_append] at hname
  exact (List.mem_append.mp hname).elim (h.1 name) (h'.1 name)

theorem Stands.text {t t' : Text} (h : Stands e t t') (s : String) :
    Stands e (.text s :: t) (.text s :: t') :=
  ⟨h.1, by rw [expand_text, h.2]⟩

theorem stands_defined {name : String} {body : Text} (h : e.lookup name = some (some body)) :
    Stands e [.symbol name] body :=
  ⟨by simpa [Closed] using mem_of_lookup h, expand_defined h⟩

theorem stands_declared {name : String} (h : e.lookup name = some none) :
    Stands e [.symbol name] [.symbol name] :=
  ⟨by simpa [Closed] using mem_of_lookup h, expand_declared (by rw [h]; rfl)⟩

end

mutual

/-- **What is written for an expression stands for it.** -/
theorem Term.stands_write {d : Defs} {e : Smt.Env} : ∀ t : Term, t.pointerFree = true →
    Means d e t.counted t.vars → Stands e (t.write d true) t.str
  | .literal text, _, _ => stands_nil.text text
  | .variable v, _, hm => stands_declared (hm.declared v (by simp [Term.vars]))
  | .node kind addr type head args, hpf, hm => by
    cases kind with
    | shared =>
      have hargs : args.pointerFree = true := by simpa [Term.pointerFree] using hpf
      have hm' : Means d e args.counted args.vars :=
        ⟨fun c hc => hm.defined c (by simp [Term.counted, hc]), hm.declared⟩
      have hself : Term.node .shared addr type head args ∈
          (Term.node .shared addr type head args).counted := by simp [Term.counted]
      simp only [Term.write, if_true]
      split
      next name hname => exact stands_defined (hm.defined _ hself name hname)
      · exact (Args.stands_write args hargs hm').text head
    | passing =>
      have hargs : args.pointerFree = true := by simpa [Term.pointerFree] using hpf
      exact (Args.stands_write args hargs hm).text head
    | undefined =>
      have hargs : args.pointerFree = true := by simpa [Term.pointerFree] using hpf
      exact (Args.stands_write args hargs hm).text head
    | pointer => simp [Term.pointerFree] at hpf
    | pointerBase => simp [Term.pointerFree] at hpf

@[inherit_doc Term.stands_write]
theorem Args.stands_write {d : Defs} {e : Smt.Env} : ∀ args : Args, args.pointerFree = true →
    Means d e args.counted args.vars → Stands e (args.write d) args.str
  | .nil, _, _ => stands_nil
  | .cons before t after rest, hpf, hm => by
    rw [Args.pointerFree, Bool.and_eq_true] at hpf
    have ht := Term.stands_write t hpf.1 hm.of_append_left
    have hrest := Args.stands_write rest hpf.2 hm.of_append_right
    simp only [Args.write, Args.str, List.cons_append]
    exact (ht.append (hrest.text after)).text before

end

/-- The body of a definition stands for the expression, when the names below it are known. -/
theorem Term.stands_body {d : Defs} {e : Smt.Env} {addr : ℕ} {type head : String} {args : Args}
    (hpf : args.pointerFree = true) (hm : Means d e args.counted args.vars) :
    Stands e ((Term.node .shared addr type head args).write d false)
      (Term.node .shared addr type head args).str := by
  simp only [Term.write, Bool.false_eq_true, if_false]
  exact (Args.stands_write args hpf hm).text head

/-! ### The definitions -/

namespace Defs

variable {d : Defs}

theorem toDigits_injective : Function.Injective (Nat.toDigits 10) := by
  intro n m h
  rw [← @Nat.ofDigitChars_ten_toDigits n, h, Nat.ofDigitChars_ten_toDigits]

theorem toString_injective : Function.Injective (toString : ℕ → String) := by
  intro n m h
  apply toDigits_injective
  rw [← Nat.toList_repr, ← Nat.toList_repr]
  exact congrArg String.toList h

theorem nameOf_injective (d : Defs) : Function.Injective d.nameOf := by
  intro n m h
  exact toString_injective (by simpa [nameOf] using h)

/-- The name of an expression comes from its number, if it has been met twice. -/
theorem defines_of_append (h : d.keys.Nodup) {pre post : List (Term × ℕ)} {e : Term} {count : ℕ}
    (heq : d.expressions = pre ++ (e, count) :: post) :
    d.defines e = if count < 2 then none else some (d.nameOf pre.length) := by
  have hpre : pre.findIdx? (fun x => decide (x.1 = e)) = none := by
    refine List.findIdx?_eq_none_iff.mpr fun x hx => ?_
    rw [keys, heq, List.map_append, List.map_cons] at h
    have hdisj := List.disjoint_of_nodup_append h (List.mem_map_of_mem hx)
    exact decide_eq_false fun hxe => hdisj (hxe ▸ List.mem_cons_self)
  have hidx : d.expressions.findIdx? (fun x => decide (x.1 = e)) = some pre.length := by
    rw [heq, List.findIdx?_append, hpre]
    simp [List.findIdx?_cons]
  unfold defines
  rw [hidx]
  simp [heq]

/-- The scopes while the definitions are read. -/
structure Reading (d : Defs) (pre : List (Term × ℕ)) (e : Smt.Env) : Prop where
  means : ∀ vs, (∀ v ∈ vs, d.hasDecl v) → Means d e (pre.map Prod.fst) vs
  fresh : ∀ n, pre.length ≤ n → d.nameOf n ∉ e.map Prod.fst

theorem Valid.args_means (h : Valid d) {pre post : List (Term × ℕ)} {count : ℕ} {e : Smt.Env}
    {addr : ℕ} {type head : String} {args : Args}
    (heq : d.expressions = pre ++ (.node .shared addr type head args, count) :: post)
    (hr : Reading d pre e) : Means d e args.counted args.vars := by
  have hkeys : d.keys = pre.map Prod.fst ++ .node .shared addr type head args :: post.map Prod.fst := by
    rw [keys, heq, List.map_append, List.map_cons]
  have hmem : Term.node .shared addr type head args ∈ d.keys := by simp [hkeys]
  have hm := hr.means args.vars fun v hv => h.vars _ hmem v hv
  exact ⟨fun c hc => hm.defined c (h.ordered _ _ _ hkeys c hc), hm.declared⟩

/-- An expression that has no name is read over. -/
theorem Reading.skip {pre : List (Term × ℕ)} {e : Term} {count : ℕ} {en : Smt.Env} (hr : Reading d pre en)
    (hnone : d.defines e = none) : Reading d (pre ++ [(e, count)]) en := by
  refine ⟨fun vs hvs => ⟨fun c hc name hname => ?_, (hr.means vs hvs).declared⟩, fun n hn => ?_⟩
  · rw [List.map_append, List.mem_append] at hc
    rcases hc with hc | hc
    · exact (hr.means vs hvs).defined c hc name hname
    · rw [List.map_singleton, List.mem_singleton] at hc
      rw [hc, hnone] at hname
      exact nomatch hname
  · rw [List.length_append] at hn
    exact hr.fresh n (by omega)

/-- An expression is defined. -/
theorem Reading.define {pre : List (Term × ℕ)} {e : Term} {count : ℕ} {en : Smt.Env} (hr : Reading d pre en)
    (hname : d.defines e = some (d.nameOf pre.length)) :
    Reading d (pre ++ [(e, count)]) ((d.nameOf pre.length, some e.str) :: en) := by
  have hfresh := hr.fresh pre.length le_rfl
  have hold : ∀ name body, en.lookup name = some body →
      ((d.nameOf pre.length, some e.str) :: en).lookup name = some body := by
    intro name body hlook
    have hne : name ≠ d.nameOf pre.length := fun heq => hfresh (heq ▸ mem_of_lookup hlook)
    rw [List.lookup_cons, beq_eq_false_iff_ne.mpr hne]
    exact hlook
  refine ⟨fun vs hvs => ⟨fun c hc name hc' => ?_, fun v hv => ?_⟩, fun n hn => ?_⟩
  · rw [List.map_append, List.mem_append] at hc
    rcases hc with hc | hc
    · exact hold _ _ ((hr.means vs hvs).defined c hc name hc')
    · rw [List.map_singleton, List.mem_singleton] at hc
      obtain rfl : c = e := hc
      obtain rfl := Option.some.inj (hname.symm.trans hc')
      exact List.lookup_cons_self
  · exact hold _ _ ((hr.means vs hvs).declared v hv)
  · rw [List.length_append, List.length_singleton] at hn
    rw [List.map_cons, List.mem_cons, not_or]
    refine ⟨fun heq => ?_, hr.fresh n (by omega)⟩
    have := d.nameOf_injective heq
    omega

/-- **The definitions can be read in order.** -/
theorem run_defFrom (h : Valid d) {suf pre : List (Term × ℕ)} (heq : d.expressions = pre ++ suf)
    {sc : Scope} {st : Scopes} (hr : Reading d pre (env (sc :: st))) :
    ∃ sc', run ((defFrom pre.length suf).map fun x =>
          .define (d.nameOf x.1) x.2.type (x.2.write d false)) (sc :: st) = some (sc' :: st) ∧
      sc'.asserted = sc.asserted ∧ Reading d d.expressions (env (sc' :: st)) ∧
      ∀ name ∈ (env (sc' :: st)).map Prod.fst,
        name ∈ (env (sc :: st)).map Prod.fst ∨ ∃ n, name = d.nameOf n := by
  induction suf generalizing pre sc with
  | nil =>
    rw [List.append_nil] at heq
    exact ⟨sc, rfl, rfl, heq ▸ hr, fun name => .inl⟩
  | cons x suf ih =>
    obtain ⟨e, count⟩ := x
    have heq' : d.expressions = (pre ++ [(e, count)]) ++ suf := by
      rw [heq, List.append_assoc, List.singleton_append]
    have hdef := defines_of_append h.nodup heq
    rw [defFrom]
    by_cases hcount : 2 ≤ count
    · rw [if_pos hcount, List.map_cons, run_cons]
      obtain ⟨addr, type, head, args, rfl⟩ := h.shared e (by simp [keys, heq])
      have hpf := h.pointerFree (.node .shared addr type head args) (by simp [keys, heq])
      have hbody : Stands _ ((Term.node .shared addr type head args).write d false) _ :=
        Term.stands_body (by simpa [Term.pointerFree] using hpf) (h.args_means heq hr)
      have hfresh := hr.fresh pre.length le_rfl
      rw [step_define hbody.1 hfresh, hbody.2, Option.bind_some]
      rw [if_neg (by omega)] at hdef
      have hr' : Reading d (pre ++ [(.node .shared addr type head args, count)])
          (env ({ sc with names := (d.nameOf pre.length,
            some (Term.node .shared addr type head args).str) :: sc.names } :: st)) := hr.define hdef
      obtain ⟨sc', hrun, hass, hr'', hnames⟩ := ih heq' hr'
      rw [List.length_append, List.length_singleton] at hrun
      refine ⟨sc', hrun, hass, hr'', fun name hname => ?_⟩
      rcases hnames name hname with hn | hn
      · simp only [env_cons, List.cons_append, List.map_cons, List.mem_cons] at hn
        exact hn.elim (fun heq => .inr ⟨_, heq⟩) .inl
      · exact .inr hn
    · rw [if_neg hcount]
      rw [if_pos (by omega)] at hdef
      obtain ⟨sc', hrun, hass, hr'', hnames⟩ := ih heq' (hr.skip hdef)
      rw [List.length_append, List.length_singleton] at hrun
      exact ⟨sc', hrun, hass, hr'', hnames⟩

theorem decls_perm (d : Defs) : d.decls.Perm d.declarations := List.perm_insertionSort _ _

/-- Names that are declared have no other meaning. -/
theorem lookup_declared {l : List Decl} {e : Smt.Env} {v : Decl} (hv : v ∈ l) :
    ((l.map fun v : Decl => (v.declname, none)) ++ e).lookup v.declname = some none := by
  induction l with
  | nil => exact nomatch hv
  | cons w l ih =>
    rw [List.map_cons, List.cons_append, List.lookup_cons]
    split
    · rfl
    next hne =>
      have hvw : v ≠ w := by
        rintro rfl
        simp at hne
      exact ih ((List.mem_cons.mp hv).resolve_left hvw)

theorem lookup_append_of_notMem {α : Type*} {l e : List (String × α)} {name : String}
    (h : name ∉ l.map Prod.fst) : (l ++ e).lookup name = e.lookup name := by
  induction l with
  | nil => rfl
  | cons x l ih =>
    obtain ⟨name', body⟩ := x
    rw [List.map_cons, List.mem_cons, not_or] at h
    rw [List.cons_append, List.lookup_cons, beq_eq_false_iff_ne.mpr h.1]
    exact ih h.2

/-- **A table can be read**: what it declares and defines has not been introduced before. -/
theorem run_table (h : Valid d) (sc : Scope) (st : Scopes)
    (hknown : ∀ v ∈ d.inherited, (env (sc :: st)).lookup v.declname = some none)
    (hnodup : (d.declarations.map Decl.declname).Nodup)
    (hnew : ∀ v ∈ d.declarations, v.declname ∉ (env (sc :: st)).map Prod.fst)
    (hname : ∀ n, d.nameOf n ∉ (env (sc :: st)).map Prod.fst ∧
      ∀ v ∈ d.declarations, v.declname ≠ d.nameOf n) :
    ∃ sc', run (d.declareCommands ++ d.defineCommands) (sc :: st) = some (sc' :: st) ∧
      sc'.asserted = sc.asserted ∧ Reading d d.expressions (env (sc' :: st)) ∧
      ∀ name ∈ (env (sc' :: st)).map Prod.fst, name ∈ (env (sc :: st)).map Prod.fst ∨
        (∃ v ∈ d.declarations, name = v.declname) ∨ ∃ n, name = d.nameOf n := by
  have hmem : ∀ v, v ∈ d.decls ↔ v ∈ d.declarations := fun v => d.decls_perm.mem_iff
  have hdecl := run_declare Decl.declname Decl.type d.decls sc st
    ((d.decls_perm.map Decl.declname).nodup_iff.mpr hnodup) fun v hv => hnew v ((hmem v).mp hv)
  set names := (d.decls.map fun v => (v.declname, (none : Option Text))).reverse with hnames
  have henv : env ({ sc with names := names ++ sc.names } :: st) = names ++ env (sc :: st) :=
    List.append_assoc _ _ _
  have hmemn : ∀ name, name ∈ names.map Prod.fst ↔ ∃ v ∈ d.declarations, name = v.declname := by
    intro name
    simp only [hnames, List.map_reverse, List.mem_reverse, List.map_map, List.mem_map,
      Function.comp_apply, hmem, @eq_comm _ name]
  have hr : Reading d [] (env ({ sc with names := names ++ sc.names } :: st)) := by
    rw [henv]
    refine ⟨fun vs hvs => ⟨fun c hc => (nomatch hc), fun v hv => ?_⟩, fun n _ => ?_⟩
    · rcases hvs v hv with hv | hv
      · rw [hnames, ← List.map_reverse]
        exact lookup_declared (List.mem_reverse.mpr ((hmem v).mpr hv))
      · have hnot : v.declname ∉ names.map Prod.fst := by
          rw [hmemn]
          rintro ⟨w, hw, heq⟩
          exact hnew w hw (heq ▸ mem_of_lookup (hknown v hv))
        rw [lookup_append_of_notMem hnot]
        exact hknown v hv
    · rw [List.map_append, List.mem_append, hmemn, not_or]
      exact ⟨fun ⟨v, hv, heq⟩ => (hname n).2 v hv heq.symm, (hname n).1⟩
  obtain ⟨sc', hrun, hass, hr', hall⟩ := run_defFrom h (List.nil_append _).symm hr
  refine ⟨sc', ?_, hass, hr', fun name hn => ?_⟩
  · rw [run_append]
    exact (congrArg (Option.bind · _) hdecl).trans hrun
  · rcases hall name hn with hn | hn
    · rw [henv, List.map_append, List.mem_append, hmemn] at hn
      rcases hn with hn | hn
      · exact .inr (.inl hn)
      · exact .inl hn
    · exact .inr (.inr hn)

/-- Only what has been counted has a name. -/
theorem mem_keys_of_defines {e : Term} {name : String} (h : d.defines e = some name) :
    e ∈ d.keys := by
  unfold defines at h
  split at h
  · cases h
  next n hn =>
    have hany := List.findIdx?_isSome.symm.trans (Option.isSome_of_eq_some hn)
    obtain ⟨x, hx, heq⟩ := List.any_eq_true.mp hany
    exact List.mem_map.mpr ⟨x, hx, of_decide_eq_true heq⟩

/-- What is written with a table that has been read stands for the expression. -/
theorem Reading.stands {en : Smt.Env} (hr : Reading d d.expressions en) {t : Term}
    (hpf : t.pointerFree = true) (hvars : ∀ v ∈ t.vars, d.hasDecl v) :
    Stands en (t.write d true) t.str := by
  have hm := hr.means t.vars hvars
  exact t.stands_write hpf
    ⟨fun c _ name hname => hm.defined c (mem_keys_of_defines hname) name hname, hm.declared⟩

theorem valid_empty (before : String) (inherited : List Decl) :
    Valid { empty before with inherited := inherited } :=
  ⟨List.nodup_nil, by simp [keys, empty], by simp [keys, empty], by simp [keys, empty],
    by simp [keys, empty], List.nodup_nil, by simp [empty]⟩

theorem variable_defs (v : Decl) (before : String) :
    (Term.variable v).defs (empty before) = { empty before with declarations := [v] } := by
  rw [Term.defs, addDecl, if_neg (by simp [hasDecl, empty])]
  rfl

theorem valid_scopedDefs (before : String) (parent : Defs) : Valid (scopedDefs before parent) :=
  valid_empty before _

end Defs

end NfpEstimator
