import Mathlib

/-!
# Scripts for a solver

A solver reads commands that declare names, define names as abbreviations and assert terms,
in scopes that are pushed and popped. A term is known by its text: pieces that stand for
themselves, and symbols.

`run` carries out a script. It gives up when a name is introduced that is still alive, when
a body or an assertion uses a symbol that has not been introduced, and when more scopes are
popped than have been pushed. What is asserted is kept with every abbreviation replaced by
its body (`expand`).
-/

namespace Smt

/-- A piece of the text of a term. -/
inductive Piece where
  | text (s : String)
  | symbol (name : String)
  deriving DecidableEq, Repr

/-- The text of a term. -/
abbrev Text := List Piece

/-- The symbols that occur in a text. -/
def symbols (t : Text) : List String :=
  t.filterMap fun
    | .text _ => none
    | .symbol name => some name

/-- The commands of a script. -/
inductive Command where
  | reset
  | push
  | pop (n : ℕ)
  | setOption (s : String)
  | declare (name type : String)
  | define (name type : String) (body : Text)
  | assert (t : Text) (label : Option String)
  | minimize (t : Text)
  | checkSat
  | getModel
  | getUnsatCore
  deriving DecidableEq, Repr

/-- The names that are alive; those that are defined with their body. -/
abbrev Env := List (String × Option Text)

/-- A scope: the names introduced and the texts asserted in it, the latest first. -/
structure Scope where
  names : Env
  asserted : List Text
  deriving DecidableEq, Repr

/-- The scopes that have been pushed, the innermost first, and the one that is always there. -/
abbrev Scopes := List Scope

/-- A scope that has just been pushed. -/
def emptyScope : Scope := ⟨[], []⟩

/-- The names of all scopes. -/
def env (st : Scopes) : Env := st.flatMap Scope.names

/-- What is asserted in some scope. -/
def asserted (st : Scopes) : List Text := st.flatMap Scope.asserted

/-- The text with bodies in place of the names that are defined. -/
def expand (env : Env) (t : Text) : Text :=
  t.flatMap fun
    | .text s => [.text s]
    | .symbol name => ((env.lookup name).join).getD [.symbol name]

/-- Every symbol has been introduced. -/
def Closed (env : Env) (t : Text) : Prop := ∀ name ∈ symbols t, name ∈ env.map Prod.fst

instance (env : Env) (t : Text) : Decidable (Closed env t) :=
  inferInstanceAs (Decidable (∀ name ∈ symbols t, name ∈ env.map Prod.fst))

/-- A name is introduced in the innermost scope. -/
def introduce (name : String) (body : Option Text) : Scopes → Option Scopes
  | [] => none
  | sc :: st =>
    if name ∈ (env (sc :: st)).map Prod.fst then none
    else some ({ sc with names := (name, body) :: sc.names } :: st)

/-- One command. -/
def step (st : Scopes) : Command → Option Scopes
  | .reset => some [emptyScope]
  | .push => some (emptyScope :: st)
  | .pop n => if n < st.length then some (st.drop n) else none
  | .declare name _ => introduce name none st
  | .define name _ body =>
    if Closed (env st) body then introduce name (some (expand (env st) body)) st else none
  | .assert t _ =>
    match st with
    | [] => none
    | sc :: rest =>
      if Closed (env st) t then
        some ({ sc with asserted := expand (env st) t :: sc.asserted } :: rest)
      else none
  | .minimize t => if Closed (env st) t then some st else none
  | .setOption _ | .checkSat | .getModel | .getUnsatCore => some st

/-- A script. -/
def run (cs : List Command) (st : Scopes) : Option Scopes := cs.foldlM step st

/-! ### Running a script -/

section

variable {st : Scopes} {e : Env}

@[simp] theorem run_nil (st : Scopes) : run [] st = some st := rfl

theorem run_cons (c : Command) (cs : List Command) (st : Scopes) :
    run (c :: cs) st = (step st c).bind (run cs) := rfl

theorem run_append (cs cs' : List Command) (st : Scopes) :
    run (cs ++ cs') st = (run cs st).bind (run cs') := by
  unfold run
  rw [List.foldlM_append]
  rfl

@[simp] theorem env_cons (sc : Scope) (st : Scopes) : env (sc :: st) = sc.names ++ env st := rfl

@[simp] theorem asserted_cons (sc : Scope) (st : Scopes) :
    asserted (sc :: st) = sc.asserted ++ asserted st := rfl

/-- The innermost scope gets a name that is not alive. -/
theorem introduce_cons {name : String} {body : Option Text} {sc : Scope} {st : Scopes}
    (h : name ∉ (env (sc :: st)).map Prod.fst) :
    introduce name body (sc :: st) = some ({ sc with names := (name, body) :: sc.names } :: st) :=
  if_neg h

theorem step_define {name type : String} {body : Text} {sc : Scope} {st : Scopes}
    (hclosed : Closed (env (sc :: st)) body) (h : name ∉ (env (sc :: st)).map Prod.fst) :
    step (sc :: st) (.define name type body) =
      some ({ sc with names := (name, some (expand (env (sc :: st)) body)) :: sc.names } :: st) := by
  rw [step, if_pos hclosed, introduce_cons h]

theorem step_assert {t : Text} {label : Option String} {sc : Scope} {st : Scopes}
    (hclosed : Closed (env (sc :: st)) t) : step (sc :: st) (.assert t label) =
      some ({ sc with asserted := expand (env (sc :: st)) t :: sc.asserted } :: st) :=
  if_pos hclosed

/-- Declaring names that are all new. -/
theorem run_declare {α : Type*} (name type : α → String) (l : List α) (sc : Scope) (st : Scopes)
    (hnodup : (l.map name).Nodup) (hnew : ∀ x ∈ l, name x ∉ (env (sc :: st)).map Prod.fst) :
    run (l.map fun x => .declare (name x) (type x)) (sc :: st) =
      some ({ sc with names := (l.map fun x => (name x, none)).reverse ++ sc.names } :: st) := by
  induction l generalizing sc with
  | nil => rfl
  | cons x l ih =>
    rw [List.map_cons, List.nodup_cons] at hnodup
    rw [List.map_cons, run_cons, step, introduce_cons (hnew x List.mem_cons_self), Option.bind_some,
      ih _ hnodup.2]
    · simp
    · intro y hy hmem
      have hne : name y ≠ name x := fun h => hnodup.1 (h ▸ List.mem_map_of_mem hy)
      refine hnew y (List.mem_cons_of_mem _ hy) ?_
      simpa [hne] using hmem

/-- Asserting texts that all stand for something. -/
theorem run_assert {α : Type*} (text text' : α → Text) (label : α → Option String) (l : List α)
    (sc : Scope) (st : Scopes) (h : ∀ x ∈ l, Closed (env (sc :: st)) (text x) ∧
      expand (env (sc :: st)) (text x) = text' x) :
    run (l.map fun x => .assert (text x) (label x)) (sc :: st) =
      some ({ sc with asserted := (l.map text').reverse ++ sc.asserted } :: st) := by
  induction l generalizing sc with
  | nil => rfl
  | cons x l ih =>
    obtain ⟨hclosed, hexpand⟩ := h x List.mem_cons_self
    rw [List.map_cons, run_cons, step_assert hclosed, hexpand, Option.bind_some,
      ih { sc with asserted := text' x :: sc.asserted } fun y hy => h y (List.mem_cons_of_mem x hy)]
    simp

end

/-! ### Symbols and expansion -/

section

variable (e : Env)

@[simp] theorem symbols_nil : symbols [] = [] := rfl

@[simp] theorem symbols_append (t t' : Text) : symbols (t ++ t') = symbols t ++ symbols t' :=
  List.filterMap_append

@[simp] theorem symbols_text (s : String) (t : Text) : symbols (.text s :: t) = symbols t := rfl

@[simp] theorem symbols_symbol (s : String) (t : Text) : symbols (.symbol s :: t) = s :: symbols t := rfl

@[simp] theorem expand_nil : expand e [] = [] := rfl

@[simp] theorem expand_append (t t' : Text) : expand e (t ++ t') = expand e t ++ expand e t' :=
  List.flatMap_append

@[simp] theorem expand_text (s : String) (t : Text) :
    expand e (.text s :: t) = .text s :: expand e t := rfl

theorem expand_symbol (s : String) (t : Text) :
    expand e (.symbol s :: t) = ((e.lookup s).join).getD [.symbol s] ++ expand e t := rfl

variable {e}

/-- A symbol that is defined is replaced by its body. -/
theorem expand_defined {s : String} {body : Text} (h : e.lookup s = some (some body)) :
    expand e [.symbol s] = body := by
  rw [expand_symbol, h]
  simp

/-- A symbol that is declared stays. -/
theorem expand_declared {s : String} (h : (e.lookup s).join = none) :
    expand e [.symbol s] = [.symbol s] := by
  rw [expand_symbol, h]
  simp

end

end Smt
