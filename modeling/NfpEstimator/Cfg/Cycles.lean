import NfpEstimator.Cfg.Graph
import NfpEstimator.State.Perf

/-!
# The static cycle bound

`cfg::overestimate_cycles` equips every edge with a copy of the instructions of
the block that it leads to, and every instruction of such a copy with distances
to the last memory access and the last write of the condition codes. These
distances are the smallest ones over all ways to come to the edge, and a path
that is extended along the edge is charged for the instructions with them
(`max_cycles`). Beside this, the path is charged with the distances it has really
seen (`cycles`).

The main result is that the first count is never below the second, as long as it
fits into 32 bits (`cycles_le_maxCycles`). Where it does not, it may be
(`maxCycles_lt_cycles`).
-/

namespace NfpEstimator

/-! ### Instructions of an edge -/

/-- `cfg::instr_data`. -/
structure InstrData where
  n : Instr
  i : Info

/-- The `cfg::succ_data` by which a block is entered: `cfg::start`, or the one of an edge. -/
abbrev Entry := Option Edge

/-- `cfg::succ_data::instructions`, of every `succ_data`. -/
abbrev Instructions := Entry → List InstrData

/-- `cfg::succ_data::nd`. -/
def Cfg.target (g : Cfg) : Entry → Option ℕ
  | none => some g.start
  | some e => g.succ e.1 e.2

/-- The edges out of the block that is entered. -/
def Cfg.outOf (g : Cfg) (s : Entry) : List Edge :=
  match g.target s with
  | none => []
  | some nd => g.outEdges nd

/-- The instructions of a block, entered with unknown distances; at the start of
the program they are 0. -/
def Cfg.initInstructions (g : Cfg) : Instructions
  | none => (g.instrs g.start).map fun n => ⟨n, Info.default⟩
  | some e =>
    match g.succ e.1 e.2 with
    | none => []
    | some nd => (g.instrs nd).map fun n => ⟨n, Info.max⟩

/-- Gives every instruction the distances that the one before it leaves behind. -/
def chainFrom (d : InstrData) : List InstrData → List InstrData
  | [] => [d]
  | x :: xs => d :: chainFrom ⟨x.n, d.i.apply d.n⟩ xs

/-- The inner loop of `cfg::overestimate_cycles`. -/
def chain : List InstrData → List InstrData
  | [] => []
  | d :: ds => chainFrom d ds

/-- Merges distances into those of the first instruction. -/
def mergeFront (i : Info) : List InstrData → List InstrData
  | [] => []
  | d :: ds => ⟨d.n, d.i.merge i⟩ :: ds

/-- The distances behind the last instruction. -/
def exitInfo (l : InstrData) : Info := l.i.apply l.n

/-- One round of the main loop of `cfg::overestimate_cycles`: the distances are
passed on through the block that `s` leads to, and to the edges out of it. -/
def Cfg.propagate (g : Cfg) (d : Instructions) (s : Entry) : Instructions :=
  let d := Function.update d s (chain (d s))
  fun t =>
    match (d s).getLast? with
    | none => d t
    | some l => if t ∈ (g.outOf s).map some then mergeFront (exitInfo l) (d t) else d t

/-- The start of the program and all edges, in topological order. -/
def Cfg.entries (g : Cfg) : List Entry := none :: (g.nodes.flatMap g.outEdges).map some

/-- `cfg::overestimate_cycles`. The nodes have been sorted topologically. -/
def Cfg.overestimateCycles (g : Cfg) : Instructions :=
  g.entries.foldl g.propagate g.initInstructions

/-! ### Paths -/

/-- The constructor of `cfg::path::withstate`: all instructions of the block but the last. -/
def Exec.enter (ds : List InstrData) (st : Exec) : Exec :=
  ds.dropLast.foldl (fun st x => st.elapse x.n x.i false) st

/-- The last instruction of the block, as `cfg::path::possible::extendn` applies it. -/
def Exec.leave (ds : List InstrData) (branchtrue : Bool) (st : Exec) : Exec :=
  match ds.getLast? with
  | none => st
  | some l => st.elapse l.n l.i branchtrue

/-- The cycle counts of the path that comes to a block with `st` and follows the edges. -/
def Exec.along (d : Instructions) : Entry → List Edge → Exec → Exec
  | s, [], st => st.enter (d s)
  | s, e :: es, st => ((st.enter (d s)).leave (d s) e.2).along d (some e) es

/-! ### Costs of a path -/

/-- The cycles of all instructions of a block but the last. -/
def blockCycles (ds : List InstrData) : ℕ :=
  (ds.dropLast.map fun x => perfCycles x.n x.i false).sum

/-- The cycles of the last instruction of a block. -/
def lastCycles (ds : List InstrData) (branchtrue : Bool) : ℕ :=
  match ds.getLast? with
  | none => 0
  | some l => perfCycles l.n l.i branchtrue

/-- What a path is charged from a block on, in numbers that do not wrap around. -/
def Instructions.charge (d : Instructions) : Entry → List Edge → ℕ
  | s, [] => blockCycles (d s)
  | s, e :: es => blockCycles (d s) + lastCycles (d s) e.2 + d.charge (some e) es

/-! ### What a round does -/

section

variable {g : Cfg}

@[simp] theorem head?_chainFrom (d : InstrData) (ds : List InstrData) :
    (chainFrom d ds).head? = some d := by
  cases ds <;> rfl

@[simp] theorem head?_chain (ds : List InstrData) : (chain ds).head? = ds.head? := by
  cases ds with
  | nil => rfl
  | cons d ds => exact head?_chainFrom d ds

@[simp] theorem map_n_chain (ds : List InstrData) :
    (chain ds).map (·.n) = ds.map (·.n) := by
  cases ds with
  | nil => rfl
  | cons d ds =>
    show (chainFrom d ds).map (·.n) = _
    induction ds generalizing d with
    | nil => rfl
    | cons x xs ih => simp only [chainFrom, List.map_cons, ih]

@[simp] theorem map_n_mergeFront (i : Info) (ds : List InstrData) :
    (mergeFront i ds).map (·.n) = ds.map (·.n) := by
  cases ds <;> rfl

/-- Every instruction has the distances that the one before it leaves behind. -/
abbrev Chained (ds : List InstrData) : Prop := ds.IsChain fun x y => y.i = exitInfo x

theorem chained_chain (ds : List InstrData) : Chained (chain ds) := by
  cases ds with
  | nil => exact .nil
  | cons d ds =>
    show Chained (chainFrom d ds)
    induction ds generalizing d with
    | nil => exact .singleton d
    | cons x xs ih =>
      rw [chainFrom, Chained, List.isChain_cons]
      refine ⟨?_, ih _⟩
      intro y hy
      rw [head?_chainFrom, Option.mem_some_iff] at hy
      exact hy ▸ rfl

/-- The first instruction's distances are at most those of `i`. -/
def FrontLe (ds : List InstrData) (i : Info) : Prop := ∀ x ∈ ds.head?, x.i ≤ i

theorem FrontLe.mergeFront {ds : List InstrData} {i : Info} (h : FrontLe ds i) (j : Info) :
    FrontLe (mergeFront j ds) i := by
  cases ds with
  | nil => exact h
  | cons d ds =>
    rintro x ⟨⟩
    exact Info.le_trans (Info.merge_le_left _ _) (h d rfl)

theorem frontLe_mergeFront (ds : List InstrData) (j : Info) : FrontLe (mergeFront j ds) j := by
  cases ds with
  | nil => exact fun _ h => nomatch h
  | cons d ds =>
    rintro x ⟨⟩
    exact Info.merge_le_right _ _

theorem propagate_of_notMem (d : Instructions) {s t : Entry} (hts : t ≠ s)
    (ht : t ∉ (g.outOf s).map some) : g.propagate d s t = d t := by
  unfold Cfg.propagate
  split
  · exact Function.update_of_ne hts _ _
  · rw [if_neg ht]
    exact Function.update_of_ne hts _ _

theorem propagate_self (d : Instructions) {s : Entry} (hs : s ∉ (g.outOf s).map some) :
    g.propagate d s s = chain (d s) := by
  unfold Cfg.propagate
  split
  · exact Function.update_self _ _ _
  · rw [if_neg hs]
    exact Function.update_self _ _ _

theorem map_n_propagate (d : Instructions) (s t : Entry) :
    (g.propagate d s t).map (·.n) = (d t).map (·.n) := by
  have hupd : (Function.update d s (chain (d s)) t).map (·.n) = (d t).map (·.n) := by
    by_cases hts : t = s
    · rw [hts, Function.update_self, map_n_chain]
    · rw [Function.update_of_ne hts]
  unfold Cfg.propagate
  split
  · exact hupd
  · split
    · rw [map_n_mergeFront, hupd]
    · exact hupd

/-- A round never raises the distances at the front of a block. -/
theorem FrontLe.propagate {d : Instructions} {t : Entry} {i : Info} (h : FrontLe (d t) i)
    (s : Entry) : FrontLe (g.propagate d s t) i := by
  have hupd : FrontLe (Function.update d s (chain (d s)) t) i := by
    by_cases hts : t = s
    · rw [hts, Function.update_self, FrontLe, head?_chain, ← hts]
      exact h
    · rw [Function.update_of_ne hts]
      exact h
  unfold Cfg.propagate
  split
  · exact hupd
  · split
    · exact hupd.mergeFront _
    · exact hupd

/-! ### The whole loop -/

/-- What a round achieves for `s`: the distances are passed on within the block,
and the blocks that follow it start with no larger ones. -/
structure Settled (g : Cfg) (d : Instructions) (s : Entry) : Prop where
  chained : Chained (d s)
  front : ∀ l ∈ (d s).getLast?, ∀ e ∈ g.outOf s, FrontLe (d (some e)) (exitInfo l)

theorem settled_propagate_self (d : Instructions) {s : Entry} (hs : s ∉ (g.outOf s).map some) :
    Settled g (g.propagate d s) s where
  chained := propagate_self d hs ▸ chained_chain (d s)
  front := by
    intro l hl e he
    rw [propagate_self d hs] at hl
    unfold Cfg.propagate
    rw [Function.update_self, Option.mem_def.mp hl]
    dsimp only
    rw [if_pos (List.mem_map_of_mem he)]
    exact frontLe_mergeFront _ _

/-- A round for `s` keeps what was achieved for another entry that does not follow `s`. -/
theorem Settled.propagate {d : Instructions} {s t : Entry} (h : Settled g d t) (hts : t ≠ s)
    (ht : t ∉ (g.outOf s).map some) : Settled g (g.propagate d s) t where
  chained := propagate_of_notMem d hts ht ▸ h.chained
  front := by
    intro l hl e he
    rw [propagate_of_notMem d hts ht] at hl
    exact (h.front l hl e he).propagate s

/-- After the loop everything is settled, if no entry follows a later one. -/
theorem settled_foldl {l : List Entry} (hl : l.Pairwise fun t s => t ∉ (g.outOf s).map some)
    (hself : ∀ s ∈ l, s ∉ (g.outOf s).map some) {d : Instructions} {t : Entry}
    (ht : t ∈ l ∨ Settled g d t ∧ ∀ s ∈ l, t ∉ (g.outOf s).map some) :
    Settled g (l.foldl g.propagate d) t := by
  induction l generalizing d with
  | nil =>
    rcases ht with ht | ht
    · exact absurd ht List.not_mem_nil
    · exact ht.1
  | cons s l ih =>
    rw [List.pairwise_cons] at hl
    rw [List.forall_mem_cons] at hself
    refine ih hl.2 hself.2 ?_
    by_cases hts : t = s
    · subst hts
      exact .inr ⟨settled_propagate_self d hself.1, hl.1⟩
    rcases ht with ht | ⟨hset, hno⟩
    · exact .inl ((List.mem_cons.mp ht).resolve_left hts)
    · rw [List.forall_mem_cons] at hno
      exact .inr ⟨hset.propagate hts hno.1, hno.2⟩

theorem map_n_foldl (l : List Entry) (d : Instructions) (t : Entry) :
    (l.foldl g.propagate d t).map (·.n) = (d t).map (·.n) := by
  induction l generalizing d with
  | nil => rfl
  | cons s l ih => exact (ih _).trans (map_n_propagate d s t)

theorem FrontLe.foldl (l : List Entry) {d : Instructions} {t : Entry} {i : Info}
    (h : FrontLe (d t) i) : FrontLe (l.foldl g.propagate d t) i := by
  induction l generalizing d with
  | nil => exact h
  | cons s l ih => exact ih (h.propagate s)

end

section

variable {g : Cfg} (hg : g.LoopFree)

/-- The place of an entry in the topological order. -/
def Cfg.rank (g : Cfg) : Entry → ℕ
  | none => 0
  | some e => g.nodes.idxOf e.1 + 1

include hg

theorem target_mem {s : Entry} (hs : s ∈ g.entries) {nd : ℕ} (h : g.target s = some nd) :
    nd ∈ g.nodes := by
  cases s with
  | none =>
    obtain rfl := Option.some.inj h
    exact hg.start_mem
  | some e =>
    simp only [Cfg.entries, List.mem_cons, reduceCtorEq, List.mem_map, Option.some.injEq,
      exists_eq_right, false_or, List.mem_flatMap, Cfg.mem_outEdges] at hs
    obtain ⟨nd', hnd', rfl, -⟩ := hs
    exact hg.succ_mem _ hnd' e.2 nd h

theorem mem_entries_of_outOf {s : Entry} (hs : s ∈ g.entries) {e : Edge} (he : e ∈ g.outOf s) :
    some e ∈ g.entries := by
  unfold Cfg.outOf at he
  split at he
  · exact absurd he List.not_mem_nil
  next nd ht =>
    refine List.mem_cons_of_mem _ (List.mem_map_of_mem (List.mem_flatMap.mpr ⟨nd, ?_, he⟩))
    exact target_mem hg hs ht

/-- What follows an entry comes later. -/
theorem rank_lt_of_outOf {s : Entry} (hs : s ∈ g.entries) {e : Edge} (he : e ∈ g.outOf s) :
    g.rank s < g.rank (some e) := by
  unfold Cfg.outOf at he
  split at he
  · exact absurd he List.not_mem_nil
  next nd ht =>
    rw [Cfg.mem_outEdges] at he
    cases s with
    | none => exact Nat.succ_pos _
    | some e' =>
      simp only [Cfg.entries, List.mem_cons, reduceCtorEq, List.mem_map, Option.some.injEq,
        exists_eq_right, false_or, List.mem_flatMap, Cfg.mem_outEdges] at hs
      obtain ⟨nd', hnd', rfl, -⟩ := hs
      have := hg.forward _ hnd' e'.2 nd ht
      simp only [Cfg.rank, he.1]
      omega

/-- The entries are listed in the order of their blocks. -/
theorem entries_sorted : g.entries.Pairwise fun t s => g.rank t ≤ g.rank s := by
  refine List.pairwise_cons.mpr ⟨fun _ _ => Nat.zero_le _, ?_⟩
  rw [List.pairwise_map, List.pairwise_flatMap]
  constructor
  · intro nd _
    refine List.pairwise_of_forall_mem_list fun e he e' he' => ?_
    rw [Cfg.mem_outEdges] at he he'
    simp only [Cfg.rank, he.1, he'.1, le_refl]
  · refine (List.pairwise_iff_getElem.mpr ?_ : g.nodes.Pairwise
      fun nd nd' => g.nodes.idxOf nd ≤ g.nodes.idxOf nd').imp ?_
    · intro i j hi hj hij
      rw [hg.nodup.idxOf_getElem, hg.nodup.idxOf_getElem]
      exact hij.le
    · intro nd nd' hle e he e' he'
      rw [Cfg.mem_outEdges] at he he'
      simp only [Cfg.rank, he.1, he'.1]
      omega

/-- **After `cfg::overestimate_cycles` every entry is settled.** -/
theorem settled_overestimateCycles {s : Entry} (hs : s ∈ g.entries) :
    Settled g g.overestimateCycles s := by
  have hno : ∀ s ∈ g.entries, ∀ t, g.rank t ≤ g.rank s → t ∉ (g.outOf s).map some := by
    intro s hs t hle ht
    obtain ⟨e, he, rfl⟩ := List.mem_map.mp ht
    exact absurd (rank_lt_of_outOf hg hs he) (by omega)
  refine settled_foldl ?_ (fun s hs => hno s hs s le_rfl) (.inl hs)
  exact (entries_sorted hg).imp_of_mem fun _ hs hle => hno _ hs _ hle

omit hg in
theorem map_n_overestimateCycles {s : Entry} {nd : ℕ} (h : g.target s = some nd) :
    (g.overestimateCycles s).map (·.n) = g.instrs nd := by
  rw [Cfg.overestimateCycles, map_n_foldl]
  cases s with
  | none =>
    obtain rfl := Option.some.inj h
    simp [Cfg.initInstructions, Function.comp_def]
  | some e =>
    have h : g.succ e.1 e.2 = some nd := h
    simp [Cfg.initInstructions, h, Function.comp_def]

/-- Every block has a first and a last instruction. -/
theorem overestimateCycles_ends {s : Entry} (hs : s ∈ g.entries) {nd : ℕ}
    (h : g.target s = some nd) :
    ∃ x l, x ∈ (g.overestimateCycles s).head? ∧ l ∈ (g.overestimateCycles s).getLast? := by
  have hne : g.overestimateCycles s ≠ [] := by
    intro hnil
    have hn := map_n_overestimateCycles h
    rw [hnil] at hn
    exact hg.instrs_ne_nil nd (target_mem hg hs h) hn.symm
  exact ⟨_, _, List.head_mem_head? hne, List.getLast_mem_getLast? hne⟩

end

/-! ### Along a path -/

/-- The count of a block is what its instructions are charged, if it does not wrap around. -/
theorem Exec.enter_summaxcycles {ds : List InstrData} {st : Exec} (hfits : st.summaxcycles + blockCycles ds < 2 ^ 32) :
    (st.enter ds).summaxcycles = st.summaxcycles + blockCycles ds := by
  unfold Exec.enter
  unfold blockCycles at hfits ⊢
  generalize ds.dropLast = xs at hfits ⊢
  induction xs generalizing st with
  | nil => rfl
  | cons x xs ih =>
    rw [List.map_cons, List.sum_cons] at hfits ⊢
    have hx : (st.elapse x.n x.i false).summaxcycles = st.summaxcycles + perfCycles x.n x.i false :=
      wrap32_of_lt (by omega)
    rw [List.foldl_cons, ih (by omega), hx, Nat.add_assoc]

theorem Exec.leave_summaxcycles {ds : List InstrData} {b : Bool} {st : Exec}
    (hfits : st.summaxcycles + lastCycles ds b < 2 ^ 32) :
    (st.leave ds b).summaxcycles = st.summaxcycles + lastCycles ds b := by
  unfold Exec.leave
  unfold lastCycles at hfits ⊢
  cases hl : ds.getLast? with
  | none => rfl
  | some l =>
    rw [hl] at hfits
    exact wrap32_of_lt hfits

/-- Domination is kept up to the last instruction of a block. -/
theorem Dominates.enter {ds : List InstrData} (hch : Chained ds) {st : Exec} {x l : InstrData}
    (hx : x ∈ ds.head?) (hl : l ∈ ds.getLast?) (h : Dominates st x.i)
    (hfits : st.summaxcycles + blockCycles ds < 2 ^ 32) : Dominates (st.enter ds) l.i := by
  induction ds generalizing st x with
  | nil => exact nomatch hx
  | cons d ds ih =>
    obtain rfl := Option.some.inj hx
    cases ds with
    | nil =>
      obtain rfl := Option.some.inj hl
      exact h
    | cons y ys =>
      rw [Chained, List.isChain_cons_cons] at hch
      have hblock : blockCycles (d :: y :: ys) = perfCycles d.n d.i false + blockCycles (y :: ys) := rfl
      have hd : (st.elapse d.n d.i false).summaxcycles = st.summaxcycles + perfCycles d.n d.i false :=
        wrap32_of_lt (by omega)
      have hnext : Dominates (st.elapse d.n d.i false) y.i := by
        rw [hch.1]
        exact h.apply d.n false (by omega)
      have hrest : (st.elapse d.n d.i false).summaxcycles + blockCycles (y :: ys) < 2 ^ 32 := by omega
      exact ih hch.2 rfl ((List.getLast?_cons_cons).symm.trans hl) hnext hrest

theorem Dominates.along {g : Cfg} (hg : g.LoopFree) {es : List Edge} {s : Entry}
    (hs : s ∈ g.entries) {nd dst : ℕ} (ht : g.target s = some nd) (hw : g.Walk nd es dst)
    {st : Exec} {i : Info} (h : Dominates st i) (hfront : FrontLe (g.overestimateCycles s) i)
    (hfits : st.summaxcycles + g.overestimateCycles.charge s es < 2 ^ 32) :
    (st.along g.overestimateCycles s es).sumcycles ≤
      (st.along g.overestimateCycles s es).summaxcycles := by
  induction es generalizing s nd st i with
  | nil =>
    obtain ⟨x, l, hx, hl⟩ := overestimateCycles_ends hg hs ht
    exact (Dominates.enter (settled_overestimateCycles hg hs).chained hx hl
      (h.mono (hfront x hx)) hfits).cycles
  | cons e es ih =>
    rw [Instructions.charge] at hfits
    obtain ⟨x, l, hx, hl⟩ := overestimateCycles_ends hg hs ht
    have hset := settled_overestimateCycles hg hs
    have henter : (st.enter (g.overestimateCycles s)).summaxcycles =
        st.summaxcycles + blockCycles (g.overestimateCycles s) := Exec.enter_summaxcycles (by omega)
    have hleave : ((st.enter (g.overestimateCycles s)).leave (g.overestimateCycles s) e.2).summaxcycles =
        (st.enter (g.overestimateCycles s)).summaxcycles + lastCycles (g.overestimateCycles s) e.2 :=
      Exec.leave_summaxcycles (by omega)
    have hdom := Dominates.enter hset.chained hx hl (h.mono (hfront x hx)) (by omega)
    obtain ⟨rfl, nd', hnd', hrest⟩ := hw
    have hout : e ∈ g.outOf s := by
      rw [Cfg.outOf, ht]
      exact (g.mem_outEdges).mpr ⟨rfl, Option.isSome_iff_exists.mpr ⟨nd', hnd'⟩⟩
    have hlast : lastCycles (g.overestimateCycles s) e.2 = perfCycles l.n l.i e.2 := by
      rw [lastCycles, Option.mem_def.mp hl]
    have hnext : Dominates ((st.enter (g.overestimateCycles s)).leave
        (g.overestimateCycles s) e.2) (exitInfo l) := by
      rw [Exec.leave, Option.mem_def.mp hl]
      exact hdom.apply l.n e.2 (by omega)
    exact ih (mem_entries_of_outOf hg hs hout) hnd' hrest hnext (hset.front l hl e hout) (by omega)

theorem Dominates.store {st : Exec} {i : Info} (h : Dominates st i) (u : Update) :
    Dominates (u.store st) i := by
  cases u <;> exact ⟨h.lastmem, h.lastcc, h.cycles, h.mem, h.cc⟩

theorem initialState_dominates (firmware mtu : ℕ) (input : List Update) :
    Dominates (initialState firmware mtu input) Info.default := by
  unfold initialState Exec.make
  refine List.foldlRecOn (motive := fun st => Dominates st Info.default) input _ ?_
    fun _ h u _ => h.store u
  exact ⟨le_rfl, le_rfl, le_rfl, le_rfl, fun _ => rfl⟩

theorem initialState_summaxcycles (firmware mtu : ℕ) (input : List Update) :
    (initialState firmware mtu input).summaxcycles = firmware := by
  unfold initialState Exec.make
  refine List.foldlRecOn (motive := fun st : Exec => st.summaxcycles = firmware) input _ rfl fun st h u _ => ?_
  rw [← h]
  cases u <;> rfl

/-- **The static bound dominates the dynamic count on every path through the program**, if the costs
of the path and of the firmware fit into 32 bits. -/
theorem cycles_le_maxCycles (g : LoopFreeCfg) {es : List Edge} (hp : g.IsPath es) {firmware : ℕ}
    (hfits : firmware + g.overestimateCycles.charge none es < 2 ^ 32) (mtu : ℕ) (input : List Update) :
    let st := (initialState firmware mtu input).along g.overestimateCycles none es
    st.sumcycles ≤ st.summaxcycles := by
  refine Dominates.along g.loopFree List.mem_cons_self rfl hp
    (initialState_dominates firmware mtu input) ?_ (by rwa [initialState_summaxcycles])
  refine FrontLe.foldl _ ?_
  intro x hx
  obtain ⟨n, -, rfl⟩ := List.mem_map.mp (List.mem_of_mem_head? hx)
  exact Info.le_refl _

/-- A branch around a memory access; the access after the join waits. -/
def skipMem : Cfg where
  node nd :=
    match nd with
    | 0 => ⟨[.alu 0 .gpr .gpr .gpr, .properBranch 1 .beq 3], 0, some 2, some 1, []⟩
    | 1 => ⟨[.mem 2 .gpr false .constant false none], 0, none, some 2, [(0, false)]⟩
    | 2 => ⟨[.immed 3 .gpr], 0, none, some 3, [(0, true), (1, false)]⟩
    | 3 => ⟨[.mem 4 .gpr false .constant false (some 1)], 0, none, some 4, [(2, false)]⟩
    | _ => ⟨[.fin], 0, none, none, [(3, false)]⟩
  nodes := [0, 1, 2, 3, 4]
  start := 0
  fin := 4

theorem skipMem_loopFree : skipMem.LoopFree := by decide

theorem skipMem_isPath : skipMem.IsPath [(0, true), (2, false), (3, false)] := by decide

/-- The way around the access is charged as if it had just been made. -/
theorem cycles_le_maxCycles_skipMem :
    let st := (initialState 10 1500 []).along skipMem.overestimateCycles none
      [(0, true), (2, false), (3, false)]
    st.sumcycles = 26 ∧ st.summaxcycles = 31 ∧ st.sumcycles ≤ st.summaxcycles :=
  ⟨by decide, by decide,
    cycles_le_maxCycles ⟨skipMem, skipMem_loopFree⟩ skipMem_isPath (by decide) 1500 []⟩

/-- Where the firmware takes nearly 2 ^ 32 cycles already, the static count wraps around and the other
one does not. -/
theorem maxCycles_lt_cycles :
    ∃ (g : LoopFreeCfg) (es : List Edge) (firmware : ℕ), g.IsPath es ∧ firmware < 2 ^ 32 ∧
      let st := (initialState firmware 1500 []).along g.overestimateCycles none es
      st.summaxcycles = 1 ∧ st.sumcycles = 4294967292 ∧ st.summaxcycles < st.sumcycles :=
  ⟨⟨skipMem, skipMem_loopFree⟩, _, 4294967276, skipMem_isPath, by decide, by decide, by decide, by decide⟩

end NfpEstimator
