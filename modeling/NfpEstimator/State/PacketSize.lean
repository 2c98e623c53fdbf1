import NfpEstimator.State.Exec

/-!
# The interval of packet sizes

What the solver is told about the packet size, after any sequence of conditions
that compare the packet size with a constant: the interval `minValue … maxValue`
that `Exec.assume` keeps.

The lower end of the interval is the least size left. The upper end is read in
two ways. `initial_state` and `check_sat` take `max_value` for the largest size
left; `assume` stores the constant of `size < c` in it, which is one more, and
reports a contradiction as soon as both ends meet. `exact_iff` says for which
conditions the two readings agree: in essence, as long as no upper bound below
the maximum transmission unit has been assumed, or the bounds contradict.
-/

namespace NfpEstimator

/-! ### Conditions on the packet size -/

/-- A comparison of the packet size with a constant, as a branch and its
negation produce them. -/
inductive SizeCond where
  /-- `bvult(packetsize, val)`. -/
  | lt (val : Fin (2 ^ 14))
  /-- `bvuge(packetsize, val)`. -/
  | ge (val : Fin (2 ^ 14))
  deriving DecidableEq

/-- The condition as an expression. -/
def SizeCond.e : SizeCond → Lexpr
  | .lt val => .comparison .bvult 14 (.bvvariable 14 "packetsize") (.bitvector 14 val)
  | .ge val => .comparison .bvuge 14 (.bvvariable 14 "packetsize") (.bitvector 14 val)

/-- The condition on a size. -/
def SizeCond.Sat (s : ℕ) : SizeCond → Prop
  | .lt val => s < val
  | .ge val => val ≤ s

theorem SizeCond.eval_e (env : Env) (c : SizeCond) :
    c.e.eval env = true ↔ c.Sat env.packetsize := by
  cases c with
  | lt val | ge val =>
    simp only [SizeCond.e, Lexpr.eval, Cmp.eval, Bvexpr.eval, SizeCond.Sat, decide_eq_true_eq,
      Nat.mod_eq_of_lt val.isLt]
    rfl

/-- The lower end after a condition. -/
def SizeCond.lower (lo : ℕ) : SizeCond → ℕ
  | .lt _ => lo
  | .ge val => max lo val

/-- The upper end after a condition. -/
def SizeCond.upper (hi : ℕ) : SizeCond → ℕ
  | .lt val => min hi val
  | .ge _ => hi

/-- The least size that the lower bounds among the conditions leave. -/
def lowerEnd (cs : List SizeCond) : ℕ := cs.foldl SizeCond.lower minPacketsize

/-- The least constant among the upper bounds, but at most the transmission unit. -/
def upperEnd (mtu : ℕ) (cs : List SizeCond) : ℕ := cs.foldl SizeCond.upper mtu

theorem foldl_lower_le_iff (cs : List SizeCond) (lo b : ℕ) :
    cs.foldl SizeCond.lower lo ≤ b ↔ lo ≤ b ∧ ∀ v : Fin (2 ^ 14), .ge v ∈ cs → v ≤ b := by
  induction cs generalizing lo with
  | nil => simp
  | cons c cs ih =>
    rw [List.foldl_cons, ih]
    cases c with
    | lt val => simp [SizeCond.lower]
    | ge val => simp [SizeCond.lower, or_imp, forall_and, and_assoc]

theorem le_foldl_upper_iff (cs : List SizeCond) (hi b : ℕ) :
    b ≤ cs.foldl SizeCond.upper hi ↔ b ≤ hi ∧ ∀ v : Fin (2 ^ 14), .lt v ∈ cs → b ≤ v := by
  induction cs generalizing hi with
  | nil => simp
  | cons c cs ih =>
    rw [List.foldl_cons, ih]
    cases c with
    | lt val => simp [SizeCond.upper, or_imp, forall_and, and_assoc]
    | ge val => simp [SizeCond.upper]

theorem foldl_upper_attained (cs : List SizeCond) (hi : ℕ) :
    cs.foldl SizeCond.upper hi = hi ∨
      ∃ v : Fin (2 ^ 14), .lt v ∈ cs ∧ v = cs.foldl SizeCond.upper hi := by
  induction cs generalizing hi with
  | nil => exact .inl rfl
  | cons c cs ih =>
    rw [List.foldl_cons]
    cases c with
    | ge val =>
      rcases ih hi with h | ⟨v, hv, h⟩
      · exact .inl h
      · exact .inr ⟨v, List.mem_cons_of_mem _ hv, h⟩
    | lt val =>
      rcases ih (min hi val) with h | ⟨v, hv, h⟩
      · rcases Nat.le_total hi val with hle | hle
        · exact .inl (h.trans (Nat.min_eq_left hle))
        · exact .inr ⟨val, List.mem_cons_self, (h.trans (Nat.min_eq_right hle)).symm⟩
      · exact .inr ⟨v, List.mem_cons_of_mem _ hv, h⟩

theorem lowerEnd_lt (cs : List SizeCond) : lowerEnd cs < 2 ^ 14 := by
  have h : lowerEnd cs ≤ 2 ^ 14 - 1 :=
    (foldl_lower_le_iff _ _ _).2 ⟨by decide, fun v _ => Nat.le_sub_one_of_lt v.isLt⟩
  omega

/-- The sizes that the estimator is about. -/
def InRange (mtu s : ℕ) : Prop := minPacketsize ≤ s ∧ s ≤ mtu

theorem inRange_and_sat_iff (mtu : ℕ) (cs : List SizeCond) (env : Env) :
    (InRange mtu env.packetsize ∧ ∀ c ∈ cs, c.e.eval env = true) ↔
      lowerEnd cs ≤ env.packetsize ∧ env.packetsize ≤ mtu ∧
        ∀ v : Fin (2 ^ 14), .lt v ∈ cs → env.packetsize < v := by
  simp only [SizeCond.eval_e, lowerEnd, foldl_lower_le_iff, InRange]
  constructor
  · rintro ⟨⟨hlo, hhi⟩, h⟩
    exact ⟨⟨hlo, fun v hv => h _ hv⟩, hhi, fun v hv => h _ hv⟩
  · rintro ⟨⟨hlo, hge⟩, hhi, hlt⟩
    refine ⟨⟨hlo, hhi⟩, fun c hc => ?_⟩
    cases c with
    | lt v => exact hlt v hc
    | ge v => exact hge v hc

theorem Env.exists_packetsize {s : ℕ} (h : s < 2 ^ 14) : ∃ env : Env, env.packetsize = s :=
  ⟨Env.const s, Nat.mod_eq_of_lt h⟩

/-! ### What `assume` computes -/

section

variable [PastEnd]

/-- Assume the conditions in turn, each under its name. -/
def Exec.assumeSizes (st : Exec) (cs : List (SizeCond × String)) : Exec :=
  cs.foldl (fun st c => st.assume ⟨c.1.e, c.2⟩) st

theorem assume_sizeCond {st : Exec} (h : st.OnlySizes) (c : SizeCond) (id : String) :
    st.assume ⟨c.e, id⟩ =
      match c with
      | .lt val => st.assumeLt id val
      | .ge val => st.assumeGe id val := by
  have hvar : (Bvexpr.bvvariable 14 "packetsize").equal (.bvvariable 14 "packetsize") = true := by
    simp [Bvexpr.equal]
  cases c with
  | lt val | ge val =>
    simp [Exec.assume, SizeCond.e, h.assumptions, h.minimize, boundOn, hvar]

/-- One condition: the ends move, and the state is refuted once they meet. -/
theorem assume_sizeCond_spec {st : Exec} (h : st.OnlySizes) (c : SizeCond) (id : String) :
    (st.assume ⟨c.e, id⟩).OnlySizes ∧
      (st.assume ⟨c.e, id⟩).minValue = c.lower st.minValue ∧
      (st.assume ⟨c.e, id⟩).maxValue = c.upper st.maxValue ∧
      ((st.assume ⟨c.e, id⟩).isUnsat = true ↔
        st.isUnsat = true ∨ c.upper st.maxValue ≤ c.lower st.minValue) := by
  rw [assume_sizeCond h]
  cases c with
  | lt val =>
    obtain ⟨hm, ha, hmin, hmax, hsat⟩ := st.assumeLt_spec id val
    exact ⟨⟨hm.trans h.minimize, ha.trans h.assumptions⟩, hmin, hmax, hsat⟩
  | ge val =>
    obtain ⟨hm, ha, hmin, hmax, hsat⟩ := st.assumeGe_spec id val
    exact ⟨⟨hm.trans h.minimize, ha.trans h.assumptions⟩, hmin, hmax, hsat⟩

/-- A run of conditions. The ends only move towards each other, so the state is
refuted exactly if they meet at the end of the run. -/
theorem assumeSizes_spec (cs : List (SizeCond × String)) {st : Exec} (h : st.OnlySizes) :
    (st.assumeSizes cs).OnlySizes ∧
      (st.assumeSizes cs).minValue = (cs.map Prod.fst).foldl SizeCond.lower st.minValue ∧
      (st.assumeSizes cs).maxValue = (cs.map Prod.fst).foldl SizeCond.upper st.maxValue ∧
      ((st.assumeSizes cs).isUnsat = true ↔ st.isUnsat = true ∨ cs ≠ [] ∧
        (cs.map Prod.fst).foldl SizeCond.upper st.maxValue ≤
          (cs.map Prod.fst).foldl SizeCond.lower st.minValue) := by
  induction cs generalizing st with
  | nil => exact ⟨h, rfl, rfl, by simp [Exec.assumeSizes]⟩
  | cons c cs ih =>
    obtain ⟨h', hmin, hmax, hsat⟩ := assume_sizeCond_spec h c.1 c.2
    obtain ⟨ih, ihmin, ihmax, ihsat⟩ := ih h'
    rw [hmin] at ihmin ihsat
    rw [hmax] at ihmax ihsat
    refine ⟨ih, ihmin, ihmax, ihsat.trans ?_⟩
    rw [hsat, List.map_cons, List.foldl_cons, List.foldl_cons]
    have hlo := (foldl_lower_le_iff (cs.map Prod.fst) (c.1.lower st.minValue) _).1 le_rfl
    have hhi := (le_foldl_upper_iff (cs.map Prod.fst) (c.1.upper st.maxValue) _).1 le_rfl
    constructor
    · rintro ((hs | hle) | ⟨-, hle⟩)
      · exact .inl hs
      · exact .inr ⟨List.cons_ne_nil _ _, hhi.1.trans (hle.trans hlo.1)⟩
      · exact .inr ⟨List.cons_ne_nil _ _, hle⟩
    · rintro (hs | ⟨-, hle⟩)
      · exact .inl (.inl hs)
      · rcases cs with _ | ⟨c', cs⟩
        · exact .inl (.inr hle)
        · exact .inr ⟨List.cons_ne_nil _ _, hle⟩

/-! ### Exactness -/

/-- The solver is given exactly the sizes that satisfy the conditions, and the
state is refuted exactly if there is none. -/
def Exact (mtu : ℕ) (cs : List SizeCond) (st : Exec) : Prop :=
  (∀ env, Holds env st.bounds ↔
    InRange mtu env.packetsize ∧ ∀ c ∈ cs, c.e.eval env = true) ∧
  (st.isUnsat = true ↔
    ¬ ∃ env : Env, InRange mtu env.packetsize ∧ ∀ c ∈ cs, c.e.eval env = true)

/-- The conditions under which both readings of the upper end agree: an upper
bound within the transmission unit is contradicted by a lower bound, or there is
none and the transmission unit fits 14 bits and is not the only size left. -/
def ReadingsAgree (mtu : ℕ) (cs : List SizeCond) : Prop :=
  (∃ v : Fin (2 ^ 14), .lt v ∈ cs ∧ v ≤ mtu ∧ v < lowerEnd cs) ∨
  ((∀ v : Fin (2 ^ 14), .lt v ∈ cs → mtu < v) ∧ mtu % 2 ^ 14 = min mtu (2 ^ 14 - 1) ∧
    if cs = [] then minPacketsize ≤ mtu else lowerEnd cs ≠ mtu)

end

/-- Exactness in terms of the two ends. -/
theorem exact_iff_ends (mtu : ℕ) (cs : List SizeCond) {st : Exec} (h : st.OnlySizes)
    (hmin : st.minValue = lowerEnd cs) (hmax : st.maxValue = upperEnd mtu cs)
    (hsat : st.isUnsat = true ↔ cs ≠ [] ∧ upperEnd mtu cs ≤ lowerEnd cs) :
    Exact mtu cs st ↔
      (∀ s < 2 ^ 14, lowerEnd cs ≤ s ∧ s ≤ upperEnd mtu cs % 2 ^ 14 ↔
        lowerEnd cs ≤ s ∧ s ≤ mtu ∧ ∀ v : Fin (2 ^ 14), .lt v ∈ cs → s < v) ∧
      (cs ≠ [] ∧ upperEnd mtu cs ≤ lowerEnd cs ↔
        ¬ ∃ s < 2 ^ 14, lowerEnd cs ≤ s ∧ s ≤ mtu ∧ ∀ v : Fin (2 ^ 14), .lt v ∈ cs → s < v) := by
  simp only [Exact, inRange_and_sat_iff, holds_bounds h.minimize, hmin, hmax, hsat,
    Nat.mod_eq_of_lt (lowerEnd_lt cs)]
  refine and_congr ⟨fun hs s hlt => ?_, fun hs env => hs _ env.packetsize_lt⟩
    (iff_congr Iff.rfl (not_congr ⟨?_, ?_⟩))
  · obtain ⟨env, rfl⟩ := Env.exists_packetsize hlt
    exact hs env
  · rintro ⟨env, henv⟩
    exact ⟨_, env.packetsize_lt, henv⟩
  · rintro ⟨s, hlt, hs⟩
    obtain ⟨env, rfl⟩ := Env.exists_packetsize hlt
    exact ⟨env, hs⟩

/-- An upper bound within the transmission unit has been assumed: the interval
includes its upper end, the conditions do not. -/
theorem ends_agree_iff_of_lt {mtu : ℕ} {cs : List SizeCond}
    (h : ∃ v : Fin (2 ^ 14), .lt v ∈ cs ∧ v ≤ mtu) :
    ((∀ s < 2 ^ 14, lowerEnd cs ≤ s ∧ s ≤ upperEnd mtu cs % 2 ^ 14 ↔
        lowerEnd cs ≤ s ∧ s ≤ mtu ∧ ∀ v : Fin (2 ^ 14), .lt v ∈ cs → s < v) ∧
      (cs ≠ [] ∧ upperEnd mtu cs ≤ lowerEnd cs ↔
        ¬ ∃ s < 2 ^ 14, lowerEnd cs ≤ s ∧ s ≤ mtu ∧ ∀ v : Fin (2 ^ 14), .lt v ∈ cs → s < v)) ↔
    upperEnd mtu cs < lowerEnd cs := by
  obtain ⟨v, hv, hvm⟩ := h
  obtain ⟨hle, hall⟩ := (le_foldl_upper_iff cs mtu (upperEnd mtu cs)).1 le_rfl
  have hup : upperEnd mtu cs < 2 ^ 14 := lt_of_le_of_lt (hall v hv) v.isLt
  have hlt : ∀ s, (s ≤ mtu ∧ ∀ v : Fin (2 ^ 14), .lt v ∈ cs → s < v) ↔ s < upperEnd mtu cs := by
    intro s
    constructor
    · rintro ⟨hs, hsv⟩
      have hvs := hsv v hv
      exact (le_foldl_upper_iff cs mtu (s + 1)).2 ⟨by omega, hsv⟩
    · intro hs
      exact ⟨by omega, fun w hw => lt_of_lt_of_le hs (hall w hw)⟩
  have hne : cs ≠ [] := List.ne_nil_of_mem hv
  simp only [hlt, Nat.mod_eq_of_lt hup, ne_eq, hne, not_false_eq_true, true_and]
  constructor
  · rintro ⟨hset, -⟩
    have := hset _ hup
    omega
  · intro hlo
    refine ⟨fun s _ => by omega, ⟨?_, fun _ => by omega⟩⟩
    rintro - ⟨s, -, hs⟩
    omega

/-- No upper bound within the transmission unit has been assumed: the upper end
is the transmission unit, which is cut to 14 bits. -/
theorem ends_agree_iff_of_ge {mtu : ℕ} {cs : List SizeCond}
    (h : ∀ v : Fin (2 ^ 14), .lt v ∈ cs → mtu < v) :
    ((∀ s < 2 ^ 14, lowerEnd cs ≤ s ∧ s ≤ upperEnd mtu cs % 2 ^ 14 ↔
        lowerEnd cs ≤ s ∧ s ≤ mtu ∧ ∀ v : Fin (2 ^ 14), .lt v ∈ cs → s < v) ∧
      (cs ≠ [] ∧ upperEnd mtu cs ≤ lowerEnd cs ↔
        ¬ ∃ s < 2 ^ 14, lowerEnd cs ≤ s ∧ s ≤ mtu ∧ ∀ v : Fin (2 ^ 14), .lt v ∈ cs → s < v)) ↔
    mtu % 2 ^ 14 = min mtu (2 ^ 14 - 1) ∧
      if cs = [] then minPacketsize ≤ mtu else lowerEnd cs ≠ mtu := by
  have hup : upperEnd mtu cs = mtu := by
    rcases foldl_upper_attained cs mtu with heq | ⟨v, hv, heq⟩
    · exact heq
    · have := (le_foldl_upper_iff cs mtu (upperEnd mtu cs)).1 le_rfl
      have := h v hv
      rw [upperEnd] at *
      omega
  have hlt : ∀ s, (s ≤ mtu ∧ ∀ v : Fin (2 ^ 14), .lt v ∈ cs → s < v) ↔ s ≤ mtu :=
    fun s => ⟨And.left, fun hs => ⟨hs, fun v hv => lt_of_le_of_lt hs (h v hv)⟩⟩
  have hlo : lowerEnd cs < 2 ^ 14 := lowerEnd_lt cs
  have hset : (∀ s < 2 ^ 14, lowerEnd cs ≤ s ∧ s ≤ mtu % 2 ^ 14 ↔ lowerEnd cs ≤ s ∧ s ≤ mtu) ↔
      mtu % 2 ^ 14 = min mtu (2 ^ 14 - 1) := by
    constructor
    · intro hs
      have := hs (2 ^ 14 - 1) (by omega)
      omega
    · intro hmod s hs
      omega
  have hex : (∃ s < 2 ^ 14, lowerEnd cs ≤ s ∧ s ≤ mtu) ↔ lowerEnd cs ≤ mtu :=
    ⟨fun ⟨s, _, hs⟩ => hs.1.trans hs.2, fun hle => ⟨_, hlo, le_rfl, hle⟩⟩
  simp only [hlt, hup, hset, hex]
  refine and_congr Iff.rfl ?_
  by_cases hnil : cs = []
  · subst hnil
    simp [lowerEnd]
  · simp only [ne_eq, hnil, not_false_eq_true, true_and, if_false]
    omega

/-- **The interval is exact precisely if the two readings of its upper end
agree**, after any sequence of conditions on the packet size. -/
theorem exact_iff [PastEnd] (firmware mtu : ℕ) (input : List Update)
    (cs : List (SizeCond × String)) :
    Exact mtu (cs.map Prod.fst) ((initialState firmware mtu input).assumeSizes cs) ↔
      ReadingsAgree mtu (cs.map Prod.fst) := by
  obtain ⟨hinit, hmin₀, hmax₀, hsat₀⟩ := initialState_sizes firmware mtu input
  obtain ⟨hsizes, hmin, hmax, hsat⟩ := assumeSizes_spec cs hinit
  rw [hmin₀] at hmin hsat
  rw [hmax₀] at hmax hsat
  have hnil : cs ≠ [] ↔ cs.map Prod.fst ≠ [] := not_congr List.map_eq_nil_iff.symm
  rw [hsat₀, hnil, Bool.false_eq_true, false_or] at hsat
  rw [exact_iff_ends mtu _ hsizes hmin hmax hsat, ReadingsAgree]
  by_cases hlt : ∃ v : Fin (2 ^ 14), .lt v ∈ cs.map Prod.fst ∧ v ≤ mtu
  · rw [ends_agree_iff_of_lt hlt]
    obtain ⟨v, hv, hvm⟩ := hlt
    obtain ⟨hle, hall⟩ := (le_foldl_upper_iff (cs.map Prod.fst) mtu (upperEnd mtu _)).1 le_rfl
    constructor
    · intro hends
      rcases foldl_upper_attained (cs.map Prod.fst) mtu with heq | ⟨w, hw, heq⟩
      · have := hall v hv
        exact .inl ⟨v, hv, hvm, by unfold upperEnd at *; omega⟩
      · exact .inl ⟨w, hw, by rw [heq]; exact hle, by rw [heq]; exact hends⟩
    · rintro (⟨w, hw, -, hlo⟩ | ⟨hge, -⟩)
      · exact lt_of_le_of_lt (hall w hw) hlo
      · exact absurd hvm (Nat.not_le.2 (hge v hv))
  · have hge : ∀ v : Fin (2 ^ 14), .lt v ∈ cs.map Prod.fst → mtu < v :=
      fun v hv => Nat.lt_of_not_le fun hvm => hlt ⟨v, hv, hvm⟩
    rw [ends_agree_iff_of_ge hge]
    constructor
    · exact fun hends => .inr ⟨hge, hends⟩
    · rintro (⟨w, hw, hwm, -⟩ | ⟨-, hends⟩)
      · exact absurd ⟨w, hw, hwm⟩ hlt
      · exact hends

/-- After `size < 100` the solver may still pick 100. -/
theorem not_exact_lt :
    ∃ (mtu : ℕ) (cs : List (SizeCond × String)), ∀ [PastEnd] firmware input,
      ¬ Exact mtu (cs.map Prod.fst) ((initialState firmware mtu input).assumeSizes cs) := by
  refine ⟨1500, [(.lt 100, "bltT7L0")], fun firmware input h => ?_⟩
  obtain ⟨hinit, hmin₀, hmax₀, -⟩ := initialState_sizes firmware 1500 input
  obtain ⟨hsizes, hmin, hmax, -⟩ := assumeSizes_spec [(.lt 100, "bltT7L0")] hinit
  have hbounds := (holds_bounds hsizes.minimize (Env.const 100)).2 (by
    rw [hmin, hmax, hmin₀, hmax₀]
    decide)
  have hlt := ((h.1 (Env.const 100)).1 hbounds).2 (.lt 100) (by simp)
  exact Nat.lt_irrefl 100 ((SizeCond.eval_e _ _).1 hlt)

end NfpEstimator
