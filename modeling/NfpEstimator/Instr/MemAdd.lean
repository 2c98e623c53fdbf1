import NfpEstimator.Instr.MemRead

/-!
# Additions to memory

`mem` with `add_imm` is to add to one word of memory. Where `read32_swap` looks for an array in the address, it looks
for one in the offset of the address, which is no pointer, and the array becomes undefined.

The main result is that the word is right, and everything else as it was, only if the offset is a pointer itself, and
if the word that is then read is by chance the one that is written (`add_imm_iff`).
-/

namespace NfpEstimator

open Bytes

variable {a : Bvarray} {e offset offset' ref : Bvexpr} {env : Env} {array y : String} {x : ℕ} {st : Exec} {s : Step}
  {count : ℕ × Bool} {o : Obj} {c v : ℕ}

/-! ### Constants that are added -/

/-- Neither it nor its high word is what an addition finds an extended pointer in. -/
def Bvexpr.FreeHigh (e : Bvexpr) : Prop :=
  e.extPointer = false ∧ (extract 63 32 64 e).extPointer = false

/-- What is left to be added to a constant. -/
def AddRule.FreeHigh : AddRule → Prop
  | .done r => r.FreeHigh
  | .pointer _ _ x y => (∃ v, x = constant 64 v ∧ v % 2 ^ 64 ≠ 0) ∧ y.extPointer = false
  | _ => False

theorem bvaddRule_freeHigh (hv : v % 2 ^ 64 ≠ 0) (he : e.extPointer = false) :
    (bvaddRule 64 (constant 64 v) e).FreeHigh := by
  have hnone : ∀ {r : Option AddRule}, r = none → ∀ r' ∈ r, r'.FreeHigh := by
    rintro _ rfl r' h
    cases h
  have hpull : ∀ a b, bvaddPullExtract 64 a b = none := by
    intro a b
    cases b with
    | extraction S E B' e => exact if_neg (by omega)
    | _ => rfl
  have hconst : castConstant 64 (constant 64 v) = some (v % 2 ^ 64) := rfl
  have hptr : ∀ V, castPtr 64 V (constant 64 v) = none := fun _ => rfl
  refine bvaddRule_cases (fun r h => ?_) (fun V r h => ?_) (fun V => hnone ?_) (hnone rfl) (hnone (hpull _ _))
    (hnone (hpull _ _)) ⟨rfl, rfl⟩
  · rw [Option.mem_def, bvaddConstant, if_neg (by decide), hconst] at h
    cases hce : castConstant 64 e with
    | some w =>
      rw [hce] at h
      obtain rfl := Option.some.inj h
      exact ⟨rfl, extPointer_extractWith_constant⟩
    | none =>
      rw [hce] at h
      simp only [Option.some.injEq, hv, if_false, reduceCtorEq] at h
  · rw [Option.mem_def, bvaddPointer, hptr] at h
    split at h
    · next hsome _ => cases hsome
    · next array offset _ hcb =>
      obtain rfl := Option.some.inj h
      obtain rfl := castPtr_eq_some hcb
      exact ⟨⟨v, rfl, hv⟩, he⟩
    · cases h
  · have hext : castPtrExt (64 - 32) V 32 (constant 64 v) = none := rfl
    rw [bvaddPointerExt, castPtrExt_none_of_extPointer he, hext]
    rfl

theorem bvadd_freeHigh (hv : v % 2 ^ 64 ≠ 0) (he : e.extPointer = false) : (bvadd 64 (constant 64 v) e).FreeHigh := by
  generalize hB : 64 = B, ha : constant 64 v = a
  fun_induction bvadd B a e generalizing v with
  | case1 B a e r h => 
    subst hB ha
    have := bvaddRule_freeHigh hv he
    rw [h] at this
    exact this
  | case2 B a e V array x y h ih =>
    subst hB ha
    have := bvaddRule_freeHigh hv he
    rw [h] at this
    obtain ⟨⟨v', rfl, hv'⟩, hy⟩ := this
    have ih := (ih hv' hy rfl rfl).1
    exact ⟨ih, ih⟩
  | case3 | case4 | case5 =>
    subst hB ha
    have := bvaddRule_freeHigh hv he
    simp_all [AddRule.FreeHigh]

/-- What is left to be added if a constant has been added to a word. -/
def AddRule.FreeWord (c : ℕ) : AddRule → Prop
  | .done r => r.extPointer = false
  | .pointer _ _ x y => x.extPointer = false ∧ y = constant 32 c
  | .pullExtract x y => (∃ v, x = constant 64 v ∧ v % 2 ^ 64 ≠ 0) ∧ y.extPointer = false
  | _ => False

theorem bvaddRule_freeWord (hc : c % 2 ^ 32 ≠ 0) (he : e.extPointer = false) :
    (bvaddRule 32 e (constant 32 c)).FreeWord c := by
  have hnone : ∀ {r : Option AddRule}, r = none → ∀ r' ∈ r, r'.FreeWord c := by
    rintro _ rfl r' h
    cases h
  have hconst : castConstant 32 (constant 32 c) = some (c % 2 ^ 32) := rfl
  have hptr : ∀ V, castPtr 32 V (constant 32 c) = none := fun _ => rfl
  refine bvaddRule_cases (fun r h => ?_) (fun V r h => ?_) (fun V => hnone rfl) (hnone ?_) (hnone rfl)
    (fun r h => ?_) rfl
  · rw [Option.mem_def, bvaddConstant, if_neg (by decide), hconst] at h
    cases hce : castConstant 32 e with
    | some w =>
      rw [hce] at h
      obtain rfl := Option.some.inj h
      rfl
    | none =>
      rw [hce] at h
      simp only [Option.some.injEq, hc, if_false, reduceCtorEq] at h
  · rw [Option.mem_def, bvaddPointer, hptr] at h
    split at h
    · next array offset hca _ =>
      obtain rfl := Option.some.inj h
      obtain rfl := castPtr_eq_some hca
      exact ⟨he, rfl⟩
    · next hsome => cases hsome
    · cases h
  · have hbase : castPtrBase 32 8 (constant 32 c) = none := rfl
    rw [bvaddPointerBase, castPtrBase_none he, hbase]
    rfl
  · cases e with
    | extraction S E B e =>
      rw [Option.mem_def, bvaddPullExtract] at h
      split_ifs at h
      obtain rfl := Option.some.inj h
      refine ⟨⟨(c % 2 ^ 32) <<< 32 + 0 % 2 ^ 32, rfl, ?_⟩, he⟩
      rw [Nat.shiftLeft_eq]
      omega
    | _ => cases h

/-- **A constant that is added makes no extended pointer.** -/
theorem extPointer_bvadd (ht : Typed 32 e) (he : e.extPointer = false) (c : ℕ) :
    (bvadd 32 e (constant 32 c)).extPointer = false := by
  by_cases hc : c % 2 ^ 32 = 0
  · have hzero : constant 32 c = constant 32 0 := by rw [constant, hc]; rfl
    rwa [hzero, (bvadd_zero ht).1]
  · clear ht
    generalize hB : 32 = B, hb : constant 32 c = b
    fun_induction bvadd B e b with
    | case1 B e b r h =>
      subst hB hb
      have hrule := bvaddRule_freeWord hc he
      rw [h] at hrule
      exact hrule
    | case2 B e b V array x y h ih =>
      subst hB hb
      have hrule := bvaddRule_freeWord hc he
      rw [h] at hrule
      exact ih hrule.1 rfl hrule.2.symm
    | case5 B e b x y h ih =>
      subst hB hb
      have hrule := bvaddRule_freeWord hc he
      rw [h] at hrule
      obtain ⟨⟨v, rfl, hv⟩, hy⟩ := hrule
      exact (bvadd_freeHigh hv hy).2
    | case3 B e b V array x y x' y' h | case4 B e b V array s x y h =>
      subst hB hb
      have hrule := bvaddRule_freeWord hc he
      rw [h] at hrule
      exact hrule.elim

/-! ### Escapes -/

/-- The array becomes undefined if the offset is no pointer. -/
theorem addImm_of_number (ho : Typed 32 offset) (h : castPtr 32 8 offset = none) :
    addImm a offset ref o = .undefinedArray 32 8 o := by
  simp only [addImm, (bvadd_zero ho).1, h]

theorem store_defined (a : Bvarray) (offset value : Bvexpr) (o : Obj) :
    store 32 8 a offset value ≠ .undefinedArray 32 8 o := by
  unfold store
  split
  · exact fun h => by cases h
  · split <;> exact fun h => by cases h

/-! ### The word -/

/-- How many there are is no extended pointer. -/
theorem extPointer_refCount {f : Fresh} (hprev : Typed 32 (st.reg (f.obj 4) Hreg.prevAlu.location)) :
    (refCount f st count).extPointer = false := by
  obtain ⟨refCnt, indirectRef⟩ := count
  cases indirectRef with
  | false => rfl
  | true => exact extPointer_bvadd (bvlshr_computes hprev (typed_constant 32 8)).typed (extPointer_bvlshr _) 1

/-- Nor are four bytes. -/
theorem extPointer_concat {b₃ b : Bvexpr} : (concat 8 24 b₃ b).extPointer = false := by
  have hnone : ∀ p, concatPointer 8 24 p b = none := by
    intro p
    cases b <;> simp [concatPointer]
  cases b₃ with
  | bitvector B v =>
    rw [concat]
    split_ifs
    · exact extPointer_concatConstant (by decide) (by decide) (.inl (by decide))
    · rfl
  | concatenation X Y a₁ a₂ => simp [concat, hnone, Bvexpr.extPointer]
  | _ => simp [concat, hnone, Bvexpr.extPointer]

/-- **If the offset is a pointer, the word at its own offset is what is added to.** -/
theorem addImm_bytes (ha : a.Typed 32 8) (ho : Typed 32 (.pointer 32 8 y offset)) (hp : offset.extPointer = false)
    (href : Typed 32 ref) (hfree : ref.extPointer = false) :
    (addImm a (.pointer 32 8 y offset) ref o).bytes env =
      patch (2 ^ 32) ((Bvexpr.pointer 32 8 y offset).eval env) (fun i => decide (i < 4))
        (byte ((wordAt (a.bytes env) (offset.eval env) + ref.eval env) % 2 ^ 32)) (a.bytes env) := by
  have hk : ∀ k, ∃ o, castPtr 32 8 (bvadd 32 (.pointer 32 8 y offset) (constant 32 k)) = some (y, o) ∧
      Computes 32 (fun env => (offset.eval env + k) % 2 ^ 32) o := fun k => castPtr_bvadd (typed_pointer.mp ho).2 hp k
  choose c hc hcomputes using hk
  -- the word that is read
  have hread := concatBytes_computes (s := fun r => select 32 8 a (c r)) fun r _ =>
    (select_computes ha (hcomputes r).typed).congr fun env => by rw [(hcomputes r).eval]
  have hres := bvadd_computes hread.typed href extPointer_concat hfree
  simp only [addImm, hc]
  generalize hr : bvadd 32 _ ref = res at hres ⊢
  have hword : res.eval env = (wordAt (a.bytes env) (offset.eval env) + ref.eval env) % 2 ^ 32 := by
    rw [hres.eval, hread.eval]
    rfl
  -- the word that is written
  have hstore : ∀ {W a'} (k : ℕ), k < 4 →
      a'.bytes env = patch (2 ^ 32) ((Bvexpr.pointer 32 8 y offset).eval env) W (byte (res.eval env)) (a.bytes env) →
      (store 32 8 a' (bvadd 32 (.pointer 32 8 y offset) (constant 32 k))
          (extract (8 * k + 7) (8 * k) 32 res)).bytes env =
        patch (2 ^ 32) ((Bvexpr.pointer 32 8 y offset).eval env) (fun i => W i || i == k) (byte (res.eval env))
          (a.bytes env) := by
    intro W a' k hk ha'
    have hoff := offset_computes ho hp k
    have hbyte := byte_computes hres.typed hk
    rw [store_bytes hoff.typed hbyte.typed, hoff.eval, hbyte.eval, ha', update_patch (by omega)]
  have hfour := hstore 3 (by decide) (hstore 2 (by decide) (hstore 1 (by decide) (hstore 0 (by decide)
    patch_none.symm)))
  rw [← hword]
  refine hfour.trans (patch_congr fun i _ => ?_)
  rw [Bool.eq_iff_iff]
  simp only [Bool.false_or, Bool.or_eq_true, beq_iff_eq, decide_eq_true_eq]
  omega

theorem addImm_defined (ho : Typed 32 (.pointer 32 8 y offset)) (hp : offset.extPointer = false) (o' : Obj) :
    addImm a (.pointer 32 8 y offset) ref o ≠ .undefinedArray 32 8 o' := by
  have hk : ∀ k, ∃ c, castPtr 32 8 (bvadd 32 (.pointer 32 8 y offset) (constant 32 k)) = some (y, c) :=
    fun k => (castPtr_bvadd (typed_pointer.mp ho).2 hp k).imp fun _ h => h.1
  choose c hc using hk
  simp only [addImm, hc]
  exact store_defined _ _ _ _

theorem wordAt_lt (a : Bvarray) (env : Env) (i : ℕ) : wordAt (a.bytes env) i < 2 ^ 32 :=
  word_lt fun _ _ => Nat.mod_lt _ (by decide)

/-- A sum that is written is right exactly if the right word has been read. -/
theorem patch_sum_iff {m : ℕ → ℕ} {p w w' : ℕ} (hw : w < 2 ^ 32) (hw' : w' < 2 ^ 32) :
    patch (2 ^ 32) p (fun i => decide (i < 4)) (byte ((w + v) % 2 ^ 32)) m =
        patch (2 ^ 32) p (fun i => decide (i < 4)) (byte ((w' + v) % 2 ^ 32)) m ↔ w = w' := by
  rw [patch_row_iff]
  refine ⟨fun h => ?_, fun h _ _ _ => h ▸ rfl⟩
  have hsum : (w + v) % 2 ^ 32 = (w' + v) % 2 ^ 32 :=
    (byte_inj (Nat.mod_lt _ (by decide)) (Nat.mod_lt _ (by decide))).mp fun r hr => h r (by omega) (decide_eq_true hr)
  omega

/-! ### The instruction -/

theorem storeAll_memory {us : List Update} (h : ∀ u ∈ us, ∃ l e, u = .reg l e) (st : Exec) :
    (st.storeAll us).mem8 = st.mem8 ∧ (st.storeAll us).mem32 = st.mem32 := by
  induction us generalizing st with
  | nil => exact ⟨rfl, rfl⟩
  | cons u us ih =>
    obtain ⟨l, e, rfl⟩ := h u (List.mem_cons_self ..)
    exact ih (fun v hv => h v (List.mem_cons_of_mem _ hv)) _

/-- Memory is not touched by what is under way. -/
theorem Exec.DefersHreg.storeDue_memory (h : st.DefersHreg) :
    st.storeDue.mem8 = st.mem8 ∧ st.storeDue.mem32 = st.mem32 := by
  refine storeAll_memory (fun u hu => ?_) _
  obtain ⟨p, hp, rfl⟩ := List.mem_map.mp hu
  obtain ⟨r, e, -, hp⟩ := h p (List.mem_filter.mp hp).1
  exact ⟨_, _, hp⟩

theorem apply_addImm_array [PastEnd] (hsat : st.isUnsat = false)
    (hs : s.n.memWritten s.fresh st = some (.addImm, x, count, .pointer 32 8 array offset)) (k : Obj) :
    (st.apply s).array8 k array =
      addImm (st.array8 (s.fresh.obj 5) array) offset (refCount s.fresh st count) (s.fresh.obj 17) := by
  rw [apply_memWritten_array hsat hs]
  rfl

/-- Every other array is left alone. -/
theorem apply_memWritten_others [PastEnd] {op : MemWriteOp} (hsat : st.isUnsat = false) (hst : st.DefersHreg)
    (hs : s.n.memWritten s.fresh st = some (op, x, count, .pointer 32 8 array offset)) :
    (∀ y, y ≠ array → (st.apply s).mem8 y = st.mem8 y) ∧ (st.apply s).mem32 = st.mem32 := by
  have hst' : (st.elapse s.n.instr s.i s.branchtrue).DefersHreg := hst
  obtain ⟨h8, h32⟩ := hst'.storeDue_memory
  rw [apply_memWritten hsat hs]
  refine ⟨fun y hy => ?_, h32⟩
  exact (Function.update_of_ne hy _ _).trans (congrFun h8 y)

/-- **`add_imm` adds to the word that it is to add to, exactly if the offset of the address is a pointer and the word
at its own offset happens to be the same.** -/
theorem add_imm_iff [PastEnd] (hsat : st.isUnsat = false) (hst : st.DefersHreg)
    (hs : s.n.memWritten s.fresh st = some (.addImm, x, count, .pointer 32 8 array offset))
    (ho : Typed 32 offset) (hp : offset.extPointer = false)
    (hprev : Typed 32 (st.reg (s.fresh.obj 4) Hreg.prevAlu.location))
    (ha : (st.array8 (s.fresh.obj 5) array).Typed 32 8) (hcount : count.2 = false → count.1 < 2 ^ 32) (env : Env) :
    let v := transfers ((st.reg (s.fresh.obj 4) Hreg.prevAlu.location).eval env) count.1 count.2
    let m := (st.array8 (s.fresh.obj 5) array).bytes env
    ((∀ o, ((st.apply s).array8 o array).bytes env =
          patch (2 ^ 32) (offset.eval env) (fun i => decide (i < 4))
            (byte ((wordAt m (offset.eval env) + v) % 2 ^ 32)) m) ∧
        (∀ o k, (st.apply s).array8 o array ≠ .undefinedArray 32 8 k) ∧
        (∀ y, y ≠ array → (st.apply s).mem8 y = st.mem8 y) ∧ (st.apply s).mem32 = st.mem32) ↔
      ∃ y o, offset = .pointer 32 8 y o ∧ wordAt m (o.eval env) = wordAt m (offset.eval env) := by
  intro v m
  have : Nonempty Obj := ⟨.fresh 0⟩
  have hothers := apply_memWritten_others hsat hst hs
  have href := refCount_computes (f := s.fresh) hprev hcount
  have hbytes : ∀ {y o}, offset = .pointer 32 8 y o → ∀ k, ((st.apply s).array8 k array).bytes env =
      patch (2 ^ 32) (offset.eval env) (fun i => decide (i < 4)) (byte ((wordAt m (o.eval env) + v) % 2 ^ 32)) m := by
    rintro y o rfl k
    rw [apply_addImm_array hsat hs, addImm_bytes ha ho hp href.typed (extPointer_refCount hprev), href.eval]
  cases h : castPtr 32 8 offset with
  | none =>
    refine iff_of_false (fun hP => ?_) ?_
    · refine hP.2.1 (.fresh 0) (s.fresh.obj 17) ?_
      rw [apply_addImm_array hsat hs, addImm_of_number ho h]
    · rintro ⟨y, o, rfl, -⟩
      exact nomatch h
  | some yo =>
    obtain ⟨y, o⟩ := yo
    obtain rfl := castPtr_eq_some h
    have hdefined : ∀ k k', (st.apply s).array8 k array ≠ .undefinedArray 32 8 k' := by
      intro k k'
      rw [apply_addImm_array hsat hs]
      exact addImm_defined ho hp k'
    have hword : (∀ k, ((st.apply s).array8 k array).bytes env =
        patch (2 ^ 32) ((Bvexpr.pointer 32 8 y o).eval env) (fun i => decide (i < 4))
          (byte ((wordAt m ((Bvexpr.pointer 32 8 y o).eval env) + v) % 2 ^ 32)) m) ↔
        wordAt m (o.eval env) = wordAt m ((Bvexpr.pointer 32 8 y o).eval env) := by
      simp only [hbytes rfl, forall_const]
      exact patch_sum_iff (wordAt_lt ..) (wordAt_lt ..)
    rw [hword]
    constructor
    · exact fun h => ⟨y, o, rfl, h.1⟩
    · rintro ⟨y', o', he, h⟩
      obtain ⟨-, -, rfl, rfl⟩ := Bvexpr.pointer.inj he
      exact ⟨h, hdefined, hothers⟩

/-- A state with the address of a byte in a packet, whose offset is an address too. -/
def nestedState : Exec :=
  initialState 0 1500
    [.reg (Gpr.location ⟨.A, 0⟩) (.pointer 32 8 "packet" (.pointer 32 8 "packet" (constant 32 16)))]

theorem nestedState_reg (o : Obj) : nestedState.reg o (Gpr.location ⟨.A, 0⟩) =
    .pointer 32 8 "packet" (.pointer 32 8 "packet" (constant 32 16)) := by
  simp [Exec.reg, nestedState, initialState, Exec.make, Update.store]

theorem nestedState_prevAlu (o : Obj) : nestedState.reg o Hreg.prevAlu.location = .undefined 32 o := by
  have hne : Hreg.prevAlu.location ≠ Gpr.location ⟨.A, 0⟩ := by decide
  simp [Exec.reg, nestedState, initialState, Exec.make, Update.store, hne]

theorem nestedState_memWritten (count : ℕ × Bool) :
    (packetWrite .addImm count).n.memWritten (packetWrite .addImm count).fresh nestedState =
      some (.addImm, 0, count, .pointer 32 8 "packet" (.pointer 32 8 "packet" (constant 32 16))) := by
  simp only [packetWrite, Operation.memWritten, memAddress, Src.read, nestedState_reg, ShiftCntl.calculateOpt]
  rw [bvadd_done rfl]

/-- If the packet is at 0, the offset of such an address is its own one, and 5 is added to a 0. -/
theorem add_imm_iff_nested :
    let _ : PastEnd := ⟨fun _ => true⟩
    ∀ o, ((nestedState.apply (packetWrite .addImm (5, false))).array8 o "packet").bytes (Env.const 0) 16 = 5 := by
  intro _ o
  have h := @add_imm_iff (.pointer 32 8 "packet" (constant 32 16)) "packet" 0 nestedState
    (packetWrite .addImm (5, false)) (5, false) _ rfl (initialState_defersHreg _ _ (by simp))
    (nestedState_memWritten (5, false)) (typed_pointer.mpr ⟨rfl, typed_constant 32 16⟩) rfl
    (nestedState_prevAlu _ ▸ ⟨trivial, rfl⟩) ⟨trivial, rfl⟩ (by decide) (Env.const 0)
  have hbytes := (h.mpr ⟨"packet", constant 32 16, rfl, rfl⟩).1 o
  refine (congrFun hbytes 16).trans ?_
  decide

/-- A 5 is to be added to the word at an address in the packet, but the packet becomes undefined. -/
theorem add_imm_wrong :
    let _ : PastEnd := ⟨fun _ => true⟩
    let s := packetWrite .addImm (5, false)
    s.n.memWritten s.fresh (packetState 0) = some (.addImm, 0, (5, false), .pointer 32 8 "packet" (constant 32 16)) ∧
      ∀ o, ((packetState 0).apply s).array8 o "packet" = .undefinedArray 32 8 (s.fresh.obj 17) := by
  intro _ s
  have hs := packetWrite_memWritten 0 .addImm (5, false)
  refine ⟨hs, fun o => ?_⟩
  rw [apply_addImm_array rfl hs, addImm_of_number (typed_constant 32 16) rfl]

end NfpEstimator
