import Mathlib

/-!
# Bursts

`snd` sends `count` packets and waits in between, so that at most `burst` packets are sent between two waits. It
waits whenever the number of packets sent so far is a multiple of `burst`, and lets a round end where the number of
packets *left* is a multiple of `burst`. These are the same places only if `count` is a multiple of `burst`, and
otherwise a round can pass a place where it should have waited (`snd_paced_iff`).
-/

namespace NfpEstimator

namespace GenPackets

/-- `UIO_MAXIOV`, the most messages that `sendmmsg` takes. -/
def uioMaxiov : ℕ := 1024

/-- The global variables that each `prepare_*` leaves behind. -/
structure Msgs where
  /-- How many packets there are. -/
  numUniq : ℕ
  /-- There is one, as `map_locked` fails for an empty mapping. -/
  numUniq_pos : 0 < numUniq

/-- The length of `msgs`, in which the packets are repeated. -/
def Msgs.numMsgs (g : Msgs) : ℕ := uioMaxiov + g.numUniq - 1

/-- The arguments of `snd`. -/
structure SndArgs where
  count : ℕ
  burst : ℕ
  wait : ℕ
  draw : Bool
  /-- `main` refuses a `burst` of zero. -/
  burst_pos : 0 < burst

/-- How many of `n` packets the `k`th call of `sendmmsg` accepts. -/
structure Socket where
  accept : ℕ → ℕ → ℕ
  accept_pos : ∀ k n, 0 < n → 0 < accept k n
  accept_le : ∀ k n, accept k n ≤ n

/-- What `snd` does that can be seen from outside. -/
inductive Event where
  /-- `poll(NULL, 0, wait)` -/
  | poll (wait : ℕ)
  /-- The packets that a `sendmmsg` has sent, as places in `msgs`. -/
  | sendmmsg (m : List ℕ)
  deriving DecidableEq

/-! ### The loop -/

section
variable (g : Msgs) (a : SndArgs) (sock : Socket) (lrand48 : ℕ → ℕ)

/-- The most packets of a round. -/
def Msgs.num (g : Msgs) (burst : ℕ) : ℕ :=
  let num := (g.numMsgs - g.numUniq + 1) % 2 ^ 32
  let num := if burst < num then burst else num
  if uioMaxiov < num then uioMaxiov else num

/-- The packets of the round that begins after `i` packets. -/
def numRound (i : ℕ) : ℕ :=
  let numRound := g.num a.burst
  let numRound := if a.count - i < numRound then a.count - i else numRound
  if (a.count - i - 1) % a.burst + 1 < numRound then (a.count - i - 1) % a.burst + 1 else numRound

/-- `n` random places, the first from the `r`th random number. -/
def draws (r n : ℕ) : List ℕ := (List.range n).map fun ii => lrand48 (r + ii) % g.numUniq

/-- `m`, up to the end of the round -/
def roundMsgs (i : ℕ) (dmsgs : List ℕ) : List ℕ :=
  if a.draw then dmsgs.take (numRound g a i) else (List.range (numRound g a i)).map fun ii => i % g.numUniq + ii

/-- With `draw` the `rc` messages that have been sent are drawn again. -/
def redraw (rc r : ℕ) (dmsgs : List ℕ) : List ℕ :=
  if a.draw then draws g lrand48 r rc ++ dmsgs.drop rc else dmsgs

theorem num_eq : g.num a.burst = min a.burst uioMaxiov := by
  have hg := g.numUniq_pos
  have hnum : (g.numMsgs - g.numUniq + 1) % 2 ^ 32 = uioMaxiov := by
    rw [Msgs.numMsgs, uioMaxiov]
    omega
  simp only [Msgs.num, hnum]
  split_ifs <;> omega

theorem numRound_eq (i : ℕ) :
    numRound g a i = min (min (min a.burst uioMaxiov) (a.count - i)) ((a.count - i - 1) % a.burst + 1) := by
  simp only [numRound, num_eq]
  split_ifs <;> omega

theorem numRound_pos {i : ℕ} (h : i < a.count) : 0 < numRound g a i := by
  have hb := a.burst_pos
  rw [numRound_eq, uioMaxiov]
  omega

theorem numRound_le_left (i : ℕ) : numRound g a i ≤ a.count - i := by
  rw [numRound_eq]
  omega

theorem numRound_le_num (i : ℕ) : numRound g a i ≤ g.num a.burst := by
  rw [numRound_eq, num_eq]
  omega

/-- The rounds from the `k`th on, after `i` packets and `r` random numbers. -/
def sndLoop (k i r : ℕ) (dmsgs : List ℕ) : List Event :=
  if i < a.count then
    let rc := sock.accept k (numRound g a i)
    (if a.wait ≠ 0 ∧ i % a.burst = 0 then [Event.poll a.wait] else []) ++
      Event.sendmmsg ((roundMsgs g a i dmsgs).take rc) ::
        sndLoop (k + 1) (i + rc) (r + rc) (redraw g a lrand48 rc r dmsgs)
  else []
termination_by a.count - i
decreasing_by
  have := sock.accept_pos k _ (numRound_pos g a ‹i < a.count›)
  omega

/-- `snd` -/
def snd : List Event :=
  let num := g.num a.burst
  sndLoop g a sock lrand48 0 0 num (if a.draw then draws g lrand48 0 num else [])

end

/-! ### Pacing -/

/-- How many packets the events send. -/
def sent (es : List Event) : ℕ :=
  (es.map fun | .poll _ => 0 | .sendmmsg m => m.length).sum

/-- Nowhere in a row are more than `burst` packets sent without a wait in between. -/
def Paced (burst : ℕ) (es : List Event) : Prop :=
  ∀ seg, seg <:+: es → (∀ w, Event.poll w ∉ seg) → sent seg ≤ burst

/-- The same, if `c` packets have been sent since the last wait. -/
def PacedFrom (burst : ℕ) : ℕ → List Event → Prop
  | c, [] => c ≤ burst
  | c, .poll _ :: es => c ≤ burst ∧ PacedFrom burst 0 es
  | c, .sendmmsg m :: es => PacedFrom burst (c + m.length) es

section
variable {g : Msgs} {a : SndArgs} {sock : Socket} {lrand48 : ℕ → ℕ} {burst c : ℕ} {es es' : List Event} {m : List ℕ}

@[simp] theorem sent_nil : sent [] = 0 := rfl

@[simp] theorem sent_poll (w : ℕ) : sent (.poll w :: es) = sent es := by simp [sent]

@[simp] theorem sent_sendmmsg : sent (.sendmmsg m :: es) = m.length + sent es := by simp [sent]

@[simp] theorem sent_append : sent (es ++ es') = sent es + sent es' := by simp [sent]

theorem PacedFrom.le (h : PacedFrom burst c es) : c ≤ burst := by
  induction es generalizing c with
  | nil => exact h
  | cons e es ih =>
    cases e with
    | poll w => exact h.1
    | sendmmsg m => exact le_trans (Nat.le_add_right c m.length) (ih h)

/-- Up to the next wait. -/
theorem PacedFrom.le_of_prefix (h : PacedFrom burst c es) {seg : List Event} (hseg : seg <+: es)
    (hw : ∀ w, Event.poll w ∉ seg) : c + sent seg ≤ burst := by
  induction es generalizing c seg with
  | nil =>
    rw [List.prefix_nil.mp hseg]
    exact h
  | cons e es ih =>
    cases seg with
    | nil => simpa using h.le
    | cons e' seg =>
      obtain ⟨rfl, hrest⟩ := List.cons_prefix_cons.mp hseg
      cases e' with
      | poll w => exact absurd List.mem_cons_self (hw w)
      | sendmmsg m =>
        rw [sent_sendmmsg, ← Nat.add_assoc]
        exact ih h hrest fun w hm => hw w (List.mem_cons_of_mem _ hm)

theorem PacedFrom.tail {e : Event} (h : PacedFrom burst c (e :: es)) : ∃ c', PacedFrom burst c' es := by
  cases e with
  | poll w => exact ⟨0, h.2⟩
  | sendmmsg m => exact ⟨_, h⟩

theorem PacedFrom.paced (h : PacedFrom burst c es) : Paced burst es := by
  induction es generalizing c with
  | nil =>
    intro seg hseg _
    simp [List.infix_nil.mp hseg]
  | cons e es ih =>
    intro seg hseg hw
    rcases List.infix_cons_iff.mp hseg with hpre | hinf
    · exact le_trans (Nat.le_add_left _ c) (h.le_of_prefix hpre hw)
    · obtain ⟨c', h'⟩ := h.tail
      exact ih h' seg hinf hw

theorem Paced.of_cons {e : Event} (h : Paced burst (e :: es)) : Paced burst es :=
  fun seg hseg => h seg (List.infix_cons hseg)

theorem Paced.from (h : Paced burst es)
    (hpre : ∀ seg, seg <+: es → (∀ w, Event.poll w ∉ seg) → c + sent seg ≤ burst) : PacedFrom burst c es := by
  induction es generalizing c with
  | nil => exact hpre [] List.prefix_rfl (by simp)
  | cons e es ih =>
    cases e with
    | poll w =>
      refine ⟨by simpa using hpre [] List.nil_prefix (by simp), ih h.of_cons fun seg hseg hw => ?_⟩
      simpa using h seg (List.infix_cons hseg.isInfix) hw
    | sendmmsg m =>
      refine ih h.of_cons fun seg hseg hw => ?_
      have hle := hpre (.sendmmsg m :: seg) (List.cons_prefix_cons.mpr ⟨rfl, hseg⟩) (by simpa using hw)
      rwa [sent_sendmmsg, ← Nat.add_assoc] at hle

theorem paced_iff_pacedFrom : Paced burst es ↔ PacedFrom burst 0 es := by
  refine ⟨fun h => h.from fun seg hseg hw => ?_, PacedFrom.paced⟩
  rw [Nat.zero_add]
  exact h seg hseg.isInfix hw

/-! ### Rounds -/

theorem draws_length (r n : ℕ) : (draws g lrand48 r n).length = n := by simp [draws]

/-- The random messages are as many as a round can have. -/
def Drawn (g : Msgs) (a : SndArgs) (dmsgs : List ℕ) : Prop :=
  a.draw = true → dmsgs.length = g.num a.burst

theorem Drawn.roundMsgs_length {dmsgs : List ℕ} (h : Drawn g a dmsgs) (i : ℕ) :
    (roundMsgs g a i dmsgs).length = numRound g a i := by
  rw [roundMsgs]
  split_ifs with hdraw
  · rw [List.length_take, h hdraw]
    exact Nat.min_eq_left (numRound_le_num g a i)
  · simp

theorem Drawn.redraw {dmsgs : List ℕ} (h : Drawn g a dmsgs) {rc : ℕ} (hrc : rc ≤ g.num a.burst) (r : ℕ) :
    Drawn g a (redraw g a lrand48 rc r dmsgs) := by
  intro hdraw
  rw [GenPackets.redraw, if_pos hdraw, List.length_append, draws_length, List.length_drop, h hdraw]
  omega

theorem drawn_first (g : Msgs) (a : SndArgs) (lrand48 : ℕ → ℕ) :
    Drawn g a (if a.draw then draws g lrand48 0 (g.num a.burst) else []) := by
  intro hdraw
  rw [if_pos hdraw, draws_length]

theorem sndLoop_step (sock : Socket) (lrand48 : ℕ → ℕ) (k r : ℕ) {i : ℕ} (dmsgs : List ℕ) (hi : i < a.count) :
    sndLoop g a sock lrand48 k i r dmsgs =
      (if a.wait ≠ 0 ∧ i % a.burst = 0 then [Event.poll a.wait] else []) ++
        Event.sendmmsg ((roundMsgs g a i dmsgs).take (sock.accept k (numRound g a i))) ::
          sndLoop g a sock lrand48 (k + 1) (i + sock.accept k (numRound g a i)) (r + sock.accept k (numRound g a i))
            (redraw g a lrand48 (sock.accept k (numRound g a i)) r dmsgs) := by
  rw [sndLoop, if_pos hi]

/-- What one round does: it waits or not, and sends at least one packet. -/
theorem sndLoop_round (sock : Socket) (lrand48 : ℕ → ℕ) (k r : ℕ) {i : ℕ} {dmsgs : List ℕ} (hi : i < a.count)
    (hd : Drawn g a dmsgs) :
    ∃ m dmsgs', sndLoop g a sock lrand48 k i r dmsgs =
        (if a.wait ≠ 0 ∧ i % a.burst = 0 then [Event.poll a.wait] else []) ++
          Event.sendmmsg m :: sndLoop g a sock lrand48 (k + 1) (i + m.length) (r + m.length) dmsgs' ∧
      m.length = sock.accept k (numRound g a i) ∧ Drawn g a dmsgs' := by
  have hle := sock.accept_le k (numRound g a i)
  have hlen : ((roundMsgs g a i dmsgs).take (sock.accept k (numRound g a i))).length =
      sock.accept k (numRound g a i) := by
    rw [List.length_take, hd.roundMsgs_length]
    exact Nat.min_eq_left hle
  refine ⟨_, redraw g a lrand48 (sock.accept k (numRound g a i)) r dmsgs, ?_, hlen, ?_⟩
  · rw [sndLoop_step sock lrand48 k r dmsgs hi, hlen]
  · exact hd.redraw (le_trans hle (numRound_le_num g a i)) r

theorem sndLoop_done {k i : ℕ} (r : ℕ) {dmsgs : List ℕ} (hi : ¬ i < a.count) :
    sndLoop g a sock lrand48 k i r dmsgs = [] := by
  rw [sndLoop, if_neg hi]

/-- All packets that are left are sent. -/
theorem sent_sndLoop (sock : Socket) (lrand48 : ℕ → ℕ) (k r : ℕ) {i : ℕ} {dmsgs : List ℕ} (hi : i ≤ a.count)
    (hd : Drawn g a dmsgs) :
    i + sent (sndLoop g a sock lrand48 k i r dmsgs) = a.count := by
  induction hn : a.count - i using Nat.strong_induction_on generalizing k i r dmsgs with
  | _ n ih =>
    by_cases hlt : i < a.count
    · obtain ⟨m, dmsgs', heq, hm, hd'⟩ := sndLoop_round sock lrand48 k r hlt hd
      have hpos := sock.accept_pos k _ (numRound_pos g a hlt)
      have hle := le_trans (sock.accept_le k (numRound g a i)) (numRound_le_left g a i)
      have hrest := ih (a.count - (i + m.length)) (by omega) (k + 1) (r + m.length) (by omega) hd' rfl
      rw [heq, sent_append, sent_sendmmsg]
      split_ifs <;> simp only [sent_poll, sent_nil] <;> omega
    · rw [sndLoop_done r hlt, sent_nil]
      omega

/-! ### When bursts are kept -/

/-- Rounds then end where it waits. -/
theorem numRound_le_burst {i : ℕ} (h : a.count ≤ a.burst ∨ a.burst ∣ a.count) (hi : i < a.count) :
    i % a.burst + numRound g a i ≤ a.burst := by
  have hb := a.burst_pos
  rcases h with hle | ⟨q, hq⟩
  · have hround := numRound_le_left g a i
    rw [Nat.mod_eq_of_lt (by omega)]
    omega
  · have hmod := Nat.mod_lt i hb
    have hround : numRound g a i ≤ (a.count - i - 1) % a.burst + 1 := by
      rw [numRound_eq]
      exact Nat.min_le_right ..
    have hdiv : i / a.burst < q := Nat.div_lt_of_lt_mul (hq ▸ hi)
    obtain ⟨d, hd⟩ := Nat.exists_eq_add_of_lt hdiv
    have hleft : a.count - i - 1 = a.burst - i % a.burst - 1 + a.burst * d := by
      have hi' := Nat.div_add_mod i a.burst
      rw [hq, hd, Nat.mul_add, Nat.mul_add, Nat.mul_one]
      omega
    rw [hleft, Nat.add_mul_mod_self_left, Nat.mod_eq_of_lt (by omega)] at hround
    omega

/-- Since the last wait as many packets have been sent as the place where it next waits is passed by. -/
theorem sndLoop_pacedFrom {k i r : ℕ} {dmsgs : List ℕ} (h : a.count ≤ a.burst ∨ a.burst ∣ a.count) (hwait : a.wait ≠ 0)
    (hi : i ≤ a.count) (hc : c ≤ a.burst) (hci : i % a.burst ≠ 0 → c = i % a.burst) (hd : Drawn g a dmsgs) :
    PacedFrom a.burst c (sndLoop g a sock lrand48 k i r dmsgs) := by
  induction hn : a.count - i using Nat.strong_induction_on generalizing k i r c dmsgs with
  | _ n ih =>
    by_cases hlt : i < a.count
    · obtain ⟨m, dmsgs', heq, hm, hd'⟩ := sndLoop_round sock lrand48 k r hlt hd
      have hpos := sock.accept_pos k _ (numRound_pos g a hlt)
      have haccept := sock.accept_le k (numRound g a i)
      have hleft := numRound_le_left g a i
      have hround := numRound_le_burst (g := g) h hlt
      have hmod := Nat.mod_lt i a.burst_pos
      have hnext : (i + m.length) % a.burst ≠ 0 → i % a.burst + m.length = (i + m.length) % a.burst := by
        intro hne
        have hsum := Nat.mod_add_mod i a.burst m.length
        rcases Nat.lt_or_ge (i % a.burst + m.length) a.burst with hlt' | hge
        · rw [← hsum, Nat.mod_eq_of_lt hlt']
        · rw [← hsum, show i % a.burst + m.length = a.burst by omega, Nat.mod_self] at hne
          exact absurd rfl hne
      have hrest := fun c' hc' hci' => ih (a.count - (i + m.length)) (by omega) (k := k + 1) (r := r + m.length)
        (c := c') (by omega) hc' hci' hd' rfl
      rw [heq]
      split_ifs with hw
      · refine ⟨hc, hrest _ (by omega) fun hne => ?_⟩
        rw [← hnext hne, hw.2]
      · have hi0 : i % a.burst ≠ 0 := fun h0 => hw ⟨hwait, h0⟩
        rw [hci hi0]
        exact hrest _ (by omega) fun hne => hnext hne
    · rw [sndLoop_done r hlt]
      exact hc

/-! ### When they are not -/

/-- One packet at a time, until one is left of the first burst. -/
def slowSocket (burst : ℕ) : Socket where
  accept k n := if k + 1 < burst then min 1 n else n
  accept_pos k n h := by
    split_ifs <;> omega
  accept_le k n := by
    split_ifs <;> omega

/-- The last packet of the first burst is offered together with the next one. -/
theorem two_le_numRound (hlt : a.burst < a.count) (hdvd : ¬ a.burst ∣ a.count) :
    2 ≤ numRound g a (a.burst - 1) := by
  have hb := a.burst_pos
  have hb1 : a.burst ≠ 1 := fun h1 => hdvd (h1 ▸ one_dvd _)
  have hleft : a.count - (a.burst - 1) - 1 = a.count - a.burst := by omega
  have hmod : (a.count - a.burst) % a.burst ≠ 0 := by
    intro h0
    have hsum := Nat.dvd_add (Nat.dvd_of_mod_eq_zero h0) (dvd_refl a.burst)
    rw [Nat.sub_add_cancel hlt.le] at hsum
    exact hdvd hsum
  rw [numRound_eq, hleft, uioMaxiov]
  omega

theorem sndLoop_not_paced {i r : ℕ} {dmsgs : List ℕ} (hlt : a.burst < a.count) (hdvd : ¬ a.burst ∣ a.count)
    (hi : 0 < i) (hib : i < a.burst) (hd : Drawn g a dmsgs) :
    ¬ PacedFrom a.burst i (sndLoop g a (slowSocket a.burst) lrand48 i i r dmsgs) := by
  induction hn : a.burst - i generalizing i r dmsgs with
  | zero => omega
  | succ n ih =>
    obtain ⟨m, dmsgs', heq, hm, hd'⟩ :=
      sndLoop_round (slowSocket a.burst) lrand48 i r (by omega : i < a.count) hd
    have hpos := numRound_pos g a (by omega : i < a.count)
    rw [heq, if_neg (by rw [Nat.mod_eq_of_lt hib]; omega), List.nil_append]
    by_cases hlast : i + 1 < a.burst
    · have hm1 : m.length = 1 := by
        rw [hm]
        simp only [slowSocket, if_pos hlast]
        omega
      have hrest := ih (i := i + 1) (r := r + 1) (by omega) hlast hd' (by omega)
      rwa [PacedFrom, hm1]
    · have hm2 := two_le_numRound (g := g) hlt hdvd
      rw [show a.burst - 1 = i by omega] at hm2
      intro h
      have hle : i + m.length ≤ a.burst := PacedFrom.le h
      rw [hm] at hle
      simp only [slowSocket, if_neg hlast] at hle
      omega

theorem snd_not_paced (hlt : a.burst < a.count) (hdvd : ¬ a.burst ∣ a.count) (hwait : a.wait ≠ 0) :
    ¬ Paced a.burst (snd g a (slowSocket a.burst) lrand48) := by
  have hb := a.burst_pos
  have hb1 : a.burst ≠ 1 := fun h1 => hdvd (h1 ▸ one_dvd _)
  have hpos := numRound_pos g a (by omega : 0 < a.count)
  obtain ⟨m, dmsgs', heq, hm, hd'⟩ :=
    sndLoop_round (slowSocket a.burst) lrand48 0 (g.num a.burst) (by omega : 0 < a.count)
      (drawn_first g a lrand48)
  have hm1 : m.length = 1 := by
    rw [hm]
    simp only [slowSocket, if_pos (show 0 + 1 < a.burst by omega)]
    omega
  intro h
  rw [paced_iff_pacedFrom, snd, heq, if_pos ⟨hwait, Nat.zero_mod _⟩] at h
  have h' : PacedFrom a.burst (0 + m.length) _ := h.2
  rw [hm1, Nat.zero_add] at h'
  exact sndLoop_not_paced hlt hdvd Nat.one_pos (by omega) hd' h'

/-- `snd` sends all packets, and whatever the socket accepts at a time never more than a burst of them between two waits
exactly if all fit into one burst or fill the last one. -/
theorem snd_paced_iff (g : Msgs) (a : SndArgs) (lrand48 : ℕ → ℕ) (hwait : a.wait ≠ 0) :
    (∀ sock, Paced a.burst (snd g a sock lrand48) ∧ sent (snd g a sock lrand48) = a.count) ↔
      a.count ≤ a.burst ∨ a.burst ∣ a.count := by
  constructor
  · intro h
    by_contra hne
    obtain ⟨hlt, hdvd⟩ := not_or.mp hne
    exact snd_not_paced (Nat.lt_of_not_le hlt) hdvd hwait (h (slowSocket a.burst)).1
  · intro h sock
    constructor
    · rw [paced_iff_pacedFrom]
      exact sndLoop_pacedFrom h hwait (Nat.zero_le _) (Nat.zero_le _) (by simp) (drawn_first g a lrand48)
    · have hsent := sent_sndLoop sock lrand48 0 (g.num a.burst) (Nat.zero_le a.count) (drawn_first g a lrand48)
      rwa [Nat.zero_add] at hsent

end

/-- Takes all that is offered. -/
def fastSocket : Socket where
  accept _ n := n
  accept_pos _ _ h := h
  accept_le _ _ := le_rfl

/-- Six packets in bursts of three. -/
theorem snd_paced_iff_six :
    Paced 3 (snd ⟨1, by decide⟩ ⟨6, 3, 1, false, by decide⟩ fastSocket fun _ => 0) ∧
      sent (snd ⟨1, by decide⟩ ⟨6, 3, 1, false, by decide⟩ fastSocket fun _ => 0) = 6 :=
  (snd_paced_iff ⟨1, by decide⟩ ⟨6, 3, 1, false, by decide⟩ (fun _ => 0) (by decide)).mpr (.inr (by decide)) fastSocket

/-- Five packets in bursts of three. -/
def fiveByThree : SndArgs := ⟨5, 3, 1, false, by decide⟩

/-- All five are sent after the first wait. -/
theorem snd_unpaced :
    snd ⟨5, by decide⟩ fiveByThree fastSocket (fun _ => 0) = [.poll 1, .sendmmsg [0, 1], .sendmmsg [2, 3, 4]] ∧
      ¬ Paced 3 (snd ⟨5, by decide⟩ fiveByThree fastSocket fun _ => 0) := by
  have heq : snd ⟨5, by decide⟩ fiveByThree fastSocket (fun _ => 0) =
      [.poll 1, .sendmmsg [0, 1], .sendmmsg [2, 3, 4]] := by
    rw [snd, sndLoop_step _ _ _ _ _ (by decide), sndLoop_step _ _ _ _ _ (by decide), sndLoop_done _ (by decide)]
    rfl
  refine ⟨heq, fun h => ?_⟩
  rw [heq] at h
  exact absurd (h [.sendmmsg [0, 1], .sendmmsg [2, 3, 4]] ⟨[.poll 1], [], rfl⟩ (by simp)) (by decide)

end GenPackets

end NfpEstimator
