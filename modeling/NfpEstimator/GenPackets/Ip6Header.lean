import NfpEstimator.Stores

/-!
# Generated IPv6 packets

`write_ip6_header` puts as many extension headers between the IPv6 header and the upper layer as fit, and lets each
header announce the next one. `nsize` bytes are to be left for the upper layer, and that is what its callers pass: 8
for UDP, but 8 for TCP as well, whose header has 20. The chain of headers is always right; the TCP header leaves the
packet if the packet ends in the 12 bytes that are missing (`ip6_headers_iff`).

Addresses and random numbers are parameters, for each packet their own.
-/

namespace NfpEstimator

namespace GenPackets

open Store

/-- `a - b` of two `size_t`. -/
@[irreducible] def sizeSub (a b : ℕ) : ℕ := (a + (2 ^ 64 - b)) % 2 ^ 64

/-- The `struct addrs` of an IPv6 destination. -/
structure Addrs6 where
  mac : ℕ → ℕ
  /-- `sin6_addr.s6_addr` -/
  addr : ℕ → ℕ
  /-- `sin6_port`, in network byte order -/
  port : ℕ

/-- `*((uint16_t *) &b[off]) = htons(v)` -/
def storeHtons (off v : ℕ) : List Store := [⟨off, v / 256 % 256⟩, ⟨off + 1, v % 256⟩]

/-- `*((uint16_t *) &b[off]) = v` -/
def store16 (off v : ℕ) : List Store := [⟨off, v % 256⟩, ⟨off + 1, v / 256 % 256⟩]

/-- `*((uint32_t *) &b[off]) = htons(v)`; it is a word of two bytes that is stored into four. -/
def store32Htons (off v : ℕ) : List Store := storeHtons off v ++ [⟨off + 2, 0⟩, ⟨off + 3, 0⟩]

/-- `write_eth_header` -/
def writeEthHeader (a : Addrs6) (ethtype : ℕ) : List Store :=
  row 0 6 a.mac ++ [⟨6, 0x1a⟩, ⟨7, 0x35⟩, ⟨8, 0x16⟩, ⟨9, 0x7a⟩, ⟨10, 0x5a⟩, ⟨11, 0xd7⟩] ++ storeHtons 12 ethtype

/-! ### Extension headers -/

/-- `struct ipv6opts` -/
structure Ipv6opts where
  type : ℕ
  len : ℕ
  mul : ℕ

/-- The array `ipv6opts`, without the zero at its end. -/
def ipv6opts : List Ipv6opts :=
  [⟨0, 16, 8⟩, ⟨60, 16, 8⟩, ⟨43, 24, 8⟩, ⟨44, 8, 0⟩, ⟨51, 16, 4⟩, ⟨60, 16, 8⟩, ⟨43, 24, 8⟩, ⟨60, 16, 8⟩, ⟨43, 24, 8⟩,
    ⟨60, 16, 8⟩]

/-- An extension header that announces `nh`. -/
def optionHeader (o : Ipv6opts) (off nh : ℕ) : List Store :=
  [⟨off, nh⟩, ⟨off + 1, if o.mul ≠ 0 then (o.len - 8) / o.mul else 0⟩] ++ row (off + 2) (o.len - 2) fun _ => 0

/-- The header after `len` bytes at `off`: the first of `opts`, if it fits. -/
def nextHeader (psize nsize nextHdr off len : ℕ) : List Ipv6opts → ℕ
  | [] => nextHdr
  | o :: _ => if len + o.len + nsize ≤ sizeSub psize off then o.type else nextHdr

/-- The extension headers from `off` on, and where they end. -/
def optionHeaders (psize nsize nextHdr : ℕ) : List Ipv6opts → ℕ → List Store × ℕ
  | [], off => ([], off)
  | o :: os, off =>
    if o.len + nsize ≤ sizeSub psize off then
      let nh := nextHeader psize nsize nextHdr off o.len os
      let rest := optionHeaders psize nsize nextHdr os (off + o.len)
      (optionHeader o off nh ++ rest.1, rest.2)
    else ([], off)

/-- The fixed part of the IPv6 header, up to the next header. -/
def ip6Fixed (psize : ℕ) (a : Addrs6) : List Store :=
  writeEthHeader a 0x86dd ++ [⟨14, 0x60⟩, ⟨15, 0x00⟩] ++ storeHtons 16 0 ++ storeHtons 18 (psize - 14 - 40)

/-- `write_ip6_header`, for any array of options. -/
def ip6Header (opts : List Ipv6opts) (psize nsize : ℕ) (a : Addrs6) (nextHdr : ℕ) : List Store × ℕ :=
  let off := 14 + 40
  let nh := nextHeader psize nsize nextHdr off 0 opts
  let rest := optionHeaders psize nsize nextHdr opts off
  (ip6Fixed psize a ++ [⟨20, nh⟩, ⟨21, 1⟩] ++ row 22 16 (fun _ => 0xff) ++ row 38 16 a.addr ++ rest.1, rest.2)

/-- `write_ip6_header` -/
def writeIp6Header : ℕ → ℕ → Addrs6 → ℕ → List Store × ℕ := ip6Header ipv6opts

/-! ### Upper layers -/

section
variable (psize : ℕ) (a : Addrs6) (lrand48 : ℕ → ℕ)

/-- Source and destination port. -/
def writePorts (off : ℕ) : List Store :=
  storeHtons off (lrand48 0 % 32768 + 32768) ++
    if a.port ≠ 0 then store16 (off + 2) a.port else storeHtons (off + 2) (lrand48 1 % 32768)

/-- The UDP header. -/
def udpHeader (off : ℕ) : List Store :=
  writePorts a lrand48 off ++ storeHtons (off + 4) (psize - off) ++ storeHtons (off + 6) 0

/-- The TCP header. -/
def tcpHeader (off : ℕ) : List Store :=
  let sequence := lrand48 (if a.port ≠ 0 then 1 else 2) % 4294967296
  writePorts a lrand48 off ++ store32Htons (off + 4) sequence ++ store32Htons (off + 8) 0 ++
    [⟨off + 12, 0x50⟩, ⟨off + 13, 0x02⟩] ++ storeHtons (off + 14) 0 ++ storeHtons (off + 16) 0 ++
    storeHtons (off + 18) 0

/-- `write_udp6_header` -/
def writeUdp6Header : List Store :=
  let ip := writeIp6Header psize 8 a 17
  ip.1 ++ udpHeader psize a lrand48 ip.2

/-- `write_tcp6_header` -/
def writeTcp6Header : List Store :=
  let ip := writeIp6Header psize 8 a 6
  ip.1 ++ tcpHeader a lrand48 ip.2

/-- `write_payload`, with the value that the payload mode gives. -/
def writePayload (off size value : ℕ) : List Store :=
  if size < 8 then row off size fun i => value / 2 ^ (8 * (size - 1 - i)) % 256
  else row off 8 (fun i => value / 2 ^ (8 * (7 - i)) % 256) ++ row (off + 8) (size - 8) fun _ => 0

/-- The packets of `prepare_fill` in `data`: `w i` writes the header of the `i`th one. -/
def prepareFill (numUniq hsize size : ℕ) (value : ℕ → ℕ) (w : ℕ → List Store) : List Store :=
  (List.range numUniq).flatMap fun i => shift (i * (hsize + size)) (writePayload hsize size (value i) ++ w i)

end

/-! ### Chains of headers -/

/-- The length of an extension header of a type, with the length field `len`; there is none for an upper layer. -/
def headerLength (type len : ℕ) : Option ℕ :=
  match type with
  | 0 | 43 | 60 => some (8 * (len + 1))
  | 44 => some 8
  | 51 => some (4 * (len + 2))
  | _ => none

/-- In `b` a chain of headers goes from one of type `nh` at `off` to the upper layer `proto` at `off'`; the extension
headers that it passes are at `hs`, each with its length. -/
inductive Chain (b : ℕ → ℕ) : ℕ → ℕ → List (ℕ × ℕ) → ℕ → ℕ → Prop
  | upper {nh off : ℕ} : headerLength nh (b (off + 1)) = none → Chain b nh off [] nh off
  | ext {nh off n : ℕ} {hs : List (ℕ × ℕ)} {proto off' : ℕ} : headerLength nh (b (off + 1)) = some n →
      Chain b (b off) (off + n) hs proto off' → Chain b nh off ((off, n) :: hs) proto off'

/-- A packet of `psize` bytes has a chain of headers to an upper layer with a header of `size` bytes at `off`, all of
them inside of the packet. -/
structure WellFormed (b : ℕ → ℕ) (psize proto size off : ℕ) : Prop where
  chain : ∃ hs, Chain b (b 20) (14 + 40) hs proto off ∧ ∀ h ∈ hs, h.1 + h.2 ≤ psize
  upper : off + size ≤ psize

/-- The length that is written into the header of an option is its length. -/
def Ipv6opts.WF (o : Ipv6opts) : Prop :=
  2 ≤ o.len ∧ headerLength o.type (if o.mul ≠ 0 then (o.len - 8) / o.mul else 0) = some o.len

theorem ipv6opts_wf : ∀ o ∈ ipv6opts, o.WF := by
  simp [ipv6opts, Ipv6opts.WF, headerLength]

section
variable {psize nsize nextHdr off : ℕ} {opts os : List Ipv6opts} {o : Ipv6opts} {b : ℕ → ℕ}

theorem sizeSub_eq {a b : ℕ} (hb : b ≤ a) (ha : a < 2 ^ 64) : sizeSub a b = a - b := by
  rw [sizeSub]
  omega

/-- Each header announces what comes next. -/
theorem nextHeader_after {l : ℕ} (hp : psize < 2 ^ 64) (hoff : off ≤ psize) (h : l + nsize ≤ sizeSub psize off) :
    nextHeader psize nsize nextHdr off l opts = nextHeader psize nsize nextHdr (off + l) 0 opts := by
  cases opts with
  | nil => rfl
  | cons o os =>
    rw [sizeSub_eq hoff hp] at h
    refine if_congr ?_ rfl rfl
    rw [sizeSub_eq hoff hp, sizeSub_eq (by omega) hp]
    omega

theorem optionHeaders_cons (hp : psize < 2 ^ 64) (hoff : off ≤ psize) (h : o.len + nsize ≤ sizeSub psize off) :
    optionHeaders psize nsize nextHdr (o :: os) off =
      (optionHeader o off (nextHeader psize nsize nextHdr (off + o.len) 0 os) ++
        (optionHeaders psize nsize nextHdr os (off + o.len)).1,
        (optionHeaders psize nsize nextHdr os (off + o.len)).2) := by
  rw [optionHeaders, if_pos h, nextHeader_after hp hoff h]

theorem optionHeaders_stop (h : ¬ o.len + nsize ≤ sizeSub psize off) :
    optionHeaders psize nsize nextHdr (o :: os) off = ([], off) := by
  rw [optionHeaders, if_neg h]

/-- There is room for the upper layer, as much as is asked for. -/
theorem optionHeaders_end (nextHdr : ℕ) (opts : List Ipv6opts) (hp : psize < 2 ^ 64) (hoff : off + nsize ≤ psize) :
    off ≤ (optionHeaders psize nsize nextHdr opts off).2 ∧
      (optionHeaders psize nsize nextHdr opts off).2 + nsize ≤ psize := by
  induction opts generalizing off with
  | nil => exact ⟨Nat.le_refl off, hoff⟩
  | cons o os ih =>
    by_cases h : o.len + nsize ≤ sizeSub psize off
    · rw [optionHeaders_cons hp (by omega) h]
      rw [sizeSub_eq (by omega) hp] at h
      have hrest := ih (show off + o.len + nsize ≤ psize by omega)
      exact ⟨Nat.le_trans (Nat.le_add_right off o.len) hrest.1, hrest.2⟩
    · rw [optionHeaders_stop h]
      exact ⟨Nat.le_refl off, hoff⟩

theorem optionHeader_within {nh : ℕ} (ho : 2 ≤ o.len) : Within off (off + o.len) (optionHeader o off nh) := by
  simp only [optionHeader, within_append, within_cons, within_nil]
  exact ⟨⟨by omega, by omega, trivial⟩, within_row (by omega)⟩

/-- They are written between the IPv6 header and the upper layer. -/
theorem optionHeaders_within (nextHdr : ℕ) (hopts : ∀ o ∈ opts, o.WF) (hp : psize < 2 ^ 64)
    (hoff : off + nsize ≤ psize) :
    Within off (optionHeaders psize nsize nextHdr opts off).2 (optionHeaders psize nsize nextHdr opts off).1 := by
  induction opts generalizing off with
  | nil => exact within_nil
  | cons o os ih =>
    by_cases h : o.len + nsize ≤ sizeSub psize off
    · rw [optionHeaders_cons hp (by omega) h]
      rw [sizeSub_eq (by omega) hp] at h
      have hroom : off + o.len + nsize ≤ psize := by omega
      have hrest := ih (fun o' ho' => hopts o' (List.mem_cons_of_mem _ ho')) hroom
      have hend := optionHeaders_end nextHdr os hp hroom
      rw [within_append]
      exact ⟨(optionHeader_within (hopts o List.mem_cons_self).1).mono (Nat.le_refl _) hend.1,
        hrest.mono (Nat.le_add_right ..) (Nat.le_refl _)⟩
    · rw [optionHeaders_stop h]
      exact within_nil

theorem after_optionHeader (m : ℕ → ℕ) (nh : ℕ) {ss : List Store} (ho : 2 ≤ o.len)
    (hss : ∀ s ∈ ss, off + o.len ≤ s.place) :
    after m (optionHeader o off nh ++ ss) off = nh ∧
      after m (optionHeader o off nh ++ ss) (off + 1) = if o.mul ≠ 0 then (o.len - 8) / o.mul else 0 := by
  have hrow : Within (off + 2) (off + o.len) (row (off + 2) (o.len - 2) fun _ => 0) := within_row (by omega)
  constructor
  · refine after_last m [] ⟨off, nh⟩ fun t ht => ?_
    show t.place ≠ off
    rcases List.mem_append.mp ht with h | h
    · rcases List.mem_cons.mp h with rfl | h
      · exact Nat.succ_ne_self off
      · exact Nat.ne_of_gt (Nat.lt_of_lt_of_le (by omega) (hrow t h).1)
    · exact Nat.ne_of_gt (Nat.lt_of_lt_of_le (by omega) (hss t h))
  · refine after_last m [⟨off, nh⟩] ⟨off + 1, _⟩ fun t ht => ?_
    show t.place ≠ off + 1
    rcases List.mem_append.mp ht with h | h
    · exact Nat.ne_of_gt (hrow t h).1
    · exact Nat.ne_of_gt (Nat.lt_of_lt_of_le (by omega) (hss t h))

/-- **The chain**, read after whatever else is written behind it. -/
theorem optionHeaders_chain (hopts : ∀ o ∈ opts, o.WF) (hnext : ∀ l, headerLength nextHdr l = none)
    (hp : psize < 2 ^ 64) (hoff : off + nsize ≤ psize) (m : ℕ → ℕ) {ss : List Store}
    (hss : ∀ s ∈ ss, (optionHeaders psize nsize nextHdr opts off).2 ≤ s.place)
    (hb : b = after m ((optionHeaders psize nsize nextHdr opts off).1 ++ ss)) :
    ∃ hs, Chain b (nextHeader psize nsize nextHdr off 0 opts) off hs nextHdr
        (optionHeaders psize nsize nextHdr opts off).2 ∧
      ∀ h ∈ hs, h.1 + h.2 ≤ (optionHeaders psize nsize nextHdr opts off).2 := by
  induction opts generalizing off m with
  | nil => exact ⟨[], Chain.upper (hnext _), nofun⟩
  | cons o os ih =>
    by_cases h : o.len + nsize ≤ sizeSub psize off
    · have hwf := hopts o List.mem_cons_self
      have hos : ∀ o' ∈ os, o'.WF := fun o' ho' => hopts o' (List.mem_cons_of_mem _ ho')
      rw [optionHeaders_cons hp (by omega) h] at hss hb ⊢
      have hfit := h
      rw [sizeSub_eq (by omega) hp] at h
      have hroom : off + o.len + nsize ≤ psize := by omega
      have hend := optionHeaders_end nextHdr os hp hroom
      have hwithin := optionHeaders_within nextHdr hos hp hroom
      rw [List.append_assoc] at hb
      have hbehind : ∀ s ∈ (optionHeaders psize nsize nextHdr os (off + o.len)).1 ++ ss, off + o.len ≤ s.place := by
        intro s hs
        rcases List.mem_append.mp hs with hs | hs
        · exact (hwithin s hs).1
        · exact Nat.le_trans hend.1 (hss s hs)
      obtain ⟨htype, hlen⟩ := after_optionHeader m (nextHeader psize nsize nextHdr (off + o.len) 0 os) hwf.1 hbehind
      obtain ⟨hs, hchain, hle⟩ := ih hos hroom (after m (optionHeader o off _)) hss (hb.trans after_append)
      rw [← hb] at htype hlen
      have hfirst : nextHeader psize nsize nextHdr off 0 (o :: os) = o.type := by
        rw [nextHeader, if_pos (by rwa [Nat.zero_add])]
      refine ⟨(off, o.len) :: hs, ?_, ?_⟩
      · rw [hfirst]
        refine Chain.ext ?_ (htype ▸ hchain)
        rw [hlen]
        exact hwf.2
      · intro x hx
        rcases List.mem_cons.mp hx with rfl | hx
        · exact hend.1
        · exact hle x hx
    · rw [optionHeaders_stop h, nextHeader, if_neg (by rwa [Nat.zero_add])]
      exact ⟨[], Chain.upper (hnext _), nofun⟩

end

/-! ### Packets -/

section
variable {opts : List Ipv6opts} {psize nsize size nextHdr : ℕ} {a : Addrs6} {lrand48 : ℕ → ℕ} {m : ℕ → ℕ}
  {ss : List Store}

theorem ip6Header_next (hopts : ∀ o ∈ opts, o.WF) (hp : psize < 2 ^ 64) (hoff : 14 + 40 + nsize ≤ psize)
    (hss : ∀ s ∈ ss, (ip6Header opts psize nsize a nextHdr).2 ≤ s.place) :
    after m ((ip6Header opts psize nsize a nextHdr).1 ++ ss) 20 = nextHeader psize nsize nextHdr (14 + 40) 0 opts := by
  have hend := optionHeaders_end nextHdr opts hp hoff
  have hwithin := optionHeaders_within nextHdr hopts hp hoff
  have haddrs : Within 22 54 (row 22 16 (fun _ => 0xff) ++ row 38 16 a.addr) :=
    within_append.mpr ⟨within_row (by omega), within_row (by omega)⟩
  have hsplit : (ip6Header opts psize nsize a nextHdr).1 ++ ss =
      ip6Fixed psize a ++ ⟨20, nextHeader psize nsize nextHdr (14 + 40) 0 opts⟩ :: ⟨21, 1⟩ ::
        (row 22 16 (fun _ => 0xff) ++ row 38 16 a.addr ++
          ((optionHeaders psize nsize nextHdr opts (14 + 40)).1 ++ ss)) := by
    simp only [ip6Header, List.append_assoc, List.cons_append, List.nil_append]
  rw [hsplit]
  refine after_last m _ ⟨20, _⟩ fun t ht => Nat.ne_of_gt ?_
  show 20 < t.place
  rcases List.mem_cons.mp ht with rfl | ht
  · decide
  rcases List.mem_append.mp ht with ht | ht
  · exact Nat.lt_of_lt_of_le (by decide) (haddrs t ht).1
  rcases List.mem_append.mp ht with ht | ht
  · exact Nat.lt_of_lt_of_le (by decide) (hwithin t ht).1
  · exact Nat.lt_of_lt_of_le (by decide) (Nat.le_trans hend.1 (hss t ht))

/-- Whatever is written behind the extension headers, the chain is right. -/
theorem ip6Header_wellFormed (hopts : ∀ o ∈ opts, o.WF) (hnext : ∀ l, headerLength nextHdr l = none)
    (hp : psize < 2 ^ 64) (hoff : 14 + 40 + nsize ≤ psize)
    (hss : ∀ s ∈ ss, (ip6Header opts psize nsize a nextHdr).2 ≤ s.place) :
    WellFormed (after m ((ip6Header opts psize nsize a nextHdr).1 ++ ss)) psize nextHdr size
        (ip6Header opts psize nsize a nextHdr).2 ↔
      (ip6Header opts psize nsize a nextHdr).2 + size ≤ psize := by
  refine ⟨WellFormed.upper, fun hupper => ⟨?_, hupper⟩⟩
  have hend := optionHeaders_end nextHdr opts hp hoff
  have hsplit : (ip6Header opts psize nsize a nextHdr).1 ++ ss =
      ip6Fixed psize a ++ [⟨20, nextHeader psize nsize nextHdr (14 + 40) 0 opts⟩, ⟨21, 1⟩] ++
        row 22 16 (fun _ => 0xff) ++ row 38 16 a.addr ++
        ((optionHeaders psize nsize nextHdr opts (14 + 40)).1 ++ ss) := by
    simp only [ip6Header, List.append_assoc]
  rw [ip6Header_next hopts hp hoff hss, hsplit, after_append]
  obtain ⟨hs, hchain, hle⟩ := optionHeaders_chain hopts hnext hp hoff _ hss rfl
  exact ⟨hs, hchain, fun h hh => Nat.le_trans (hle h hh) (Nat.le_trans (Nat.le_add_right _ _) hend.2)⟩

theorem storeHtons_within (off v : ℕ) : Within off (off + 2) (storeHtons off v) := by
  simp only [storeHtons, within_cons, within_nil, and_true]
  omega

theorem store32Htons_within (off v : ℕ) : Within off (off + 4) (store32Htons off v) := by
  simp only [store32Htons, storeHtons, within_append, within_cons, within_nil, and_true]
  omega

theorem writePorts_within (off : ℕ) : Within off (off + 4) (writePorts a lrand48 off) := by
  rw [writePorts, within_append]
  refine ⟨(storeHtons_within _ _).mono (by omega) (by omega), ?_⟩
  split_ifs
  · simp only [store16, within_cons, within_nil, and_true]
    omega
  · exact (storeHtons_within _ _).mono (by omega) (by omega)

theorem udpHeader_within (off : ℕ) : Within off (off + 8) (udpHeader psize a lrand48 off) := by
  simp only [udpHeader, within_append]
  exact ⟨⟨(writePorts_within off).mono (by omega) (by omega), (storeHtons_within _ _).mono (by omega) (by omega)⟩,
    (storeHtons_within _ _).mono (by omega) (by omega)⟩

theorem tcpHeader_within (off : ℕ) : Within off (off + 20) (tcpHeader a lrand48 off) := by
  simp only [tcpHeader, within_append, within_cons, within_nil]
  refine ⟨⟨⟨⟨⟨⟨(writePorts_within off).mono (by omega) (by omega), ?_⟩, ?_⟩, by omega, by omega, trivial⟩, ?_⟩, ?_⟩, ?_⟩
  · exact (store32Htons_within _ _).mono (by omega) (by omega)
  · exact (store32Htons_within _ _).mono (by omega) (by omega)
  · exact (storeHtons_within _ _).mono (by omega) (by omega)
  · exact (storeHtons_within _ _).mono (by omega) (by omega)
  · exact (storeHtons_within _ _).mono (by omega) (by omega)

theorem ip6Header_snd :
    (ip6Header opts psize nsize a nextHdr).2 = (optionHeaders psize nsize nextHdr opts (14 + 40)).2 := rfl

theorem ip6Header_end (opts : List Ipv6opts) (a : Addrs6) (nextHdr : ℕ) (hp : psize < 2 ^ 64)
    (hoff : 14 + 40 + nsize ≤ psize) :
    (ip6Header opts psize nsize a nextHdr).2 + nsize ≤ psize :=
  (optionHeaders_end nextHdr opts hp hoff).2

/-- An upper layer behind the extension headers, for any array of options. -/
theorem ip6Header_upper (hopts : ∀ o ∈ opts, o.WF) (hnext : ∀ l, headerLength nextHdr l = none)
    (hp : psize < 2 ^ 64) (hoff : 14 + 40 + nsize ≤ psize) {upper : List Store} {n : ℕ}
    (hupper : Within (ip6Header opts psize nsize a nextHdr).2 n upper) (hss : ∀ s ∈ ss, psize ≤ s.place) :
    WellFormed (after m ((ip6Header opts psize nsize a nextHdr).1 ++ upper ++ ss)) psize nextHdr size
        (ip6Header opts psize nsize a nextHdr).2 ↔
      (ip6Header opts psize nsize a nextHdr).2 + size ≤ psize := by
  have hend := ip6Header_end opts a nextHdr hp hoff
  rw [List.append_assoc]
  refine ip6Header_wellFormed hopts hnext hp hoff fun s hs => ?_
  rcases List.mem_append.mp hs with hs | hs
  · exact (hupper s hs).1
  · exact Nat.le_trans (Nat.le_trans (Nat.le_add_right _ _) hend) (hss s hs)

theorem writeUdp6Header_wellFormed (hp : psize < 2 ^ 64) (hsize : 14 + 40 + 8 ≤ psize)
    (hss : ∀ s ∈ ss, psize ≤ s.place) :
    WellFormed (after m (writeUdp6Header psize a lrand48 ++ ss)) psize 17 8 (writeIp6Header psize 8 a 17).2 := by
  have hopts := ipv6opts_wf
  rw [writeUdp6Header, writeIp6Header]
  generalize ipv6opts = opts at hopts ⊢
  refine (ip6Header_upper hopts (fun _ => rfl) hp hsize (udpHeader_within _) hss).mpr ?_
  exact ip6Header_end opts a 17 hp hsize

/-- Eight bytes are kept free, and what matters is whether twenty are. -/
theorem writeTcp6Header_wellFormed (hp : psize < 2 ^ 64) (hsize : 14 + 40 + 8 ≤ psize)
    (hss : ∀ s ∈ ss, psize ≤ s.place) :
    WellFormed (after m (writeTcp6Header psize a lrand48 ++ ss)) psize 6 20 (writeIp6Header psize 8 a 6).2 ↔
      (writeIp6Header psize 8 a 6).2 + 20 ≤ psize := by
  have hopts := ipv6opts_wf
  rw [writeTcp6Header, writeIp6Header]
  generalize ipv6opts = opts at hopts ⊢
  exact ip6Header_upper hopts (fun _ => rfl) hp hsize (tcpHeader_within _) hss

end

/-- Packet `i` of packets of `psize` bytes. -/
def packet (psize i : ℕ) (data : ℕ → ℕ) : ℕ → ℕ := fun j => data (i * psize + j)

/-- What is in a packet in the end: its own header, and whatever the later packets have stored from their start on. -/
theorem packet_prepareFill {num hsize size i : ℕ} (value : ℕ → ℕ) (w : ℕ → List Store) (hi : i < num) (m : ℕ → ℕ) :
    ∃ m' ss, (∀ s ∈ ss, hsize + size ≤ s.place) ∧
      packet (hsize + size) i (after m (prepareFill num hsize size value w)) = after m' (w i ++ ss) := by
  obtain ⟨r, rfl⟩ := Nat.exists_eq_add_of_lt hi
  let p : ℕ → List Store := fun i => writePayload hsize size (value i) ++ w i
  let later : List Store :=
    (List.range r).flatMap fun t => shift ((t + 1) * (hsize + size)) (p (i + 1 + t))
  let before : List Store := (List.range i).flatMap fun t => shift (t * (hsize + size)) (p t)
  have hsplit : prepareFill (i + r + 1) hsize size value w =
      before ++ shift (i * (hsize + size)) (writePayload hsize size (value i) ++ (w i ++ later)) := by
    have hshift : shift (i * (hsize + size)) later =
        (List.range r).flatMap fun t => shift ((i + 1 + t) * (hsize + size)) (p (i + 1 + t)) := by
      rw [shift_flatMap]
      refine List.flatMap_congr fun t _ => ?_
      rw [shift_shift, ← Nat.add_mul]
      congr 2
      omega
    rw [← List.append_assoc, shift_append, hshift, prepareFill, show i + r + 1 = i + 1 + r by omega, List.range_add,
      List.range_succ, List.flatMap_append, List.flatMap_append, List.flatMap_singleton, List.flatMap_map,
      List.append_assoc]
  refine ⟨after (packet (hsize + size) i (after m before)) (writePayload hsize size (value i)), later, ?_, ?_⟩
  · intro s hs
    obtain ⟨t, -, hs⟩ := List.mem_flatMap.mp hs
    obtain ⟨s', -, rfl⟩ := List.mem_map.mp hs
    show hsize + size ≤ (t + 1) * (hsize + size) + s'.place
    rw [Nat.succ_mul]
    omega
  · funext j
    rw [packet, hsplit, after_append, after_shift, after_append]
    rfl

/-! ### Room -/

/-- Where the `k`th extension header ends, counted from the first one's start. -/
def optsEnd (opts : List Ipv6opts) (k : ℕ) : ℕ := ((opts.take k).map Ipv6opts.len).sum

/-- What is left behind the extension headers is enough for `usize` bytes exactly if there is no header that fits only
because it leaves less. -/
theorem optionHeaders_room_iff {psize nsize usize nextHdr off : ℕ} {opts : List Ipv6opts} (hp : psize < 2 ^ 64)
    (hoff : off + usize ≤ psize) :
    (optionHeaders psize nsize nextHdr opts off).2 + usize ≤ psize ↔
      ∀ k, ¬ (off + optsEnd opts (k + 1) + nsize ≤ psize ∧ psize < off + optsEnd opts (k + 1) + usize) := by
  induction opts generalizing off with
  | nil =>
    simp only [optionHeaders, optsEnd, List.take_nil, List.map_nil, List.sum_nil]
    exact ⟨fun _ _ => by omega, fun _ => hoff⟩
  | cons o os ih =>
    have hend : ∀ k, optsEnd (o :: os) (k + 1) = o.len + optsEnd os k := fun k => by
      simp [optsEnd]
    simp only [hend]
    by_cases h : o.len + nsize ≤ sizeSub psize off
    · rw [optionHeaders_cons hp (by omega) h]
      rw [sizeSub_eq (by omega) hp] at h
      by_cases hu : off + o.len + usize ≤ psize
      · rw [ih hu]
        constructor
        · intro hk k
          cases k with
          | zero =>
            simp only [optsEnd, List.take_zero, List.map_nil, List.sum_nil]
            omega
          | succ k =>
            have := hk k
            omega
        · intro hk k
          have := hk (k + 1)
          omega
      · have hlast := (optionHeaders_end nextHdr os hp (show off + o.len + nsize ≤ psize by omega)).1
        constructor
        · intro hroom
          dsimp only at hroom
          omega
        · intro hk
          have h0 := hk 0
          simp only [optsEnd, List.take_zero, List.map_nil, List.sum_nil] at h0
          omega
    · rw [optionHeaders_stop h]
      rw [sizeSub_eq (by omega) hp] at h
      exact ⟨fun _ k => by omega, fun _ => hoff⟩

theorem writeTcp6_room_iff {psize : ℕ} {a : Addrs6} (hp : psize < 2 ^ 64) (hsize : 14 + 40 + 20 ≤ psize) :
    (writeIp6Header psize 8 a 6).2 + 20 ≤ psize ↔
      ∀ k, ¬ (14 + 40 + optsEnd ipv6opts (k + 1) + 8 ≤ psize ∧ psize < 14 + 40 + optsEnd ipv6opts (k + 1) + 20) := by
  rw [writeIp6Header]
  generalize ipv6opts = opts
  rw [ip6Header_snd]
  exact optionHeaders_room_iff hp hsize

/-- **Every UDP packet is well-formed, and a TCP packet is exactly if it does not end in the last 12 of the 20 bytes
behind one of the extension headers.** -/
theorem ip6_headers_iff {num size i : ℕ} (a : ℕ → Addrs6) (lrand48 : ℕ → ℕ → ℕ) (value : ℕ → ℕ) (m : ℕ → ℕ)
    (hi : i < num) (hsize : 14 + 40 + 20 + size < 2 ^ 64) :
    let udp := 14 + 40 + 8 + size
    let tcp := 14 + 40 + 20 + size
    WellFormed (packet udp i (after m (prepareFill num (14 + 40 + 8) size value fun i =>
        writeUdp6Header udp (a i) (lrand48 i)))) udp 17 8 (writeIp6Header udp 8 (a i) 17).2 ∧
      (WellFormed (packet tcp i (after m (prepareFill num (14 + 40 + 20) size value fun i =>
          writeTcp6Header tcp (a i) (lrand48 i)))) tcp 6 20 (writeIp6Header tcp 8 (a i) 6).2 ↔
        ∀ k, ¬ (14 + 40 + optsEnd ipv6opts (k + 1) + 8 ≤ tcp ∧ tcp < 14 + 40 + optsEnd ipv6opts (k + 1) + 20)) := by
  intro udp tcp
  constructor
  · obtain ⟨m', ss, hss, heq⟩ := packet_prepareFill value (fun i => writeUdp6Header udp (a i) (lrand48 i)) hi m
    rw [heq]
    exact writeUdp6Header_wellFormed (by omega) (by omega) hss
  · obtain ⟨m', ss, hss, heq⟩ := packet_prepareFill value (fun i => writeTcp6Header tcp (a i) (lrand48 i)) hi m
    rw [heq, writeTcp6Header_wellFormed (by omega) (by omega) hss]
    exact writeTcp6_room_iff hsize (by omega)

/-- Without any payload both are. -/
theorem ip6_headers_iff_empty :
    let a : Addrs6 := ⟨fun _ => 0, fun _ => 0, 0⟩
    WellFormed (packet 62 0 (after (fun _ => 0) (prepareFill 1 62 0 (fun _ => 0) fun _ =>
        writeUdp6Header 62 a fun _ => 0))) 62 17 8 (writeIp6Header 62 8 a 17).2 ∧
      WellFormed (packet 74 0 (after (fun _ => 0) (prepareFill 1 74 0 (fun _ => 0) fun _ =>
        writeTcp6Header 74 a fun _ => 0))) 74 6 20 (writeIp6Header 74 8 a 6).2 := by
  intro a
  have h := ip6_headers_iff (fun _ => a) (fun _ _ => 0) (fun _ => 0) (fun _ => 0) Nat.one_pos
    (show 14 + 40 + 20 + 0 < 2 ^ 64 by decide)
  refine ⟨h.1, h.2.mpr fun k hk => ?_⟩
  have hfirst : 16 ≤ optsEnd ipv6opts (k + 1) := Nat.le_add_right 16 _
  omega

/-- With a payload of four bytes the TCP header begins at byte 70 and is written up to byte 89 of a packet of 78. -/
theorem ip6_tcp_outside :
    let a : Addrs6 := ⟨fun _ => 0, fun _ => 0, 0⟩
    (writeIp6Header 78 8 a 6).2 = 70 ∧ ⟨89, 0⟩ ∈ writeTcp6Header 78 a (fun _ => 0) ∧
      ¬ WellFormed (packet 78 0 (after (fun _ => 0) (prepareFill 1 74 4 (fun _ => 0) fun _ =>
        writeTcp6Header 78 a fun _ => 0))) 78 6 20 (writeIp6Header 78 8 a 6).2 := by
  intro a
  have hoff : (writeIp6Header 78 8 a 6).2 = 70 := by decide +kernel
  refine ⟨hoff, by decide +kernel, fun h => ?_⟩
  have hupper := h.upper
  rw [hoff] at hupper
  exact absurd hupper (by decide)

end GenPackets

end NfpEstimator
