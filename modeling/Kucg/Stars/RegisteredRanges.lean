import Kucg.Stars.AllgathervRolling
import Kucg.Stars.AlltoallvPairwise

/-! The memory that the offloaded allgatherv and the offloaded alltoallv register.

    The length of a buffer comes from a scan that looks for the largest displacement and takes the
    end of its block, in `int` and times the size of the type. The scan starts at zero and goes on
    to a block only when its displacement is larger, so that the length is the end of the first of
    the farthest blocks (`scannedSize_eq`), or zero where no displacement is positive. What is put
    lies at displacements times the extent, and may reach further. -/

namespace Kucg.Stars

open Kucg.Algo Kucg.Lib

/-! ### The scan -/

/-- A round of the scan, with `max_offset` and `count`. An `int` that overflows is `none`. -/
def scanStep (displs : ℕ → ℤ) (counts : ℕ → ℕ) (acc : ℤ × ℤ) (i : ℕ) : Option (ℤ × ℤ) :=
  if acc.1 < displs i then
    let count := displs i + counts i
    if count < 2 ^ 31 then some (displs i, count) else none
  else some acc

/-- The scan of the blocks of `n` ranks. -/
def scannedSize (n : ℕ) (displs : ℕ → ℤ) (counts : ℕ → ℕ) (dtSize : ℕ) : Option ℕ :=
  ((List.range n).foldlM (scanStep displs counts) (0, 0)).map fun acc => acc.2.toNat * dtSize

/-- `allgatherv_rolling rbuf_size`. -/
def rbufSize (args : AllgathervArgs) (size : ℕ) : Option ℕ :=
  scannedSize size args.displs args.recvcounts args.recvSize

/-- `alltoallv_pairwise put_max_size`. -/
def putMaxSize (args : AlltoallvArgs) (size : ℕ) : Option ℕ :=
  scannedSize size args.sdispls args.sendcounts args.sendSize

/-- `ucg_planc_stars_alltoallv_pairwise_caculate_rbuf_size`. -/
def caculateRbufSize (args : AlltoallvArgs) (size : ℕ) : Option ℕ :=
  scannedSize size args.rdispls args.recvcounts args.recvSize

/-- Block `i` is farther from the start than zero and all blocks before it. -/
def Farther (displs : ℕ → ℤ) (i : ℕ) : Prop := 0 < displs i ∧ ∀ j < i, displs j < displs i

/-- No block that the scan goes on to ends at `2 ^ 31` elements or beyond. -/
def EndsFit (n : ℕ) (displs : ℕ → ℤ) (counts : ℕ → ℕ) : Prop :=
  ∀ i < n, Farther displs i → displs i + counts i < 2 ^ 31

/-- Block `i` is the first one of those that are the farthest from the start. -/
def FirstFarthest (n : ℕ) (displs : ℕ → ℤ) (i : ℕ) : Prop :=
  i < n ∧ Farther displs i ∧ ∀ j < n, displs j ≤ displs i

/-- A position is not behind the end of the first of the farthest blocks; or it is not behind the
    start, and no block is. -/
def EndsBy (n : ℕ) (displs : ℕ → ℤ) (counts : ℕ → ℕ) (dtSize : ℕ) (x : ℤ) : Prop :=
  (∃ i, FirstFarthest n displs i ∧ x ≤ (displs i + counts i) * dtSize) ∨
    (∀ i < n, displs i ≤ 0) ∧ x ≤ 0

section Scan

variable {displs : ℕ → ℤ} {counts : ℕ → ℕ} {n dtSize : ℕ}

variable (displs counts) in
/-- What the scan finds when nothing overflows. -/
def farthest : ℕ → ℤ × ℤ
  | 0 => (0, 0)
  | k + 1 => if (farthest k).1 < displs k then (displs k, displs k + counts k) else farthest k

variable (counts) in
/-- No block so far is farther. -/
theorem le_farthest : ∀ {k i : ℕ}, i < k → displs i ≤ (farthest displs counts k).1
  | k + 1, i, hi => by
    rw [farthest]
    rcases Nat.lt_succ_iff_lt_or_eq.mp hi with hlt | rfl
    · have hle := le_farthest hlt
      split_ifs with hfar
      · exact hle.trans hfar.le
      · exact hle
    · split_ifs with hfar
      · exact le_rfl
      · exact not_lt.mp hfar

variable (displs counts) in
/-- It is at the start, or at the first block that is so far. -/
theorem farthest_cases : ∀ k : ℕ, farthest displs counts k = (0, 0) ∨
    ∃ i < k, Farther displs i ∧ farthest displs counts k = (displs i, displs i + counts i)
  | 0 => .inl rfl
  | k + 1 => by
    rw [farthest]
    split_ifs with hfar
    · refine .inr ⟨k, k.lt_succ_self, ⟨?_, fun j hj => ?_⟩, rfl⟩
      · rcases farthest_cases k with hzero | ⟨i, -, hi, heq⟩
        · rwa [hzero] at hfar
        · rw [heq] at hfar
          exact hi.1.trans hfar
      · exact (le_farthest counts hj).trans_lt hfar
    · rcases farthest_cases k with hzero | ⟨i, hik, hi, heq⟩
      · exact .inl hzero
      · exact .inr ⟨i, hik.trans k.lt_succ_self, hi, heq⟩

variable (counts) in
/-- The scan goes on to the blocks that are farther than all before. -/
theorem farthest_lt_iff {k : ℕ} : (farthest displs counts k).1 < displs k ↔ Farther displs k := by
  constructor
  · intro hlt
    refine ⟨?_, fun j hj => (le_farthest counts hj).trans_lt hlt⟩
    rcases farthest_cases displs counts k with hzero | ⟨i, -, hi, heq⟩
    · rwa [hzero] at hlt
    · rw [heq] at hlt
      exact hi.1.trans hlt
  · rintro ⟨hpos, hlt⟩
    rcases farthest_cases displs counts k with hzero | ⟨i, hik, -, heq⟩
    · rwa [hzero]
    · rw [heq]
      exact hlt i hik

/-- The scan either finds it or overflows. -/
theorem scan_eq_some_iff {acc : ℤ × ℤ} : ∀ {k : ℕ},
    (List.range k).foldlM (scanStep displs counts) (0, 0) = some acc ↔
      EndsFit k displs counts ∧ acc = farthest displs counts k
  | 0 => by
    rw [List.range_zero, List.foldlM_nil]
    constructor
    · rintro h
      exact ⟨fun i hi => absurd hi i.not_lt_zero, (Option.some.inj h).symm⟩
    · rintro ⟨-, rfl⟩
      rfl
  | k + 1 => by
    have hfit : EndsFit (k + 1) displs counts ↔ EndsFit k displs counts ∧
        (Farther displs k → displs k + counts k < 2 ^ 31) := by
      constructor
      · exact fun h => ⟨fun i hi => h i (by omega), h k k.lt_succ_self⟩
      · rintro ⟨h, hk⟩ i hi hfar
        rcases Nat.lt_succ_iff_lt_or_eq.mp hi with hlt | rfl
        · exact h i hlt hfar
        · exact hk hfar
    rw [List.range_succ, List.foldlM_append, Option.bind_eq_bind, Option.bind_eq_some_iff]
    simp only [scan_eq_some_iff (k := k), List.foldlM_cons, List.foldlM_nil, bind_pure, scanStep,
      hfit, ← farthest_lt_iff counts, farthest, and_assoc]
    constructor
    · rintro ⟨_, hk, rfl, hstep⟩
      split_ifs at hstep ⊢ with hfar hlt
      · exact ⟨hk, fun _ => hlt, (Option.some.inj hstep).symm⟩
      · exact ⟨hk, fun hfar' => absurd hfar' hfar, (Option.some.inj hstep).symm⟩
    · rintro ⟨hk, hlt, rfl⟩
      refine ⟨_, hk, rfl, ?_⟩
      split_ifs with hfar hover
      · rfl
      · exact absurd (hlt hfar) hover
      · rfl

/-- The end of the first of the farthest blocks. -/
theorem endsBy_iff {x : ℤ} : EndsBy n displs counts dtSize x ↔
    x ≤ (farthest displs counts n).2 * dtSize := by
  rcases farthest_cases displs counts n with hzero | ⟨i, hi, hfar, heq⟩
  · have hle (j : ℕ) (hj : j < n) : displs j ≤ 0 := by
      have hle : displs j ≤ (farthest displs counts n).1 := le_farthest counts hj
      rwa [hzero] at hle
    rw [hzero, zero_mul]
    constructor
    · rintro (⟨i, ⟨hi, hfar, -⟩, -⟩ | ⟨-, hx⟩)
      · exact absurd (hle i hi) (not_le.mpr hfar.1)
      · exact hx
    · exact fun hx => .inr ⟨hle, hx⟩
  · have hmax (j : ℕ) (hj : j < n) : displs j ≤ displs i := by
      have hle : displs j ≤ (farthest displs counts n).1 := le_farthest counts hj
      rwa [heq] at hle
    rw [heq]
    constructor
    · rintro (⟨i', ⟨hi', hfar', hmax'⟩, hx⟩ | ⟨hle, -⟩)
      · -- two blocks cannot both be the first one
        rcases lt_trichotomy i i' with hlt | rfl | hlt
        · exact absurd (hfar'.2 i hlt) (not_lt.mpr (hmax i' hi'))
        · exact hx
        · exact absurd (hfar.2 i' hlt) (not_lt.mpr (hmax' i hi))
      · exact absurd (hle i hi) (not_le.mpr hfar.1)
    · exact fun hx => .inl ⟨i, ⟨hi, hfar, hmax⟩, hx⟩

/-- The length of a buffer. -/
theorem scannedSize_eq {len : ℕ} : scannedSize n displs counts dtSize = some len ↔
    EndsFit n displs counts ∧ (len : ℤ) = (farthest displs counts n).2 * dtSize := by
  have hnonneg : 0 ≤ (farthest displs counts n).2 := by
    rcases farthest_cases displs counts n with hzero | ⟨i, -, hfar, heq⟩
    · rw [hzero]
    · rw [heq]
      have := hfar.1
      omega
  rw [scannedSize, Option.map_eq_some_iff]
  constructor
  · rintro ⟨acc, hacc, rfl⟩
    obtain ⟨hfit, rfl⟩ := scan_eq_some_iff.mp hacc
    exact ⟨hfit, by rw [Nat.cast_mul, Int.toNat_of_nonneg hnonneg]⟩
  · rintro ⟨hfit, hlen⟩
    refine ⟨_, scan_eq_some_iff.mpr ⟨hfit, rfl⟩, ?_⟩
    zify
    rw [Int.toNat_of_nonneg hnonneg, hlen]

theorem isSome_scannedSize :
    (scannedSize n displs counts dtSize).isSome ↔ EndsFit n displs counts := by
  rw [Option.isSome_iff_exists]
  constructor
  · rintro ⟨len, hlen⟩
    exact (scannedSize_eq.mp hlen).1
  · intro hfit
    rw [scannedSize]
    exact ⟨_, Option.map_eq_some_iff.mpr ⟨_, scan_eq_some_iff.mpr ⟨hfit, rfl⟩, rfl⟩⟩

theorem exists_le_scannedSize {x : ℤ} :
    (∃ len : ℕ, scannedSize n displs counts dtSize = some len ∧ x ≤ len) ↔
      EndsFit n displs counts ∧ EndsBy n displs counts dtSize x := by
  constructor
  · rintro ⟨len, hlen, hx⟩
    obtain ⟨hfit, heq⟩ := scannedSize_eq.mp hlen
    exact ⟨hfit, endsBy_iff.mpr (heq ▸ hx)⟩
  · rintro ⟨hfit, hends⟩
    obtain ⟨len, hlen⟩ := Option.isSome_iff_exists.mp (isSome_scannedSize.mpr hfit)
    exact ⟨len, hlen, (scannedSize_eq.mp hlen).2 ▸ endsBy_iff.mp hends⟩

end Scan

/-! ### What is put -/

/-- The lengths are computed, and every byte that a put reads or writes lies below them. -/
structure RangesCover (n : ℕ) (prog : ℕ → List (StreamTask Addr))
    (registered : ℕ → Buffer → Option ℕ) : Prop where
  computed : ∀ p < n, ∀ buf, (registered p buf).isSome
  reads : ∀ p < n, ∀ q ev, ∀ src dst : List Addr, .put q ev src dst ∈ prog p →
    ∀ c ∈ src, ∃ len : ℕ, registered p c.1 = some len ∧ c.2 < len
  writes : ∀ p < n, ∀ q ev, ∀ src dst : List Addr, .put q ev src dst ∈ prog p →
    ∀ c ∈ dst, ∃ len : ℕ, registered q c.1 = some len ∧ c.2 < len

/-- A block that is not empty lies below the length if its end does. -/
theorem bytes_within {registered : Buffer → Option ℕ} {buf : Buffer} {off : ℤ} {bytesNum : ℕ}
    (hpos : bytesNum ≠ 0) :
    (∀ c ∈ bytes buf off bytesNum, ∃ len : ℕ, registered c.1 = some len ∧ c.2 < len) ↔
      ∃ len : ℕ, registered buf = some len ∧ off + bytesNum ≤ len := by
  constructor
  · intro h
    obtain ⟨len, hlen, hlt⟩ := h (buf, off + bytesNum - 1) (mem_bytes.mpr ⟨rfl, by omega, by omega⟩)
    exact ⟨len, hlen, by omega⟩
  · rintro ⟨len, hlen, hle⟩ ⟨b, x⟩ hc
    obtain ⟨rfl, -, hlt⟩ := mem_bytes.mp hc
    exact ⟨len, hlen, by omega⟩

/-- What a rolling allgatherv registers; in place there is nothing to send. -/
def rollingRegistered (args : ℕ → AllgathervArgs) (n p : ℕ) : Buffer → Option ℕ
  | .recv => rbufSize (args p) n
  | .send =>
    if (args p).inPlace ∨ (args p).recvcounts p = 0 then some 0
    else some ((args p).sendcount * (args p).sendExtent)
  | .staging => some 0

/-- What a pairwise alltoallv and its barrier register. -/
def pairwiseRegistered (args : ℕ → AlltoallvArgs) (n p : ℕ) : Buffer → Option ℕ
  | .recv => caculateRbufSize (args p) n
  | .send => putMaxSize (args p) n
  | .staging => some 8

/-- Every block that a rank puts in the rolling allgatherv ends in time, in its own buffer and in
    that of the neighbour: its own data (`own`), and the blocks that it passes on (`passed`). -/
structure RollingFits (n : ℕ) (args : ℕ → AllgathervArgs) : Prop where
  ends : ∀ p < n, EndsFit n (args p).displs (args p).recvcounts
  own : ∀ p < n, (args p).inPlace = false → (args p).recvcounts p ≠ 0 →
    (args p).sendcount * (args p).sendExtent ≠ 0 →
      EndsBy n (args p).displs (args p).recvcounts (args p).recvSize
        ((args p).displs p * (args p).recvExtent +
          ((args p).sendcount * (args p).sendExtent : ℕ))
  passed : ∀ p < n, ∀ k < n - 1, (args p).recvcounts (rollSend n p k) * (args p).recvSize ≠ 0 →
    ∀ r, r = p ∨ r = rollPeer n p k →
      EndsBy n (args r).displs (args r).recvcounts (args r).recvSize
        ((args p).displs (rollSend n p k) * (args p).recvExtent +
          ((args p).recvcounts (rollSend n p k) * (args p).recvSize : ℕ))

/-- Every block of the pairwise alltoallv ends in time, in the send buffer and in the receive buffer
    of the peer. -/
structure PairwiseFits (n : ℕ) (args : ℕ → AlltoallvArgs) : Prop where
  sends : ∀ p < n, EndsFit n (args p).sdispls (args p).sendcounts
  recvs : ∀ p < n, EndsFit n (args p).rdispls (args p).recvcounts
  read : ∀ p < n, ∀ q < n, q ≠ p → (args p).sendcounts q * (args p).sendSize ≠ 0 →
    EndsBy n (args p).sdispls (args p).sendcounts (args p).sendSize
      ((args p).sdispls q * Pairwise.sendTypeExtent (args p) +
        ((args p).sendcounts q * (args p).sendSize : ℕ))
  written : ∀ p < n, ∀ q < n, q ≠ p → (args p).sendcounts q * (args p).sendSize ≠ 0 →
    EndsBy n (args q).rdispls (args q).recvcounts (args q).recvSize
      ((args p).sdispls p * Pairwise.sendTypeExtent (args p) +
        ((args p).sendcounts q * (args p).sendSize : ℕ))

section Rolling

variable {n p : ℕ} {args : ℕ → AllgathervArgs}

/-- The block and the peer of a step. -/
theorem ofdPutReqElem_put (hp : p < n) {a : AllgathervArgs} {k target : ℕ} (hk : k < n - 1) :
    Rolling.ofdPutReqElem a n p (Rolling.iterAt n p k) target =
      if a.recvcounts (rollSend n p k) = 0 then [] else
        [(rollSend n p k, .put (rollPeer n p k) (Rolling.event n p target)
          (bytes .recv (a.displs (rollSend n p k) * a.recvExtent)
            (a.recvcounts (rollSend n p k) * a.recvSize))
          (bytes .recv (a.displs (rollSend n p k) * a.recvExtent)
            (a.recvcounts (rollSend n p k) * a.recvSize)))] := by
  rw [Rolling.ofdPutReqElem]
  by_cases hpar : (p + k) % 2 = 1
  · have hsend : rollSend n p k = (p + k / 2) % n := if_pos hpar
    have hpeer : rollPeer n p k = leftOf n p := if_pos hpar
    by_cases hsame : leftOf n p = rightOf n p
    · -- two ranks, of which each is on both sides of the other one
      have hk : k = 0 := by
        by_contra hpos
        exact leftOf_ne_rightOf (by omega) hp hsame
      have hblock : (p + n - k / 2) % n = rollSend n p k := by
        rw [hsend, hk, Nat.zero_div, Nat.sub_zero, Nat.add_mod_right, Nat.add_zero]
      simp only [Rolling.iterAt, RingIter.init, hpar, ne_eq, one_ne_zero, not_false_eq_true,
        if_true, if_pos hsame, hblock]
      rw [hpeer, hsame]
      rfl
    · have hblock : (p + k / 2 + n) % n = rollSend n p k := by rw [hsend, Nat.add_mod_right]
      simp only [Rolling.iterAt, RingIter.init, hpar, ne_eq, one_ne_zero, not_false_eq_true,
        if_true, if_neg hsame, hblock, hpeer]
      rfl
  · have hsend : rollSend n p k = (p + n - k / 2) % n := if_neg hpar
    have hpeer : rollPeer n p k = rightOf n p := if_neg hpar
    have hpar : (p + k) % 2 = 0 := by omega
    simp only [Rolling.iterAt, RingIter.init, hpar, ne_eq, not_true_eq_false, if_false, if_true,
      ← hsend, hpeer]
    rfl

/-- The puts of a rank: its own data, and a block in every step. -/
theorem put_mem_streams (hp : p < n) {q : ℕ} {ev : Option ℕ} {src dst : List Addr} :
    .put q ev src dst ∈ Rolling.streams args n p ↔
      ((args p).inPlace = false ∧ (args p).recvcounts p ≠ 0 ∧ q = p ∧ ev = Rolling.event n p 2 ∧
        src = bytes .send 0 ((args p).sendcount * (args p).sendExtent) ∧
        dst = bytes .recv ((args p).displs p * (args p).recvExtent)
          ((args p).sendcount * (args p).sendExtent)) ∨
      ∃ k < n - 1, (args p).recvcounts (rollSend n p k) ≠ 0 ∧ q = rollPeer n p k ∧
        ev = Rolling.event n p ((p + k + 1) % 2) ∧
        src = bytes .recv ((args p).displs (rollSend n p k) * (args p).recvExtent)
          ((args p).recvcounts (rollSend n p k) * (args p).recvSize) ∧ dst = src := by
  have hself : .put q ev src dst ∈ (Rolling.putSelfData (args p) n p).map Prod.snd ↔
      (args p).inPlace = false ∧ (args p).recvcounts p ≠ 0 ∧ q = p ∧ ev = Rolling.event n p 2 ∧
        src = bytes .send 0 ((args p).sendcount * (args p).sendExtent) ∧
        dst = bytes .recv ((args p).displs p * (args p).recvExtent)
          ((args p).sendcount * (args p).sendExtent) := by
    rw [Rolling.putSelfData]
    split_ifs with hnone
    · simp only [List.map_nil, List.not_mem_nil, false_iff]
      rintro ⟨hplace, hcount, -⟩
      rcases hnone with h | h
      · rw [h] at hplace
        cases hplace
      · exact hcount h
    · rw [not_or, Bool.not_eq_true] at hnone
      simp [hnone.1, hnone.2, CommDep.putPeer, Rolling.offloadPlan]
  have hwait (idx k : ℕ) : .put q ev src dst ∉
      (Rolling.ofdWaitReqElem (args p) n p (Rolling.iterAt n p k) idx).map Prod.snd := by
    rw [Rolling.ofdWaitReqElem]
    split_ifs <;> simp
  have hput (idx k : ℕ) (hk : k < n - 1) : .put q ev src dst ∈
      (Rolling.ofdPutReqElem (args p) n p (Rolling.iterAt n p k) idx).map Prod.snd ↔
        (args p).recvcounts (rollSend n p k) ≠ 0 ∧ q = rollPeer n p k ∧
        ev = Rolling.event n p idx ∧
        src = bytes .recv ((args p).displs (rollSend n p k) * (args p).recvExtent)
          ((args p).recvcounts (rollSend n p k) * (args p).recvSize) ∧ dst = src := by
    rw [ofdPutReqElem_put hp hk]
    split_ifs with hzero
    · simp [hzero]
    · simp only [List.map_singleton, List.mem_singleton, StreamTask.put.injEq, ne_eq, hzero,
        not_false_eq_true, true_and]
      constructor
      · rintro ⟨rfl, rfl, rfl, rfl⟩
        exact ⟨rfl, rfl, rfl, rfl⟩
      · rintro ⟨rfl, rfl, rfl, rfl⟩
        exact ⟨rfl, rfl, rfl, rfl⟩
  rw [Rolling.streams, Rolling.submitOp, List.map_append, List.mem_append, hself, List.map_flatMap,
    List.mem_flatMap]
  refine or_congr_right (exists_congr fun k => ?_)
  rw [List.mem_range]
  refine and_congr_right fun hk => ?_
  have hk : k < n - 1 := hk
  rw [← hput _ k hk, Rolling.submitStep]
  split_ifs
  · rw [List.map_append, List.mem_append]
    exact or_iff_left (hwait _ k)
  · rw [List.map_append, List.mem_append]
    exact or_iff_right (hwait _ k)

theorem rollPeer_lt {k : ℕ} (hp : p < n) : rollPeer n p k < n := by
  rw [rollPeer]
  split_ifs
  · exact leftOf_lt (by omega)
  · exact rightOf_lt (by omega)

variable (n args) in
theorem rolling_covers_iff :
    RangesCover n (Rolling.streams args n) (rollingRegistered args n) ↔ RollingFits n args := by
  constructor
  · intro h
    have hends (p : ℕ) (hp : p < n) : EndsFit n (args p).displs (args p).recvcounts :=
      isSome_scannedSize.mp (h.computed p hp .recv)
    refine ⟨hends, fun p hp hplace hcount hpos => ?_, fun p hp k hk hpos r hr => ?_⟩
    · have hput := (put_mem_streams hp).mpr (.inl ⟨hplace, hcount, rfl, rfl, rfl, rfl⟩)
      exact (exists_le_scannedSize.mp ((bytes_within hpos).mp (h.writes p hp _ _ _ _ hput))).2
    · have hcount := left_ne_zero_of_mul hpos
      have hput := (put_mem_streams hp).mpr (.inr ⟨k, hk, hcount, rfl, rfl, rfl, rfl⟩)
      rcases hr with rfl | rfl
      · exact (exists_le_scannedSize.mp ((bytes_within hpos).mp (h.reads _ hp _ _ _ _ hput))).2
      · exact (exists_le_scannedSize.mp ((bytes_within hpos).mp (h.writes p hp _ _ _ _ hput))).2
  · intro h
    refine ⟨fun p hp buf => ?_, fun p hp q ev src dst hput => ?_, fun p hp q ev src dst hput => ?_⟩
    · cases buf with
      | send =>
        rw [rollingRegistered]
        split_ifs <;> rfl
      | recv => exact isSome_scannedSize.mpr (h.ends p hp)
      | staging => rfl
    · rcases (put_mem_streams hp).mp hput with
        ⟨hplace, hcount, -, -, rfl, -⟩ | ⟨k, hk, -, -, -, rfl, -⟩
      · -- what is read of the send buffer is what is registered
        rintro ⟨b, x⟩ hc
        obtain ⟨rfl, -, hlt⟩ := mem_bytes.mp hc
        refine ⟨_, if_neg ?_, by simpa using hlt⟩
        rw [not_or, Bool.not_eq_true]
        exact ⟨hplace, hcount⟩
      · rcases eq_or_ne ((args p).recvcounts (rollSend n p k) * (args p).recvSize) 0 with hz | hpos
        · rw [hz]
          exact fun c hc => absurd hc List.not_mem_nil
        · exact (bytes_within hpos).mpr
            (exists_le_scannedSize.mpr ⟨h.ends p hp, h.passed p hp k hk hpos p (.inl rfl)⟩)
    · rcases (put_mem_streams hp).mp hput with
        ⟨hplace, hcount, rfl, -, -, rfl⟩ | ⟨k, hk, -, rfl, -, rfl, rfl⟩
      · rcases eq_or_ne ((args q).sendcount * (args q).sendExtent) 0 with hz | hpos
        · rw [hz]
          exact fun c hc => absurd hc List.not_mem_nil
        · exact (bytes_within hpos).mpr
            (exists_le_scannedSize.mpr ⟨h.ends q hp, h.own q hp hplace hcount hpos⟩)
      · rcases eq_or_ne ((args p).recvcounts (rollSend n p k) * (args p).recvSize) 0 with hz | hpos
        · rw [hz]
          exact fun c hc => absurd hc List.not_mem_nil
        · exact (bytes_within hpos).mpr (exists_le_scannedSize.mpr
            ⟨h.ends _ (rollPeer_lt hp), h.passed p hp k hk hpos _ (.inr rfl)⟩)

end Rolling

section Pairwise

variable (n : ℕ) (config : Barrier.Config) (args : ℕ → AlltoallvArgs)

theorem pairwise_covers_iff :
    RangesCover n (Pairwise.streams args config n) (pairwiseRegistered args n) ↔
      PairwiseFits n args := by
  constructor
  · intro h
    refine ⟨fun p hp => isSome_scannedSize.mp (h.computed p hp .send),
      fun p hp => isSome_scannedSize.mp (h.computed p hp .recv),
      fun p hp q hq hne hpos => ?_, fun p hp q hq hne hpos => ?_⟩
    · obtain ⟨i, hi, rfl⟩ := Pairwise.exists_putPeer hp hq hne
      have hput := @Pairwise.putReq_mem_submitOp (args p) config n p i hi
      exact (exists_le_scannedSize.mp ((bytes_within hpos).mp (h.reads p hp _ _ _ _ hput))).2
    · obtain ⟨i, hi, rfl⟩ := Pairwise.exists_putPeer hp hq hne
      have hput := @Pairwise.putReq_mem_submitOp (args p) config n p i hi
      exact (exists_le_scannedSize.mp ((bytes_within hpos).mp (h.writes p hp _ _ _ _ hput))).2
  · intro h
    refine ⟨fun p hp buf => ?_, fun p hp q ev src dst hput => ?_, fun p hp q ev src dst hput => ?_⟩
    · cases buf with
      | send => exact isSome_scannedSize.mpr (h.sends p hp)
      | recv => exact isSome_scannedSize.mpr (h.recvs p hp)
      | staging => rfl
    · rcases Pairwise.put_mem_submitOp hput with ⟨i, hi, heq⟩ | ⟨rfl, -⟩
      · obtain ⟨rfl, -, rfl, -⟩ := StreamTask.put.inj heq
        obtain ⟨hq, hne⟩ := Pairwise.putPeer_lt hp hi
        rcases eq_or_ne ((args p).sendcounts ((Pairwise.offloadPlan n p).putPeer i) *
          (args p).sendSize) 0 with hz | hpos
        · rw [hz]
          exact fun c hc => absurd hc List.not_mem_nil
        · exact (bytes_within hpos).mpr
            (exists_le_scannedSize.mpr ⟨h.sends p hp, h.read p hp _ hq hne hpos⟩)
      · exact (bytes_within one_ne_zero).mpr ⟨8, rfl, by decide⟩
    · rcases Pairwise.put_mem_submitOp hput with ⟨i, hi, heq⟩ | ⟨-, rfl⟩
      · obtain ⟨rfl, -, -, rfl⟩ := StreamTask.put.inj heq
        obtain ⟨hq, hne⟩ := Pairwise.putPeer_lt hp hi
        rcases eq_or_ne ((args p).sendcounts ((Pairwise.offloadPlan n p).putPeer i) *
          (args p).sendSize) 0 with hz | hpos
        · rw [hz]
          exact fun c hc => absurd hc List.not_mem_nil
        · exact (bytes_within hpos).mpr
            (exists_le_scannedSize.mpr ⟨h.recvs _ hq, h.written p hp _ hq hne hpos⟩)
      · exact (bytes_within one_ne_zero).mpr ⟨8, rfl, by decide⟩

end Pairwise

/-- What the registered ranges cover: the rolling allgatherv and the pairwise alltoallv. -/
theorem registered_cover_iff (n : ℕ) (config : Barrier.Config) (allgatherv : ℕ → AllgathervArgs)
    (alltoallv : ℕ → AlltoallvArgs) :
    (RangesCover n (Rolling.streams allgatherv n) (rollingRegistered allgatherv n) ↔
      RollingFits n allgatherv) ∧
    (RangesCover n (Pairwise.streams alltoallv config n) (pairwiseRegistered alltoallv n) ↔
      PairwiseFits n alltoallv) :=
  ⟨rolling_covers_iff n allgatherv, pairwise_covers_iff n config alltoallv⟩

/-! ### An empty block in front of the last one -/

/-- Displacements one behind the other, for the counts 1, 0, 1. -/
def gapDispls (i : ℕ) : ℤ := if i = 0 then 0 else 1

/-- The counts. -/
def gapCounts (i : ℕ) : ℕ := if i = 1 then 0 else 1

/-- An allgatherv of these blocks, in place. -/
def gapAllgatherv (_ : ℕ) : AllgathervArgs where
  inPlace := true
  sendcount := 0
  sendExtent := 1
  recvcounts := gapCounts
  displs := gapDispls
  recvSize := 1
  recvExtent := 1

/-- An alltoallv in which every rank sends these blocks. -/
def gapAlltoallv (p : ℕ) : AlltoallvArgs where
  sendcounts := gapCounts
  sdispls := gapDispls
  sendSize := 1
  sendExtent := 1
  recvcounts _ := gapCounts p
  rdispls i := gapCounts p * i
  recvSize := 1
  recvExtent := 1

/-- The empty block is the first one of the farthest, so that one byte is registered and the last
    block is not covered. -/
theorem gap_not_covered :
    ¬RangesCover 3 (Rolling.streams gapAllgatherv 3) (rollingRegistered gapAllgatherv 3) ∧
    ¬RangesCover 3 (Pairwise.streams gapAlltoallv ⟨4, 2⟩ 3)
      (pairwiseRegistered gapAlltoallv 3) := by
  constructor
  · intro h
    have hends := ((rolling_covers_iff 3 gapAllgatherv).mp h).passed 2 (by decide) 0 (by decide)
      (by decide) 2 (.inl rfl)
    exact absurd (endsBy_iff.mp hends) (by decide)
  · intro h
    have hends := ((pairwise_covers_iff 3 ⟨4, 2⟩ gapAlltoallv).mp h).read 0 (by decide) 2
      (by decide) (by decide) (by decide)
    exact absurd (endsBy_iff.mp hends) (by decide)

end Kucg.Stars
