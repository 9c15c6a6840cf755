import Mathlib.Tactic
import Kucg.Core.PlanContainer

/-! The message size by which a plan is selected: `ucg_request_msg_size`, the argument checks of the
    request-init functions, and the lookup of `ucg_plans_prepare`.

    Every rank computes the size from its own arguments. The ranks select the same plan from equal
    containers when all of them get the same size; what each rank brings into that comparison is
    its `share`. Integers wrap as in the code (`u64`, `s64`), and reading through a `NULL` pointer
    has no result. -/

namespace Kucg.Core

/-- A buffer argument as far as it is looked at. -/
inductive Buf where
  | null | inPlace | user
  deriving DecidableEq, Repr

/-- `ucg_dt_t`, its size. -/
structure Dt where
  size : ℕ

/-- An `int32_t` array by index. -/
abbrev Counts := ℕ → ℤ

/-- `ucg_coll_bcast_args_t`. -/
structure BcastArgs where
  buffer : Buf
  count : ℤ
  dt : Option Dt
  root : ℤ

/-- `ucg_coll_allreduce_args_t`; `op` tells whether the pointer is set. -/
structure AllreduceArgs where
  sendbuf : Buf
  recvbuf : Buf
  count : ℤ
  dt : Option Dt
  op : Bool

/-- `ucg_coll_alltoallv_args_t`. -/
structure AlltoallvArgs where
  sendbuf : Buf
  sendcounts : Option Counts
  sdispls : Option Counts
  sendtype : Option Dt
  recvbuf : Buf
  recvcounts : Option Counts
  rdispls : Option Counts
  recvtype : Option Dt

/-- `ucg_coll_scatterv_args_t`. -/
structure ScattervArgs where
  sendbuf : Buf
  sendcounts : Option Counts
  displs : Option Counts
  sendtype : Option Dt
  recvbuf : Buf
  recvcount : ℤ
  recvtype : Option Dt
  root : ℤ

/-- `ucg_coll_gatherv_args_t`. -/
structure GathervArgs where
  sendbuf : Buf
  sendcount : ℤ
  sendtype : Option Dt
  recvbuf : Buf
  recvcounts : Option Counts
  displs : Option Counts
  recvtype : Option Dt
  root : ℤ

/-- `ucg_coll_allgatherv_args_t`. -/
structure AllgathervArgs where
  sendbuf : Buf
  sendcount : ℤ
  sendtype : Option Dt
  recvbuf : Buf
  recvcounts : Option Counts
  displs : Option Counts
  recvtype : Option Dt

/-- `ucg_coll_reduce_args_t`; `op` tells whether the pointer is set. -/
structure ReduceArgs where
  sendbuf : Buf
  recvbuf : Buf
  count : ℤ
  dt : Option Dt
  op : Bool
  root : ℤ

/-- The arguments of a collective call at one rank. -/
inductive Coll where
  | bcast (args : BcastArgs)
  | allreduce (args : AllreduceArgs)
  | barrier
  | alltoallv (args : AlltoallvArgs)
  | scatterv (args : ScattervArgs)
  | gatherv (args : GathervArgs)
  | allgatherv (args : AllgathervArgs)
  | reduce (args : ReduceArgs)

/-- The `NULL` checks of the request-init function at rank `myrank`. -/
def Coll.accepted (myrank : ℤ) : Coll → Bool
  | .bcast a => a.buffer ≠ .null ∧ a.dt.isSome
  | .allreduce a => a.sendbuf ≠ .null ∧ a.recvbuf ≠ .null ∧ a.dt.isSome ∧ a.op
  | .barrier => true
  | .alltoallv a =>
    let recv := a.recvbuf ≠ .null ∧ a.recvcounts.isSome ∧ a.rdispls.isSome ∧ a.recvtype.isSome
    if a.sendbuf = .inPlace then recv
    else a.sendbuf ≠ .null ∧ a.sendcounts.isSome ∧ a.sdispls.isSome ∧ a.sendtype.isSome ∧ recv
  | .scatterv a =>
    let send := a.sendbuf ≠ .null ∧ a.sendcounts.isSome ∧ a.displs.isSome ∧ a.sendtype.isSome
    if myrank = a.root then
      if a.recvbuf = .inPlace then send else send ∧ a.recvbuf ≠ .null ∧ a.recvtype.isSome
    else a.recvbuf ≠ .null ∧ a.recvtype.isSome
  | .gatherv a =>
    -- at the root `recvbuf` is checked twice and `recvtype` not at all
    let recv := a.recvbuf ≠ .null ∧ a.recvcounts.isSome ∧ a.displs.isSome
    if myrank = a.root then
      if a.sendbuf = .inPlace then recv else a.sendbuf ≠ .null ∧ a.sendtype.isSome ∧ recv
    else a.sendbuf ≠ .null ∧ a.sendtype.isSome
  | .allgatherv a => a.sendbuf ≠ .null ∧ a.sendtype.isSome ∧ a.recvbuf ≠ .null ∧
      a.recvcounts.isSome ∧ a.displs.isSome ∧ a.recvtype.isSome
  | .reduce a => a.sendbuf ≠ .null ∧ a.recvbuf ≠ .null ∧ a.dt.isSome ∧ a.op

/-- Conversion to `uint64_t`. -/
def u64 (x : ℤ) : ℕ := (x % 2 ^ 64).toNat

/-- Conversion to `int64_t`. -/
def s64 (x : ℤ) : ℤ := x.bmod (2 ^ 64)

/-- The loop of `ucg_request_msg_size` for an alltoallv: `total_scount` and `total_rcount` after
    `i` iterations. -/
def alltoallvTotals (a : AlltoallvArgs) : ℕ → Option (ℤ × ℤ)
  | 0 => some (0, 0)
  | i + 1 => do
    let (totalScount, totalRcount) ← alltoallvTotals a i
    let sendtype ← a.sendtype
    let sendcounts ← a.sendcounts
    let recvtype ← a.recvtype
    let recvcounts ← a.recvcounts
    some (s64 (totalScount + u64 (sendtype.size * sendcounts i)),
      s64 (totalRcount + u64 (recvtype.size * recvcounts i)))

/-- The loop for an allgatherv: `total_size` after `i` iterations. -/
def allgathervTotal (dtSize : ℕ) (a : AllgathervArgs) : ℕ → Option ℕ
  | 0 => some 0
  | i + 1 => do
    let totalSize ← allgathervTotal dtSize a i
    let recvcounts ← a.recvcounts
    some (u64 (totalSize + u64 (dtSize * recvcounts i)))

/-- `ucg_request_msg_size` on a group of `size` ranks. -/
def msgSize (size : ℕ) : Coll → Option ℕ
  | .bcast a => do
    let dt ← a.dt
    some (u64 (dt.size * a.count))
  | .allreduce a => do
    let dt ← a.dt
    some (u64 (dt.size * a.count))
  | .barrier => some 0
  | .alltoallv a => do
    let (totalScount, totalRcount) ← alltoallvTotals a size
    some (u64 (((s64 (totalScount + totalRcount)).tdiv size).tdiv 2))
  | .scatterv _ => some 0
  | .gatherv _ => some 0
  | .allgatherv a => do
    let dt ← if a.sendbuf ≠ .inPlace then a.sendtype else a.recvtype
    let totalSize ← allgathervTotal dt.size a size
    some (totalSize / size)
  | .reduce a => do
    let dt ← a.dt
    some (u64 (dt.size * a.count))

/-- The lookup of `ucg_plans_prepare`: the first-class plan, with its fallbacks, for the message
    size of the call. -/
def plansLookup {P V : Type} (plans : Plans P V) (type : CollType) (memType : MemType) (size : ℕ)
    (args : Coll) : Option (Option (Plan P V)) := do
  let m ← msgSize size args
  some (plansFind m (plans.plans type memType))

/-! ### Calls that match across ranks -/

/-- The bytes that rank `i` sends to rank `j`: in place, what it receives from `j`. -/
def AlltoallvArgs.sendBytes (a : AlltoallvArgs) (j : ℕ) : Option ℤ :=
  if a.sendbuf = .inPlace then return (← a.recvtype).size * (← a.recvcounts) j
  else return (← a.sendtype).size * (← a.sendcounts) j

/-- The bytes that a rank receives from rank `j`. -/
def AlltoallvArgs.recvBytes (a : AlltoallvArgs) (j : ℕ) : Option ℤ :=
  return (← a.recvtype).size * (← a.recvcounts) j

/-- The arguments of `n` ranks match as the collective requires. -/
inductive Matches (n : ℕ) : (ℕ → Coll) → Prop
  | bcast (a : ℕ → BcastArgs)
      (h : ∀ i < n, ∀ j < n, ∀ dt dt', (a i).dt = some dt → (a j).dt = some dt' →
        dt.size * (a i).count = dt'.size * (a j).count) : Matches n fun i => .bcast (a i)
  | allreduce (a : ℕ → AllreduceArgs)
      (h : ∀ i < n, ∀ j < n, ∀ dt dt', (a i).dt = some dt → (a j).dt = some dt' →
        dt.size * (a i).count = dt'.size * (a j).count) : Matches n fun i => .allreduce (a i)
  | barrier : Matches n fun _ => .barrier
  | alltoallv (a : ℕ → AlltoallvArgs)
      (h : ∀ i < n, ∀ j < n, (a i).sendBytes j = (a j).recvBytes i) :
      Matches n fun i => .alltoallv (a i)
  | scatterv (a : ℕ → ScattervArgs) : Matches n fun i => .scatterv (a i)
  | gatherv (a : ℕ → GathervArgs) : Matches n fun i => .gatherv (a i)
  | allgatherv (a : ℕ → AllgathervArgs)
      (h : ∀ i < n, ∀ st rt rc, (a i).sendbuf ≠ .inPlace → (a i).sendtype = some st →
        (a i).recvtype = some rt → (a i).recvcounts = some rc →
        st.size * (a i).sendcount = rt.size * rc i) : Matches n fun i => .allgatherv (a i)
  | reduce (a : ℕ → ReduceArgs)
      (h : ∀ i < n, ∀ j < n, ∀ dt dt', (a i).dt = some dt → (a j).dt = some dt' →
        dt.size * (a i).count = dt'.size * (a j).count) : Matches n fun i => .reduce (a i)

/-- What an alltoallv has to come with to be sized: the send counts and type, also in place. -/
def Coll.hasSendArrays : Coll → Prop
  | .alltoallv a => a.sendcounts.isSome ∧ a.sendtype.isSome
  | _ => True

/-- The bytes by which a rank is sized: for an alltoallv those that its arrays say it sends and
    receives; for an allgatherv its own element size times the sum of all receive counts. -/
def Coll.traffic (n : ℕ) : Coll → ℤ
  | .alltoallv ⟨_, some sc, _, some st, _, some rc, _, some rt⟩ =>
    ∑ j ∈ Finset.range n, (st.size * sc j + rt.size * rc j)
  | .allgatherv ⟨sendbuf, _, some st, _, some rc, _, some rt⟩ =>
    (if sendbuf ≠ .inPlace then st.size else rt.size : ℕ) * ∑ j ∈ Finset.range n, rc j
  | _ => 0

/-- The traffic lies in the same block at two ranks: blocks of `2 * n` bytes of the signed total
    for an alltoallv, of `n` bytes of the unsigned one for an allgatherv. -/
def SameBlock (n : ℕ) (a b : Coll) : Prop :=
  match a with
  | .alltoallv _ => (s64 (a.traffic n)).tdiv (n * 2) = (s64 (b.traffic n)).tdiv (n * 2)
  | .allgatherv _ => u64 (a.traffic n) / n = u64 (b.traffic n) / n
  | _ => True

/-- The condition: all ranks come with send arrays, and their traffic lies in the same block. -/
def EqualShares (n : ℕ) (args : ℕ → Coll) : Prop :=
  (∀ i < n, (args i).hasSendArrays) ∧ ∀ i < n, ∀ j < n, SameBlock n (args i) (args j)

/-- The message size is defined at every rank, and the same. -/
def SameSize (n : ℕ) (args : ℕ → Coll) : Prop :=
  (∀ i < n, (msgSize n (args i)).isSome) ∧
    ∀ i < n, ∀ j < n, msgSize n (args i) = msgSize n (args j)

/-! ### Wrapping arithmetic -/

theorem cast_u64 (x : ℤ) : (u64 x : ℤ) = x % 2 ^ 64 :=
  Int.toNat_of_nonneg (Int.emod_nonneg _ (by norm_num))

theorem u64_add_u64 (x y : ℤ) : u64 (u64 x + u64 y) = u64 (x + y) := by
  have h : ((u64 x + u64 y : ℤ)) % 2 ^ 64 = (x + y) % 2 ^ 64 := by
    rw [cast_u64, cast_u64, ← Int.add_emod]
  rw [u64, h, u64]

theorem s64_add_u64 (x y : ℤ) : s64 (s64 x + u64 y) = s64 (x + y) := by
  rw [s64, s64, s64, Int.bmod_add_bmod, cast_u64, add_comm, add_comm x]
  exact Int.emod_add_bmod y (2 ^ 64)

theorem s64_add_s64 (x y : ℤ) : s64 (s64 x + s64 y) = s64 (x + y) := by
  rw [s64, s64, s64, Int.bmod_add_bmod, Int.add_bmod_bmod, s64]

theorem s64_eq {x : ℤ} (h₁ : -2 ^ 63 ≤ x) (h₂ : x < 2 ^ 63) : s64 x = x :=
  Int.bmod_eq_of_le_mul_two (by norm_num; omega) (by norm_num; omega)

theorem s64_range (x : ℤ) : -2 ^ 63 ≤ s64 x ∧ s64 x < 2 ^ 63 := by
  have hlo := Int.le_bmod (x := x) (m := 2 ^ 64) (by norm_num)
  have hhi := Int.bmod_lt (x := x) (m := 2 ^ 64) (by norm_num)
  rw [s64]
  constructor <;> omega

theorem u64_inj {x y : ℤ} (hx : -2 ^ 63 ≤ x ∧ x < 2 ^ 63) (hy : -2 ^ 63 ≤ y ∧ y < 2 ^ 63) :
    u64 x = u64 y ↔ x = y := by
  refine ⟨fun h => ?_, fun h => by rw [h]⟩
  have hmod : x % 2 ^ 64 = y % 2 ^ 64 := by rw [← cast_u64, ← cast_u64, h]
  omega

/-- The average fits an `int64_t`, also for the smallest total. -/
theorem tdiv_range {n : ℕ} (hn : 0 < n) (x : ℤ) :
    -2 ^ 63 ≤ (s64 x).tdiv (n * 2) ∧ (s64 x).tdiv (n * 2) < 2 ^ 63 := by
  have habs : ((s64 x).tdiv (n * 2)).natAbs = (s64 x).natAbs / (n * 2) := by
    rw [Int.natAbs_tdiv]
    rfl
  have hle : (s64 x).natAbs / (n * 2) ≤ (s64 x).natAbs / 2 :=
    Nat.div_le_div_left (by omega) (by omega)
  have hrange := s64_range x
  omega

/-- Dividing by the group size and then by two is dividing by both at once. -/
theorem tdiv_two (x : ℤ) (n : ℕ) : (x.tdiv n).tdiv 2 = x.tdiv (n * 2) := by
  obtain ⟨m, rfl | rfl⟩ := x.eq_nat_or_neg
  · exact congrArg Nat.cast (Nat.div_div_eq_div_mul m n 2)
  · rw [Int.neg_tdiv, Int.neg_tdiv, Int.neg_tdiv]
    exact congrArg (fun k : ℕ => -(k : ℤ)) (Nat.div_div_eq_div_mul m n 2)

/-! ### The loops -/

theorem alltoallvTotals_eq {a : AlltoallvArgs} {st rt : Dt} {sc rc : Counts}
    (hst : a.sendtype = some st) (hsc : a.sendcounts = some sc) (hrt : a.recvtype = some rt)
    (hrc : a.recvcounts = some rc) :
    ∀ n, alltoallvTotals a n = some (s64 (∑ j ∈ Finset.range n, st.size * sc j),
      s64 (∑ j ∈ Finset.range n, rt.size * rc j))
  | 0 => rfl
  | n + 1 => by
    have ih := alltoallvTotals_eq hst hsc hrt hrc n
    simp only [alltoallvTotals, ih, hst, hsc, hrt, hrc, Option.bind_eq_bind, Option.bind_some,
      s64_add_u64, Finset.sum_range_succ]

/-- Without send arrays the first iteration has nothing to read. -/
theorem alltoallvTotals_absent {a : AlltoallvArgs}
    (h : ¬(a.sendcounts.isSome ∧ a.sendtype.isSome)) :
    ∀ n, 0 < n → alltoallvTotals a n = none
  | n + 1, _ => by
    rw [alltoallvTotals]
    rcases hst : a.sendtype with _ | st <;> rcases hsc : a.sendcounts with _ | sc <;>
      simp_all

theorem allgathervTotal_eq {a : AllgathervArgs} {rc : Counts} (hrc : a.recvcounts = some rc)
    (dtSize : ℕ) :
    ∀ n, allgathervTotal dtSize a n = some (u64 (dtSize * ∑ j ∈ Finset.range n, rc j))
  | 0 => by simp [allgathervTotal, u64]
  | n + 1 => by
    simp only [allgathervTotal, allgathervTotal_eq hrc dtSize n, hrc, Option.bind_eq_bind,
      Option.bind_some, u64_add_u64, Finset.sum_range_succ, mul_add]

/-! ### The size at one rank -/

theorem accepted_recv {a : AlltoallvArgs} {myrank : ℤ} (ha : (Coll.alltoallv a).accepted myrank) :
    (∃ rc, a.recvcounts = some rc) ∧ ∃ rt, a.recvtype = some rt := by
  simp only [Coll.accepted, ← Option.isSome_iff_exists] at ha ⊢
  split at ha <;> simp_all

theorem msgSize_alltoallv {a : AlltoallvArgs} {n : ℕ} (hn : 0 < n) {myrank : ℤ}
    (ha : (Coll.alltoallv a).accepted myrank) :
    msgSize n (.alltoallv a) = if a.sendcounts.isSome ∧ a.sendtype.isSome then
      some (u64 ((s64 ((Coll.alltoallv a).traffic n)).tdiv (n * 2))) else none := by
  obtain ⟨⟨rc, hrc⟩, rt, hrt⟩ := accepted_recv ha
  split
  · next harr =>
    obtain ⟨⟨sc, hsc⟩, st, hst⟩ := harr.imp Option.isSome_iff_exists.mp Option.isSome_iff_exists.mp
    have htraffic : (Coll.alltoallv a).traffic n =
        ∑ j ∈ Finset.range n, (st.size * sc j + rt.size * rc j) := by
      obtain ⟨sb, sc', sd, st', rb, rc', rd, rt'⟩ := a
      cases hsc; cases hst; cases hrc; cases hrt
      rfl
    simp only [msgSize, alltoallvTotals_eq hst hsc hrt hrc, Option.bind_eq_bind, Option.bind_some,
      s64_add_s64, htraffic, Finset.sum_add_distrib, tdiv_two]
  · next harr => simp only [msgSize, alltoallvTotals_absent harr n hn, Option.bind_eq_bind,
      Option.bind_none]

theorem msgSize_allgatherv {a : AllgathervArgs} {n : ℕ} {myrank : ℤ}
    (ha : (Coll.allgatherv a).accepted myrank) :
    msgSize n (.allgatherv a) = some (u64 ((Coll.allgatherv a).traffic n) / n) := by
  simp only [Coll.accepted, decide_eq_true_eq, Option.isSome_iff_exists] at ha
  obtain ⟨-, ⟨st, hst⟩, -, ⟨rc, hrc⟩, -, rt, hrt⟩ := ha
  have htraffic : (Coll.allgatherv a).traffic n =
      (if a.sendbuf ≠ .inPlace then st.size else rt.size : ℕ) * ∑ j ∈ Finset.range n, rc j := by
    obtain ⟨sb, scount, st', rb, rc', displs, rt'⟩ := a
    cases hst; cases hrc; cases hrt
    rfl
  by_cases hsb : a.sendbuf ≠ .inPlace
  · simp only [msgSize, htraffic, if_pos hsb, hst, Option.bind_eq_bind, Option.bind_some,
      allgathervTotal_eq hrc]
  · simp only [msgSize, htraffic, if_neg hsb, hrt, Option.bind_eq_bind, Option.bind_some,
      allgathervTotal_eq hrc]

/-- Calls with a datatype and a count of equal byte size. -/
theorem msgSize_counted {dt : ℕ → Option Dt} {count : ℕ → ℤ} {n : ℕ}
    (hdt : ∀ i < n, (dt i).isSome)
    (h : ∀ i < n, ∀ j < n, ∀ d d', dt i = some d → dt j = some d' →
      d.size * count i = d'.size * count j) :
    (∀ i < n, ((dt i).bind fun d => some (u64 (d.size * count i))).isSome) ∧
      ∀ i < n, ∀ j < n, ((dt i).bind fun d => some (u64 (d.size * count i))) =
        (dt j).bind fun d => some (u64 (d.size * count j)) := by
  refine ⟨fun i hi => ?_, fun i hi j hj => ?_⟩
  · obtain ⟨d, hd⟩ := Option.isSome_iff_exists.mp (hdt i hi)
    simp [hd]
  · obtain ⟨d, hd⟩ := Option.isSome_iff_exists.mp (hdt i hi)
    obtain ⟨d', hd'⟩ := Option.isSome_iff_exists.mp (hdt j hj)
    simp [hd, hd', h i hi j hj d d' hd hd']

/-! ### All ranks -/

theorem alltoallv_same_iff {n : ℕ} {a : ℕ → AlltoallvArgs}
    (ha : ∀ i < n, (Coll.alltoallv (a i)).accepted i) :
    SameSize n (fun i => .alltoallv (a i)) ↔ EqualShares n fun i => .alltoallv (a i) := by
  have hsize (i) (hi : i < n) := msgSize_alltoallv (Nat.zero_lt_of_lt hi) (ha i hi)
  constructor
  · rintro ⟨hdef, hsame⟩
    have harr (i) (hi : i < n) : (a i).sendcounts.isSome ∧ (a i).sendtype.isSome := by
      by_contra hno
      have := hdef i hi
      rw [hsize i hi, if_neg hno] at this
      exact absurd this (by decide)
    refine ⟨harr, fun i hi j hj => ?_⟩
    have heq := hsame i hi j hj
    rw [hsize i hi, hsize j hj, if_pos (harr i hi), if_pos (harr j hj), Option.some_inj] at heq
    have hn := Nat.zero_lt_of_lt hi
    exact (u64_inj (tdiv_range hn _) (tdiv_range hn _)).mp heq
  · rintro ⟨harr, hblock⟩
    replace harr (i) (hi : i < n) : (a i).sendcounts.isSome ∧ (a i).sendtype.isSome := harr i hi
    refine ⟨fun i hi => ?_, fun i hi j hj => ?_⟩
    · rw [hsize i hi, if_pos (harr i hi)]
      rfl
    · rw [hsize i hi, hsize j hj, if_pos (harr i hi), if_pos (harr j hj)]
      exact congrArg (fun x => some (u64 x)) (hblock i hi j hj)

theorem allgatherv_same_iff {n : ℕ} {a : ℕ → AllgathervArgs}
    (ha : ∀ i < n, (Coll.allgatherv (a i)).accepted i) :
    SameSize n (fun i => .allgatherv (a i)) ↔ EqualShares n fun i => .allgatherv (a i) := by
  have hsize (i) (hi : i < n) := msgSize_allgatherv (n := n) (ha i hi)
  constructor
  · rintro ⟨-, hsame⟩
    refine ⟨fun _ _ => trivial, fun i hi j hj => ?_⟩
    have heq := hsame i hi j hj
    rw [hsize i hi, hsize j hj, Option.some_inj] at heq
    exact heq
  · rintro ⟨-, hblock⟩
    refine ⟨fun i hi => ?_, fun i hi j hj => ?_⟩
    · rw [hsize i hi]
      rfl
    · rw [hsize i hi, hsize j hj]
      exact congrArg some (hblock i hi j hj)

/-- Where neither condition can fail: nothing is asked of the call, and its size is the same. -/
theorem same_iff_of_same {n : ℕ} {args : ℕ → Coll} (hs : SameSize n args)
    (he : EqualShares n args) : SameSize n args ↔ EqualShares n args :=
  ⟨fun _ => he, fun _ => hs⟩

/-- Two ranks: rank 0 keeps `own` bytes for itself, nothing else is exchanged. -/
def keepOwn (own : ℤ) (rank : ℕ) : AlltoallvArgs :=
  let counts : Counts := fun j => if rank = 0 ∧ j = 0 then own else 0
  ⟨.user, some counts, some fun _ => 0, some ⟨1⟩, .user, some counts, some fun _ => 0, some ⟨1⟩⟩

/-- The same call with `UCG_IN_PLACE`, without send arrays. -/
def keepOwnInPlace (own : ℤ) (rank : ℕ) : AlltoallvArgs :=
  { keepOwn own rank with
    sendbuf := .inPlace, sendcounts := none, sdispls := none, sendtype := none }

/-- Two ranks gather 8 bytes from each as two elements of 4 bytes; rank 1 sends its part as one
    element of 8 bytes. -/
def ownType (rank : ℕ) : AllgathervArgs :=
  ⟨.user, if rank = 0 then 2 else 1, some ⟨if rank = 0 then 4 else 8⟩, .user, some fun _ => 2,
    some fun j => 8 * j, some ⟨4⟩⟩

/-- One plan, for messages below 10 bytes. -/
def shortPlans : Plans ℕ ℕ :=
  ⟨fun _ _ => [⟨⟨some 1, 1, some "short", some "planc", false, ⟨0, 10⟩, 0, 1⟩, []⟩]⟩

end Kucg.Core
