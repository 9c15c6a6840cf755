import Kucg.Algo.Kntree
import Kucg.Lib.RankTree
import Kucg.Ucx.OpLive

/-! The k-nomial reduce of `reduce_kntree.c`.

    A rank receives from every child into a slot of its staging area. A progress call combines what
    has come with the result, which a bitmap remembers, and when every slot has been combined the
    rank sends its result to its parent. The slots come in any order, so the result is described as
    a product over the bits that are set (`doneProd`). -/

namespace Kucg.Ucx

open Kucg.Core Kucg.Lib Kucg.Algo

variable {B β : Type}

/-- `ucg_coll_reduce_args_t`; `UCG_IN_PLACE` is `none`. -/
structure ReduceArgs (B : Type) where
  sendbuf : Option (Cell B)
  recvbuf : Cell B
  count : ℕ
  root : ℕ

/-- The call as its caller makes it: see `AllreduceArgs.Brings`. -/
structure ReduceArgs.Brings {β : Type} (args : ReduceArgs B) (m : Cell B → β) (y : ℕ → β) :
    Prop where
  input : Holds m (args.sendbuf.getD args.recvbuf) args.count y
  apart : ∀ sendbuf ∈ args.sendbuf, Apart sendbuf args.count args.recvbuf args.count

/-- The flags of the operation, a bit each. -/
structure ReduceFlags where
  recvFromChild : Bool
  recvFromChildRecv : Bool
  sendToParent : Bool
  sendToParentSend : Bool

/-- `ucg_planc_ucx_op_t` of a k-nomial reduce. The requests are told apart by their index. -/
structure ReduceKntreeOp (B : Type) where
  vgroup : VGroup
  args : ReduceArgs B
  status : Status
  id : ℕ
  flags : ReduceFlags
  stagingArea : Cell B
  kntreeIter : KntreeIter
  requestsCount : ℕ
  reqBitmap : List Bool
  bitcount : ℕ

/-- The part of the staging area for child number `idx`; its size is counted in elements. -/
def ReduceKntreeOp.slot (op : ReduceKntreeOp B) (idx : ℕ) : Cell B :=
  (op.stagingArea.1, op.stagingArea.2 + idx * op.args.count)

section Functions

variable [DecidableEq B] (reduce : β → β → β)

/-- The first loop of `ucg_planc_ucx_reduce_kntree_op_recv_and_reduce`, from child number `idx` on.
    The fuel bounds the number of iterations; a rank has fewer children than there are ranks. -/
def reduceKntreeOpRecv : ℕ → ℕ → ReduceKntreeOp B → Prog (Cell B) β (ReduceKntreeOp B × Status)
  | 0, _, op => pure (op, .inprogress)
  | fuel + 1, idx, op =>
    match op.kntreeIter.child with
    | none => pure (op, .ok)
    | some peer => do
      let status ← p2pIrecv (span (op.slot idx) op.args.count) (some peer) op.vgroup idx
      if status ≠ .ok then return (op, status)
      reduceKntreeOpRecv fuel (idx + 1) { op with kntreeIter := op.kntreeIter.childInc }

/-- The second loop, on the children that remain. -/
def reduceKntreeOpReduce :
    List ℕ → ReduceKntreeOp B → Prog (Cell B) β (ReduceKntreeOp B × Status)
  | [], op => pure (op, .ok)
  | idx :: idxs, op =>
    if op.reqBitmap[idx]? = some true then reduceKntreeOpReduce idxs op
    else do
      let status ← p2pTest idx
      if status = .inprogress then reduceKntreeOpReduce idxs op
      else if status ≠ .ok then return (op, status)
      else
        opReduce reduce (span (op.slot idx) op.args.count) (span op.args.recvbuf op.args.count)
        reduceKntreeOpReduce idxs
          { op with reqBitmap := op.reqBitmap.set idx true, bitcount := op.bitcount + 1 }

/-- The receives of `ucg_planc_ucx_reduce_kntree_op_recv_and_reduce`, unless they are posted. -/
def reduceKntreeOpPost (op : ReduceKntreeOp B) : Prog (Cell B) β (ReduceKntreeOp B × Status) :=
  if op.flags.recvFromChildRecv then
    reduceKntreeOpRecv (op.kntreeIter.size + 1) 0
      { op with flags := { op.flags with recvFromChildRecv := false } }
  else pure (op, .ok)

/-- `ucg_planc_ucx_reduce_kntree_op_recv_and_reduce`. -/
def reduceKntreeOpRecvAndReduce (op : ReduceKntreeOp B) :
    Prog (Cell B) β (ReduceKntreeOp B × Status) := do
  let (op, status) ← reduceKntreeOpPost op
  if status ≠ .ok then return (op, status)
  let (op, status) ← reduceKntreeOpReduce reduce (List.range op.requestsCount) op
  if status ≠ .ok then return (op, status)
  return (op, if op.bitcount = op.requestsCount then .ok else .inprogress)

/-- `ucg_planc_ucx_reduce_kntree_op_send`. -/
def reduceKntreeOpSend (op : ReduceKntreeOp B) : Prog (Cell B) β (ReduceKntreeOp B × Status) :=
  match op.kntreeIter.parent with
  | none => pure (op, .ok)
  | some peer => do
    let mut op := op
    if op.flags.sendToParentSend then
      op := { op with flags := { op.flags with sendToParentSend := false } }
      let status ← p2pIsend (span op.args.recvbuf op.args.count) (some peer) op.vgroup
      if status ≠ .ok then return (op, status)
    let status ← p2pTestall
    return (op, status)

/-- Step 1 of `ucg_planc_ucx_reduce_kntree_op_progress`. -/
def reduceKntreeOpFromChildren (op : ReduceKntreeOp B) :
    Prog (Cell B) β (ReduceKntreeOp B × Status) :=
  if op.flags.recvFromChild then do
    let (op, status) ← reduceKntreeOpRecvAndReduce reduce op
    if status ≠ .ok then return (op, status)
    return ({ op with flags := { op.flags with recvFromChild := false } }, .ok)
  else pure (op, .ok)

/-- Step 2. -/
def reduceKntreeOpToParent (op : ReduceKntreeOp B) :
    Prog (Cell B) β (ReduceKntreeOp B × Status) :=
  if op.flags.sendToParent then do
    let (op, status) ← reduceKntreeOpSend op
    if status ≠ .ok then return (op, status)
    return ({ op with flags := { op.flags with sendToParent := false } }, .ok)
  else pure (op, .ok)

/-- `ucg_planc_ucx_reduce_kntree_op_progress`. -/
def reduceKntreeOpProgress (op : ReduceKntreeOp B) :
    Prog (Cell B) β (ReduceKntreeOp B × Status) := do
  let (op, status) ← reduceKntreeOpFromChildren reduce op
  if status ≠ .ok then return ({ op with status := status }, status)
  let (op, status) ← reduceKntreeOpToParent op
  return ({ op with status := status }, status)

/-- What `ucg_planc_ucx_reduce_kntree_op_trigger` sets. -/
def ReduceKntreeOp.start (op : ReduceKntreeOp B) (id : ℕ) : ReduceKntreeOp B :=
  { op with
    id := id
    status := .inprogress
    kntreeIter := op.kntreeIter.reset
    bitcount := 0
    reqBitmap := List.replicate op.requestsCount false
    flags := ⟨true, true, true, true⟩ }

/-- `ucg_planc_ucx_reduce_kntree_op_trigger`. -/
def reduceKntreeOpTrigger (op : ReduceKntreeOp B) (id : ℕ) :
    Prog (Cell B) β (ReduceKntreeOp B × Status) := do
  if let some sendbuf := op.args.sendbuf then
    dtMemcpy (span op.args.recvbuf op.args.count) (span sendbuf op.args.count)
  let (op, status) ← reduceKntreeOpProgress reduce (op.start id)
  return (op, if status = .inprogress then .ok else status)

/-- The trigger and progress functions of the operation. -/
def reduceKntreeFuncs : OpFuncs (Prog (Cell B) β) (ReduceKntreeOp B) where
  trigger := reduceKntreeOpTrigger reduce
  progress := reduceKntreeOpProgress reduce

/-- The loop of `ucg_planc_ucx_reduce_kntree_op_init` that counts the children. -/
def reduceKntreeCount : ℕ → KntreeIter → ℕ → KntreeIter × ℕ
  | 0, iter, requestsCount => (iter, requestsCount)
  | fuel + 1, iter, requestsCount =>
    match iter.child with
    | none => (iter, requestsCount)
    | some _ => reduceKntreeCount fuel iter.childInc (requestsCount + 1)

/-- `ucg_planc_ucx_reduce_kntree_op_new`, with the staging area that it allocates. -/
def reduceKntreeOpNew (vgroup : VGroup) (args : ReduceArgs B) (kntreeDegree : ℕ)
    (stagingArea : Cell B) : ReduceKntreeOp B :=
  let iter := KntreeIter.init vgroup.size kntreeDegree args.root vgroup.myrank false
  let (iter, requestsCount) := reduceKntreeCount vgroup.size iter 0
  { vgroup := vgroup
    args := args
    status := .ok
    id := 0
    flags := ⟨false, false, false, false⟩
    stagingArea := stagingArea
    kntreeIter := iter
    requestsCount := requestsCount
    reqBitmap := List.replicate requestsCount false
    bitcount := 0 }

end Functions

/-! ### The operation comes to its end -/

section Live

variable {reduce : β → β → β}

/-- The bits of the children that have been combined are counted. -/
structure ReduceCounted (op : ReduceKntreeOp B) : Prop where
  length : op.reqBitmap.length = op.requestsCount
  bitcount : op.bitcount = op.reqBitmap.count true

/-- Between calls. -/
structure ReduceWaits (op : ReduceKntreeOp B) : Prop extends ReduceCounted op where
  posted : op.flags.recvFromChildRecv = false

theorem ReduceCounted.bits_true {op : ReduceKntreeOp B} (h : ReduceCounted op)
    (hall : op.bitcount = op.requestsCount) (bit : Bool) (hbit : bit ∈ op.reqBitmap) :
    bit = true := by
  have hcount : op.reqBitmap.count true = op.reqBitmap.length := by
    rw [← h.bitcount, hall, h.length]
  exact (List.count_eq_length.mp hcount bit hbit).symm

theorem count_set_true {bits : List Bool} {i : ℕ} (h : bits[i]? = some false) :
    (bits.set i true).count true = bits.count true + 1 := by
  obtain ⟨hi, hbit⟩ := List.getElem?_eq_some_iff.mp h
  rw [List.count_set hi, hbit]
  simp

theorem ReduceWaits.combine {op : ReduceKntreeOp B} (h : ReduceWaits op) {idx : ℕ}
    (hbit : op.reqBitmap[idx]? = some false) : ReduceWaits
      { op with reqBitmap := op.reqBitmap.set idx true, bitcount := op.bitcount + 1 } where
  length := (List.length_set ..).trans h.length
  bitcount := by rw [count_set_true hbit, h.bitcount]
  posted := h.posted

/-- A child that has not been combined is one that the loop has yet to look at. -/
theorem bit_eq_false {bits : List Bool} {idx n : ℕ} (hlen : bits.length = n) (hidx : idx < n)
    (h : bits[idx]? ≠ some true) : bits[idx]? = some false := by
  rw [List.getElem?_eq_getElem (by omega)] at h ⊢
  simpa using h

theorem all_recv : ∀ {fuel idx : ℕ} {op : ReduceKntreeOp B}, ReduceWaits op →
    (reduceKntreeOpRecv fuel idx op : Prog (Cell B) β _).All fun res => ReduceWaits res.1
  | 0, _, _, h => h
  | fuel + 1, idx, op, h => by
    rw [reduceKntreeOpRecv]
    split
    · exact h
    · simp only [all_bind, all_p2pIrecv, ne_eq, not_true_eq_false, if_false]
      exact all_recv { h with }

theorem all_reduce : ∀ {idxs : List ℕ} {op : ReduceKntreeOp B}, ReduceWaits op →
    (∀ idx ∈ idxs, idx < op.requestsCount) →
    (reduceKntreeOpReduce reduce idxs op).All fun res => res.2 = .ok ∧ ReduceWaits res.1
  | [], op, h, _ => ⟨rfl, h⟩
  | idx :: idxs, op, h, hidxs => by
    rw [List.forall_mem_cons] at hidxs
    rw [reduceKntreeOpReduce]
    split_ifs with hbit
    · exact all_reduce h hidxs.2
    · simp only [all_bind, all_p2pTest, ne_eq, not_true_eq_false, if_true, if_false, all_opReduce,
        reduceCtorEq]
      refine ⟨all_reduce (h.combine (bit_eq_false h.length hidxs.1 hbit)) hidxs.2, ?_⟩
      exact all_reduce h hidxs.2

/-- When nothing is in flight, the loop combines every child. -/
theorem busy_reduce : ∀ {idxs : List ℕ} {op : ReduceKntreeOp B}, ReduceWaits op →
    (∀ idx ∈ idxs, idx < op.requestsCount) →
    (∀ idx, op.reqBitmap[idx]? = some false → idx ∈ idxs) →
    (reduceKntreeOpReduce reduce idxs op).Busy fun res =>
      res.2 = .ok ∧ res.1.bitcount = res.1.requestsCount
  | [], op, h, _, hall => by
    refine ⟨rfl, ?_⟩
    have hcount : op.reqBitmap.count true = op.reqBitmap.length := by
      refine List.count_eq_length.mpr fun b hb => ?_
      obtain ⟨idx, hidx⟩ := List.mem_iff_getElem?.mp hb
      cases b with
      | true => rfl
      | false => exact absurd (hall idx hidx) List.not_mem_nil
    rw [h.bitcount, hcount, h.length]
  | idx :: idxs, op, h, hidxs, hall => by
    rw [List.forall_mem_cons] at hidxs
    rw [reduceKntreeOpReduce]
    split_ifs with hbit
    · refine busy_reduce h hidxs.2 fun i hi => ?_
      rcases List.mem_cons.mp (hall i hi) with rfl | hmem
      · rw [hbit] at hi
        cases hi
      · exact hmem
    · simp only [busy_bind, busy_p2pTest, ne_eq, not_true_eq_false, if_false, busy_opReduce,
        reduceCtorEq]
      have hfalse := bit_eq_false h.length hidxs.1 hbit
      refine busy_reduce (h.combine hfalse) hidxs.2 fun i hi => ?_
      rcases eq_or_ne idx i with rfl | hne
      · rw [List.getElem?_set_self (by rw [h.length]; exact hidxs.1)] at hi
        cases hi
      · dsimp only at hi
        rw [List.getElem?_set_ne hne] at hi
        exact (List.mem_cons.mp (hall i hi)).resolve_left hne.symm

theorem all_post {op : ReduceKntreeOp B} (h : ReduceCounted op) :
    (reduceKntreeOpPost op : Prog (Cell B) β _).All fun res => ReduceWaits res.1 := by
  rw [reduceKntreeOpPost]
  split_ifs with hflag
  · exact all_recv { h with posted := rfl }
  · exact { h with posted := Bool.eq_false_iff.mpr hflag }

theorem all_recvAndReduce {op : ReduceKntreeOp B} (h : ReduceCounted op) :
    (reduceKntreeOpRecvAndReduce reduce op).All fun res => ReduceWaits res.1 := by
  rw [reduceKntreeOpRecvAndReduce, all_bind]
  refine (all_post h).imp ?_
  rintro ⟨op, st⟩ hres
  dsimp only
  split_ifs
  · exact hres
  · rw [all_bind]
    refine (all_reduce hres fun _ hidx => List.mem_range.mp hidx).imp ?_
    rintro ⟨op, st⟩ ⟨-, hres⟩
    dsimp only
    split_ifs <;> exact hres

theorem busy_recvAndReduce {op : ReduceKntreeOp B} (h : ReduceWaits op) :
    (reduceKntreeOpRecvAndReduce reduce op).Busy fun res => res.2 = .ok := by
  rw [reduceKntreeOpRecvAndReduce, reduceKntreeOpPost, if_neg (by simp [h.posted])]
  simp only [busy_bind, busy_pure, ne_eq, not_true_eq_false, if_false]
  refine (busy_reduce h (fun _ hidx => List.mem_range.mp hidx) fun idx hidx => ?_).imp
    fun res hres => ?_
  · obtain ⟨hlt, -⟩ := List.getElem?_eq_some_iff.mp hidx
    exact List.mem_range.mpr (h.length ▸ hlt)
  · simp [hres.1, hres.2]

theorem all_send {op : ReduceKntreeOp B} (h : ReduceWaits op) :
    (reduceKntreeOpSend op : Prog (Cell B) β _).All fun res => ReduceWaits res.1 := by
  rw [reduceKntreeOpSend]
  split
  · exact h
  · have hclear : ReduceWaits { op with flags := { op.flags with sendToParentSend := false } } :=
      { h with }
    dsimp only
    split_ifs <;> simp [h, hclear]

theorem busy_send {op : ReduceKntreeOp B} :
    (reduceKntreeOpSend op : Prog (Cell B) β _).Busy fun res => res.2 = .ok := by
  rw [reduceKntreeOpSend]
  split
  · rfl
  · dsimp only
    split_ifs <;> simp

theorem all_fromChildren {op : ReduceKntreeOp B} (h : ReduceCounted op)
    (hflag : op.flags.recvFromChild = false → op.flags.recvFromChildRecv = false) :
    (reduceKntreeOpFromChildren reduce op).All fun res => ReduceWaits res.1 := by
  rw [reduceKntreeOpFromChildren]
  split_ifs with hchild
  · rw [all_bind]
    refine (all_recvAndReduce h).imp ?_
    rintro ⟨op, st⟩ hres
    dsimp only
    split_ifs
    · exact hres
    · exact { hres with }
  · exact { h with posted := hflag (Bool.eq_false_iff.mpr hchild) }

theorem busy_fromChildren {op : ReduceKntreeOp B} (h : ReduceWaits op) :
    (reduceKntreeOpFromChildren reduce op).Busy fun res => res.2 = .ok := by
  rw [reduceKntreeOpFromChildren]
  split_ifs with hchild
  · rw [busy_bind]
    refine (busy_recvAndReduce h).imp fun res hres => ?_
    simp [hres]
  · rfl

theorem all_toParent {op : ReduceKntreeOp B} (h : ReduceWaits op) :
    (reduceKntreeOpToParent op : Prog (Cell B) β _).All fun res => ReduceWaits res.1 := by
  rw [reduceKntreeOpToParent]
  split_ifs with hparent
  · rw [all_bind]
    refine (all_send h).imp ?_
    rintro ⟨op, st⟩ hres
    dsimp only
    split_ifs
    · exact hres
    · exact { hres with }
  · exact h

theorem busy_toParent {op : ReduceKntreeOp B} :
    (reduceKntreeOpToParent op : Prog (Cell B) β _).Busy fun res => res.2 = .ok := by
  rw [reduceKntreeOpToParent]
  split_ifs with hparent
  · rw [busy_bind]
    refine busy_send.imp fun res hres => ?_
    simp [hres]
  · rfl

theorem all_progress {op : ReduceKntreeOp B} (h : ReduceCounted op)
    (hflag : op.flags.recvFromChild = false → op.flags.recvFromChildRecv = false) :
    (reduceKntreeOpProgress reduce op).All fun res => res.2 = res.1.status ∧ ReduceWaits res.1 := by
  rw [reduceKntreeOpProgress, all_bind]
  refine (all_fromChildren h hflag).imp ?_
  rintro ⟨op, st⟩ hres
  dsimp only
  split_ifs
  · exact ⟨rfl, { hres with }⟩
  · rw [all_bind]
    exact (all_toParent hres).imp fun res hres => ⟨rfl, { hres with }⟩

variable (reduce) in
/-- The reduce comes to its end. -/
theorem reduceKntree_lively (op : ReduceKntreeOp B) (id : ℕ) :
    OpLively (reduceKntreeFuncs reduce) ReduceKntreeOp.status id op := by
  refine ⟨ReduceWaits, ⟨fun op h => ?_, fun op h => ?_⟩, ?_⟩
  · exact all_progress h.toReduceCounted fun _ => h.posted
  · change (reduceKntreeOpProgress reduce op).Busy _
    rw [reduceKntreeOpProgress, busy_bind]
    refine (busy_fromChildren h).imp ?_
    rintro ⟨op, st⟩ hres
    dsimp only at hres ⊢
    rw [if_neg (not_not.mpr hres), busy_bind]
    exact busy_toParent.imp fun res hres => by simp [hres]
  · have hstart : (reduceKntreeOpProgress reduce (op.start id)).All fun res => ReduceWaits res.1 :=
      (all_progress ⟨List.length_replicate, by simp [ReduceKntreeOp.start, List.count_replicate]⟩
        (fun hflag => by cases hflag)).imp fun res hres => hres.2
    change (reduceKntreeOpTrigger reduce op id).All _
    rw [reduceKntreeOpTrigger]
    split <;> simpa using hstart

end Live

/-! ### What a rank sends to its parent -/

section Done

variable {γ : Type} [CommSemigroup γ]

/-- The product over the bits that are set. -/
def doneProd : List γ → List Bool → WithOne γ
  | y :: ys, bit :: bits => (if bit then (y : WithOne γ) else 1) * doneProd ys bits
  | _, _ => 1

theorem doneProd_none : ∀ {ys : List γ} {n : ℕ}, doneProd ys (List.replicate n false) = 1
  | [], 0 | [], _ + 1 | _ :: _, 0 => rfl
  | y :: ys, n + 1 => by
    rw [List.replicate_succ, doneProd, doneProd_none, if_neg Bool.false_ne_true, one_mul]

theorem doneProd_all : ∀ {ys : List γ} {bits : List Bool}, bits.length = ys.length →
    (∀ bit ∈ bits, bit = true) → doneProd ys bits = (ys.map ((↑) : γ → WithOne γ)).prod
  | [], [], _, _ => rfl
  | y :: ys, bit :: bits, hlen, h => by
    rw [List.forall_mem_cons] at h
    rw [doneProd, h.1, if_pos rfl, doneProd_all (Nat.succ.inj hlen) h.2, List.map_cons,
      List.prod_cons]

/-- The product after one more bit has been set. -/
theorem doneProd_set : ∀ {ys : List γ} {bits : List Bool} {i : ℕ} {y : γ}, ys[i]? = some y →
    bits[i]? = some false → doneProd ys (bits.set i true) = y * doneProd ys bits
  | [], _, _, _, hy, _ => by cases hy
  | _ :: _, [], _, _, _, hbit => by cases hbit
  | y :: ys, bit :: bits, 0, _, hy, hbit => by
    obtain rfl := Option.some.inj hy
    obtain rfl : bit = false := Option.some.inj hbit
    rw [List.set_cons_zero, doneProd, doneProd, if_pos rfl, if_neg Bool.false_ne_true, one_mul]
  | y :: ys, bit :: bits, i + 1, _, hy, hbit => by
    rw [List.getElem?_cons_succ] at hy hbit
    rw [List.set_cons_succ, doneProd, doneProd, doneProd_set hy hbit]
    exact mul_left_comm ..

end Done

section Result

variable [CommSemigroup β] (vgroup : VGroup) (args : ReduceArgs B) (staging : Cell B)

/-- Child number `idx` is received here. -/
def reduceSlot (idx : ℕ) : Cell B := (staging.1, staging.2 + idx * args.count)

/-- The messages of a rank whose children `kids` contribute what is given with them. -/
def reduceTrace (count : ℕ) (kids : List (ℕ × (ℕ → β))) (up : Option ℕ) (V : ℕ → β) :
    List (Event β) :=
  (kids.map fun kid => .recv kid.1 (vec count kid.2) ∅) ++
    up.toList.map fun peer => .send peer (vec count V) ∅

variable (kids : List (ℕ × (ℕ → β))) (up : Option ℕ) (x V : ℕ → β)

/-- What does not change during a reduce. -/
structure ReduceKeeps (op : ReduceKntreeOp B) : Prop where
  vgroup_eq : op.vgroup = vgroup
  args_eq : op.args = args
  staging_eq : op.stagingArea = staging
  count_eq : op.requestsCount = kids.length
  parent_eq : op.kntreeIter.parent = up

/-- The receives are posted, and some of the children have been combined with the result. -/
structure ReduceCollect (op : ReduceKntreeOp B) (g : Ghost (Cell B) β) : Prop
    extends ReduceKeeps vgroup args staging kids up op, ReduceCounted op where
  flags : op.flags = ⟨true, false, true, true⟩
  result : ∃ W : ℕ → β, Holds g.mem args.recvbuf args.count W ∧
    (W : WithOne (ℕ → β)) = x * doneProd (kids.map Prod.snd) op.reqBitmap
  slots : ∀ i kid, kids[i]? = some kid → op.reqBitmap[i]? = some false →
    Holds g.mem (reduceSlot args staging i) args.count kid.2
  pend : ∀ p ∈ g.pend, op.reqBitmap[p.handle]? = some false ∧
    p.dst = span (reduceSlot args staging p.handle) args.count
  todo : g.todo = (reduceTrace args.count [] up V).map (Event.mapPeer vgroup.rankMap)

/-- All children have been combined. -/
structure ReduceEnd (op : ReduceKntreeOp B) (g : Ghost (Cell B) β) : Prop
    extends ReduceKeeps vgroup args staging kids up op where
  pend : g.pend = []
  result : Holds g.mem args.recvbuf args.count V

/-- What a call leaves behind, by its status. -/
inductive ReduceInv (op : ReduceKntreeOp B) (g : Ghost (Cell B) β) : Prop
  | collect (hst : op.status = .inprogress) (h : ReduceCollect vgroup args staging kids up x V op g)
  | sent (hst : op.status = .inprogress) (h : ReduceEnd vgroup args staging kids up V op g)
      (hflags : op.flags = ⟨false, false, true, false⟩) (htodo : g.todo = [])
  | done (hst : op.status = .ok) (h : ReduceEnd vgroup args staging kids up V op g)
      (hflags : op.flags.recvFromChild = false ∧ op.flags.sendToParent = false)
      (htodo : g.todo = [])

variable {vgroup args staging kids up x V}

theorem reduceSlot_apart {i j : ℕ} (h : i ≠ j) : Apart (reduceSlot args staging i) args.count
    (reduceSlot args staging j) args.count := by
  refine Or.inr ?_
  rcases Nat.lt_or_gt_of_ne h with hlt | hlt
  · left
    have := Nat.mul_le_mul_right args.count (Nat.succ_le_of_lt hlt)
    simp only [reduceSlot]
    rw [Nat.succ_mul] at this
    omega
  · right
    have := Nat.mul_le_mul_right args.count (Nat.succ_le_of_lt hlt)
    simp only [reduceSlot]
    rw [Nat.succ_mul] at this
    omega

omit [CommSemigroup β] in
/-- The result is apart from every slot. -/
theorem reduceSlot_apart_recvbuf
    (hap : Apart args.recvbuf args.count staging (kids.length * args.count)) {i : ℕ}
    (hi : i < kids.length) :
    Apart args.recvbuf args.count (reduceSlot args staging i) args.count := by
  have hle := Nat.mul_le_mul_right args.count (Nat.succ_le_of_lt hi)
  rw [Nat.succ_mul] at hle
  rcases hap with h | h | h
  · exact Or.inl h
  · exact Or.inr (Or.inl (by simp only [reduceSlot]; omega))
  · exact Or.inr (Or.inr (by simp only [reduceSlot]; omega))

variable [DecidableEq B]

/-! #### Posting the receives -/

variable (args staging kids x) in
/-- The receives from the first `idx` children are posted. -/
structure ReducePosting (idx : ℕ) (g : Ghost (Cell B) β) : Prop where
  mine : Holds g.mem args.recvbuf args.count x
  slots : ∀ i kid, i < idx → kids[i]? = some kid →
    Holds g.mem (reduceSlot args staging i) args.count kid.2
  pend : ∀ p ∈ g.pend, p.handle < idx ∧
    p.dst = span (reduceSlot args staging p.handle) args.count

omit [CommSemigroup β] in
theorem wp_reduceRecv (tail : List (Event β)) : ∀ {fuel : ℕ} (pre rest : List (ℕ × (ℕ → β)))
    (op : ReduceKntreeOp B) {g : Ghost (Cell B) β},
      Apart op.args.recvbuf op.args.count op.stagingArea (kids.length * op.args.count) →
      kids = pre ++ rest → rest.length < fuel → op.kntreeIter.Yields (rest.map Prod.fst) →
      ReducePosting op.args op.stagingArea kids x pre.length g →
      g.todo = (rest.map fun kid => .recv kid.1 (vec op.args.count kid.2) ∅).map
        (Event.mapPeer op.vgroup.rankMap) ++ tail →
      (reduceKntreeOpRecv fuel pre.length op).wp (fun res g => res.2 = .ok ∧
        (∃ iter : KntreeIter, iter.toKntreeBase = op.kntreeIter.toKntreeBase ∧
          res.1 = { op with kntreeIter := iter }) ∧
        ReducePosting op.args op.stagingArea kids x kids.length g ∧ g.todo = tail) g
  | 0, _, _, _, _, _, _, hfuel, _, _, _ => absurd hfuel (Nat.not_lt_zero _)
  | fuel + 1, pre, [], op, g, _, hkids, _, hyields, hpost, htodo => by
    have hnone : op.kntreeIter.child = none := hyields
    rw [reduceKntreeOpRecv, hnone]
    rw [List.append_nil] at hkids
    rw [wp_pure]
    exact ⟨rfl, ⟨op.kntreeIter, rfl, rfl⟩, hkids ▸ hpost, htodo⟩
  | fuel + 1, pre, kid :: rest, op, g, hap, hkids, hfuel, hyields, hpost, htodo => by
    obtain ⟨hchild, hyields⟩ := hyields
    have hslot : op.slot pre.length = reduceSlot op.args op.stagingArea pre.length := rfl
    have hlt : pre.length < kids.length := by simp [hkids]
    have hbufap := reduceSlot_apart_recvbuf hap hlt
    rw [reduceKntreeOpRecv, hchild]
    simp only [wp_bind, wp_p2pIrecv, hslot, htodo, List.map_cons, List.cons_append,
      Event.mapPeer, ne_eq, not_true_eq_false, if_false]
    refine ⟨fun i hi p hp => ?_, _, _, _, rfl, by simp, ?_⟩
    · obtain ⟨hhandle, hdst⟩ := hpost.pend p hp
      rw [hdst]
      exact (reduceSlot_apart hhandle.ne').notMem hi
    · rw [length_vec, take_span _ le_rfl]
      have hrec := wp_reduceRecv tail (pre ++ [kid]) rest
        { op with kntreeIter := op.kntreeIter.childInc }
        (g := ⟨writeCells (span (reduceSlot op.args op.stagingArea pre.length) op.args.count)
            (vec op.args.count kid.2) g.mem,
          g.pend ++ [⟨pre.length,
            span (reduceSlot op.args op.stagingArea pre.length) op.args.count, ∅⟩],
          (rest.map fun kid => .recv kid.1 (vec op.args.count kid.2) ∅).map
            (Event.mapPeer op.vgroup.rankMap) ++ tail, g.know⟩)
        hap (by simp [hkids]) (Nat.lt_of_succ_lt_succ hfuel) hyields ?_ rfl
      · rw [List.length_append, List.length_singleton] at hrec
        refine hrec.imp ?_
        rintro ⟨op', st⟩ g' ⟨hst, ⟨iter, hiter, hop⟩, hrest⟩
        exact ⟨hst, ⟨iter, hiter.trans (KntreeIter.childInc_base _), hop⟩, hrest⟩
      · rw [List.length_append, List.length_singleton]
        refine ⟨hpost.mine.write hbufap, fun i kid' hi hkid => ?_, fun p hp => ?_⟩
        · rcases Nat.lt_succ_iff_lt_or_eq.mp hi with hlt | rfl
          · exact (hpost.slots i kid' hlt hkid).write (reduceSlot_apart hlt.ne)
          · obtain rfl : kid = kid' := by simpa [hkids] using hkid
            exact holds_write _ _ _ _
        · rcases List.mem_append.mp hp with hp | hp
          · exact ⟨(hpost.pend p hp).1.trans (Nat.lt_succ_self _), (hpost.pend p hp).2⟩
          · rw [List.mem_singleton.mp hp]
            exact ⟨Nat.lt_succ_self _, rfl⟩

/-! #### Combining -/

/-- One more child is combined with the result. -/
theorem ReduceCollect.combine {op : ReduceKntreeOp B} {g : Ghost (Cell B) β}
    (h : ReduceCollect vgroup args staging kids up x V op g)
    (hap : Apart args.recvbuf args.count staging (kids.length * args.count)) {idx : ℕ}
    (hidx : idx < kids.length) (hbit : op.reqBitmap[idx]? = some false) :
    ReduceCollect vgroup args staging kids up x V
      { op with reqBitmap := op.reqBitmap.set idx true, bitcount := op.bitcount + 1 }
      { g.done idx with
        mem := zipCells (· * ·) (span (reduceSlot args staging idx) args.count)
          (span args.recvbuf args.count) g.mem } where
  vgroup_eq := h.vgroup_eq
  args_eq := h.args_eq
  staging_eq := h.staging_eq
  count_eq := h.count_eq
  parent_eq := h.parent_eq
  length := (List.length_set ..).trans h.length
  bitcount := by rw [count_set_true hbit, h.bitcount]
  flags := h.flags
  result := by
    obtain ⟨W, hW, hval⟩ := h.result
    have hkid : kids[idx]? = some kids[idx] := List.getElem?_eq_getElem hidx
    have hslot := h.slots idx _ hkid hbit
    have hbuf := reduceSlot_apart_recvbuf hap hidx
    refine ⟨kids[idx].2 * W, hslot.zip (f := (· * ·)) hW hbuf.symm, ?_⟩
    rw [doneProd_set (y := kids[idx].2) (by rw [List.getElem?_map, hkid]; rfl) hbit,
      WithOne.coe_mul, hval]
    exact mul_left_comm ..
  slots i kid hkid hi := by
    have hne : idx ≠ i := by
      rintro rfl
      obtain ⟨hlt, -⟩ := List.getElem?_eq_some_iff.mp hbit
      rw [List.getElem?_set_self hlt] at hi
      cases hi
    dsimp only at hi
    rw [List.getElem?_set_ne hne] at hi
    have hlt : i < kids.length := (List.getElem?_eq_some_iff.mp hkid).1
    exact (h.slots i kid hkid hi).zip_source (reduceSlot_apart_recvbuf hap hlt).symm
  pend p hp := by
    obtain ⟨hp, hne⟩ := List.mem_filter.mp hp
    obtain ⟨hfalse, hdst⟩ := h.pend p hp
    refine ⟨?_, hdst⟩
    dsimp only
    rw [List.getElem?_set_ne fun heq => of_decide_eq_true hne heq.symm]
    exact hfalse
  todo := h.todo

/-- The loop over the children, whatever has come. -/
theorem wp_reduceReduce
    (hap : Apart args.recvbuf args.count staging (kids.length * args.count)) :
    ∀ {idxs : List ℕ} {op : ReduceKntreeOp B} {g : Ghost (Cell B) β},
      (∀ idx ∈ idxs, idx < kids.length) → ReduceCollect vgroup args staging kids up x V op g →
      (reduceKntreeOpReduce (· * ·) idxs op).wp (fun res g =>
        res.2 = .ok ∧ ReduceCollect vgroup args staging kids up x V res.1 g) g
  | [], _, _, _, h => ⟨rfl, h⟩
  | idx :: idxs, op, g, hidxs, h => by
    rw [List.forall_mem_cons] at hidxs
    rw [reduceKntreeOpReduce]
    split_ifs with hbit
    · exact wp_reduceReduce hap hidxs.2 h
    · simp only [wp_bind, wp_p2pTest, ne_eq, not_true_eq_false, if_true, if_false, reduceCtorEq,
        wp_opReduce]
      have hfalse := bit_eq_false (h.length.trans h.count_eq) hidxs.1 hbit
      have hbuf := reduceSlot_apart_recvbuf hap hidxs.1
      have hslot : op.slot idx = reduceSlot args staging idx := by
        rw [ReduceKntreeOp.slot, h.args_eq, h.staging_eq, reduceSlot]
      -- what is in flight goes to other slots
      have hdst (p) (hp : p ∈ (g.done idx).pend) : p.handle ≠ idx ∧ p.handle < kids.length ∧
          p.dst = span (reduceSlot args staging p.handle) args.count := by
        obtain ⟨hp, hne⟩ := List.mem_filter.mp hp
        obtain ⟨hpbit, hpdst⟩ := h.pend p hp
        have hlt := (List.getElem?_eq_some_iff.mp hpbit).1
        exact ⟨of_decide_eq_true hne, by rwa [h.length, h.count_eq] at hlt, hpdst⟩
      refine ⟨⟨fun i hi p hp => ?_, fun i hi p hp => ?_, ?_⟩, wp_reduceReduce hap hidxs.2 h⟩
      · obtain ⟨hne, -, hp⟩ := hdst p hp
        rw [hslot, h.args_eq] at hi
        rw [hp]
        exact (reduceSlot_apart hne.symm).notMem hi
      · obtain ⟨-, hlt, hp⟩ := hdst p hp
        rw [h.args_eq] at hi
        rw [hp]
        exact (reduceSlot_apart_recvbuf hap hlt).notMem hi
      · have hnext := h.combine hap hidxs.1 hfalse
        rw [← hslot, ← h.args_eq] at hnext
        exact wp_reduceReduce hap hidxs.2 (h.args_eq ▸ hnext)

omit [DecidableEq B] in
/-- When all bits are set, nothing is in flight, and the result is complete. -/
theorem ReduceCollect.finish {op : ReduceKntreeOp B} {g : Ghost (Cell B) β}
    (h : ReduceCollect vgroup args staging kids up x V op g)
    (hV : (V : WithOne (ℕ → β)) =
      x * (kids.map fun kid => ((kid.2 : ℕ → β) : WithOne (ℕ → β))).prod)
    (hall : op.bitcount = op.requestsCount) : ReduceEnd vgroup args staging kids up V op g where
  toReduceKeeps := h.toReduceKeeps
  pend := by
    refine List.eq_nil_iff_forall_not_mem.mpr fun p hp => ?_
    have hbit := (h.pend p hp).1
    have hmem := List.mem_of_getElem? hbit
    have htrue := h.bits_true hall false hmem
    cases htrue
  result := by
    obtain ⟨W, hW, hval⟩ := h.result
    have hlen : op.reqBitmap.length = (kids.map Prod.snd).length := by
      rw [h.length, h.count_eq, List.length_map]
    rw [doneProd_all hlen (h.bits_true hall), List.map_map] at hval
    have hWV : W = V := WithOne.coe_inj.mp (hval.trans hV.symm)
    exact hWV ▸ hW

/-! #### Progress -/

/-- The last step, behind the receives. -/
theorem wp_reduceToParent {op : ReduceKntreeOp B} {g : Ghost (Cell B) β}
    (h : ReduceEnd vgroup args staging kids up V op g)
    (hstate : (op.flags = ⟨false, false, true, true⟩ ∧
        g.todo = (reduceTrace args.count [] up V).map (Event.mapPeer vgroup.rankMap)) ∨
      (op.flags = ⟨false, false, true, false⟩ ∧ g.todo = []) ∨
      (op.flags.recvFromChild = false ∧ op.flags.sendToParent = false ∧ g.todo = [])) :
    (reduceKntreeOpToParent op).wp (fun res g =>
      ReduceInv vgroup args staging kids up x V { res.1 with status := res.2 } g) g := by
  have hfree (i) : g.Free i := fun p hp => absurd (h.pend ▸ hp) List.not_mem_nil
  have hpend : g.doneAll.pend = [] := rfl
  rw [reduceKntreeOpToParent]
  rcases hstate with ⟨hflags, htodo⟩ | ⟨hflags, htodo⟩ | ⟨hrecv, hsend, htodo⟩
  · rw [hflags, if_pos rfl, reduceKntreeOpSend, h.parent_eq]
    cases hup : up with
    | none =>
      simp only [wp_bind, wp_pure, ne_eq, not_true_eq_false, if_false]
      rw [hup] at h htodo
      exact .done rfl { h with } ⟨congrArg ReduceFlags.recvFromChild hflags, rfl⟩ htodo
    | some peer =>
      subst hup
      simp only [reduceTrace, List.map_nil, List.nil_append, Option.toList_some, List.map_cons,
        Event.mapPeer] at htodo
      simp only [hflags, if_true, wp_bind, wp_p2pIsend, h.args_eq, h.vgroup_eq, htodo,
        h.result.map_span, wp_p2pTestall, wp_pure, ne_eq, not_true_eq_false, if_false,
        reduceCtorEq, not_false_eq_true]
      refine ⟨fun i _ => hfree i, _, _, rfl, Set.empty_subset _, ?_, ?_⟩
      · exact .done rfl { h with pend := rfl, vgroup_eq := rfl, args_eq := rfl } ⟨rfl, rfl⟩ rfl
      · exact .sent rfl { h with vgroup_eq := rfl, args_eq := rfl } rfl rfl
  · rw [hflags, if_pos rfl, reduceKntreeOpSend, h.parent_eq]
    cases hup : up with
    | none =>
      simp only [wp_bind, wp_pure, ne_eq, not_true_eq_false, if_false]
      rw [hup] at h
      exact .done rfl { h with } ⟨congrArg ReduceFlags.recvFromChild hflags, rfl⟩ htodo
    | some peer =>
      subst hup
      simp only [hflags, wp_bind, wp_p2pTestall, wp_pure, ne_eq, not_true_eq_false, if_false,
        reduceCtorEq, not_false_eq_true, if_true, Bool.false_eq_true]
      exact ⟨.done rfl { h with pend := rfl } ⟨rfl, rfl⟩ htodo, .sent rfl { h with } rfl htodo⟩
  · rw [hsend, if_neg Bool.false_ne_true, wp_pure]
    exact .done rfl { h with } ⟨hrecv, hsend⟩ htodo

/-- A progress call that combines, when the receives are posted. -/
theorem wp_reduceProgress_collect
    (hap : Apart args.recvbuf args.count staging (kids.length * args.count))
    (hV : (V : WithOne (ℕ → β)) =
      x * (kids.map fun kid => ((kid.2 : ℕ → β) : WithOne (ℕ → β))).prod)
    {op : ReduceKntreeOp B} {g : Ghost (Cell B) β} (hflag : op.flags.recvFromChild = true)
    (hpost : (reduceKntreeOpPost op).wp (fun res g => res.2 = .ok ∧
      ReduceCollect vgroup args staging kids up x V res.1 g) g) :
    (reduceKntreeOpProgress (· * ·) op).wp (fun res g => res.2 = res.1.status ∧
      ReduceInv vgroup args staging kids up x V res.1 g) g := by
  rw [reduceKntreeOpProgress, reduceKntreeOpFromChildren, if_pos hflag, reduceKntreeOpRecvAndReduce]
  simp only [wp_bind]
  refine hpost.imp ?_
  rintro ⟨op, st⟩ g ⟨rfl : st = .ok, h⟩
  simp only [ne_eq, not_true_eq_false, if_false, wp_bind]
  refine (wp_reduceReduce hap (fun idx hidx => ?_) h).imp ?_
  · rw [← h.count_eq]
    exact List.mem_range.mp hidx
  rintro ⟨op, st⟩ g ⟨rfl : st = .ok, h⟩
  simp only [not_true_eq_false, if_false, wp_pure]
  by_cases hall : op.bitcount = op.requestsCount
  · simp only [if_pos hall, not_true_eq_false, if_false, wp_bind, wp_pure]
    have hend : ReduceEnd vgroup args staging kids up V
        { op with flags := { op.flags with recvFromChild := false } } g :=
      { h.finish hV hall with }
    refine (wp_reduceToParent (x := x) hend (Or.inl ⟨?_, h.todo⟩)).imp
      fun res g hres => ⟨trivial, hres⟩
    have hflags : op.flags = ⟨true, false, true, true⟩ := h.flags
    simp only [hflags]
  · simp only [if_neg hall, reduceCtorEq, not_false_eq_true, if_true, wp_pure]
    exact ⟨trivial, .collect rfl { h with }⟩

/-- A progress call keeps the invariant. -/
theorem wp_reduceProgress
    (hap : Apart args.recvbuf args.count staging (kids.length * args.count))
    (hV : (V : WithOne (ℕ → β)) =
      x * (kids.map fun kid => ((kid.2 : ℕ → β) : WithOne (ℕ → β))).prod)
    {op : ReduceKntreeOp B} {g : Ghost (Cell B) β}
    (h : ReduceInv vgroup args staging kids up x V op g) :
    (reduceKntreeOpProgress (· * ·) op).wp (fun res g => res.2 = res.1.status ∧
      ReduceInv vgroup args staging kids up x V res.1 g) g := by
  cases h with
  | collect _ h =>
    refine wp_reduceProgress_collect hap hV (by rw [h.flags]) ?_
    rw [reduceKntreeOpPost, h.flags, if_neg Bool.false_ne_true, wp_pure]
    exact ⟨rfl, h⟩
  | sent _ h hflags htodo =>
    rw [reduceKntreeOpProgress, reduceKntreeOpFromChildren, hflags, if_neg Bool.false_ne_true]
    simp only [wp_bind, wp_pure, ne_eq, not_true_eq_false, if_false]
    exact (wp_reduceToParent (x := x) h (Or.inr (Or.inl ⟨hflags, htodo⟩))).imp
      fun res g hres => ⟨trivial, hres⟩
  | done _ h hflags htodo =>
    rw [reduceKntreeOpProgress, reduceKntreeOpFromChildren, hflags.1, if_neg Bool.false_ne_true]
    simp only [wp_bind, wp_pure, ne_eq, not_true_eq_false, if_false]
    exact (wp_reduceToParent (x := x) h (Or.inr (Or.inr ⟨hflags.1, hflags.2, htodo⟩))).imp
      fun res g hres => ⟨trivial, hres⟩

/-- The first progress call, from within the trigger. -/
theorem wp_reduceFirst
    (hap : Apart args.recvbuf args.count staging (kids.length * args.count))
    (hV : (V : WithOne (ℕ → β)) =
      x * (kids.map fun kid => ((kid.2 : ℕ → β) : WithOne (ℕ → β))).prod)
    {op : ReduceKntreeOp B} (hkeeps : ReduceKeeps vgroup args staging kids up op)
    (hyields : op.kntreeIter.reset.Yields (kids.map Prod.fst))
    (hsize : kids.length ≤ op.kntreeIter.size) {id : ℕ} {m : Cell B → β} {k : Set ℕ}
    (hmine : Holds m args.recvbuf args.count x) :
    (reduceKntreeOpProgress (· * ·) (op.start id)).wp (fun res g => res.2 = res.1.status ∧
      ReduceInv vgroup args staging kids up x V res.1 g)
      ⟨m, [], (reduceTrace args.count kids up V).map (Event.mapPeer vgroup.rankMap), k⟩ := by
  obtain ⟨hvgroup, hargs, hstaging, hcount, hparent⟩ := hkeeps
  refine wp_reduceProgress_collect hap hV rfl ?_
  have hflag : (op.start id).flags.recvFromChildRecv = true := rfl
  rw [reduceKntreeOpPost, if_pos hflag]
  have hbase : op.kntreeIter.reset.toKntreeBase = op.kntreeIter.toKntreeBase :=
    KntreeIter.reset_base _
  subst hvgroup hargs hstaging
  let first : ReduceKntreeOp B :=
    { op.start id with flags := { (op.start id).flags with recvFromChildRecv := false } }
  have hpost : ReducePosting op.args op.stagingArea kids x 0 (⟨m, [],
      (reduceTrace op.args.count kids up V).map (Event.mapPeer op.vgroup.rankMap), k⟩ :
        Ghost (Cell B) β) :=
    ⟨hmine, fun i _ hi => absurd hi (Nat.not_lt_zero i), fun p hp => absurd hp List.not_mem_nil⟩
  refine (wp_reduceRecv ((reduceTrace op.args.count [] up V).map (Event.mapPeer op.vgroup.rankMap))
    [] kids first
    hap rfl ?_ hyields hpost ?_).imp ?_
  · exact Nat.lt_succ_of_le (hsize.trans_eq (congrArg KntreeBase.size hbase).symm)
  · simp [reduceTrace, first, ReduceKntreeOp.start]
  · rintro ⟨op', st⟩ g ⟨hst, ⟨iter, hiter, rfl⟩, hpost, htodo⟩
    refine ⟨hst, ⟨rfl, rfl, rfl, hcount, ?_⟩, ⟨?_, ?_⟩, rfl, ⟨x, hpost.mine, ?_⟩, ?_, ?_, htodo⟩
    · exact (congrArg KntreeBase.parent (hiter.trans hbase)).trans hparent
    · exact List.length_replicate
    · simp [first, ReduceKntreeOp.start, List.count_replicate]
    · simp only [first, ReduceKntreeOp.start]
      rw [doneProd_none, mul_one]
    · intro i kid hkid _
      exact hpost.slots i kid (List.getElem?_eq_some_iff.mp hkid).1 hkid
    · intro p hp
      obtain ⟨hlt, hdst⟩ := hpost.pend p hp
      refine ⟨?_, hdst⟩
      simp only [first, ReduceKntreeOp.start]
      rw [List.getElem?_replicate, if_pos (by omega)]

/-- A reduce of a rank whose children contribute what is given with them obeys its trace. -/
theorem reduceKntree_obeys_of
    (hap : Apart args.recvbuf args.count staging (kids.length * args.count))
    (hV : (V : WithOne (ℕ → β)) =
      x * (kids.map fun kid => ((kid.2 : ℕ → β) : WithOne (ℕ → β))).prod)
    {op : ReduceKntreeOp B} (hkeeps : ReduceKeeps vgroup args staging kids up op)
    (hyields : op.kntreeIter.reset.Yields (kids.map Prod.fst))
    (hsize : kids.length ≤ op.kntreeIter.size) (id : ℕ) {m : Cell B → β} {k : Set ℕ}
    (hx : args.Brings m x) :
    Obeys (reduceKntreeFuncs (· * ·)) ReduceKntreeOp.status id op
      (ReduceInv vgroup args staging kids up x V)
      (fun m _ => Holds m args.recvbuf args.count V)
      ⟨m, [], (reduceTrace args.count kids up V).map (Event.mapPeer vgroup.rankMap), k⟩ where
  trigger := by
    have hfree (i) : (⟨m, [], (reduceTrace args.count kids up V).map
        (Event.mapPeer vgroup.rankMap), k⟩ : Ghost (Cell B) β).Free i :=
      fun p hp => absurd hp List.not_mem_nil
    simp only [reduceKntreeFuncs, reduceKntreeOpTrigger, hkeeps.args_eq]
    have hin := hx.input
    cases hsb : args.sendbuf with
    | none =>
      rw [hsb] at hin
      simp only [wp_bind, wp_pure]
      exact (wp_reduceFirst hap hV hkeeps hyields hsize hin).imp fun res g hres => hres.2
    | some sendbuf =>
      rw [hsb] at hin
      simp only [wp_bind, wp_pure, wp_dtMemcpy]
      refine ⟨fun i _ => hfree i, fun i _ => hfree i, ?_⟩
      have hcopy := hin.zip (f := fun s _ => s) (fun _ _ => rfl) (hx.apart _ hsb)
      exact (wp_reduceFirst hap hV hkeeps hyields hsize hcopy).imp fun res g hres => hres.2
  progress op g h := wp_reduceProgress hap hV h
  settled op g h := by
    cases h with
    | collect hst _ => exact Or.inl hst
    | sent hst _ _ _ => exact Or.inl hst
    | done hst h _ htodo => exact Or.inr ⟨hst, htodo, h.pend, h.result⟩

end Result

end Kucg.Ucx
