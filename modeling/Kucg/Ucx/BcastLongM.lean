import Kucg.Ucx.BcastLongRuns

/-! The modified long broadcast of `bcast_long_modified.c`: the root sends the whole buffer to the
    rank next to it and runs the long broadcast with the other ones.

    The other ranks are numbered again, without the one next to the root, and the buffer is cut into
    as many blocks as there are of them. So a group of two ranks is served by the first message
    alone, and in a group of one rank the buffer would be cut into no blocks. -/

namespace Kucg.Ucx

open Kucg.Core Kucg.Lib Kucg.Algo

variable {B β : Type}

/-- `convert_real_rank_to_kntree_rank`. -/
def convertRealRankToKntreeRank (size root realRank : ℕ) : ℕ :=
  if realRank = root then 0 else (realRank + size - root) % size - 1

/-- `convert_kntree_rank_to_real_rank`. -/
def convertKntreeRankToRealRank (kntreeSize root kntreeRank : ℕ) : ℕ :=
  if kntreeRank = 0 then root else (kntreeRank + 1 + root) % (kntreeSize + 1)

section Functions

/-- The ranks in the tree. -/
def BcastLongOp.kntreeSize (op : BcastLongOp B) : ℕ := op.vgroup.size - 1

/-- The rank of the group that a rank of the tree is. -/
def BcastLongOp.realRank (op : BcastLongOp B) : ℕ → ℕ :=
  convertKntreeRankToRealRank op.kntreeSize op.args.root

/-- `ucg_planc_ucx_bcast_long_m_allgather_op_progress`. -/
def bcastLongMAllgatherOpProgress (op : BcastLongOp B) :
    Prog (Cell B) β (BcastLongOp B × Status) :=
  bcastLongExchange op.kntreeSize op.realRank op.kntreeSize op

/-- Some of the blocks have been sent to a child, which the iterator leaves behind. -/
def BcastLongOp.sentM (op : BcastLongOp B) (blocks : ℕ) : BcastLongOp B :=
  { op with currBlocks := op.currBlocks - blocks, iter := op.iter.childInc }

/-- The loop of `ucg_planc_ucx_bcast_long_m_scatter_op_send`. The iterator stays where it is if
    there is nothing to send. The fuel bounds the number of turns. -/
def bcastLongMScatterLoop (fuel : ℕ) (op : BcastLongOp B) :
    Prog (Cell B) β (BcastLongOp B × Status) :=
  match op.iter.child with
  | none => return (op, .ok)
  | some peer =>
    match fuel with
    | 0 => return (op, .inprogress)
    | fuel + 1 =>
      let peerVrank := (peer + op.kntreeSize - op.iter.root) % op.kntreeSize
      let sendBlocks := op.currBlocks + op.iter.myrank - peerVrank
      if sendBlocks = 0 then bcastLongMScatterLoop fuel op
      else do
        let (offset, count) := blocksRange op.quotient op.division peerVrank sendBlocks
        let status ← p2pIsend (op.args.part offset count) (some (op.realRank peer)) op.vgroup
        if status ≠ .ok then return (op, status)
        bcastLongMScatterLoop fuel (op.sentM sendBlocks)

/-- `ucg_planc_ucx_bcast_long_m_scatter_op_send`. -/
def bcastLongMScatterOpSend (op : BcastLongOp B) : Prog (Cell B) β (BcastLongOp B × Status) :=
  if op.flags.send then bcastLongMScatterLoop op.kntreeSize op.clearSend else return (op, .ok)

/-- The receive in `ucg_planc_ucx_bcast_long_m_scatter_op_progress`, and the test after it. -/
def bcastLongMScatterOpRecv (op : BcastLongOp B) : Prog (Cell B) β (BcastLongOp B × Status) :=
  match op.iter.parent with
  | none => return (op, .ok)
  | some peer => do
    let (op, status) ← bcastLongScatterRecv op.kntreeSize op.realRank peer op
    if status ≠ .ok then return (op, status)
    let status ← p2pTestall
    return (op, status)

/-- `ucg_planc_ucx_bcast_long_m_scatter_op_progress`. -/
def bcastLongMScatterOpProgress (op : BcastLongOp B) :
    Prog (Cell B) β (BcastLongOp B × Status) := do
  let (op, status) ← bcastLongMScatterOpRecv op
  if status ≠ .ok then return (op, status)
  let (op, status) ← bcastLongMScatterOpSend op
  if status ≠ .ok then return (op, status)
  let status ← p2pTestall
  return (op, status)

/-- The message of the root to the rank next to it. -/
def bcastLongMNearSend (op : BcastLongOp B) : Prog (Cell B) β (BcastLongOp B × Status) :=
  if op.flags.send then do
    let status ← p2pIsend (op.args.part 0 op.args.count)
      (some ((op.args.root + 1) % op.vgroup.size)) op.vgroup
    return (op.clearSend, status)
  else return (op, .ok)

/-- The receive of that rank. -/
def bcastLongMNearRecv (op : BcastLongOp B) : Prog (Cell B) β (BcastLongOp B × Status) :=
  if op.flags.recv then do
    let status ← p2pIrecv (op.args.part 0 op.args.count) (some op.args.root) op.vgroup 0
    return (op.clearRecv, status)
  else return (op, .ok)

/-- `ucg_planc_ucx_bcast_long_m_root_to_near_op_progress`. A root of more than two ranks does not
    test. -/
def bcastLongMRootToNearOpProgress (op : BcastLongOp B) :
    Prog (Cell B) β (BcastLongOp B × Status) := do
  let (op, status) ← bcastLongMNearSend op
  if status ≠ .ok then return (op, status)
  let (op, status) ← bcastLongMNearRecv op
  if status ≠ .ok then return (op, status)
  if op.vgroup.myrank ≠ op.args.root ∨ op.vgroup.size ≤ 2 then
    let status ← p2pTestall
    return (op, status)
  else return (op, .ok)

/-- The third phase of `ucg_planc_ucx_bcast_long_m_op_progress`. -/
def bcastLongMOpGather (op : BcastLongOp B) : Prog (Cell B) β (BcastLongOp B × Status) := do
  if op.flags.allgathervPhase then
    let (op, status) ← bcastLongMAllgatherOpProgress op
    if status ≠ .ok then return ({ op with status := status }, status)
    return ({ op with flags := { op.flags with allgathervPhase := false }, status := .ok }, .ok)
  else return ({ op with status := .ok }, .ok)

/-- The second phase. -/
def bcastLongMOpScatter (op : BcastLongOp B) : Prog (Cell B) β (BcastLongOp B × Status) := do
  if op.flags.scattervPhase then
    let (op, status) ← bcastLongMScatterOpProgress op
    if status ≠ .ok then return ({ op with status := status }, status)
    bcastLongMOpGather op.scattervDone
  else bcastLongMOpGather op

/-- The first phase is over. -/
def BcastLongOp.nearDone (op : BcastLongOp B) : BcastLongOp B :=
  { op with flags := { op.flags with rootToNearPhase := false, send := true, recv := true } }

/-- `ucg_planc_ucx_bcast_long_m_op_progress`. -/
def bcastLongMOpProgress (op : BcastLongOp B) : Prog (Cell B) β (BcastLongOp B × Status) := do
  if op.flags.rootToNearPhase then
    let (op, status) ← bcastLongMRootToNearOpProgress op
    if status ≠ .ok then return ({ op with status := status }, status)
    bcastLongMOpScatter op.nearDone
  else bcastLongMOpScatter op

/-- The flags that the trigger sets. -/
def longMFlags (n root myrank : ℕ) : BcastLongFlags :=
  if myrank ≠ root ∧ myrank ≠ (root + 1) % n then ⟨false, true, true, true, true⟩
  else if myrank = root then
    if n > 2 then ⟨true, true, true, true, false⟩ else ⟨true, false, false, true, false⟩
  else ⟨true, false, false, false, true⟩

/-- The trigger starts the iterator anew. -/
def longMIter (n root myrank : ℕ) (iter : KntreeIter) : KntreeIter :=
  if myrank ≠ root ∧ myrank ≠ (root + 1) % n then iter.reset
  else if myrank = root ∧ n > 2 then iter.reset
  else iter

/-- What the trigger sets. -/
def BcastLongOp.startM (op : BcastLongOp B) (id : ℕ) : BcastLongOp B :=
  { op with
    id := id, status := .inprogress, stepIdx := 1
    iter := longMIter op.vgroup.size op.args.root op.vgroup.myrank op.iter
    quotient := op.args.count / op.kntreeSize
    currBlocks := if op.vgroup.myrank = op.args.root then op.kntreeSize else 0
    division := op.args.count % op.kntreeSize
    flags := longMFlags op.vgroup.size op.args.root op.vgroup.myrank }

/-- The trigger, where it does not divide by zero, and the progress function of the operation. -/
def bcastLongMFuncs : OpFuncs (Prog (Cell B) β) (BcastLongOp B) where
  trigger op id := do
    let (op, status) ← bcastLongMOpProgress (op.startM id)
    return (op, if status = .inprogress then .ok else status)
  progress := bcastLongMOpProgress

/-- `ucg_planc_ucx_bcast_long_m_op_trigger`; `none` is a division by zero. -/
def bcastLongMOpTrigger (op : BcastLongOp B) (id : ℕ) :
    Option (Prog (Cell B) β (BcastLongOp B × Status)) :=
  if op.kntreeSize = 0 then none else some (bcastLongMFuncs.trigger op id)

/-- `ucg_planc_ucx_bcast_long_m_op_new`. What the iterator holds before it is set, if it is, is in
    `unset`. -/
def bcastLongMOpNew (unset : KntreeIter) (vgroup : VGroup) (args : BcastArgs B) :
    BcastLongOp B where
  vgroup := vgroup
  args := args
  status := .ok
  id := 0
  flags := ⟨false, false, false, false, false⟩
  iter :=
    if vgroup.myrank = (args.root + 1) % vgroup.size ∨ vgroup.size ≤ 2 then unset
    else KntreeIter.init (vgroup.size - 1) 2 0
      (convertRealRankToKntreeRank vgroup.size args.root vgroup.myrank) true
  stepIdx := 0
  currBlocks := 0
  quotient := 0
  division := 0
  inflight := 0

/-- `ucg_planc_ucx_bcast_long_m_check`. -/
def bcastLongMCheck (vgroup : VGroup) (args : BcastArgs B) : Status :=
  if args.count < vgroup.size then .errUnsupported else .ok

/-- The operation as a procedure of a rank, if its trigger does not divide by zero. -/
def bcastLongMProc (n : ℕ) (unset : ℕ → KntreeIter) (args : ℕ → BcastArgs B) (id r : ℕ) :
    Option (Proc (Cell B) β (BcastLongOp B)) :=
  let op := bcastLongMOpNew (unset r) ⟨n, r, fun q => q⟩ (args r)
  (bcastLongMOpTrigger op id).map fun trigger =>
    opProc ⟨fun _ _ => trigger, bcastLongMOpProgress⟩ BcastLongOp.status op id

end Functions

/-! ### The numbering without the rank next to the root -/

section Numbering

variable {n root : ℕ}

theorem convertReal_eq {r : ℕ} : convertRealRankToKntreeRank n root r =
    fromRoot n root r - 1 := by
  rw [convertRealRankToKntreeRank, fromRoot]
  split_ifs with h
  · rw [h, Nat.add_sub_cancel_left, Nat.mod_self]
  · rfl

/-- The number from the root of a rank of the tree. -/
def longMNumber (k : ℕ) : ℕ := if k = 0 then 0 else k + 1

/-- The rank of the tree that has a number from the root. -/
def longMRank (v : ℕ) : Option ℕ := if v = 0 then some 0 else if v = 1 then none else some (v - 1)

theorem longMNumber_lt {k : ℕ} (hn : 2 ≤ n) (hk : k < n - 1) : longMNumber k < n := by
  rw [longMNumber]
  split_ifs <;> omega

theorem longMRank_eq_some {v k : ℕ} (hn : 2 ≤ n) (hv : v < n) :
    longMRank v = some k ↔ k < n - 1 ∧ longMNumber k = v := by
  rw [longMRank, longMNumber]
  split_ifs <;> simp only [Option.some.injEq, false_iff] <;> omega

theorem convertKntree_eq {k : ℕ} (hroot : root < n) :
    convertKntreeRankToRealRank (n - 1) root k = toRank n root (longMNumber k) := by
  rw [convertKntreeRankToRealRank, toRank, longMNumber, Nat.sub_add_cancel (by omega : 1 ≤ n)]
  split_ifs
  · rw [Nat.zero_add, Nat.mod_eq_of_lt hroot]
  · rfl

/-- The two conversions are inverse to each other between the ranks of the tree and the ranks of the
    group but for the one next to the root, which stays outside; the root is rank 0 of the tree. -/
structure LongMNumbers (n root : ℕ) : Prop where
  bij : Set.BijOn (convertKntreeRankToRealRank (n - 1) root) {k | k < n - 1}
    {r | r < n ∧ r ≠ (root + 1) % n}
  inv : Set.InvOn (convertRealRankToKntreeRank n root) (convertKntreeRankToRealRank (n - 1) root)
    {k | k < n - 1} {r | r < n ∧ r ≠ (root + 1) % n}
  root : convertRealRankToKntreeRank n root root = 0 ∧
    convertKntreeRankToRealRank (n - 1) root 0 = root

/-- The number from the root of a rank that is not the one next to it. -/
theorem fromRoot_ne_one {r : ℕ} (hroot : root < n) (hr : r < n) (hne : r ≠ (root + 1) % n) :
    2 ≤ n ∧ fromRoot n root r ≠ 1 := by
  rcases Nat.lt_or_ge n 2 with hn | hn
  · obtain rfl : n = 1 := by omega
    rw [Nat.mod_one] at hne
    omega
  · refine ⟨hn, fun heq => hne ?_⟩
    rw [fromRoot, mod_eq_ite (by omega)] at heq
    rw [mod_eq_ite (by omega)]
    split_ifs at heq ⊢ <;> omega

theorem fromRoot_near (hroot : root < n) (hn : 2 ≤ n) : fromRoot n root ((root + 1) % n) = 1 := by
  have hlt : (root + 1) % n < n := Nat.mod_lt _ (by omega)
  rw [fromRoot, mod_eq_ite (by omega), mod_eq_ite (v := root + 1) (by omega)]
  split_ifs <;> omega

theorem longMNumber_pred {v : ℕ} (hv : v ≠ 1) : longMNumber (v - 1) = v := by
  rw [longMNumber]
  split_ifs <;> omega

theorem longMNumbers (hroot : root < n) : LongMNumbers n root := by
  have hto : Set.MapsTo (convertKntreeRankToRealRank (n - 1) root) {k | k < n - 1}
      {r | r < n ∧ r ≠ (root + 1) % n} := by
    intro k (hk : k < n - 1)
    rw [convertKntree_eq hroot]
    refine ⟨toRank_lt hroot, fun heq => ?_⟩
    have hone := fromRoot_near hroot (by omega)
    have hback := toRank_add_sub_mod hroot (longMNumber_lt (by omega) hk)
    rw [heq, ← fromRoot, hone, longMNumber] at hback
    split_ifs at hback
    omega
  have hfrom : Set.MapsTo (convertRealRankToKntreeRank n root)
      {r | r < n ∧ r ≠ (root + 1) % n} {k | k < n - 1} := by
    rintro r ⟨hr, hne⟩
    obtain ⟨hn, hone⟩ := fromRoot_ne_one hroot hr hne
    have hlt := fromRoot_lt (r := r) hroot
    change convertRealRankToKntreeRank n root r < n - 1
    rw [convertReal_eq]
    omega
  have hinv : Set.InvOn (convertRealRankToKntreeRank n root)
      (convertKntreeRankToRealRank (n - 1) root) {k | k < n - 1}
      {r | r < n ∧ r ≠ (root + 1) % n} := by
    refine ⟨fun k (hk : k < n - 1) => ?_, fun r hr => ?_⟩
    · rw [convertKntree_eq hroot, convertReal_eq, fromRoot,
        toRank_add_sub_mod hroot (longMNumber_lt (by omega) hk), longMNumber]
      split_ifs <;> omega
    · obtain ⟨hn, hone⟩ := fromRoot_ne_one hroot hr.1 hr.2
      rw [convertReal_eq, convertKntree_eq hroot, longMNumber_pred hone]
      exact (toRank_eq_iff hroot hr.1 (fromRoot_lt hroot)).mpr rfl
  exact ⟨hinv.bijOn hto hfrom, hinv, ⟨if_pos rfl, if_pos rfl⟩⟩

end Numbering

/-! ### The rounds -/

section Rounds

/-- The message to the rank next to the root. Of more than two ranks the root does not wait. -/
def nearRound (n v : ℕ) : Sched ℕ β :=
  if v = 0 then .send 1 (List.range' 0 (n - 1)) :: if n ≤ 2 then [.wait] else []
  else if v = 1 then [.recv 0 0 (List.range' 0 (n - 1)), .wait]
  else []

/-- The rounds of the tree in its own numbers. -/
noncomputable def treeRounds (n : ℕ) : List (ℕ → Sched ℕ β) :=
  longRounds (n - 1) (fun _ => []) [] fun _ => [.wait]

/-- The rounds of the modified broadcast. -/
noncomputable def longMRounds (n : ℕ) : List (ℕ → Sched ℕ β) :=
  nearRound n :: if n ≤ 2 then [] else (treeRounds n).map (embedRound longMNumber longMRank)

variable {n v : ℕ}

theorem sendsTo_nearRound {w : ℕ} : (nearRound n v : Sched ℕ β).sendsTo w =
    if v = 0 ∧ w = 1 then [List.range' 0 (n - 1)] else [] := by
  rw [nearRound]
  split_ifs <;> simp_all [Sched.sendsTo, Cmd.sentTo] <;> omega

theorem recvsFrom_nearRound {w : ℕ} : (nearRound n v : Sched ℕ β).recvsFrom w =
    if w = 0 ∧ v = 1 then [List.range' 0 (n - 1)] else [] := by
  rw [nearRound]
  split_ifs <;> simp_all [Sched.recvsFrom, Cmd.receivedFrom]
  omega

theorem fitRound_nearRound (hn : 2 ≤ n) :
    FitRound n {b | b < n - 1} (nearRound n : ℕ → Sched ℕ β) where
  moves v hv c hc := by
    rw [nearRound] at hc
    split_ifs at hc <;> simp at hc
    · obtain rfl | rfl := hc <;> simp [Cmd.Moves]; omega
    · obtain rfl := hc
      simp [Cmd.Moves]; omega
    · obtain rfl | rfl := hc <;> simp [Cmd.Moves]; omega
  matched v hv w hw := by rw [sendsTo_nearRound, recvsFrom_nearRound]
  batch v hv := by
    rw [nearRound]
    split_ifs <;> simp [Sched.Batch, Sched.stamp, Timed, Late]

theorem stops_nil : Sched.Stops ([] : Sched ℕ β) := fun _ hc => absurd hc List.not_mem_nil

theorem stops_wait : Sched.Stops ([.wait] : Sched ℕ β) := by simp [Sched.Stops]

theorem fitRound_treeRounds (hn : 3 ≤ n) {R : ℕ → Sched ℕ β} (hR : R ∈ treeRounds n) :
    FitRound (n - 1) {b | b < n - 1} R :=
  fitRound_longRounds (by omega) (fun _ _ => stops_nil) stops_nil (fun _ _ => stops_wait) hR

/-- The rounds of the tree, for a rank of the tree and for the other one. -/
theorem flatMap_embed_some {k : ℕ} (h : longMRank v = some k) :
    (((treeRounds n).map (embedRound longMNumber longMRank)).flatMap fun R => R v) =
      Sched.renum longMNumber ((treeRounds n).flatMap fun R => R k : Sched ℕ β) := by
  rw [List.flatMap_map, Sched.renum, expand_flatMap]
  exact List.flatMap_congr fun R _ => embedRound_some h

theorem flatMap_embed_none (h : longMRank v = none) :
    (((treeRounds n).map (embedRound longMNumber longMRank)).flatMap fun R => R v) =
      ([] : Sched ℕ β) := by
  rw [List.flatMap_map, List.flatMap_eq_nil_iff]
  exact fun R _ => embedRound_none h

theorem gathers_treeRounds (hn : 3 ≤ n) (hv : v < n - 1) {x : ℕ → β} {has : Set ℕ}
    (hhas : v = 0 → {b | b < n - 1} ⊆ has) :
    Sched.gathers x (fun has' pend => pend = [] ∧ {b | b < n - 1} ⊆ has')
      ((treeRounds n).flatMap fun R => R v) has [] :=
  gathers_longRounds (by omega) (fun _ _ => stops_nil) stops_nil (fun _ _ => stops_wait) hv hhas

/-- The message of a rank that has been given another number. -/
theorem mem_sendsTo_renum {u : ℕ → ℕ} {w : ℕ} {src : List ℕ} {cs : Sched ℕ β}
    (h : src ∈ (cs.renum u).sendsTo w) : ∃ p, .send p src ∈ cs ∧ src ∈ cs.sendsTo p := by
  obtain ⟨c', hc', hsent⟩ := List.mem_filterMap.mp h
  obtain ⟨c, hc, rfl⟩ := List.mem_map.mp hc'
  cases c with
  | send p src' =>
    simp only [Cmd.expand, Cmd.sentTo, List.flatMap_singleton'] at hsent
    split_ifs at hsent
    obtain rfl := Option.some.inj hsent
    exact ⟨p, hc, List.mem_filterMap.mpr ⟨_, hc, if_pos rfl⟩⟩
  | _ => cases hsent

theorem mem_longMRounds {R : ℕ → Sched ℕ β} (hR : R ∈ longMRounds n) :
    R = nearRound n ∨ 3 ≤ n ∧ ∃ R' ∈ treeRounds n, R = embedRound longMNumber longMRank R' := by
  rcases List.mem_cons.mp hR with rfl | hR
  · exact Or.inl rfl
  · split_ifs at hR with h
    · exact absurd hR List.not_mem_nil
    · obtain ⟨R', hR', rfl⟩ := List.mem_map.mp hR
      exact Or.inr ⟨by omega, R', hR', rfl⟩

/-- The rounds of the modified broadcast bring the buffer of the root to all ranks. -/
theorem spreads_longMRounds (hn : 2 ≤ n) (off : ℕ → ℕ) (x : ℕ → β) :
    BcastSpreads n (n - 1) off x (longMRounds n) where
  round R hR := by
    obtain rfl | ⟨hn', R', hR', rfl⟩ := mem_longMRounds hR
    · exact fitRound_nearRound hn
    · exact (fitRound_treeRounds hn' hR').embed (fun k hk => longMNumber_lt hn hk)
        fun v hv k => longMRank_eq_some hn hv
  gathers v hv := by
    rw [longMRounds, List.flatMap_cons, gathers_append]
    -- after the first round, the root and the rank next to it have all blocks
    have hnear : Sched.gathers x (fun has pend => pend = [] ∧
        (v ≤ 1 → {b | b < n - 1} ⊆ has)) (nearRound n v)
          {b | v = 0 ∨ off (b + 1) ≤ off b} [] := by
      rw [nearRound]
      split_ifs with h₀ h₂ h₁
      · simp [Sched.gathers, h₀]
      · simp [Sched.gathers, h₀]
      · refine ⟨rfl, fun _ b hb => Or.inr ?_⟩
        simpa using hb
      · exact ⟨rfl, fun h => absurd h (by omega)⟩
    refine gathers_imp ?_ hnear
    rintro has pend ⟨rfl, hhas⟩
    split_ifs with h₂
    · exact ⟨rfl, hhas (by omega)⟩
    · cases hk : longMRank v with
      | none =>
        have hv₁ : v = 1 := by
          rw [longMRank] at hk
          split_ifs at hk with h₀ h₁
          exact h₁
        rw [flatMap_embed_none hk]
        exact ⟨rfl, hhas hv₁.le⟩
      | some k =>
        obtain ⟨hlt, hnum⟩ := (longMRank_eq_some hn hv).mp hk
        rw [flatMap_embed_some hk, Sched.renum, gathers_renum]
        refine gathers_treeRounds (by omega) hlt fun hk₀ => hhas ?_
        rw [← hnum, longMNumber, if_pos hk₀]
        exact Nat.zero_le 1
  ranges R hR v hv w hw src hsrc := by
    obtain rfl | ⟨hn', R', hR', rfl⟩ := mem_longMRounds hR
    · rw [sendsTo_nearRound] at hsrc
      split_ifs at hsrc
      · exact ⟨_, _, List.mem_singleton.mp hsrc⟩
      · exact absurd hsrc List.not_mem_nil
    · cases hk : longMRank v with
      | none =>
        rw [embedRound_none hk] at hsrc
        exact absurd hsrc List.not_mem_nil
      | some k =>
        rw [embedRound_some hk] at hsrc
        obtain ⟨p, hp, hsrc⟩ := mem_sendsTo_renum hsrc
        have hlt := ((longMRank_eq_some hn hv).mp hk).1
        exact ranges_longRounds (fun _ _ => stops_nil) stops_nil (fun _ _ => stops_wait) hR' hlt
          ((fitRound_treeRounds hn' hR').moves k hlt _ hp).1 hsrc

end Rounds

/-! ### The scatter -/

/-- A schedule in the numbers of the tree, on the buffer of a rank. -/
abbrev treeSched (n : ℕ) (vgroup : VGroup) (args : BcastArgs B) (cs : Sched ℕ β) :
    Sched (Cell B) β :=
  longSched (n - 1) vgroup args 0 (convertKntreeRankToRealRank (n - 1) args.root) cs

/-- The messages to the children, and what follows. -/
noncomputable def treeLeft (size v : ℕ) : Sched ℕ β :=
  (kntreeChildren size 2 v).flatMap (scatterSend size (fun _ => true) []) ++
    .wait :: exchangeFrom size v 1

section Of

variable {n : ℕ} {vgroup : VGroup} {args : BcastArgs B} {v : ℕ} {op : BcastLongOp B}

theorem LongOf.kntreeSize_eq (h : LongOf (n - 1) vgroup args 0 v op) (hsize : vgroup.size = n) :
    op.kntreeSize = n - 1 := by
  rw [BcastLongOp.kntreeSize, h.vgroup_eq, hsize]

theorem LongOf.realRank_eq (h : LongOf (n - 1) vgroup args 0 v op) (hsize : vgroup.size = n) :
    op.realRank = convertKntreeRankToRealRank (n - 1) args.root := by
  rw [BcastLongOp.realRank, h.kntreeSize_eq hsize, h.args_eq]

theorem LongScatter.setStatus {size root : ℕ} (h : LongScatter size vgroup args root v op)
    (status : Status) : LongScatter size vgroup args root v { op with status := status } :=
  ⟨⟨h.vgroup_eq, h.args_eq, h.base_eq, h.quotient_eq, h.division_eq⟩, h.near, h.scatterv,
    h.allgatherv, h.step⟩

theorem LongScatter.sentM {size root : ℕ} (h : LongScatter size vgroup args root v op)
    (blocks : ℕ) : LongScatter size vgroup args root v (op.sentM blocks) :=
  ⟨⟨h.vgroup_eq, h.args_eq, (op.iter.childInc_base).trans h.base_eq, h.quotient_eq,
    h.division_eq⟩, h.near, h.scatterv, h.allgatherv, h.step⟩

theorem LongScatter.clearSend {size root : ℕ} (h : LongScatter size vgroup args root v op) :
    LongScatter size vgroup args root v op.clearSend :=
  ⟨h.toLongOf.clearSend, h.near, h.scatterv, h.allgatherv, h.step⟩

end Of

/-- The rank has received its blocks, and has still to send to its children. -/
structure TreeReady (n : ℕ) (vgroup : VGroup) (args : BcastArgs B) (v : ℕ)
    (op : BcastLongOp B) : Prop extends LongScatter (n - 1) vgroup args 0 v op where
  send : op.flags.send = true
  recv : op.flags.recv = false ∨ v = 0
  children : op.iter.Yields ((kntreeChildren (n - 1) 2 v).map (toRank (n - 1) 0))
  curr : op.currBlocks = scatterEnd (n - 1) v - v

/-- The rank has sent to its children. -/
structure TreeSent (n : ℕ) (vgroup : VGroup) (args : BcastArgs B) (v : ℕ)
    (op : BcastLongOp B) : Prop extends LongScatter (n - 1) vgroup args 0 v op where
  send : op.flags.send = false
  recv : op.flags.recv = false ∨ v = 0

/-- Where a call leaves off in the scatter. -/
structure TreeLeaf (n : ℕ) (vgroup : VGroup) (args : BcastArgs B) (v : ℕ)
    (K : Bool → BcastLongOp B × Status → Sched (Cell B) β → Prop) : Prop where
  ready : ∀ op, 0 < v → TreeReady n vgroup args v op →
    K true (op, .inprogress) (treeSched n vgroup args (.wait :: treeLeft (n - 1) v))
  sent : ∀ op, TreeSent n vgroup args v op →
    K true (op, .inprogress) (treeSched n vgroup args (.wait :: exchangeFrom (n - 1) v 1))
  done : ∀ moved op, TreeSent n vgroup args v op →
    K moved (op, .ok) (treeSched n vgroup args (exchangeFrom (n - 1) v 1))

section Scatter

variable {n : ℕ} {vgroup : VGroup} {args : BcastArgs B} {v : ℕ}
  {K : Bool → BcastLongOp B × Status → Sched (Cell B) β → Prop}

/-- The loop over the children whose sub-trees have less than `2 ^ E` ranks. -/
theorem exec_mScatterLoop (hsize : vgroup.size = n) (hv : v < n - 1) {cs : Sched ℕ β}
    (hK : ∀ moved op, TreeSent n vgroup args v op →
      K moved (op, .ok) (treeSched n vgroup args cs)) :
    ∀ {E fuel : ℕ} {op : BcastLongOp B} {moved : Bool}, E ≤ fuel →
      TreeSent n vgroup args v op → E ≤ kntreeHeight (n - 1) 2 v →
      op.iter.Yields ((kntreeRest (n - 1) 2 v E 1).map (toRank (n - 1) 0)) →
      op.currBlocks = min (v + 2 ^ E) (n - 1) - v →
      (bcastLongMScatterLoop fuel op).Exec K moved (treeSched n vgroup args
        ((kntreeRest (n - 1) 2 v E 1).flatMap (scatterSend (n - 1) (fun _ => true) []) ++ cs))
  | 0, fuel, op, moved, _, hop, _, hyields, _ => by
    have hchild : op.iter.child = none := hyields
    cases fuel <;> rw [bcastLongMScatterLoop, hchild] <;> exact hK moved op hop
  | E + 1, fuel, op, moved, hfuel, hop, hE, hyields, hcurr => by
    by_cases hlt : v + 2 ^ E < n - 1
    · -- the child with a sub-tree of `2 ^ E` ranks
      have hrest : kntreeRest (n - 1) 2 v (E + 1) 1 =
          (v + 2 ^ E) :: kntreeRest (n - 1) 2 v E 1 := by
        rw [kntreeRest, kntreeLevel_succ (by decide), kntreeLevel_end le_rfl, Nat.mul_one,
          if_pos hlt]
        rfl
      obtain ⟨fuel, rfl⟩ : ∃ f, fuel = f + 1 := ⟨fuel - 1, by omega⟩
      rw [hrest] at hyields ⊢
      obtain ⟨hchild, hyields⟩ := hyields
      have hdvd : 2 ^ (E + 1) ∣ v := pow_dvd_of_le_kntreeHeight (by decide) hE
      have hend : scatterEnd (n - 1) (v + 2 ^ E) = min (v + 2 ^ (E + 1)) (n - 1) := by
        obtain ⟨hpos, hmult, -⟩ := scatterChild_iff.mp ⟨hdvd, rfl⟩
        rw [scatterEnd, kntreeHeight, if_neg hpos.ne', hmult, pow_succ]
        omega
      have hblocks : op.currBlocks + v - (v + 2 ^ E) =
          scatterEnd (n - 1) (v + 2 ^ E) - (v + 2 ^ E) := by
        rw [hend, hcurr, pow_succ]
        omega
      have hgt := lt_scatterEnd hlt
      rw [bcastLongMScatterLoop]
      simp only [hchild, hop.root_eq, hop.myrank_eq, hop.vgroup_eq, hop.args_eq, hop.quotient_eq,
        hop.division_eq, hop.kntreeSize_eq hsize, hop.realRank_eq hsize,
        toRank_add_sub_mod (show 0 < n - 1 by omega) hlt, hblocks]
      rw [if_neg (by omega), exec_bind]
      simp only [List.flatMap_cons, scatterSend, if_true, List.cons_append, List.nil_append,
        List.append_nil, longSched_send]
      refine exec_isend_cons rfl (by rw [part_blocksRange, scatterBlocks]) ?_
      simp only [ne_eq, not_true_eq_false, if_false]
      refine exec_mScatterLoop hsize hv hK (by omega)
        ⟨hop.toLongScatter.sentM _, hop.send, hop.recv⟩ (by omega) hyields ?_
      change op.currBlocks - _ = _
      rw [hend] at hgt ⊢
      rw [hcurr, min_eq_left hlt.le]
      omega
    · have hrest : kntreeRest (n - 1) 2 v (E + 1) 1 = kntreeRest (n - 1) 2 v E 1 := by
        rw [kntreeRest, kntreeLevel_succ (by decide), kntreeLevel_end le_rfl, Nat.mul_one,
          if_neg hlt]
        rfl
      rw [hrest] at hyields ⊢
      refine exec_mScatterLoop hsize hv hK (by omega) hop (by omega) hyields ?_
      rw [hcurr, pow_succ]
      omega

/-- The test behind the messages to the children. -/
theorem exec_mSentTest (hleaf : TreeLeaf n vgroup args v K) {op : BcastLongOp B}
    (hop : TreeSent n vgroup args v op) {moved : Bool} :
    (p2pTestall : Prog (Cell B) β Status).Exec (fun moved status cs => K moved (op, status) cs)
      moved (treeSched n vgroup args (.wait :: exchangeFrom (n - 1) v 1)) := by
  rw [treeSched, longSched_wait]
  exact exec_testall_wait (hleaf.sent op hop) (hleaf.done true op hop)

/-- The messages to the children, and the test. -/
theorem exec_mScatterSend (hleaf : TreeLeaf n vgroup args v K) (hsize : vgroup.size = n)
    (hv : v < n - 1) {op : BcastLongOp B} (hop : TreeReady n vgroup args v op) {moved : Bool} :
    (bcastLongMScatterOpSend op).Exec (fun moved res cs =>
      (if res.2 ≠ .ok then pure (res.1, res.2)
        else do
          let status ← p2pTestall
          pure (res.1, status) : Prog (Cell B) β (BcastLongOp B × Status)).Exec K moved cs)
      moved (treeSched n vgroup args (treeLeft (n - 1) v)) := by
  have hfuel : kntreeHeight (n - 1) 2 v ≤ op.kntreeSize :=
    (kntreeHeight_le hv).trans_eq (hop.kntreeSize_eq hsize).symm
  rw [bcastLongMScatterOpSend, if_pos hop.send, treeLeft]
  refine exec_mScatterLoop hsize hv (fun moved op hop => ?_) hfuel
    ⟨hop.toLongScatter.clearSend, rfl, hop.recv⟩ le_rfl hop.children hop.curr
  rw [if_neg (by simp), exec_bind]
  exact exec_mSentTest hleaf hop

/-- The scatter of a rank that waits for its blocks. -/
theorem exec_mScatterTest (hleaf : TreeLeaf n vgroup args v K) (hsize : vgroup.size = n)
    (hv : v < n - 1) (hpos : 0 < v) {op : BcastLongOp B} (hop : TreeReady n vgroup args v op)
    {moved : Bool} : (p2pTestall : Prog (Cell B) β Status).Exec (fun moved status cs =>
      (if status ≠ .ok then pure (op, status)
        else do
          let (op, status) ← bcastLongMScatterOpSend op
          if status ≠ .ok then return (op, status)
          let status ← p2pTestall
          return (op, status) : Prog (Cell B) β (BcastLongOp B × Status)).Exec K moved cs)
      moved (treeSched n vgroup args (.wait :: treeLeft (n - 1) v)) := by
  rw [treeSched, longSched_wait]
  refine exec_testall_wait ?_ ?_
  · rw [if_pos (by simp), exec_pure]
    exact hleaf.ready op hpos hop
  · rw [if_neg (by simp), exec_bind]
    exact exec_mScatterSend hleaf hsize hv hop

theorem LongOf.parent_eq {op : BcastLongOp B} (h : LongOf (n - 1) vgroup args 0 v op) :
    op.iter.parent = if v = 0 then none else some (toRank (n - 1) 0 (kntreeParent 2 v)) :=
  congrArg KntreeBase.parent h.base_eq

/-- The scatter of the root, which has nothing to receive. -/
theorem exec_mScatter_root (hleaf : TreeLeaf n vgroup args v K) (hsize : vgroup.size = n)
    (hv : v < n - 1) (hv₀ : v = 0) {op : BcastLongOp B} (hop : TreeReady n vgroup args v op)
    {moved : Bool} : (bcastLongMScatterOpProgress op).Exec K moved
      (treeSched n vgroup args (treeLeft (n - 1) v)) := by
  rw [bcastLongMScatterOpProgress, exec_bind, bcastLongMScatterOpRecv, hop.parent_eq, if_pos hv₀]
  rw [exec_pure]
  dsimp only
  rw [if_neg (by simp), exec_bind]
  exact exec_mScatterSend hleaf hsize hv hop

/-- The scatter of another rank, from its start on. -/
theorem exec_mScatter_recv (hleaf : TreeLeaf n vgroup args v K) (hsize : vgroup.size = n)
    (hv : v < n - 1) (hpos : 0 < v) {op : BcastLongOp B}
    (hop : LongScatter (n - 1) vgroup args 0 v op) (hsend : op.flags.send = true)
    (hrecv : op.flags.recv = true)
    (hchildren : op.iter.Yields ((kntreeChildren (n - 1) 2 v).map (toRank (n - 1) 0)))
    {moved : Bool} : (bcastLongMScatterOpProgress op).Exec K moved (treeSched n vgroup args
      (scatterRecv (n - 1) (fun _ => true) v ++ treeLeft (n - 1) v)) := by
  rw [bcastLongMScatterOpProgress, exec_bind, bcastLongMScatterOpRecv, hop.parent_eq,
    if_neg hpos.ne']
  dsimp only
  rw [hop.kntreeSize_eq hsize, hop.realRank_eq hsize, exec_bind]
  refine exec_longScatterRecv hop.toLongOf (by omega) hv hpos hrecv ?_
  rw [if_neg (by simp), exec_bind]
  have hready : TreeReady n vgroup args v
      { op.clearRecv with currBlocks := scatterEnd (n - 1) v - v } :=
    ⟨⟨⟨hop.vgroup_eq, hop.args_eq, hop.base_eq, hop.quotient_eq, hop.division_eq⟩, hop.near,
      hop.scatterv, hop.allgatherv, hop.step⟩, hsend, Or.inl rfl, hchildren, rfl⟩
  exact exec_mScatterTest hleaf hsize hv hpos hready

/-- The scatter of a rank that has posted its receive. -/
theorem exec_mScatter_ready (hleaf : TreeLeaf n vgroup args v K) (hsize : vgroup.size = n)
    (hv : v < n - 1) (hpos : 0 < v) {op : BcastLongOp B} (hop : TreeReady n vgroup args v op)
    {moved : Bool} : (bcastLongMScatterOpProgress op).Exec K moved
      (treeSched n vgroup args (.wait :: treeLeft (n - 1) v)) := by
  rw [bcastLongMScatterOpProgress, exec_bind, bcastLongMScatterOpRecv, hop.parent_eq,
    if_neg hpos.ne']
  dsimp only
  rw [bcastLongScatterRecv, if_neg (by simp [hop.recv.resolve_right hpos.ne']), exec_bind,
    exec_pure, if_neg (by simp), exec_bind]
  exact exec_mScatterTest hleaf hsize hv hpos hop

/-- The scatter of a rank that has sent to its children: the first test may tell that all is over,
    the second one is the one that the schedule waits for. -/
theorem exec_mScatter_sent (hleaf : TreeLeaf n vgroup args v K) {op : BcastLongOp B}
    (hop : TreeSent n vgroup args v op) {moved : Bool} :
    (bcastLongMScatterOpProgress op).Exec K moved
      (treeSched n vgroup args (.wait :: exchangeFrom (n - 1) v 1)) := by
  have hsend (moved) : (bcastLongMScatterOpSend op).Exec (fun moved res cs =>
      (if res.2 ≠ .ok then pure (res.1, res.2)
        else do
          let status ← p2pTestall
          pure (res.1, status) : Prog (Cell B) β (BcastLongOp B × Status)).Exec K moved cs)
      moved (treeSched n vgroup args (.wait :: exchangeFrom (n - 1) v 1)) := by
    rw [bcastLongMScatterOpSend, if_neg (by simp [hop.send]), exec_pure, if_neg (by simp),
      exec_bind]
    exact exec_mSentTest hleaf hop
  rw [bcastLongMScatterOpProgress, exec_bind, bcastLongMScatterOpRecv, hop.parent_eq]
  by_cases hv₀ : v = 0
  · rw [if_pos hv₀]
    rw [exec_pure]
    dsimp only
    rw [if_neg (by simp), exec_bind]
    exact hsend moved
  · rw [if_neg hv₀]
    dsimp only
    rw [bcastLongScatterRecv, if_neg (by simp [hop.recv.resolve_right hv₀]), exec_bind, exec_pure,
      if_neg (by simp), exec_bind, exec_p2pTestall]
    refine ⟨?_, Or.inl ?_⟩
    · rw [exec_pure, if_pos (by simp), exec_pure]
      exact hleaf.sent op hop
    · rw [exec_pure, if_neg (by simp), exec_bind]
      exact hsend moved

end Scatter

/-! ### The operation -/

/-- What is left of the schedule between two calls, `v` being the rank in the tree. -/
inductive LongMRel (n : ℕ) (vgroup : VGroup) (args : BcastArgs B) (v : ℕ) :
    BcastLongOp B → Sched (Cell B) β → Prop
  | near {op : BcastLongOp B} (hflags : op.flags = ⟨true, false, false, false, false⟩)
      (htest : op.vgroup.myrank ≠ op.args.root ∨ op.vgroup.size ≤ 2) :
      LongMRel n vgroup args v op [.wait]
  | ready {op : BcastLongOp B} (hv : v < n - 1) (hpos : 0 < v)
      (hop : TreeReady n vgroup args v op) :
      LongMRel n vgroup args v op (treeSched n vgroup args (.wait :: treeLeft (n - 1) v))
  | sent {op : BcastLongOp B} (hv : v < n - 1) (hop : TreeSent n vgroup args v op) :
      LongMRel n vgroup args v op (treeSched n vgroup args (.wait :: exchangeFrom (n - 1) v 1))
  | posted {k : ℕ} {op : BcastLongOp B} (hv : v < n - 1) (hk : k < n - 1)
      (hbusy : ¬((n - 1) % 2 = 1 ∧ k % 2 = 0 ∧ v = 0))
      (hop : LongGather (n - 1) vgroup args 0 v k op) (hsend : op.flags.send = false)
      (hrecv : op.flags.recv = false) :
      LongMRel n vgroup args v op
        (treeSched n vgroup args (.wait :: exchangeFrom (n - 1) v (k + 1)))
  | done {op : BcastLongOp B} (hnear : op.flags.rootToNearPhase = false)
      (hscatterv : op.flags.scattervPhase = false)
        (hallgatherv : op.flags.allgathervPhase = false) :
      LongMRel n vgroup args v op []

section Operation

variable {n : ℕ} {vgroup : VGroup} {args : BcastArgs B} {v : ℕ} {op : BcastLongOp B}

/-- The end of a call. -/
def LongMEnd (n : ℕ) (vgroup : VGroup) (args : BcastArgs B) (v : ℕ) (moved : Bool)
    (res : BcastLongOp B × Status) (cs : Sched (Cell B) β) : Prop :=
  res.2 = res.1.status ∧ OpLeaf BcastLongOp.status (LongMRel n vgroup args v) moved res.1 cs

theorem longMEnd_stop {cs : Sched (Cell B) β} (hstop : cs.AtStop)
    (hrel : LongMRel n vgroup args v { op with status := .inprogress } cs) :
    LongMEnd n vgroup args v true ({ op with status := .inprogress }, .inprogress) cs :=
  ⟨rfl, hrel, Or.inl ⟨rfl, rfl, hstop⟩⟩

/-- The allgather, where it is after the exchange. -/
theorem exchangeLeaf_opGatherM (hv : v < n - 1) : ExchangeLeaf (n - 1) vgroup args 0 v
    (convertKntreeRankToRealRank (n - 1) args.root)
    fun moved (res : BcastLongOp B × Status) (cs : Sched (Cell B) β) =>
      (if res.2 ≠ .ok then pure ({ res.1 with status := res.2 }, res.2)
        else pure ({ res.1 with
          flags := { res.1.flags with allgathervPhase := false }, status := Status.ok },
          Status.ok) : Prog (Cell B) β (BcastLongOp B × Status)).Exec
        (LongMEnd n vgroup args v) moved cs where
  done moved op hop := by
    rw [if_neg (by simp), exec_pure]
    exact ⟨rfl, .done hop.near hop.scatterv rfl, Or.inr ⟨rfl, rfl⟩⟩
  posted k op hk hbusy hop hsend hrecv := by
    rw [if_pos (by simp), exec_pure]
    exact longMEnd_stop trivial (.posted hv hk hbusy
      ⟨⟨hop.vgroup_eq, hop.args_eq, hop.base_eq, hop.quotient_eq, hop.division_eq⟩, hop.near,
        hop.scatterv, hop.allgatherv, hop.step⟩ hsend hrecv)

theorem exec_mOpGather_fresh (hsize : vgroup.size = n) (hv : v < n - 1)
    (hop : LongGather (n - 1) vgroup args 0 v 1 op) (hsend : op.flags.send = true)
    (hrecv : op.flags.recv = true) {moved : Bool} :
    (bcastLongMOpGather op).Exec (LongMEnd n vgroup args v) moved
      (treeSched n vgroup args (exchangeFrom (n - 1) v 1) : Sched (Cell B) β) := by
  rw [bcastLongMOpGather, if_pos hop.allgatherv, exec_bind, bcastLongMAllgatherOpProgress,
    hop.kntreeSize_eq hsize, hop.realRank_eq hsize]
  exact exec_exchange_fresh (exchangeLeaf_opGatherM hv) hv (by omega) hop (by omega) hsend hrecv

theorem exec_mOpGather_posted (hsize : vgroup.size = n) (hv : v < n - 1) {k : ℕ}
    (hk : k < n - 1) (hbusy : ¬((n - 1) % 2 = 1 ∧ k % 2 = 0 ∧ v = 0))
    (hop : LongGather (n - 1) vgroup args 0 v k op) (hsend : op.flags.send = false)
    (hrecv : op.flags.recv = false) {moved : Bool} :
    (bcastLongMOpGather op).Exec (LongMEnd n vgroup args v) moved
      (treeSched n vgroup args (.wait :: exchangeFrom (n - 1) v (k + 1)) : Sched (Cell B) β) := by
  rw [bcastLongMOpGather, if_pos hop.allgatherv, exec_bind, bcastLongMAllgatherOpProgress,
    hop.kntreeSize_eq hsize, hop.realRank_eq hsize]
  exact exec_exchange_posted (exchangeLeaf_opGatherM hv) hv (by omega) hop hk hbusy hsend hrecv

/-- The scatter, where the allgather comes after it. -/
theorem treeLeaf_opScatter (hsize : vgroup.size = n) (hv : v < n - 1) : TreeLeaf n vgroup args v
    fun moved (res : BcastLongOp B × Status) (cs : Sched (Cell B) β) =>
      (if res.2 ≠ .ok then pure ({ res.1 with status := res.2 }, res.2)
        else bcastLongMOpGather res.1.scattervDone : Prog (Cell B) β (BcastLongOp B × Status)).Exec
        (LongMEnd n vgroup args v) moved cs where
  ready op hpos hop := by
    rw [if_pos (by simp), exec_pure]
    exact longMEnd_stop trivial (.ready hv hpos
      ⟨hop.toLongScatter.setStatus _, hop.send, hop.recv, hop.children, hop.curr⟩)
  sent op hop := by
    rw [if_pos (by simp), exec_pure]
    exact longMEnd_stop trivial (.sent hv ⟨hop.toLongScatter.setStatus _, hop.send, hop.recv⟩)
  done moved op hop := by
    rw [if_neg (by simp)]
    have hgather : LongGather (n - 1) vgroup args 0 v 1 op.scattervDone :=
      ⟨⟨hop.vgroup_eq, hop.args_eq, hop.base_eq, hop.quotient_eq, hop.division_eq⟩, hop.near, rfl,
        hop.allgatherv, hop.step⟩
    exact exec_mOpGather_fresh hsize hv hgather rfl rfl

/-- Nothing comes after the first message. -/
theorem exec_mOpScatter_none (hscatterv : op.flags.scattervPhase = false)
    (hallgatherv : op.flags.allgathervPhase = false) (hnear : op.flags.rootToNearPhase = false)
    {moved : Bool} : (bcastLongMOpScatter op).Exec (LongMEnd n vgroup args v) moved
      ([] : Sched (Cell B) β) := by
  rw [bcastLongMOpScatter, if_neg (by simp [hscatterv]), bcastLongMOpGather,
    if_neg (by simp [hallgatherv]), exec_pure]
  exact ⟨rfl, .done hnear hscatterv hallgatherv, Or.inr ⟨rfl, rfl⟩⟩

/-- The test after the first message. -/
theorem exec_mNearTest (hflags : op.flags = ⟨true, false, false, false, false⟩)
    (htest : op.vgroup.myrank ≠ op.args.root ∨ op.vgroup.size ≤ 2) {moved : Bool} :
    ((if op.vgroup.myrank ≠ op.args.root ∨ op.vgroup.size ≤ 2 then do
        let status ← p2pTestall
        return (op, status)
      else return (op, .ok)) : Prog (Cell B) β (BcastLongOp B × Status)).Exec (fun moved res cs =>
        (if res.2 ≠ .ok then pure ({ res.1 with status := res.2 }, res.2)
          else bcastLongMOpScatter res.1.nearDone : Prog (Cell B) β (BcastLongOp B × Status)).Exec
          (LongMEnd n vgroup args v) moved cs) moved [.wait] := by
  rw [if_pos htest, exec_bind]
  refine exec_testall_wait ?_ ?_
  · rw [exec_pure, if_pos (by simp), exec_pure]
    exact longMEnd_stop trivial (.near hflags htest)
  · rw [exec_pure, if_neg (by simp)]
    refine exec_mOpScatter_none ?_ ?_ rfl
    · change op.flags.scattervPhase = false
      rw [hflags]
    · change op.flags.allgathervPhase = false
      rw [hflags]

/-- Every call after the first one executes the next part of the schedule. -/
theorem exec_mOpProgress (hsize : vgroup.size = n) {cs : Sched (Cell B) β}
    (hrel : LongMRel n vgroup args v op cs) :
    (bcastLongMOpProgress op).Exec (LongMEnd n vgroup args v) false cs := by
  cases hrel with
  | near hflags htest =>
    rw [bcastLongMOpProgress, if_pos (by rw [hflags]), exec_bind, bcastLongMRootToNearOpProgress,
      exec_bind, bcastLongMNearSend, if_neg (by rw [hflags]; decide), exec_pure]
    dsimp only
    rw [if_neg (by simp), exec_bind, bcastLongMNearRecv, if_neg (by rw [hflags]; decide),
      exec_pure]
    dsimp only
    rw [if_neg (by simp)]
    exact exec_mNearTest hflags htest
  | ready hv hpos hop =>
    rw [bcastLongMOpProgress, if_neg (by simp [hop.near]), bcastLongMOpScatter,
      if_pos hop.scatterv, exec_bind]
    exact exec_mScatter_ready (treeLeaf_opScatter hsize hv) hsize hv hpos hop
  | sent hv hop =>
    rw [bcastLongMOpProgress, if_neg (by simp [hop.near]), bcastLongMOpScatter,
      if_pos hop.scatterv, exec_bind]
    exact exec_mScatter_sent (treeLeaf_opScatter hsize hv) hop
  | posted hv hk hbusy hop hsend hrecv =>
    rw [bcastLongMOpProgress, if_neg (by simp [hop.near]), bcastLongMOpScatter,
      if_neg (by simp [hop.scatterv])]
    exact exec_mOpGather_posted hsize hv hk hbusy hop hsend hrecv
  | done hnear hscatterv hallgatherv =>
    rw [bcastLongMOpProgress, if_neg (by simp [hnear])]
    exact exec_mOpScatter_none hscatterv hallgatherv hnear

/-- The schedule of a rank of the tree. -/
theorem flatMap_treeRounds (hv : v < n - 1) :
    ((treeRounds n).flatMap fun R => R v : Sched ℕ β) =
      (if v = 0 then [] else scatterRecv (n - 1) (fun _ => true) v) ++ treeLeft (n - 1) v := by
  rw [treeRounds, flatMap_longRounds hv, treeLeft]
  simp only [List.nil_append, List.append_assoc, List.singleton_append]

/-- The schedule of the tree, where its ranks have the numbers from the root. -/
theorem expand_treeRounds (hn : 3 ≤ n) (hroot : args.root < n) (hv : v < n - 1)
    (hmap : vgroup.rankMap = fun q => q) :
    Sched.expand (args.blockCells (blockOffset (args.count / (n - 1)) (args.count % (n - 1))))
      (toRank n args.root) (Sched.renum longMNumber ((treeRounds n).flatMap fun R => R v)) =
        (treeSched n vgroup args ((treeRounds n).flatMap fun R => R v) : Sched (Cell B) β) := by
  rw [expand_renum, treeSched, longSched]
  refine expand_congr (N := n - 1) (P := {b | b < n - 1}) (fun c hc => ?_) fun p hp => ?_
  · obtain ⟨R, hR, hc⟩ := List.mem_flatMap.mp hc
    exact (fitRound_treeRounds hn hR).moves v hv c hc
  · have hself : toRank (n - 1) 0 p = p := Nat.mod_eq_of_lt hp
    rw [hmap, hself, convertKntree_eq hroot]

/-- All blocks are the buffer. -/
theorem cells_all (hn : 2 ≤ n) : (List.range' 0 (n - 1)).flatMap
    (args.blockCells (blockOffset (args.count / (n - 1)) (args.count % (n - 1)))) =
      args.part 0 args.count := by
  have hcut : Cut args.count (n - 1) _ := cut_blockOffset (show 0 < n - 1 by omega)
  rw [blockCells_range' blockOffset_mono, hcut.zero, Nat.zero_add, hcut.last, Nat.sub_zero]

/-- The iterator of a new operation is that of its rank in the tree. -/
theorem longMNew_base (unset : KntreeIter) (hsize : vgroup.size = n) (hn : 3 ≤ n)
    (hnear : vgroup.myrank ≠ (args.root + 1) % n)
    (hv : convertRealRankToKntreeRank n args.root vgroup.myrank = v) (hlt : v < n - 1) :
    (bcastLongMOpNew unset vgroup args).iter.toKntreeBase =
      KntreeIter.baseOf (n - 1) 2 0 v true := by
  have hdeg : KntreeIter.initDegree (n - 1) 2 = 2 := by
    rw [KntreeIter.initDegree, if_neg (by decide), if_neg (by omega)]
  have hbase : (KntreeIter.init (n - 1) 2 0 v true).toKntreeBase = _ :=
    KntreeIter.init_base 0 v true (by rw [hdeg]; decide) (by omega)
  rw [hdeg, Nat.sub_zero, Nat.add_mod_right, Nat.mod_eq_of_lt hlt] at hbase
  rw [bcastLongMOpNew, hsize, if_neg (by omega), hv]
  exact hbase

/-- The first call of the rank next to the root. -/
theorem exec_mNear (hn : 2 ≤ n) (hmap : vgroup.rankMap = fun q => q) (hroot : args.root < n)
    (hvgroup : op.vgroup = vgroup) (hargs : op.args = args) (hne : vgroup.myrank ≠ args.root)
    (hflags : op.flags = ⟨true, false, false, false, true⟩) {moved : Bool} :
    (bcastLongMOpProgress op).Exec (LongMEnd n vgroup args v) moved
      (Sched.expand (args.blockCells (blockOffset (args.count / (n - 1)) (args.count % (n - 1))))
        (toRank n args.root) (nearRound n 1) : Sched (Cell B) β) := by
  have hround : (nearRound n 1 : Sched ℕ β) = [.recv 0 0 (List.range' 0 (n - 1)), .wait] := rfl
  rw [hround, expand_cons, expand_cons, expand_nil, Cmd.expand, Cmd.expand, cells_all hn,
    bcastLongMOpProgress, if_pos (by rw [hflags]), exec_bind, bcastLongMRootToNearOpProgress,
    exec_bind, bcastLongMNearSend, if_neg (by rw [hflags]; decide), exec_pure]
  dsimp only
  rw [if_neg (by simp), exec_bind, bcastLongMNearRecv, if_pos (by rw [hflags]), exec_bind, hargs,
    hvgroup]
  refine exec_irecv_cons ?_ rfl ?_
  · rw [hmap, toRank, Nat.zero_add, Nat.mod_eq_of_lt hroot]
  rw [exec_pure]
  dsimp only
  rw [if_neg (by simp)]
  refine exec_mNearTest ?_ (Or.inl ?_)
  · rw [BcastLongOp.clearRecv, hflags]
  · change op.vgroup.myrank ≠ op.args.root
    rwa [hvgroup, hargs]

/-- The first call of the root. -/
theorem exec_mRoot (hn : 2 ≤ n) (hsize : vgroup.size = n) (hmap : vgroup.rankMap = fun q => q)
    (hvgroup : op.vgroup = vgroup) (hargs : op.args = args) (hmyrank : vgroup.myrank = args.root)
    (hflags : op.flags = longMFlags n args.root args.root)
    (hready : 3 ≤ n → TreeReady n vgroup args 0 op.clearSend.nearDone) {moved : Bool} :
    (bcastLongMOpProgress op).Exec (LongMEnd n vgroup args 0) moved
      (Sched.expand (args.blockCells (blockOffset (args.count / (n - 1)) (args.count % (n - 1))))
        (toRank n args.root) (nearRound n 0) ++
          if n ≤ 2 then [] else treeSched n vgroup args (treeLeft (n - 1) 0) :
            Sched (Cell B) β) := by
  have hround : (nearRound n 0 : Sched ℕ β) =
      .send 1 (List.range' 0 (n - 1)) :: if n ≤ 2 then [.wait] else [] := rfl
  have hroot : op.flags.send = true ∧ op.flags.recv = false ∧ op.flags.rootToNearPhase = true := by
    rw [hflags, longMFlags, if_neg (by simp), if_pos rfl]
    split_ifs <;> exact ⟨rfl, rfl, rfl⟩
  rw [hround, expand_cons, Cmd.expand, cells_all hn, List.cons_append, bcastLongMOpProgress,
    if_pos hroot.2.2, exec_bind, bcastLongMRootToNearOpProgress, exec_bind, bcastLongMNearSend,
    if_pos hroot.1, exec_bind, hargs, hvgroup]
  refine exec_isend_cons ?_ rfl ?_
  · rw [hmap, hsize, toRank, Nat.add_comm]
  rw [exec_pure]
  dsimp only
  rw [if_neg (by simp), exec_bind, bcastLongMNearRecv,
    if_neg (by simp [BcastLongOp.clearSend, hroot.2.1]), exec_pure]
  dsimp only
  rw [if_neg (by simp)]
  by_cases hn₂ : n ≤ 2
  · rw [if_pos hn₂, if_pos hn₂, List.append_nil]
    refine exec_mNearTest ?_ (Or.inr ?_)
    · rw [BcastLongOp.clearSend, hflags, longMFlags, if_neg (by simp), if_pos rfl,
        if_neg (by omega)]
    · change op.vgroup.size ≤ 2
      rwa [hvgroup, hsize]
  · rw [if_neg hn₂, if_neg hn₂, expand_nil, List.nil_append, if_neg, exec_pure, if_neg (by simp)]
    · have hready := hready (by omega)
      rw [bcastLongMOpScatter, if_pos hready.scatterv, exec_bind]
      exact exec_mScatter_root (treeLeaf_opScatter hsize (by omega)) hsize (by omega) rfl hready
    · change ¬(op.vgroup.myrank ≠ op.args.root ∨ op.vgroup.size ≤ 2)
      rw [hvgroup, hargs, hmyrank, hsize]
      omega

/-- The first call of another rank. -/
theorem exec_mOther (hsize : vgroup.size = n) (hv : v < n - 1) (hpos : 0 < v)
    (hop : LongScatter (n - 1) vgroup args 0 v op) (hsend : op.flags.send = true)
    (hrecv : op.flags.recv = true)
    (hchildren : op.iter.Yields ((kntreeChildren (n - 1) 2 v).map (toRank (n - 1) 0)))
    {moved : Bool} : (bcastLongMOpProgress op).Exec (LongMEnd n vgroup args v) moved
      (treeSched n vgroup args (scatterRecv (n - 1) (fun _ => true) v ++ treeLeft (n - 1) v) :
        Sched (Cell B) β) := by
  rw [bcastLongMOpProgress, if_neg (by simp [hop.near]), bcastLongMOpScatter, if_pos hop.scatterv,
    exec_bind]
  exact exec_mScatter_recv (treeLeaf_opScatter hsize hv) hsize hv hpos hop hsend hrecv hchildren

/-- What the trigger sets in the operation of a rank of the tree. -/
theorem startM_treeOf (unset : KntreeIter) (hsize : vgroup.size = n) (hn : 3 ≤ n)
    (hnear : vgroup.myrank ≠ (args.root + 1) % n)
    (hv : convertRealRankToKntreeRank n args.root vgroup.myrank = v) (hlt : v < n - 1) (id : ℕ) :
    LongOf (n - 1) vgroup args 0 v ((bcastLongMOpNew unset vgroup args).startM id) ∧
      ((bcastLongMOpNew unset vgroup args).startM id).iter.Yields
        ((kntreeChildren (n - 1) 2 v).map (toRank (n - 1) 0)) := by
  have hbase := longMNew_base unset hsize hn hnear hv hlt
  have hsize' : (bcastLongMOpNew unset vgroup args).kntreeSize = n - 1 :=
    congrArg (· - 1) hsize
  have hiter : ((bcastLongMOpNew unset vgroup args).startM id).iter =
      (bcastLongMOpNew unset vgroup args).iter.reset := by
    change longMIter vgroup.size args.root vgroup.myrank _ = _
    rw [longMIter, hsize]
    split_ifs with h₁ h₂
    · rfl
    · rfl
    · exact absurd ⟨by_contra fun h => h₁ ⟨h, hnear⟩, by omega⟩ h₂
  refine ⟨⟨rfl, rfl, ?_, ?_, ?_⟩, ?_⟩
  · rw [hiter]
    exact (KntreeIter.reset_base _).trans hbase
  · exact congrArg (args.count / ·) hsize'
  · exact congrArg (args.count % ·) hsize'
  · rw [hiter]
    exact KntreeIter.reset_yields (by decide) hbase

/-- The first call executes the beginning of the schedule. -/
theorem exec_mFirst (hsize : vgroup.size = n) (hmap : vgroup.rankMap = fun q => q)
    (hn : 2 ≤ n) (hroot : args.root < n) (hmyrank : vgroup.myrank < n) (unset : KntreeIter)
    (id : ℕ) {moved : Bool} :
    (bcastLongMOpProgress ((bcastLongMOpNew unset vgroup args).startM id)).Exec
      (LongMEnd n vgroup args (fromRoot n args.root vgroup.myrank - 1)) moved
      (Sched.expand
        (args.blockCells (blockOffset (args.count / (n - 1)) (args.count % (n - 1))))
        (toRank n args.root)
        ((longMRounds n).flatMap fun R => R (fromRoot n args.root vgroup.myrank)) :
          Sched (Cell B) β) := by
  have hflags : ((bcastLongMOpNew unset vgroup args).startM id).flags =
      longMFlags n args.root vgroup.myrank := by
    rw [← hsize]
    rfl
  have hlt := fromRoot_lt (r := vgroup.myrank) hroot
  have hzero := fromRoot_eq_zero_iff hroot hmyrank
  have hone : fromRoot n args.root vgroup.myrank = 1 ↔ vgroup.myrank = (args.root + 1) % n :=
    ⟨fun h => by_contra fun hne => (fromRoot_ne_one hroot hmyrank hne).2 h,
      fun h => h ▸ fromRoot_near hroot hn⟩
  have hconv : convertRealRankToKntreeRank n args.root vgroup.myrank = _ := convertReal_eq
  generalize hv : fromRoot n args.root vgroup.myrank = v at hlt hzero hone hconv ⊢
  rw [longMRounds, List.flatMap_cons, expand_append]
  rcases Nat.lt_trichotomy v 1 with hlt₁ | rfl | hgt
  · -- the root
    obtain rfl : v = 0 := by omega
    have hmy := hzero.mp rfl
    have htail : (Sched.expand
        (args.blockCells (blockOffset (args.count / (n - 1)) (args.count % (n - 1))))
        (toRank n args.root) ((if n ≤ 2 then [] else
          (treeRounds n).map (embedRound longMNumber longMRank)).flatMap fun R => R 0) :
            Sched (Cell B) β) =
        if n ≤ 2 then [] else treeSched n vgroup args (treeLeft (n - 1) 0) := by
      split_ifs with h₂
      · rfl
      · rw [flatMap_embed_some (k := 0) rfl, expand_treeRounds (by omega) hroot (by omega) hmap,
          flatMap_treeRounds (by omega), if_pos rfl, List.nil_append]
    rw [htail]
    have hargs : ((bcastLongMOpNew unset vgroup args).startM id).args = args := rfl
    refine exec_mRoot hn hsize hmap rfl hargs hmy (by rw [hflags, hmy]) fun hn₃ => ?_
    obtain ⟨hof, hyields⟩ := startM_treeOf unset hsize hn₃ (fun h => by
      have := hone.mpr h
      omega) hconv (by omega) id
    have hroot' : ((bcastLongMOpNew unset vgroup args).startM id).flags =
        ⟨true, true, true, true, false⟩ := by
      rw [hflags, longMFlags, if_neg (by simp [hmy]), if_pos hmy, if_pos (by omega)]
    refine ⟨⟨⟨hof.vgroup_eq, hof.args_eq, hof.base_eq, hof.quotient_eq, hof.division_eq⟩, rfl, ?_,
      ?_, rfl⟩, rfl, Or.inr rfl, hyields, ?_⟩
    · exact congrArg BcastLongFlags.scattervPhase hroot'
    · exact congrArg BcastLongFlags.allgathervPhase hroot'
    · have hclog : n - 1 ≤ 0 + 2 ^ kntreeHeight (n - 1) 2 0 := by
        rw [kntreeHeight, if_pos rfl, Nat.zero_add]
        exact Nat.le_pow_clog (by decide) (n - 1)
      rw [scatterEnd, min_eq_right hclog, Nat.sub_zero, ← hsize]
      exact if_pos hmy
  · -- the rank next to it
    have hmy := hone.mp rfl
    have hne : vgroup.myrank ≠ args.root := fun h => by
      have := hzero.mpr h
      omega
    have htail : ((if n ≤ 2 then [] else
        (treeRounds n).map (embedRound longMNumber longMRank)).flatMap fun R => R 1) =
          ([] : Sched ℕ β) := by
      split_ifs
      · rfl
      · exact flatMap_embed_none rfl
    rw [htail, expand_nil, List.append_nil]
    refine exec_mNear hn hmap hroot rfl rfl hne ?_
    rw [hflags, longMFlags, if_neg (fun h => h.2 hmy), if_neg hne]
  · -- another rank
    have hmy : vgroup.myrank ≠ args.root ∧ vgroup.myrank ≠ (args.root + 1) % n :=
      ⟨fun h => by have := hzero.mpr h; omega, fun h => by have := hone.mpr h; omega⟩
    have hrank : longMRank v = some (v - 1) := by
      rw [longMRank, if_neg (by omega), if_neg (by omega)]
    have hround : (nearRound n v : Sched ℕ β) = [] := by
      rw [nearRound, if_neg (by omega), if_neg (by omega)]
    rw [hround, expand_nil, List.nil_append, if_neg (by omega), flatMap_embed_some hrank,
      expand_treeRounds (by omega) hroot (by omega) hmap, flatMap_treeRounds (by omega),
      if_neg (by omega)]
    obtain ⟨hof, hyields⟩ := startM_treeOf unset hsize (by omega) hmy.2 hconv
      (by omega) id
    rw [longMFlags, if_pos hmy] at hflags
    refine exec_mOther hsize (by omega) (by omega) ⟨hof, ?_, ?_, ?_, rfl⟩ ?_ ?_ hyields
    all_goals rw [hflags]

/-- The trigger and progress functions of a group of at least two ranks execute the schedule. -/
theorem bcastLongM_runs (hsize : vgroup.size = n) (hmap : vgroup.rankMap = fun q => q)
    (hn : 2 ≤ n) (hroot : args.root < n) (hmyrank : vgroup.myrank < n) (unset : KntreeIter)
    (id : ℕ) : OpRuns bcastLongMFuncs BcastLongOp.status id (bcastLongMOpNew unset vgroup args)
      (LongMRel n vgroup args (fromRoot n args.root vgroup.myrank - 1))
      (Sched.expand
        (args.blockCells (blockOffset (args.count / (n - 1)) (args.count % (n - 1))))
        (toRank n args.root)
        ((longMRounds n).flatMap fun R => R (fromRoot n args.root vgroup.myrank)) :
          Sched (Cell B) β) where
  trigger := by
    simp only [bcastLongMFuncs, exec_bind, exec_pure]
    exact (exec_mFirst hsize hmap hn hroot hmyrank unset id).imp fun moved res cs hres => hres.2
  progress op cs hrel := exec_mOpProgress hsize hrel

end Operation

/-! ### Every run -/

section Runs

variable [DecidableEq B]

/-- What the modified broadcast is to do: its numbers are right, no rank divides by zero, and every
    run is a broadcast. -/
structure LongMMeets (n count root id : ℕ) (unset : ℕ → KntreeIter) (args : ℕ → BcastArgs B)
    (m : ℕ → Cell B → β) (x : ℕ → β) : Prop where
  numbers : LongMNumbers n root
  runs : ∃ proc : ℕ → Proc (Cell B) β (BcastLongOp B),
    (∀ r < n, bcastLongMProc n unset args id r = some (proc r)) ∧
    ∀ acts N, (Net.init m).run n proc acts = some N →
      BcastMeets n count root args m x proc BcastLongOp.status acts N

omit [DecidableEq B] in
/-- A group of one rank divides by zero. -/
theorem bcastLongMProc_one {unset : ℕ → KntreeIter} {args : ℕ → BcastArgs B} {id r : ℕ} :
    (bcastLongMProc 1 unset args id r : Option (Proc (Cell B) β (BcastLongOp B))) = none := rfl

/-- The modified broadcast is right if and only if the group has at least two ranks. -/
theorem bcastLongM_correct_iff (n count root id : ℕ) (unset : ℕ → KntreeIter)
    (args : ℕ → BcastArgs B) (m : ℕ → Cell B → β) (x : ℕ → β)
    (hcall : BcastCall n count root args m x) :
    LongMMeets n count root id unset args m x ↔ 2 ≤ n := by
  have hroot := hcall.root_lt
  constructor
  · rintro ⟨-, proc, hproc, -⟩
    by_contra hlt
    obtain rfl : n = 1 := by omega
    have hnone := hproc 0 one_pos
    rw [bcastLongMProc_one] at hnone
    cases hnone
  · intro hn
    have hop (r) (hr : r < n) : OpRuns bcastLongMFuncs BcastLongOp.status id
        (bcastLongMOpNew (unset r) ⟨n, r, fun q => q⟩ (args r))
        (LongMRel n ⟨n, r, fun q => q⟩ (args r) (fromRoot n (args r).root r - 1))
        (Sched.expand ((args r).blockCells (blockOffset (count / (n - 1)) (count % (n - 1))))
          (toRank n root) ((longMRounds n).flatMap fun R => R (fromRoot n root r)) :
            Sched (Cell B) β) := by
      obtain ⟨rfl, rfl⟩ := hcall.same r hr
      exact bcastLongM_runs rfl rfl hn hroot hr (unset r) id
    refine ⟨longMNumbers hroot, fun r => opProc bcastLongMFuncs BcastLongOp.status
      (bcastLongMOpNew (unset r) ⟨n, r, fun q => q⟩ (args r)) id, fun r _ => ?_, fun acts N hrun =>
        ?_⟩
    · have hsize : (bcastLongMOpNew (unset r) ⟨n, r, fun q => q⟩ (args r)).kntreeSize ≠ 0 :=
        (show 0 < n - 1 by omega).ne'
      rw [bcastLongMProc, bcastLongMOpTrigger, if_neg hsize]
      rfl
    · exact (spreads_longMRounds hn (blockOffset (count / (n - 1)) (count % (n - 1))) x).meets
        (cut_blockOffset (by omega)) hcall hop hrun

end Runs

/-! A group of one rank, whose call the check admits. -/

/-- The iterator of an operation that does not set it. -/
def unsetIter : KntreeIter := KntreeIter.init 1 2 0 0 true

theorem bcastLongM_one : ∃ (args : ℕ → BcastArgs (Fin 1)) (m : ℕ → Cell (Fin 1) → ℕ) (x : ℕ → ℕ),
    BcastCall 1 1 0 args m x ∧ bcastLongMCheck ⟨1, 0, fun q => q⟩ (args 0) = .ok ∧
      ¬LongMMeets 1 1 0 0 (fun _ => unsetIter) args m x := by
  refine ⟨fun _ => ⟨(0, 0), 1, 0⟩, fun _ c => c.2, fun j => j, ⟨by decide, fun _ _ => ⟨rfl, rfl⟩,
    fun j _ => by simp⟩, rfl, ?_⟩
  rintro ⟨-, proc, hproc, -⟩
  have hnone := hproc 0 one_pos
  rw [bcastLongMProc_one] at hnone
  cases hnone

/-! Two ranks and two elements, from rank 0. -/

theorem bcastLongM_correct_pair :
    LongMMeets 2 2 0 7 (fun _ => unsetIter) pairArgs pairMem fun j => j + 5 :=
  (bcastLongM_correct_iff 2 2 0 7 (fun _ => unsetIter) pairArgs pairMem (fun j => j + 5)
    pairCall).mpr le_rfl

end Kucg.Ucx
