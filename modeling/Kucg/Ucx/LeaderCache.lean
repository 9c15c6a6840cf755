import Kucg.Ucx.LeaderGroups

/-! The slot of the node leaders over a sequence of prepares.

    Three plans share the slot, and two constructors fill it: for the Rabenseifner plans the ranks
    of a node are numbered socket by socket, for the rolling plan as they come. Whichever plan comes
    first decides, and a rank map that could not be copied stays in the slot as well. A plan gets
    the group that it would get as the first one when its own constructor filled the slot, or both
    constructors number the ranks alike for the rank (`SameOrder`), and there was memory for the
    rank map (`leaderSlot_kept`). -/

namespace Kucg.Ucx

open Kucg.Core Kucg.Lib

/-! ### Prepares -/

/-- What the plans read of the group: the locations, the details of the topology, and whether the
    configuration asks for consistent results. -/
structure GroupInfo where
  place : ℕ → Location
  fresh : ℕ → TopoLocation
  size : ℕ
  myrank : ℕ
  reduceConsistency : Bool

/-- The details of the topology. -/
def GroupInfo.detail (info : GroupInfo) : TopoDetail :=
  topoInitDetail info.fresh info.place info.size

/-- The group before any plan is prepared. -/
def GroupInfo.ucxGroup (info : GroupInfo) : UcxGroup :=
  ⟨topoInit info.size info.myrank info.place, fun _ => AlgoGroup.new⟩

/-- The plans that use the slot of the node leaders. -/
inductive LeaderPlan where
  | naRabenseifner | saRabenseifner | naRolling
  deriving DecidableEq, Repr

/-- Which steps of a prepare succeed, in the order of the steps: the allocation of the
    meta-operation and of the arrays of the rolling plan, and for each step the groups it gets and
    whether its operation is allocated and added. -/
structure PrepareEnv where
  metaOp : Bool
  arrays : Bool
  first : GetEnv
  firstOp : Bool
  rdArgs : GetEnv
  rdArgsMem : Bool
  socketLeader : LeaderEnv
  socketLeaderOp : Bool
  leader : LeaderEnv
  leaderOp : Bool
  last : GetEnv
  lastOp : Bool

/-- A prepare, with the arguments that its check reads. -/
structure Prepare where
  plan : LeaderPlan
  count : ℕ
  isCommutative : Bool
  env : PrepareEnv

/-- The checks of the three plans. -/
def Prepare.check (info : GroupInfo) (p : Prepare) : Bool :=
  let ppn := topoCalcPpn info.detail
  let pps := topoCalcPps info.detail
  match p.plan with
  | .naRabenseifner => info.size ≤ p.count ∧ p.isCommutative ∧ ppn ≠ ppxUnknown ∧
      pps ≠ ppxUnknown ∧ ppn ≠ 1 ∧ ppn ≠ ppxUnbalanced ∧ pps ≠ ppxUnbalanced ∧
      (p.count : ℤ) % ppn = 0 ∧ ¬info.reduceConsistency
  | .saRabenseifner => info.size ≤ p.count ∧ p.isCommutative ∧ ppn ≠ ppxUnknown ∧
      pps ≠ ppxUnknown ∧ ppn ≠ 1 ∧ ppn ≠ ppxUnbalanced ∧ pps ≠ ppxUnbalanced ∧ pps ≠ 1 ∧
      ¬info.reduceConsistency
  | .naRolling => (info.size : ℤ) / ppn ≠ 1 ∧ ppn ≠ ppxUnknown ∧ ppn ≠ 1 ∧ ppn ≠ ppxUnbalanced

/-- `ucg_planc_ucx_allreduce_add_reduce_scatter_op`, `ucg_planc_ucx_allreduce_add_allgatherv_op` and
    `ucg_planc_ucx_allgatherv_add_rolling_intra_op`: an operation on a topology group, or an empty
    one. -/
def addTopoGroupOp (ucxGroup : UcxGroup) (env : GetEnv) (op : Bool) (type : TopoGroupType) :
    UcxGroup × Status :=
  let res := topoGetGroup ucxGroup.topo env type
  let ucxGroup := { ucxGroup with topo := res.1 }
  match res.2 with
  | none => (ucxGroup, .errUnsupported)
  | some group =>
    if group.state = .disable ∨ group.state = .enable then
      (ucxGroup, if op then .ok else .errNoMemory)
    else (ucxGroup, .errNoResource)

/-- `ucg_planc_ucx_allreduce_get_rd_args`, which gets a group and allocates four arrays. -/
def getRdArgs (ucxGroup : UcxGroup) (env : GetEnv) (mem : Bool) (type : TopoGroupType) :
    UcxGroup × Status :=
  let res := topoGetGroup ucxGroup.topo env type
  let ucxGroup := { ucxGroup with topo := res.1 }
  match res.2 with
  | none => (ucxGroup, .errUnsupported)
  | some group =>
    if group.state = .error ∨ group.state = .disable then (ucxGroup, .errUnsupported)
    else (ucxGroup, if mem then .ok else .errNoMemory)

/-- `ucg_planc_ucx_allreduce_add_allreduce_op` and
    `ucg_planc_ucx_allgatherv_add_rolling_inter_op`: an operation on a group of leaders, or an empty
    one. -/
def addAlgoGroupOp (ucxGroup : UcxGroup) (op : Bool) (type : AlgoGroupType) : UcxGroup × Status :=
  let state := (ucxGroup.groups type).state
  if state = .disable ∨ state = .enable then (ucxGroup, if op then .ok else .errNoMemory)
  else (ucxGroup, .errNoResource)

/-- `UCG_CHECK_GOTO`: go on unless the step has failed. -/
def andThen (res : UcxGroup × Status)
    (next : UcxGroup → Except (Halt Status) (UcxGroup × Status)) :
    Except (Halt Status) (UcxGroup × Status) :=
  if res.2 ≠ .ok then .ok res else next res.1

section Plans

variable (info : GroupInfo) (env : PrepareEnv)

/-- The end of the two Rabenseifner plans, from the group of node leaders on. -/
def addNodeLeaders (type : TopoGroupType) (ucxGroup : UcxGroup) :
    Except (Halt Status) (UcxGroup × Status) := do
  let res ← createNodeLeaderAlgoGroup info.detail info.size info.myrank env.leader ucxGroup
  andThen res fun ucxGroup =>
    andThen (addAlgoGroupOp ucxGroup env.leaderOp .nodeLeader) fun ucxGroup =>
      .ok (addTopoGroupOp ucxGroup env.last env.lastOp type)

/-- `ucg_planc_ucx_allreduce_na_rabenseifner_op_new`. -/
def naRabenseifnerOpNew (ucxGroup : UcxGroup) : Except (Halt Status) (UcxGroup × Status) :=
  if ¬env.metaOp then .ok (ucxGroup, .errNoMemory)
  else andThen (addTopoGroupOp ucxGroup env.first env.firstOp .node) fun ucxGroup =>
    andThen (getRdArgs ucxGroup env.rdArgs env.rdArgsMem .node) fun ucxGroup =>
      addNodeLeaders info env .node ucxGroup

/-- `ucg_planc_ucx_allreduce_sa_rabenseifner_op_new`. -/
def saRabenseifnerOpNew (ucxGroup : UcxGroup) : Except (Halt Status) (UcxGroup × Status) :=
  if ¬env.metaOp then .ok (ucxGroup, .errNoMemory)
  else andThen (addTopoGroupOp ucxGroup env.first env.firstOp .socket) fun ucxGroup =>
    andThen (getRdArgs ucxGroup env.rdArgs env.rdArgsMem .socket) fun ucxGroup => do
      let res ← createSocketLeaderAlgoGroup info.place info.size info.myrank env.socketLeader
        ucxGroup
      andThen res fun ucxGroup =>
        andThen (addAlgoGroupOp ucxGroup env.socketLeaderOp .socketLeader) fun ucxGroup =>
          addNodeLeaders info env .socket ucxGroup

/-- `ucg_planc_ucx_allgatherv_na_rolling_op_new`. -/
def naRollingOpNew (ucxGroup : UcxGroup) : Except (Halt Status) (UcxGroup × Status) :=
  if ¬env.metaOp ∨ ¬env.arrays then .ok (ucxGroup, .errNoMemory)
  else do
    let res ← createOnlyNodeLeaderAlgoGroup info.detail info.size info.myrank env.leader ucxGroup
    andThen res fun ucxGroup =>
      andThen (addAlgoGroupOp ucxGroup env.leaderOp .nodeLeader) fun ucxGroup =>
        .ok (addTopoGroupOp ucxGroup env.last env.lastOp .node)

end Plans

/-- The functions that make the operation of a plan. -/
def opNew (info : GroupInfo) (p : Prepare) : UcxGroup → Except (Halt Status) (UcxGroup × Status) :=
  match p.plan with
  | .naRabenseifner => naRabenseifnerOpNew info p.env
  | .saRabenseifner => saRabenseifnerOpNew info p.env
  | .naRolling => naRollingOpNew info p.env

/-- The prepare functions of the three plans. An operation that is not made is a null pointer, for
    whatever reason. -/
def prepare (info : GroupInfo) (ucxGroup : UcxGroup) (p : Prepare) :
    Except (Halt Status) (UcxGroup × Status) :=
  if ¬p.check info then .ok (ucxGroup, .errUnsupported)
  else do
    let res ← opNew info p ucxGroup
    return (res.1, if res.2 = .ok then .ok else .errNoMemory)

/-- The group after a sequence of prepares, whether they succeed or not. -/
def prepares (info : GroupInfo) : UcxGroup → List Prepare → Except (Halt Status) UcxGroup
  | ucxGroup, [] => .ok ucxGroup
  | ucxGroup, p :: ps => do
    let res ← prepare info ucxGroup p
    prepares info res.1 ps

/-- The prepare of a sequence that fills the slot of the node leaders. -/
def filler (info : GroupInfo) : UcxGroup → List Prepare → Option Prepare
  | _, [] => none
  | ucxGroup, p :: ps => match prepare info ucxGroup p with
    | .error _ => none
    | .ok res =>
      if (res.1.groups .nodeLeader).state ≠ .notInit then some p else filler info res.1 ps

/-! ### What a prepare does to the slot -/

/-- The orders of the ranks of a node in which the two constructors number them. -/
inductive LeaderOrder where
  | bySocket | byNode
  deriving DecidableEq, Repr

/-- The constructor that a plan calls. -/
def LeaderPlan.order : LeaderPlan → LeaderOrder
  | .naRabenseifner | .saRabenseifner => .bySocket
  | .naRolling => .byNode

/-- What a constructor finds when its groups and its memory are given. -/
def leaderMembers (info : GroupInfo) : LeaderOrder → Except (Halt Status) (ℕ × List ℕ)
  | .bySocket => nodeLeaders info.detail info.size info.myrank
      (topoGroupSpec info.place info.size info.myrank .node).size
      (topoGroupSpec info.place info.size info.myrank .socket).size
      (signedRank (topoGroupSpec info.place info.size info.myrank .socket).myrank) true
  | .byNode => onlyNodeLeaders info.detail info.size info.myrank
      (topoGroupSpec info.place info.size info.myrank .node).size true

/-- A slot that has been filled, and the status of filling it. -/
def filledSlot (members : ℕ × List ℕ) (mem : Bool) : AlgoGroup × Status :=
  AlgoGroup.new.fill members.1 members.2 (rankMapInitByCopy mem members.2)

/-- The slot of the node leaders. -/
def UcxGroup.slot (ucxGroup : UcxGroup) : AlgoGroup := ucxGroup.groups .nodeLeader

/-- The group of a run: its topology is in order, or its node group has failed; its slot is as it
    was at first, or filled. -/
structure GroupOk (info : GroupInfo) (ucxGroup : UcxGroup) : Prop where
  inOrder : InOrder info.place info.size info.myrank ucxGroup.topo
  fresh : ucxGroup.slot.state = .notInit → ucxGroup.slot = AlgoGroup.new

/-- A step that leaves the slot alone. -/
structure Quiet (info : GroupInfo) (ucxGroup ucxGroup' : UcxGroup) : Prop where
  slot : ucxGroup'.slot = ucxGroup.slot
  inOrder : InOrder info.place info.size info.myrank ucxGroup.topo →
    InOrder info.place info.size info.myrank ucxGroup'.topo

/-- A step that may fill the slot with the members of an order. -/
structure Fills (info : GroupInfo) (order : LeaderOrder) (mem : Bool) (ucxGroup : UcxGroup)
    (res : UcxGroup × Status) : Prop where
  inOrder : InOrder info.place info.size info.myrank res.1.topo
  slot : res.1.slot = ucxGroup.slot ∨ ucxGroup.slot = AlgoGroup.new ∧
    ∃ members, leaderMembers info order = .ok members ∧
      res.1.slot = (filledSlot members mem).1 ∧ (res.2 = .ok → (filledSlot members mem).2 = .ok)

section Steps

variable {info : GroupInfo} {order : LeaderOrder} {mem : Bool} {ucxGroup ucxGroup' : UcxGroup}

theorem state_filledSlot (members : ℕ × List ℕ) (mem : Bool) :
    (filledSlot members mem).1.state ≠ .notInit := by
  rw [filledSlot, AlgoGroup.fill]
  split_ifs
  · exact nofun
  · exact nofun

/-- A rank map that could be made is the one that is made with memory. -/
theorem filledSlot_of_ok {members : ℕ × List ℕ} (h : (filledSlot members mem).2 = .ok) :
    (filledSlot members mem).1 = (filledSlot members true).1 := by
  cases mem with
  | true => rfl
  | false =>
    rw [filledSlot, AlgoGroup.fill] at h ⊢
    rw [filledSlot, AlgoGroup.fill]
    split_ifs at h ⊢
    · rfl
    · simp only [rankMapInitByCopy] at h ⊢
      split at h
      · simp at h
      · rfl

theorem Quiet.refl : Quiet info ucxGroup ucxGroup := ⟨rfl, id⟩

theorem Quiet.ok (h : Quiet info ucxGroup ucxGroup') (hok : GroupOk info ucxGroup) :
    GroupOk info ucxGroup' :=
  ⟨h.inOrder hok.inOrder, fun hstate => h.slot.trans (hok.fresh (h.slot ▸ hstate))⟩

variable (info ucxGroup) in
theorem quiet_getGroup (env : GetEnv) (type : TopoGroupType) :
    Quiet info ucxGroup { ucxGroup with topo := (topoGetGroup ucxGroup.topo env type).1 } :=
  ⟨rfl, fun h => h.get env type⟩

variable (info ucxGroup) in
theorem quiet_addTopoGroupOp (env : GetEnv) (op : Bool) (type : TopoGroupType) :
    Quiet info ucxGroup (addTopoGroupOp ucxGroup env op type).1 := by
  have h := quiet_getGroup info ucxGroup env type
  simp only [addTopoGroupOp]
  split
  · exact h
  · split_ifs <;> exact h

variable (info ucxGroup) in
theorem quiet_getRdArgs (env : GetEnv) (mem : Bool) (type : TopoGroupType) :
    Quiet info ucxGroup (getRdArgs ucxGroup env mem type).1 := by
  have h := quiet_getGroup info ucxGroup env type
  simp only [getRdArgs]
  split
  · exact h
  · split_ifs <;> exact h

theorem addAlgoGroupOp_fst (op : Bool) (type : AlgoGroupType) :
    (addAlgoGroupOp ucxGroup op type).1 = ucxGroup := by
  rw [addAlgoGroupOp]
  split_ifs <;> rfl

/-- An operation is added on a slot that is filled. -/
theorem state_of_addAlgoGroupOp {op : Bool}
    (h : (addAlgoGroupOp ucxGroup op .nodeLeader).2 = .ok) : ucxGroup.slot.state ≠ .notInit := by
  intro hstate
  have hstate : (ucxGroup.groups .nodeLeader).state = .notInit := hstate
  simp [addAlgoGroupOp, hstate] at h

theorem andThen_eq_ok {res r : UcxGroup × Status}
    {next : UcxGroup → Except (Halt Status) (UcxGroup × Status)} (h : andThen res next = .ok r) :
    (res.2 ≠ .ok ∧ r = res) ∨ res.2 = .ok ∧ next res.1 = .ok r := by
  rw [andThen] at h
  split_ifs at h with hne
  · exact Or.inl ⟨hne, (Except.ok.inj h).symm⟩
  · exact Or.inr ⟨not_not.mp hne, h⟩

/-- Filling a slot leaves the topology and the other slots. -/
theorem fill_eq_ok {type : AlgoGroupType} {members : Except (Halt Status) (ℕ × List ℕ)}
    {map : List ℕ → RankMap × Status} {r : UcxGroup × Status}
    (h : ucxGroup.fill type members map = .ok r) : r.1 = ucxGroup ∨
      ∃ m, members = .ok m ∧
        r.1 = ucxGroup.setGroup type ((ucxGroup.groups type).fill m.1 m.2 (map m.2)).1 ∧
        r.2 = ((ucxGroup.groups type).fill m.1 m.2 (map m.2)).2 := by
  unfold UcxGroup.fill at h
  split at h
  · cases h
  · exact Or.inl (Except.ok.inj h ▸ rfl)
  · next vrank ranks =>
    obtain rfl := Except.ok.inj h
    exact Or.inr ⟨(vrank, ranks), rfl, rfl, rfl⟩

theorem slot_setGroup (group : AlgoGroup) : (ucxGroup.setGroup .nodeLeader group).slot = group := by
  simp [UcxGroup.slot, UcxGroup.setGroup]

theorem slot_setGroup_of_ne {type : AlgoGroupType} {group : AlgoGroup} (h : .nodeLeader ≠ type) :
    (ucxGroup.setGroup type group).slot = ucxGroup.slot := by
  simp [UcxGroup.slot, UcxGroup.setGroup, h]

theorem quiet_createSocketLeader {env : LeaderEnv} {r : UcxGroup × Status}
    (h : createSocketLeaderAlgoGroup info.place info.size info.myrank env ucxGroup = .ok r) :
    Quiet info ucxGroup r.1 := by
  rw [createSocketLeaderAlgoGroup] at h
  dsimp only at h
  have hget := (quiet_getGroup info ucxGroup env.socket .socket)
  have hget' : Quiet info ucxGroup { ucxGroup with topo :=
      (topoGetGroup (topoGetGroup ucxGroup.topo env.socket .socket).1 env.node .node).1 } :=
    ⟨rfl, fun ho => (hget.inOrder ho).get env.node .node⟩
  by_cases hstate : (ucxGroup.groups .socketLeader).state ≠ .notInit
  · rw [if_pos hstate] at h
    exact Except.ok.inj h ▸ Quiet.refl
  rw [if_neg hstate] at h
  split at h
  · split_ifs at h
    · exact Except.ok.inj h ▸ hget'
    · exact Except.ok.inj h ▸ hget'
    · rcases fill_eq_ok h with heq | ⟨m, -, heq, -⟩
      · exact heq ▸ hget'
      · rw [heq]
        exact ⟨slot_setGroup_of_ne (by decide), hget'.inOrder⟩
  · exact Except.ok.inj h ▸ hget'

/-- Members are found only with memory. -/
theorem nodeLeaders_of_mem {detail : TopoDetail} {size myrank ppn pps : ℕ} {socketRank : ℤ}
    {m : ℕ × List ℕ} (h : nodeLeaders detail size myrank ppn pps socketRank mem = .ok m) :
    nodeLeaders detail size myrank ppn pps socketRank true = .ok m := by
  cases mem with
  | true => exact h
  | false =>
    rw [nodeLeaders] at h
    obtain ⟨socketId, -, h⟩ := bind_eq_ok.mp h
    split_ifs at h with hneg hmem
    exact absurd hmem id

@[inherit_doc nodeLeaders_of_mem]
theorem onlyNodeLeaders_of_mem {detail : TopoDetail} {size myrank ppn : ℕ} {m : ℕ × List ℕ}
    (h : onlyNodeLeaders detail size myrank ppn mem = .ok m) :
    onlyNodeLeaders detail size myrank ppn true = .ok m := by
  cases mem with
  | true => exact h
  | false => exact absurd h nofun

/-- A constructor that gets to its end. -/
theorem fills_of_fill (hnew : ucxGroup.slot = AlgoGroup.new) {topo : Topo}
    (hord : InOrder info.place info.size info.myrank topo)
    {members : Except (Halt Status) (ℕ × List ℕ)} {r : UcxGroup × Status}
    (hmembers : ∀ m, members = .ok m → leaderMembers info order = .ok m)
    (h : UcxGroup.fill { ucxGroup with topo := topo } .nodeLeader members
      (rankMapInitByCopy mem) = .ok r) : Fills info order mem ucxGroup r := by
  rcases fill_eq_ok h with heq | ⟨m, hm, heq, hst⟩
  · exact ⟨by rw [heq]; exact hord, Or.inl (by rw [heq]; rfl)⟩
  · have hfilled : filledSlot m mem =
        (ucxGroup.groups .nodeLeader).fill m.1 m.2 (rankMapInitByCopy mem m.2) := by
      change _ = ucxGroup.slot.fill _ _ _
      rw [hnew]
      rfl
    refine ⟨by rw [heq]; exact hord, Or.inr ⟨hnew, m, hmembers m hm, ?_, fun hok => ?_⟩⟩
    · rw [heq, slot_setGroup, hfilled]
    · rw [hfilled]
      exact hst.symm.trans hok

/-- The constructor of the Rabenseifner plans. -/
theorem createNodeLeader_fills (hok : GroupOk info ucxGroup) {env : LeaderEnv}
    {r : UcxGroup × Status}
    (h : createNodeLeaderAlgoGroup info.detail info.size info.myrank env ucxGroup = .ok r) :
    Fills info .bySocket env.rankMap ucxGroup r := by
  rw [createNodeLeaderAlgoGroup] at h
  dsimp only at h
  have hord := (hok.inOrder.get env.socket .socket).get env.node .node
  by_cases hstate : (ucxGroup.groups .nodeLeader).state ≠ .notInit
  · rw [if_pos hstate] at h
    obtain rfl := Except.ok.inj h
    exact ⟨hok.inOrder, Or.inl rfl⟩
  rw [if_neg hstate] at h
  have hnew : ucxGroup.slot = AlgoGroup.new := hok.fresh (not_not.mp hstate)
  split at h
  · next nodeGroup socketGroup hn hs =>
    obtain ⟨rfl, rfl⟩ := hok.inOrder.socket_node hs hn
    split_ifs at h
    · obtain rfl := Except.ok.inj h
      exact ⟨hord, Or.inl rfl⟩
    · exact fills_of_fill hnew hord (fun m hm => nodeLeaders_of_mem hm) h
  · obtain rfl := Except.ok.inj h
    exact ⟨hord, Or.inl rfl⟩

/-- The constructor of the rolling plan. -/
theorem createOnlyNodeLeader_fills (hok : GroupOk info ucxGroup) {env : LeaderEnv}
    {r : UcxGroup × Status}
    (h : createOnlyNodeLeaderAlgoGroup info.detail info.size info.myrank env ucxGroup = .ok r) :
    Fills info .byNode env.rankMap ucxGroup r := by
  rw [createOnlyNodeLeaderAlgoGroup] at h
  dsimp only at h
  have hord := hok.inOrder.get env.node .node
  by_cases hstate : (ucxGroup.groups .nodeLeader).state ≠ .notInit
  · rw [if_pos hstate] at h
    obtain rfl := Except.ok.inj h
    exact ⟨hok.inOrder, Or.inl rfl⟩
  rw [if_neg hstate] at h
  have hnew : ucxGroup.slot = AlgoGroup.new := hok.fresh (not_not.mp hstate)
  split at h
  · next nodeGroup hn =>
    obtain ⟨rfl, -⟩ := hok.inOrder.node hn
    split_ifs at h
    · obtain rfl := Except.ok.inj h
      exact ⟨hord, Or.inl rfl⟩
    · exact fills_of_fill hnew hord (fun m hm => onlyNodeLeaders_of_mem hm) h
  · obtain rfl := Except.ok.inj h
    exact ⟨hord, Or.inl rfl⟩

/-- A quiet step before one that may fill the slot. -/
theorem Fills.after {r : UcxGroup × Status} (h : Fills info order mem ucxGroup' r)
    (hq : Quiet info ucxGroup ucxGroup') : Fills info order mem ucxGroup r :=
  ⟨h.inOrder, by rw [← hq.slot]; exact h.slot⟩

/-- A quiet step after one that has filled the slot and succeeded. -/
theorem Fills.before {r r' : UcxGroup × Status} (h : Fills info order mem ucxGroup r)
    (hok : r.2 = .ok) (hq : Quiet info r.1 r'.1) : Fills info order mem ucxGroup r' := by
  refine ⟨hq.inOrder h.inOrder, ?_⟩
  rw [hq.slot]
  exact h.slot.imp_right fun ⟨hnew, m, hm, hslot, hst⟩ => ⟨hnew, m, hm, hslot, fun _ => hst hok⟩

theorem Quiet.fills {r : UcxGroup × Status} (h : Quiet info ucxGroup r.1)
    (hok : GroupOk info ucxGroup) : Fills info order mem ucxGroup r :=
  ⟨h.inOrder hok.inOrder, Or.inl h.slot⟩

/-- What a prepare does: it may fill the slot with its own members, and it leaves the slot filled if
    it succeeds. -/
structure Prepares (info : GroupInfo) (p : Prepare) (ucxGroup : UcxGroup)
    (res : UcxGroup × Status) : Prop where
  fills : Fills info p.plan.order p.env.leader.rankMap ucxGroup res
  filled : res.2 = .ok → res.1.slot.state ≠ .notInit

/-- The operations on the group of node leaders and on the topology group after it. -/
theorem addLeaderOps {env : PrepareEnv} {type : TopoGroupType} {res r : UcxGroup × Status}
    (hfills : Fills info order mem ucxGroup res)
    (h : (andThen res fun ucxGroup =>
      andThen (addAlgoGroupOp ucxGroup env.leaderOp .nodeLeader) fun ucxGroup =>
        .ok (addTopoGroupOp ucxGroup env.last env.lastOp type)) = .ok r) :
    Fills info order mem ucxGroup r ∧ (r.2 = .ok → r.1.slot.state ≠ .notInit) := by
  rcases andThen_eq_ok h with ⟨hne, rfl⟩ | ⟨hok, h⟩
  · exact ⟨hfills, fun hst => absurd hst hne⟩
  rcases andThen_eq_ok h with ⟨hne, rfl⟩ | ⟨hadd, h⟩
  · refine ⟨hfills.before hok ?_, fun hst => absurd hst hne⟩
    rw [addAlgoGroupOp_fst]
    exact Quiet.refl
  · obtain rfl := Except.ok.inj h
    rw [addAlgoGroupOp_fst]
    have hquiet := quiet_addTopoGroupOp info res.1 env.last env.lastOp type
    exact ⟨hfills.before hok hquiet, fun _ => hquiet.slot ▸ state_of_addAlgoGroupOp hadd⟩

theorem addNodeLeaders_fills (hok : GroupOk info ucxGroup) {env : PrepareEnv} {type : TopoGroupType}
    {r : UcxGroup × Status} (h : addNodeLeaders info env type ucxGroup = .ok r) :
    Fills info .bySocket env.leader.rankMap ucxGroup r ∧
      (r.2 = .ok → r.1.slot.state ≠ .notInit) := by
  rw [addNodeLeaders] at h
  obtain ⟨res, hres, h⟩ := bind_eq_ok.mp h
  exact addLeaderOps (createNodeLeader_fills hok hres) h

/-- The steps of a Rabenseifner plan before its node leaders. -/
theorem addReduceScatter_fills (hok : GroupOk info ucxGroup) {env : PrepareEnv}
    {type : TopoGroupType} {r : UcxGroup × Status}
    {next : UcxGroup → Except (Halt Status) (UcxGroup × Status)}
    (h : (andThen (addTopoGroupOp ucxGroup env.first env.firstOp type) fun ucxGroup =>
      andThen (getRdArgs ucxGroup env.rdArgs env.rdArgsMem type) next) = .ok r)
    (hnext : ∀ ucxGroup', GroupOk info ucxGroup' → next ucxGroup' = .ok r →
      Fills info order mem ucxGroup' r ∧ (r.2 = .ok → r.1.slot.state ≠ .notInit)) :
    Fills info order mem ucxGroup r ∧ (r.2 = .ok → r.1.slot.state ≠ .notInit) := by
  have hquiet := quiet_addTopoGroupOp info ucxGroup env.first env.firstOp
    type
  rcases andThen_eq_ok h with ⟨hne, rfl⟩ | ⟨-, h⟩
  · exact ⟨hquiet.fills hok, fun hst => absurd hst hne⟩
  have hquiet' := quiet_getRdArgs info (addTopoGroupOp ucxGroup env.first env.firstOp type).1
    env.rdArgs env.rdArgsMem type
  have hboth : Quiet info ucxGroup _ :=
    ⟨hquiet'.slot.trans hquiet.slot, hquiet'.inOrder ∘ hquiet.inOrder⟩
  rcases andThen_eq_ok h with ⟨hne, rfl⟩ | ⟨-, h⟩
  · exact ⟨hboth.fills hok, fun hst => absurd hst hne⟩
  · obtain ⟨hfills, hfilled⟩ := hnext _ (hboth.ok hok) h
    exact ⟨hfills.after hboth, hfilled⟩

theorem opNew_prepares (hok : GroupOk info ucxGroup) {p : Prepare} {r : UcxGroup × Status}
    (h : opNew info p ucxGroup = .ok r) : Prepares info p ucxGroup r := by
  cases hplan : p.plan with
  | naRabenseifner =>
    simp only [opNew, hplan] at h
    suffices hboth : Fills info .bySocket p.env.leader.rankMap ucxGroup r ∧
        (r.2 = .ok → r.1.slot.state ≠ .notInit) from ⟨by rw [hplan]; exact hboth.1, hboth.2⟩
    rw [naRabenseifnerOpNew] at h
    by_cases hmem : ¬p.env.metaOp
    · rw [if_pos hmem] at h
      obtain rfl := Except.ok.inj h
      exact ⟨⟨hok.inOrder, Or.inl rfl⟩, nofun⟩
    · rw [if_neg hmem] at h
      exact addReduceScatter_fills hok h fun _ hok' h => addNodeLeaders_fills hok' h
  | saRabenseifner =>
    simp only [opNew, hplan] at h
    suffices hboth : Fills info .bySocket p.env.leader.rankMap ucxGroup r ∧
        (r.2 = .ok → r.1.slot.state ≠ .notInit) from ⟨by rw [hplan]; exact hboth.1, hboth.2⟩
    rw [saRabenseifnerOpNew] at h
    by_cases hmem : ¬p.env.metaOp
    · rw [if_pos hmem] at h
      obtain rfl := Except.ok.inj h
      exact ⟨⟨hok.inOrder, Or.inl rfl⟩, nofun⟩
    · rw [if_neg hmem] at h
      refine addReduceScatter_fills hok h fun g hok' h => ?_
      obtain ⟨res, hres, h⟩ := bind_eq_ok.mp h
      have hquiet := quiet_createSocketLeader hres
      rcases andThen_eq_ok h with ⟨hne, rfl⟩ | ⟨-, h⟩
      · exact ⟨hquiet.fills hok', fun hst => absurd hst hne⟩
      rcases andThen_eq_ok h with ⟨hne, rfl⟩ | ⟨-, h⟩
      · refine ⟨Quiet.fills ?_ hok', fun hst => absurd hst hne⟩
        rwa [addAlgoGroupOp_fst]
      · rw [addAlgoGroupOp_fst] at h
        obtain ⟨hfills, hfilled⟩ := addNodeLeaders_fills (hquiet.ok hok') h
        exact ⟨hfills.after hquiet, hfilled⟩
  | naRolling =>
    simp only [opNew, hplan] at h
    suffices hboth : Fills info .byNode p.env.leader.rankMap ucxGroup r ∧
        (r.2 = .ok → r.1.slot.state ≠ .notInit) from ⟨by rw [hplan]; exact hboth.1, hboth.2⟩
    rw [naRollingOpNew] at h
    split_ifs at h
    · obtain rfl := Except.ok.inj h
      exact ⟨⟨hok.inOrder, Or.inl rfl⟩, nofun⟩
    · obtain ⟨res, hres, h⟩ := bind_eq_ok.mp h
      exact addLeaderOps (createOnlyNodeLeader_fills hok hres) h

theorem prepare_prepares (hok : GroupOk info ucxGroup) {p : Prepare} {r : UcxGroup × Status}
    (h : prepare info ucxGroup p = .ok r) : Prepares info p ucxGroup r := by
  rw [prepare] at h
  by_cases hcheck : p.check info
  · rw [if_neg (not_not.mpr hcheck)] at h
    obtain ⟨res, hres, h⟩ := bind_eq_ok.mp h
    obtain rfl := Except.ok.inj h
    have hprep := opNew_prepares hok hres
    by_cases hst : res.2 = .ok
    · rw [if_pos hst, ← hst]
      exact hprep
    · rw [if_neg hst]
      refine ⟨⟨hprep.fills.inOrder, ?_⟩, nofun⟩
      exact hprep.fills.slot.imp_right fun ⟨hnew, m, hm, hslot, _⟩ => ⟨hnew, m, hm, hslot, nofun⟩
  · rw [if_pos hcheck] at h
    obtain rfl := Except.ok.inj h
    exact ⟨⟨hok.inOrder, Or.inl rfl⟩, nofun⟩

theorem Prepares.ok {p : Prepare} {r : UcxGroup × Status} (h : Prepares info p ucxGroup r)
    (hok : GroupOk info ucxGroup) : GroupOk info r.1 := by
  refine ⟨h.fills.inOrder, fun hstate => ?_⟩
  rcases h.fills.slot with heq | ⟨-, m, -, heq, -⟩
  · rw [heq] at hstate ⊢
    exact hok.fresh hstate
  · rw [heq] at hstate
    exact absurd hstate (state_filledSlot m _)

/-- A filled slot is left as it is. -/
theorem Prepares.slot_of_filled {p : Prepare} {r : UcxGroup × Status}
    (h : Prepares info p ucxGroup r) (hstate : ucxGroup.slot.state ≠ .notInit) :
    r.1.slot = ucxGroup.slot := by
  rcases h.fills.slot with heq | ⟨hnew, -⟩
  · exact heq
  · rw [hnew] at hstate
    exact absurd rfl hstate

end Steps

/-! ### Runs -/

section Runs

variable {info : GroupInfo}

theorem groupOk_ucxGroup (info : GroupInfo) : GroupOk info info.ucxGroup :=
  ⟨inOrder_init, fun _ => rfl⟩

/-- In a run from a filled slot the slot stays. -/
theorem prepares_slot : ∀ {ps : List Prepare} {g g' : UcxGroup}, GroupOk info g →
    g.slot.state ≠ .notInit → prepares info g ps = .ok g' → g'.slot = g.slot
  | [], g, g', _, _, h => by rw [← Except.ok.inj (h : Except.ok g = _)]
  | p :: ps, g, g', hok, hstate, h => by
    rw [prepares] at h
    obtain ⟨res, hres, h⟩ := bind_eq_ok.mp h
    have hprep := prepare_prepares hok hres
    have hslot := hprep.slot_of_filled hstate
    rw [← hslot] at hstate ⊢
    exact prepares_slot (hprep.ok hok) hstate h

/-- A run from an empty slot leaves it empty, or filled with the members that the constructor of one
    of the prepares finds. -/
theorem prepares_filler : ∀ {ps : List Prepare} {g g' : UcxGroup}, GroupOk info g →
    g.slot = AlgoGroup.new → prepares info g ps = .ok g' →
    g'.slot = AlgoGroup.new ∨ ∃ q ∈ filler info g ps, ∃ members,
      leaderMembers info q.plan.order = .ok members ∧
        g'.slot = (filledSlot members q.env.leader.rankMap).1
  | [], g, g', _, hnew, h => Or.inl (by rw [← Except.ok.inj (h : Except.ok g = _), hnew])
  | p :: ps, g, g', hok, hnew, h => by
    rw [prepares] at h
    obtain ⟨res, hres, h⟩ := bind_eq_ok.mp h
    have hprep := prepare_prepares hok hres
    rw [filler, hres]
    dsimp only
    by_cases hstate : (res.1.groups .nodeLeader).state ≠ .notInit
    · rw [if_pos hstate]
      right
      have hslot := prepares_slot (hprep.ok hok) hstate h
      rcases hprep.fills.slot with heq | ⟨-, members, hm, heq, -⟩
      · have hstate : res.1.slot.state ≠ .notInit := hstate
        rw [heq, hnew] at hstate
        exact absurd rfl hstate
      · exact ⟨p, rfl, members, hm, hslot.trans heq⟩
    · rw [if_neg hstate]
      exact prepares_filler (hprep.ok hok) ((hprep.ok hok).fresh (not_not.mp hstate)) h

/-- A prepare that succeeds first. -/
theorem prepare_first {p : Prepare} {g : UcxGroup}
    (h : prepare info info.ucxGroup p = .ok (g, .ok)) : ∃ members,
      leaderMembers info p.plan.order = .ok members ∧ g.slot = (filledSlot members true).1 := by
  have hprep := prepare_prepares (groupOk_ucxGroup info) h
  rcases hprep.fills.slot with heq | ⟨-, members, hm, heq, hst⟩
  · have hstate := hprep.filled rfl
    rw [heq] at hstate
    exact absurd rfl hstate
  · exact ⟨members, hm, heq.trans (filledSlot_of_ok (hst rfl))⟩

theorem prepares_append_singleton {p : Prepare} {g' : UcxGroup} {st : Status} :
    ∀ {ps : List Prepare} {g₀ g : UcxGroup}, prepares info g₀ ps = .ok g →
      prepare info g p = .ok (g', st) → prepares info g₀ (ps ++ [p]) = .ok g'
  | [], g₀, g, h, hp => by
    obtain rfl := Except.ok.inj (h : Except.ok g₀ = _)
    rw [List.nil_append, prepares, hp]
    rfl
  | q :: ps, g₀, g, h, hp => by
    rw [prepares] at h
    obtain ⟨res, hres, h⟩ := bind_eq_ok.mp h
    rw [List.cons_append, prepares, hres]
    exact prepares_append_singleton h hp

theorem prepares_ok : ∀ {ps : List Prepare} {g g' : UcxGroup}, GroupOk info g →
    prepares info g ps = .ok g' → GroupOk info g'
  | [], g, g', hok, h => Except.ok.inj (h : Except.ok g = _) ▸ hok
  | p :: ps, g, g', hok, h => by
    rw [prepares] at h
    obtain ⟨res, hres, h⟩ := bind_eq_ok.mp h
    exact prepares_ok ((prepare_prepares hok hres).ok hok) h

end Runs

/-! ### Two constructors, one order -/

/-- Every node uses the first sockets, and on every node the rank with the place that rank `r` has
    on its node is in the socket of the same number, at the same place there. -/
structure SameOrder (place : ℕ → Location) (size ppn pps r : ℕ) : Prop where
  balanced : Balanced place size ppn pps
  several : 1 < ppn
  sockets : ∀ i < size, socketOf place size i < ppn / pps
  alike : ∀ i < size, placeOf (nodeOf place size) i = placeOf (nodeOf place size) r →
    socketOf place size i = socketOf place size r ∧
      placeOf (cellOf place size) i = placeOf (cellOf place size) r

/-- Then both constructors find the same members. -/
theorem SameOrder.members_eq {info : GroupInfo} {ppn pps : ℕ} (hr : info.myrank < info.size)
    (h : SameOrder info.place info.size ppn pps info.myrank) :
    leaderMembers info .bySocket = leaderMembers info .byNode := by
  obtain ⟨hnode, -⟩ := nodeGroup_spec h.balanced h.several hr
  obtain ⟨hsize, hrank, -⟩ := socketGroup_spec h.balanced h.several hr
  obtain ⟨counters, g, hc, heq⟩ := nodeLeaders_eq h.balanced h.sockets info.fresh hr
  obtain ⟨counters', g', hc', heq'⟩ := onlyNodeLeaders_eq h.balanced info.fresh hr
  rw [leaderMembers, leaderMembers, hnode, hsize, hrank]
  refine (heq.trans ?_).trans heq'.symm
  congr 2
  refine List.map_congr_left fun N hN => ?_
  have hpart : N * ppn + placeOf (nodeOf info.place info.size) info.myrank < info.size := by
    have hlt := placeOf_node_lt h.balanced hr
    have hle := Nat.mul_le_mul_right ppn (Nat.succ_le_of_lt (List.mem_range.mp hN))
    have hn : info.size = nodeCount info.place info.size * ppn := h.balanced.size_eq
    rw [Nat.succ_mul] at hle
    omega
  -- the member of node `N` in the order of the nodes has its slot in the order of the sockets
  obtain ⟨v, hv, hget, hslot⟩ := hc'.slot_getElem? (nodeSlot_injOn h.balanced) hpart
  obtain ⟨hN, hplace⟩ := part_inj (placeOf_node_lt h.balanced hv)
    (placeOf_node_lt h.balanced hr) hslot
  obtain ⟨hsocket, hcell⟩ := h.alike v hv hplace
  have hat := hc.getElem?_slot (socketSlot_injOn h.sockets h.balanced) hv
  rw [socketSlot_eq h.sockets hv, hN, hsocket, hcell] at hat
  rw [List.getD_eq_getElem?_getD, List.getD_eq_getElem?_getD, hat, hget]

/-- In every sequence of prepares, a plan that is prepared gets the node leaders that it gets when
    it is the first one, if there was memory for the rank map of the prepare that filled the slot,
    and that prepare calls the constructor of this plan or both find the same order. -/
theorem leaderSlot_kept (info : GroupInfo) (hr : info.myrank < info.size) (ps : List Prepare)
    (p : Prepare) (env : PrepareEnv) (g g' g₀ : UcxGroup)
    (hrun : prepares info info.ucxGroup ps = .ok g) (hp : prepare info g p = .ok (g', .ok))
    (hfirst : prepare info info.ucxGroup { p with env := env } = .ok (g₀, .ok))
    (hcond : ∀ q ∈ filler info info.ucxGroup (ps ++ [p]), q.env.leader.rankMap = true ∧
      (q.plan.order = p.plan.order ∨
        ∃ ppn pps, SameOrder info.place info.size ppn pps info.myrank)) :
    g'.groups .nodeLeader = g₀.groups .nodeLeader := by
  have hok := groupOk_ucxGroup info
  obtain ⟨members₀, hm₀, hslot₀⟩ := prepare_first hfirst
  change g'.slot = g₀.slot
  rcases prepares_filler hok rfl (prepares_append_singleton hrun hp) with
    hnew | ⟨q, hq, members, hm, hslot⟩
  · have hstate := (prepare_prepares (prepares_ok hok hrun) hp).filled rfl
    rw [hnew] at hstate
    exact absurd rfl hstate
  · obtain ⟨hmap, horder⟩ := hcond q hq
    have hsame : leaderMembers info q.plan.order = leaderMembers info p.plan.order := by
      rcases horder with heq | ⟨ppn, pps, hsame⟩
      · rw [heq]
      · have heq := hsame.members_eq hr
        cases q.plan.order <;> cases p.plan.order <;> simp [heq]
    rw [hsame] at hm
    obtain rfl := Except.ok.inj (hm.symm.trans hm₀)
    rw [hslot, hslot₀, hmap]

/-! Eight ranks on two nodes with two sockets each. The rolling plan is prepared first. -/

/-- The groups are made, and there is memory. -/
def LeaderPlan.prepare (plan : LeaderPlan) : Prepare :=
  let get : GetEnv := ⟨envOf true, envOf true⟩
  let leader : LeaderEnv := ⟨get, get, fun _ => .ok, true, true, true, true⟩
  ⟨plan, 8, true, ⟨true, true, get, true, get, true, leader, true, leader, true, get, true⟩⟩

/-- Rank one of the eight, in the sockets that `socket` says. -/
def eightRanks (socket : ℕ → ℕ) : GroupInfo :=
  ⟨fun q => ⟨false, true, true, 0, (q / 4 : ℕ), socket q⟩, fun _ => ⟨0, 0⟩, 8, 1, false⟩

/-- Both nodes fill their sockets one after the other. -/
theorem sameOrder_eight : SameOrder (eightRanks fun q => q / 2 % 2).place 8 4 2 1 := by
  have hids : HasIds (eightRanks fun q => q / 2 % 2).place 8 := fun _ _ => ⟨rfl, rfl⟩
  exact ⟨balanced_of_calc hids (by decide) (fun _ => ⟨0, 0⟩) (by decide) (by decide), by decide,
    by decide, by decide⟩

theorem leaderSlot_kept_eight : ∃ g g' g₀,
    let info := eightRanks fun q => q / 2 % 2
    prepares info info.ucxGroup [LeaderPlan.naRolling.prepare] = .ok g ∧
      prepare info g LeaderPlan.naRabenseifner.prepare = .ok (g', .ok) ∧
      prepare info info.ucxGroup LeaderPlan.naRabenseifner.prepare = .ok (g₀, .ok) ∧
      g'.groups .nodeLeader = g₀.groups .nodeLeader := by
  obtain ⟨info, hinfo⟩ : ∃ info, info = eightRanks fun q => q / 2 % 2 := ⟨_, rfl⟩
  have hfiller : filler info info.ucxGroup
      [LeaderPlan.naRolling.prepare, LeaderPlan.naRabenseifner.prepare] =
        some LeaderPlan.naRolling.prepare := by rw [hinfo]; rfl
  obtain ⟨g, hg⟩ : ∃ g, prepares info info.ucxGroup [LeaderPlan.naRolling.prepare] = .ok g ∧
      ∃ g', prepare info g LeaderPlan.naRabenseifner.prepare = .ok (g', .ok) := by
    rw [hinfo]
    exact ⟨_, rfl, _, rfl⟩
  obtain ⟨hg, g', hg'⟩ := hg
  obtain ⟨g₀, hg₀⟩ : ∃ g₀, prepare info info.ucxGroup LeaderPlan.naRabenseifner.prepare =
      .ok (g₀, .ok) := by
    rw [hinfo]
    exact ⟨_, rfl⟩
  rw [← hinfo]
  refine ⟨g, g', g₀, hg, hg', hg₀, leaderSlot_kept info (hinfo ▸ by decide) _ _ _ g g' g₀ hg hg'
    hg₀ fun q hq => ?_⟩
  rw [List.cons_append, List.nil_append, hfiller, Option.mem_some] at hq
  subst hq
  exact ⟨rfl, Or.inr ⟨4, 2, hinfo ▸ sameOrder_eight⟩⟩

/-- The second node deals its ranks to the sockets in turn: rank 1 finds rank 5 on it where it would
    have found rank 6. -/
theorem leaderSlot_not : ∃ g g' g₀,
    let info := eightRanks fun q => if q < 4 then q / 2 else q % 2
    prepares info info.ucxGroup [LeaderPlan.naRolling.prepare] = .ok g ∧
      prepare info g LeaderPlan.naRabenseifner.prepare = .ok (g', .ok) ∧
      prepare info info.ucxGroup LeaderPlan.naRabenseifner.prepare = .ok (g₀, .ok) ∧
      (g'.groups .nodeLeader).rankMap = rankMapInitByArray [1, 5] ∧
      (g₀.groups .nodeLeader).rankMap = rankMapInitByArray [1, 6] ∧
      g'.groups .nodeLeader ≠ g₀.groups .nodeLeader :=
  ⟨_, _, _, rfl, rfl, rfl, by decide⟩

end Kucg.Ucx
