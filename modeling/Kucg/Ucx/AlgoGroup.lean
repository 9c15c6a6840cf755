import Kucg.Core.TopoDetail

/-! The groups of leaders that `planc_ucx_group.c` makes for the node-aware and the socket-aware
    algorithms: for a rank, the ranks with its place on every node, or in every socket of its node.

    A group is made when a plan first asks for it and is kept in a slot. Two constructors fill the
    slot of the node leaders: one numbers the ranks of a node socket by socket, the other as they
    come. Accesses to the arrays are checked, so that a constructor that leaves one has no
    result. -/

namespace Kucg.Ucx

open Kucg.Core Kucg.Lib

/-- `ucg_planc_ucx_algo_group_type_t`. -/
inductive AlgoGroupType where
  | nodeLeader | socketLeader
  deriving DecidableEq, Repr

/-- `ucg_planc_ucx_algo_group_state_t`. -/
inductive AlgoGroupState where
  | notInit | error | enable | disable
  deriving DecidableEq, Repr

/-- `ucg_planc_ucx_algo_group_t`, with the fields of its `ucg_vgroup_t`; `UCG_INVALID_RANK` is
    `none`. -/
structure AlgoGroup where
  myrank : Option ℕ
  size : ℕ
  rankMap : RankMap
  state : AlgoGroupState
  deriving DecidableEq, Repr

/-- A group as `ucg_planc_ucx_group_create` leaves it. -/
def AlgoGroup.new : AlgoGroup := ⟨none, 0, RankMap.zero, .notInit⟩

/-- `ucg_planc_ucx_group_t`, with the topology of its group. -/
structure UcxGroup where
  topo : Topo
  groups : AlgoGroupType → AlgoGroup

/-- Replace a group. -/
def UcxGroup.setGroup (ucxGroup : UcxGroup) (type : AlgoGroupType) (group : AlgoGroup) : UcxGroup :=
  { ucxGroup with groups := Function.update ucxGroup.groups type group }

/-- What a constructor gets: the topology groups, the locations, and whether each of its allocations
    succeeds. -/
structure LeaderEnv where
  socket : GetEnv
  node : GetEnv
  location : ℕ → Status
  ranks : Bool
  offsets : Bool
  globalRanks : Bool
  rankMap : Bool

/-- The arrays of a constructor of node leaders are allocated. -/
def LeaderEnv.mem (env : LeaderEnv) : Bool := env.ranks && env.offsets && env.globalRanks

/-- Nothing fails. -/
structure LeaderEnv.Perfect (env : LeaderEnv) : Prop where
  socket : env.socket.node.Perfect ∧ env.socket.own.Perfect
  node : env.node.node.Perfect ∧ env.node.own.Perfect
  location : ∀ i, env.location i = .ok
  ranks : env.ranks = true
  offsets : env.offsets = true
  globalRanks : env.globalRanks = true
  rankMap : env.rankMap = true

/-- `ucg_rank_map_init_by_array` that copies the array unless it can do without. Where there is no
    memory for the copy, the array of the map is a null pointer. -/
def rankMapInitByCopy (mem : Bool) (ranks : List ℕ) : RankMap × Status :=
  let map := rankMapInitByArray ranks
  match map.type with
  | .array _ => if mem then (map, .ok) else (⟨.array [], ranks.length⟩, .errNoMemory)
  | _ => (map, .ok)

/-- The end of a constructor, once the members and the own rank are known. -/
def AlgoGroup.fill (group : AlgoGroup) (vrank : ℕ) (ranks : List ℕ) (map : RankMap × Status) :
    AlgoGroup × Status :=
  if ranks.length ≤ 1 then
    ({ group with myrank := some vrank, size := ranks.length, state := .disable }, .ok)
  else (⟨some vrank, ranks.length, map.1, .enable⟩, map.2)

/-- The loop that looks for the own rank among the members. -/
def searchRank (ranks : List ℕ) (myrank vrank : ℕ) : List ℕ → Except (Halt Status) ℕ
  | [] => .ok vrank
  | i :: is => do
    let rank ← load ranks i
    if rank = myrank then .ok i else searchRank ranks myrank vrank is

/-! ### Leaders of nodes -/

section NodeLeader

variable (detail : TopoDetail) (size myrank ppn : ℕ)

/-- The first loop of `ucg_planc_ucx_create_node_leader_algo_group`: the arrays `offsets` and
    `global_ranks` after rank `i`. -/
def fillRank (pps : ℕ) (s : List ℕ × List ℕ) (i : ℕ) : Except (Halt Status) (List ℕ × List ℕ) := do
  let nodeId ← topoGetNodeId detail i
  let socketId ← topoGetSocketId detail i
  if nodeId < 0 ∨ socketId < 0 then .error (.returns .errUnsupported)
  else
    let innerOffset ← load s.1 (nodeId * ppn + socketId)
    let offsets ← store s.1 (nodeId * ppn + socketId) (innerOffset + 1)
    let globalRanks ← store s.2 (nodeId * ppn + socketId * pps + innerOffset) i
    return (offsets, globalRanks)

/-- The first loop of `ucg_planc_ucx_create_only_node_leader_algo_group`, which also finds the own
    offset. -/
def fillRankByNode (s : ℤ × List ℕ × List ℕ) (i : ℕ) :
    Except (Halt Status) (ℤ × List ℕ × List ℕ) := do
  let nodeId ← topoGetNodeId detail i
  if nodeId < 0 then .error (.returns .errUnsupported)
  else
    let offset ← load s.2.1 nodeId
    let globalRanks ← store s.2.2 (nodeId * ppn + offset) i
    let offsets ← store s.2.1 nodeId (offset + 1)
    return (if i = myrank then (offset : ℤ) else s.1, offsets, globalRanks)

/-- The second loop of either constructor: the arrays `offsets` and `ranks` after index `j` of
    `global_ranks`. -/
def collectRank (globalRanks : List ℕ) (myoffset : ℤ) (s : List ℕ × List ℕ) (j : ℕ) :
    Except (Halt Status) (List ℕ × List ℕ) := do
  let i ← load globalRanks j
  let nodeId ← topoGetNodeId detail i
  if nodeId < 0 then .error (.returns .errUnsupported)
  else
    let offset ← load s.1 nodeId
    let ranks ← (if (offset : ℤ) = myoffset then push (size / ppn) s.2 i else .ok s.2)
    let offsets ← store s.1 nodeId (offset + 1)
    return (offsets, ranks)

/-- What either constructor does with `global_ranks`: the own rank and the members. -/
def collectRanks (globalRanks : List ℕ) (myoffset : ℤ) : Except (Halt Status) (ℕ × List ℕ) := do
  let s ← (List.range size).foldlM (collectRank detail size ppn globalRanks myoffset)
    (List.replicate size 0, [])
  let vrank ← searchRank s.2 myrank 0 (List.range (size / ppn))
  return (vrank, s.2)

/-- `global_ranks` of `ucg_planc_ucx_create_node_leader_algo_group`. -/
def socketOrder (pps : ℕ) : Except (Halt Status) (List ℕ) := do
  let s ← (List.range size).foldlM (fillRank detail ppn pps)
    (List.replicate size 0, List.replicate size 0)
  return s.2

/-- The members that `ucg_planc_ucx_create_node_leader_algo_group` finds, `socketRank` being the
    rank in the socket group. Without memory it returns the status that it started with. -/
def nodeLeaders (pps : ℕ) (socketRank : ℤ) (mem : Bool) : Except (Halt Status) (ℕ × List ℕ) := do
  let socketId ← topoGetSocketId detail myrank
  if socketId < 0 then .error (.returns .errUnsupported)
  else if ¬mem then .error (.returns .ok)
  else
    let globalRanks ← socketOrder detail size ppn pps
    collectRanks detail size myrank ppn globalRanks (socketRank + socketId * pps)

/-- The members that `ucg_planc_ucx_create_only_node_leader_algo_group` finds. -/
def onlyNodeLeaders (mem : Bool) : Except (Halt Status) (ℕ × List ℕ) :=
  if ¬mem then .error (.returns .ok)
  else do
    let s ← (List.range size).foldlM (fillRankByNode detail myrank ppn)
      (-1, List.replicate size 0, List.replicate size 0)
    collectRanks detail size myrank ppn s.2.2 s.1

end NodeLeader

section Create

variable (detail : TopoDetail) (size myrank : ℕ) (env : LeaderEnv)

/-- Fill the slot of a type with the members found, unless the code has left an array or
returned. -/
def UcxGroup.fill (ucxGroup : UcxGroup) (type : AlgoGroupType)
    (members : Except (Halt Status) (ℕ × List ℕ)) (map : List ℕ → RankMap × Status) :
    Except (Halt Status) (UcxGroup × Status) :=
  match members with
  | .error .outside => .error .outside
  | .error (.returns status) => .ok (ucxGroup, status)
  | .ok (vrank, ranks) =>
    let filled := (ucxGroup.groups type).fill vrank ranks (map ranks)
    .ok (ucxGroup.setGroup type filled.1, filled.2)

/-- The status of a slot that is not empty. -/
def AlgoGroup.status (group : AlgoGroup) : Status :=
  if group.state = .error then .errNoMemory else .ok

/-- A rank as a signed number. -/
def signedRank (rank : Option ℕ) : ℤ := rank.elim (-1) fun r => r

/-- `ucg_planc_ucx_create_node_leader_algo_group`. -/
def createNodeLeaderAlgoGroup (ucxGroup : UcxGroup) : Except (Halt Status) (UcxGroup × Status) :=
  let algoGroup := ucxGroup.groups .nodeLeader
  if algoGroup.state ≠ .notInit then .ok (ucxGroup, algoGroup.status)
  else
    let socket := topoGetGroup ucxGroup.topo env.socket .socket
    let node := topoGetGroup socket.1 env.node .node
    let ucxGroup := { ucxGroup with topo := node.1 }
    match node.2, socket.2 with
    | some nodeGroup, some socketGroup =>
      if nodeGroup.state = .error ∨ socketGroup.state = .error ∨ nodeGroup.state = .disable then
        .ok (ucxGroup, .errUnsupported)
      else ucxGroup.fill .nodeLeader (nodeLeaders detail size myrank nodeGroup.size
        socketGroup.size (signedRank socketGroup.myrank) env.mem) (rankMapInitByCopy env.rankMap)
    | _, _ => .ok (ucxGroup, .errUnsupported)

/-- `ucg_planc_ucx_create_only_node_leader_algo_group`. -/
def createOnlyNodeLeaderAlgoGroup (ucxGroup : UcxGroup) :
    Except (Halt Status) (UcxGroup × Status) :=
  let algoGroup := ucxGroup.groups .nodeLeader
  if algoGroup.state ≠ .notInit then .ok (ucxGroup, algoGroup.status)
  else
    let node := topoGetGroup ucxGroup.topo env.node .node
    let ucxGroup := { ucxGroup with topo := node.1 }
    match node.2 with
    | some nodeGroup =>
      if nodeGroup.state = .error ∨ nodeGroup.state = .disable then .ok (ucxGroup, .errUnsupported)
      else ucxGroup.fill .nodeLeader (onlyNodeLeaders detail size myrank nodeGroup.size env.mem)
        (rankMapInitByCopy env.rankMap)
    | none => .ok (ucxGroup, .errUnsupported)

end Create

/-! ### Leaders of the sockets of a node -/

section SocketLeader

variable (place : ℕ → Location) (location : ℕ → Status) (size myrank ppn pps : ℕ)

/-- The loop of `ucg_planc_ucx_create_socket_leader_algo_group`: the arrays `offsets` and `ranks`
    after rank `i`. The locations are the ids as they are reported. -/
def collectSocketRank (myoffset : ℤ) (s : List ℕ × List ℕ) (i : ℕ) :
    Except (Halt Status) (List ℕ × List ℕ) :=
  if location i ≠ .ok then .error (.returns (location i))
  else if (place i).nodeId ≠ (place myrank).nodeId then .ok s
  else do
    let offset ← load s.1 (place i).socketId
    let ranks ← (if (offset : ℤ) = myoffset then push (ppn / pps) s.2 i else .ok s.2)
    let offsets ← store s.1 (place i).socketId (offset + 1)
    return (offsets, ranks)

/-- The own rank among the members: the own socket id if the member there is the own rank. -/
def socketVrank (ranks : List ℕ) : Except (Halt Status) ℕ := do
  let rank ← load ranks (place myrank).socketId
  if rank ≠ myrank then
    searchRank ranks myrank (place myrank).socketId.toNat (List.range ranks.length)
  else .ok (place myrank).socketId.toNat

/-- The members that `ucg_planc_ucx_create_socket_leader_algo_group` finds, and the own rank among
    them. -/
def socketLeaders (myoffset : ℤ) : Except (Halt Status) (ℕ × List ℕ) :=
  if location myrank ≠ .ok then .error (.returns (location myrank))
  else do
    let s ← (List.range size).foldlM (collectSocketRank place location myrank ppn pps myoffset)
      (List.replicate (ppn / pps + 1) 0, [])
    let vrank ← socketVrank place myrank s.2
    return (vrank, s.2)

/-- `ucg_planc_ucx_create_socket_leader_algo_group`. Its rank map takes the array over. -/
def createSocketLeaderAlgoGroup (env : LeaderEnv) (ucxGroup : UcxGroup) :
    Except (Halt Status) (UcxGroup × Status) :=
  let algoGroup := ucxGroup.groups .socketLeader
  if algoGroup.state ≠ .notInit then .ok (ucxGroup, algoGroup.status)
  else
    let socket := topoGetGroup ucxGroup.topo env.socket .socket
    let node := topoGetGroup socket.1 env.node .node
    let ucxGroup := { ucxGroup with topo := node.1 }
    match node.2, socket.2 with
    | some nodeGroup, some socketGroup =>
      if nodeGroup.state = .error ∨ socketGroup.state = .error ∨ socketGroup.state = .disable then
        .ok (ucxGroup, .errUnsupported)
      else if ¬env.ranks ∨ ¬env.offsets then .ok (ucxGroup, .ok)
      else ucxGroup.fill .socketLeader (socketLeaders place env.location size myrank
        nodeGroup.size socketGroup.size (signedRank socketGroup.myrank))
        fun ranks => (rankMapInitByArray ranks, .ok)
    | _, _ => .ok (ucxGroup, .errUnsupported)

end SocketLeader

end Kucg.Ucx
