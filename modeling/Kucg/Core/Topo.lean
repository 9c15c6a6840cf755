import Kucg.Core.RankMap
import Kucg.Core.Status

/-! The topology groups of `ucg_topo.c`: the ranks of a node, of a socket or of a subnet, and the
    leaders of each, that a rank collects from the locations of all ranks.

    Groups are created when they are first asked for and are kept in the topology. A creation can
    fail, because memory runs out or because a location cannot be had; which of its attempts do is
    given by an environment. -/

namespace Kucg.Core

/-- `ucg_location_t`, its field mask a flag for each field. -/
structure Location where
  hasSubnetId : Bool
  hasNodeId : Bool
  hasSocketId : Bool
  subnetId : ℤ
  nodeId : ℤ
  socketId : ℤ
  deriving DecidableEq, Repr

/-- `ucg_topo_group_type_t`. -/
inductive TopoGroupType where
  | net | subnet | subnetLeader | node | nodeLeader | socket | socketLeader
  deriving DecidableEq, Repr

/-- `ucg_topo_group_state_t`. -/
inductive TopoGroupState where
  | notInit | error | enable | disable
  deriving DecidableEq, Repr

/-- `ucg_topo_group_t`, with the fields of its `ucg_vgroup_t`; `UCG_INVALID_RANK` is `none`. -/
structure TopoGroup where
  myrank : Option ℕ
  size : ℕ
  rankMap : RankMap
  state : TopoGroupState
  deriving DecidableEq, Repr

/-- `ucg_topo_t`; `size` is the size of its rank map. The callback gives the location of a rank
    unless it fails. -/
structure Topo where
  groups : TopoGroupType → TopoGroup
  myrank : ℕ
  size : ℕ
  getLocation : ℕ → Location
  myloc : Location

/-- Which attempts of a creation succeed: the allocations of the array of ranks and of the leader
    filter, and for the `i`-th rank that is looked at, its location and the extensions of either
    array. -/
structure CreateEnv where
  ranks : Bool
  filter : Bool
  location : ℕ → Bool
  extendFilter : ℕ → Bool
  extendRanks : ℕ → Bool

/-- No location is refused. -/
def CreateEnv.Located (env : CreateEnv) : Prop := ∀ i, env.location i = true

/-- Nothing fails. -/
structure CreateEnv.Perfect (env : CreateEnv) : Prop where
  ranks : env.ranks = true
  filter : env.filter = true
  located : env.Located
  extendFilter : ∀ i, env.extendFilter i = true
  extendRanks : ∀ i, env.extendRanks i = true

/-! ### Auxiliaries -/

/-- `ucg_array_int32_t_t`, the leader filter. -/
structure Filter where
  buffer : List ℤ
  capacity : ℕ

/-- `ucg_topo_group_aux_t`, without `cleanup`. An allocation is told whether it succeeds. -/
structure TopoGroupAux where
  init : Bool → Option Filter
  check : Location → Status
  isMember : Filter → Location → Location → Bool
  addMember : Bool → Filter → Location → Option Filter

/-- `ucg_topo_group_aux_init_leader_filter`. -/
def auxInitLeaderFilter (mem : Bool) : Option Filter := if mem then some ⟨[], 1022⟩ else none

/-- `ucg_topo_group_aux_is_leader`: no member so far has the id. -/
def auxIsLeader (aux : Filter) (id : ℤ) : Bool := !aux.buffer.contains id

/-- `ucg_topo_group_aux_add_leader`. -/
def auxAddLeader (mem : Bool) (aux : Filter) (id : ℤ) : Option Filter :=
  if aux.buffer.length = aux.capacity then
    if mem then some ⟨aux.buffer ++ [id], aux.capacity + 1024⟩ else none
  else some ⟨aux.buffer ++ [id], aux.capacity⟩

/-- The auxiliary of a group that keeps no filter; `aux` is a null pointer. -/
def auxPlain (check : Location → Status) (isMember : Location → Location → Bool) :
    TopoGroupAux where
  init _ := some ⟨[], 0⟩
  check := check
  isMember _ := isMember
  addMember _ aux _ := some aux

/-- The auxiliary of a group of leaders, by the id that they lead. -/
def auxLeader (check : Location → Status) (id : Location → ℤ) : TopoGroupAux where
  init := auxInitLeaderFilter
  check := check
  isMember aux _ location := auxIsLeader aux (id location)
  addMember mem aux location := auxAddLeader mem aux (id location)

/-- `ucg_topo_group_aux_check_empty`. -/
def auxCheckEmpty (_ : Location) : Status := .ok

/-- `ucg_topo_group_aux_check_subnet_id`. -/
def auxCheckSubnetId (location : Location) : Status :=
  if location.hasSubnetId then .ok else .errNotFound

/-- `ucg_topo_group_aux_check_node_id`. -/
def auxCheckNodeId (location : Location) : Status :=
  if location.hasNodeId then .ok else .errNotFound

/-- `ucg_topo_group_aux_check_socket_id`. -/
def auxCheckSocketId (location : Location) : Status :=
  if ¬location.hasNodeId ∨ ¬location.hasSocketId then .errNotFound else .ok

/-- `ucg_topo_group_aux_is_subnet_member`. -/
def auxIsSubnetMember (myloc location : Location) : Bool := location.subnetId == myloc.subnetId

/-- `ucg_topo_group_aux_is_node_member`. -/
def auxIsNodeMember (myloc location : Location) : Bool := location.nodeId == myloc.nodeId

/-- `ucg_topo_group_aux_is_socket_member`. -/
def auxIsSocketMember (myloc location : Location) : Bool :=
  location.nodeId == myloc.nodeId && location.socketId == myloc.socketId

/-- `ucg_topo_group_aid`. -/
def topoGroupAid : TopoGroupType → TopoGroupAux
  | .net => auxPlain auxCheckEmpty fun _ _ => true
  | .subnet => auxPlain auxCheckSubnetId auxIsSubnetMember
  | .subnetLeader => auxLeader auxCheckSubnetId Location.subnetId
  | .node => auxPlain auxCheckNodeId auxIsNodeMember
  | .nodeLeader => auxLeader auxCheckNodeId Location.nodeId
  | .socket => auxPlain auxCheckSocketId auxIsSocketMember
  | .socketLeader => auxLeader auxCheckSocketId Location.socketId

/-! ### Creating a group -/

/-- The label that a creation jumps to on an error. -/
inductive ScanErr where
  | errGroup | errCleanupAux
  deriving DecidableEq

/-- The variables of the loop of `ucg_topo_create_group`; `vrank` is the length of `ranks`, and
    `myrank` is a field of the group. -/
structure Scan where
  aux : Filter
  ranks : List ℕ
  sizeRanks : ℕ
  myrank : Option ℕ

section Create

variable (topo : Topo) (env : CreateEnv) (rankMap : RankMap) (aid : TopoGroupAux)

/-- The body of the loop. -/
def topoScanRank (s : Scan) (i : ℕ) : Except ScanErr Scan :=
  match rankMap.eval i with
  | none => .error .errGroup -- the rank is one of the map
  | some groupRank =>
    if ¬env.location i then .error .errGroup else
    let location := topo.getLocation groupRank
    if aid.check location ≠ .ok then .error .errGroup
    else if ¬aid.isMember s.aux topo.myloc location then .ok s
    else match aid.addMember (env.extendFilter i) s.aux location with
      | none => .error .errCleanupAux
      | some aux =>
        if s.ranks.length = s.sizeRanks ∧ ¬env.extendRanks i then .error .errCleanupAux
        else .ok {
          aux := aux
          ranks := s.ranks ++ [groupRank]
          sizeRanks := if s.ranks.length = s.sizeRanks then s.sizeRanks + 128 else s.sizeRanks
          myrank := if groupRank = topo.myrank then some s.ranks.length else s.myrank }

/-- The loop, on the ranks that remain. -/
def topoScan : List ℕ → Scan → Scan × Option ScanErr
  | [], s => (s, none)
  | i :: is, s => match topoScanRank topo env rankMap aid s i with
    | .ok s => topoScan is s
    | .error e => (s, some e)

end Create

/-- Replace a group. -/
def Topo.setGroup (topo : Topo) (type : TopoGroupType) (group : TopoGroup) : Topo :=
  { topo with groups := Function.update topo.groups type group }

/-- `ucg_topo_create_group`, and whether it returns `UCG_OK`. -/
def topoCreateGroup (topo : Topo) (env : CreateEnv) (rankMap : RankMap) (type : TopoGroupType) :
    Topo × Bool :=
  let aid := topoGroupAid type
  let group := topo.groups type
  if ¬env.ranks then (topo, false)
  else match aid.init env.filter with
    | none => (topo, false)
    | some aux =>
      match topoScan topo env rankMap aid (List.range rankMap.size)
        ⟨aux, [], 256, group.myrank⟩ with
      | (s, some .errGroup) =>
        (topo.setGroup type { group with myrank := s.myrank, state := .error }, false)
      | (s, some .errCleanupAux) => (topo.setGroup type { group with myrank := s.myrank }, false)
      | (s, none) =>
        let group := { group with myrank := s.myrank, size := s.ranks.length }
        if group.myrank = none ∨ s.ranks.length ≤ 1 then
          (topo.setGroup type { group with state := .disable }, true)
        else
          (topo.setGroup type
            { group with state := .enable, rankMap := rankMapInitByArray s.ranks }, true)

/-- `ucg_topo_create_net_group` and the four creators like it, which look at all ranks. -/
def topoCreateFullGroup (topo : Topo) (env : CreateEnv) (type : TopoGroupType) : Topo × Bool :=
  topoCreateGroup topo env ⟨.full, topo.size⟩ type

/-- `ucg_topo_create_socket_group` and `ucg_topo_create_socket_leader_group`, which look at the
    ranks of the node group. -/
def topoCreateSocketGroup (topo : Topo) (env : CreateEnv) (type : TopoGroupType) : Topo × Bool :=
  topoCreateGroup topo env (topo.groups .node).rankMap type

/-- The group, if its creation returned `UCG_OK`. -/
def topoCreated (type : TopoGroupType) (res : Topo × Bool) : Topo × Option TopoGroup :=
  (res.1, if res.2 then some (res.1.groups type) else none)

/-- The environments of a call: of the creation of the node group that a socket group needs, and of
    the creation of the group itself. -/
structure GetEnv where
  node : CreateEnv
  own : CreateEnv

/-- The cases of `UCG_TOPO_GROUP_TYPE_SOCKET` and `UCG_TOPO_GROUP_TYPE_SOCKET_LEADER`. -/
def topoGetSocketGroup (topo : Topo) (env : GetEnv) (type : TopoGroupType) :
    Topo × Option TopoGroup :=
  let (topo, ok) := if (topo.groups .node).state = .notInit
    then topoCreateFullGroup topo env.node .node else (topo, true)
  if ¬ok then (topo, none)
  else if (topo.groups .node).state = .disable then
    let group := { topo.groups type with state := .disable }
    (topo.setGroup type group, some group)
  else topoCreated type (topoCreateSocketGroup topo env.own type)

/-- `ucg_topo_get_group`. -/
def topoGetGroup (topo : Topo) (env : GetEnv) (type : TopoGroupType) : Topo × Option TopoGroup :=
  let group := topo.groups type
  if group.state ≠ .notInit then (topo, if group.state = .error then none else some group)
  else match type with
    | .net | .subnet | .subnetLeader | .node | .nodeLeader =>
      topoCreated type (topoCreateFullGroup topo env.own type)
    | .socket | .socketLeader => topoGetSocketGroup topo env type

/-- A group of a topology that has just been allocated. -/
def TopoGroup.new : TopoGroup := ⟨none, 0, RankMap.zero, .notInit⟩

/-- `ucg_topo_init`, when it returns `UCG_OK`. -/
def topoInit (size myrank : ℕ) (getLocation : ℕ → Location) : Topo where
  groups _ := TopoGroup.new
  myrank := myrank
  size := size
  getLocation := getLocation
  myloc := getLocation myrank

end Kucg.Core
