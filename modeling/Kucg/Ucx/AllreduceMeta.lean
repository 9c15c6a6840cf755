import Kucg.Core.TopoDetail
import Kucg.Lib.Arrays
import Kucg.Ucx.AllreduceRd
import Kucg.Ucx.BcastKntree
import Kucg.Ucx.BarrierMeta
import Kucg.Ucx.ReduceKntree
import Kucg.Ucx.TopoGroupOp

/-! The hierarchical allreduces: reduces, recursive doublings and broadcasts in the groups of the
    nodes and sockets and of their leaders, one after another (`allreduce_meta.c` and the six files
    of the algorithms).

    The input of a rank is in its send buffer until the first of these operations that it takes part
    in, and then in its receive buffer. Whether it has been moved is told by a flag that is set
    behind every reduce whose group the rank is in; the later operations then are in place. -/

namespace Kucg.Ucx

open Kucg.Core Kucg.Lib Kucg.Algo

variable {B β : Type}

/-! ### The sub-operations -/

/-- An operation of a hierarchical allreduce. -/
inductive AllreduceSubOp (B : Type) where
  | empty (op : EmptyOp)
  | reduce (op : ReduceKntreeOp B)
  | rd (op : AllreduceRdOp B)
  | bcast (op : BcastKntreeOp B)

/-- `super.super.status` of the operation. -/
def AllreduceSubOp.status : AllreduceSubOp B → Status
  | .empty op => op.status
  | .reduce op => op.status
  | .rd op => op.status
  | .bcast op => op.status

/-- The staging area that the operation has allocated does not overlap its receive buffer. -/
def AllreduceSubOp.StagedApart : AllreduceSubOp B → Prop
  | .empty _ | .bcast _ => True
  | .reduce op => Apart op.args.recvbuf op.args.count op.stagingArea
      (op.requestsCount * op.args.count)
  | .rd op => Apart op.args.recvbuf op.args.count op.stagingArea op.args.count

section Functions

variable [DecidableEq B] (reduce : β → β → β)

instance (p : Cell B) (c : ℕ) (q : Cell B) (d : ℕ) : Decidable (Apart p c q d) :=
  inferInstanceAs (Decidable (p.1 ≠ q.1 ∨ p.2 + c ≤ q.2 ∨ q.2 + d ≤ p.2))

instance : DecidablePred (AllreduceSubOp.StagedApart : AllreduceSubOp B → Prop)
  | .empty _ | .bcast _ => .isTrue trivial
  | .reduce op => inferInstanceAs (Decidable (Apart op.args.recvbuf op.args.count op.stagingArea
      (op.requestsCount * op.args.count)))
  | .rd op => inferInstanceAs (Decidable (Apart op.args.recvbuf op.args.count op.stagingArea
      op.args.count))

/-- The trigger and progress functions of the operations. -/
def allreduceSubFuncs : OpFuncs (Prog (Cell B) β) (AllreduceSubOp B) where
  trigger op id := match op with
    | .empty op => do
      let res ← emptyFuncs.trigger op id
      pure (.empty res.1, res.2)
    | .reduce op => do
      let res ← (reduceKntreeFuncs reduce).trigger op id
      pure (.reduce res.1, res.2)
    | .rd op => do
      let res ← (allreduceRdFuncs reduce).trigger op id
      pure (.rd res.1, res.2)
    | .bcast op => do
      let res ← bcastKntreeFuncs.trigger op id
      pure (.bcast res.1, res.2)
  progress op := match op with
    | .empty op => do
      let res ← emptyFuncs.progress op
      pure (.empty res.1, res.2)
    | .reduce op => do
      let res ← (reduceKntreeFuncs reduce).progress op
      pure (.reduce res.1, res.2)
    | .rd op => do
      let res ← (allreduceRdFuncs reduce).progress op
      pure (.rd res.1, res.2)
    | .bcast op => do
      let res ← bcastKntreeFuncs.progress op
      pure (.bcast res.1, res.2)

variable {reduce}

theorem embeds_sub_empty : Embeds (emptyFuncs : OpFuncs (Prog (Cell B) β) EmptyOp) EmptyOp.status
    (allreduceSubFuncs reduce) AllreduceSubOp.status .empty :=
  ⟨fun _ _ => rfl, fun _ => rfl, fun _ => rfl⟩

theorem embeds_sub_reduce : Embeds (reduceKntreeFuncs reduce) ReduceKntreeOp.status
    (allreduceSubFuncs reduce) (AllreduceSubOp.status (B := B)) .reduce :=
  ⟨fun _ _ => rfl, fun _ => rfl, fun _ => rfl⟩

theorem embeds_sub_rd : Embeds (allreduceRdFuncs reduce) AllreduceRdOp.status
    (allreduceSubFuncs reduce) (AllreduceSubOp.status (B := B)) .rd :=
  ⟨fun _ _ => rfl, fun _ => rfl, fun _ => rfl⟩

theorem embeds_sub_bcast : Embeds (bcastKntreeFuncs : OpFuncs (Prog (Cell B) β) (BcastKntreeOp B))
    BcastKntreeOp.status (allreduceSubFuncs reduce) AllreduceSubOp.status .bcast :=
  ⟨fun _ _ => rfl, fun _ => rfl, fun _ => rfl⟩

end Functions

/-! ### Adding the sub-operations -/

/-- The degrees of `ucg_planc_ucx_allreduce_config_t` that these algorithms look at. -/
structure AllreduceConfig where
  faninInterDegree : ℕ
  fanoutInterDegree : ℕ
  faninIntraDegree : ℕ
  fanoutIntraDegree : ℕ

/-- The degree of a reduce. -/
def AllreduceConfig.faninDegree (config : AllreduceConfig) (type : TopoGroupType) : ℕ :=
  if TopoGroupType.Intra type then config.faninIntraDegree else config.faninInterDegree

/-- The degree of a broadcast. -/
def AllreduceConfig.fanoutDegree (config : AllreduceConfig) (type : TopoGroupType) : ℕ :=
  if TopoGroupType.Intra type then config.fanoutIntraDegree else config.fanoutInterDegree

/-- What a rank finds when it makes an allreduce: how each addition goes and the staging area it
    gets, whether there is memory for the meta-operation, and what the configurations on the stack
    hold before they are filled in. -/
structure AllreduceEnv (B : Type) where
  add : ℕ → AddEnv
  stagingArea : ℕ → Cell B
  mem : Bool
  bcastStack : BcastKntreeConfig
  configStack : AllreduceConfig

/-- The meta-operation while its operations are added, and `send_in_place`. -/
structure AllreduceMaking (B : Type) extends MetaMaking (AllreduceSubOp B) where
  sendInPlace : Bool

section Add

variable (env : AllreduceEnv B) (args : AllreduceArgs B) (config : AllreduceConfig)
  (type : TopoGroupType) (s : AllreduceMaking B)

/-- The operation of a topology group is added. -/
def AllreduceMaking.addOp (opNew : VGroup → AllreduceSubOp B) : AllreduceMaking B × Status :=
  let (making, status) := metaAddTopoGroupOp (.empty emptyOpNew) opNew (env.add s.ops.length) type
    s.toMetaMaking
  ({ s with toMetaMaking := making }, status)

/-- The send buffer of the reduces and recursive doublings. -/
def AllreduceArgs.sendFrom (args : AllreduceArgs B) (inPlace : Bool) : Option (Cell B) :=
  if inPlace then none else args.sendbuf

/-- `ucg_planc_ucx_allreduce_add_reduce_kntree_op`; `UCG_TOPO_GROUP_LEADER` is 0. -/
def allreduceAddReduceKntreeOp : AllreduceMaking B × Status :=
  s.addOp env type fun vgroup => .reduce (reduceKntreeOpNew vgroup
    ⟨args.sendFrom s.sendInPlace, args.recvbuf, args.count, 0⟩ (config.faninDegree type)
    (env.stagingArea s.ops.length))

/-- `ucg_planc_ucx_allreduce_add_allreduce_rd_op`, which does not check that it has got a group. -/
def allreduceAddAllreduceRdOp : Except (Halt Status) (AllreduceMaking B × Status) :=
  if (topoGetGroup s.topo (env.add s.ops.length).group type).2 = none then .error .outside
  else .ok (s.addOp env type fun vgroup => .rd (allreduceRdOpNew vgroup
    { args with sendbuf := args.sendFrom s.sendInPlace } (env.stagingArea s.ops.length)))

/-- `ucg_planc_ucx_allreduce_add_bcast_kntree_op`. -/
def allreduceAddBcastKntreeOp : AllreduceMaking B × Status :=
  s.addOp env type fun vgroup => .bcast (bcastKntreeOpNew vgroup ⟨args.recvbuf, args.count, 0⟩
    { env.bcastStack with kntreeDegree := config.fanoutDegree type })

/-- `ucg_planc_ucx_allreduce_set_send_in_place_flag`. -/
def allreduceSetSendInPlaceFlag : AllreduceMaking B :=
  { s with sendInPlace := if (s.topo.groups type).state = .enable then true else s.sendInPlace }

end Add

/-- One of these calls, with the type of its group. A reduce may be followed by the setting of the
    flag. -/
inductive AllreduceStep where
  | reduce (type : TopoGroupType) (setFlag : Bool)
  | rd (type : TopoGroupType)
  | bcast (type : TopoGroupType)

section OpNew

variable (env : AllreduceEnv B) (args : AllreduceArgs B) (config : AllreduceConfig)

/-- The call. -/
def allreduceAdd :
    AllreduceStep → AllreduceMaking B → Except (Halt Status) (AllreduceMaking B × Status)
  | .reduce type setFlag, s =>
    let (s, status) := allreduceAddReduceKntreeOp env args config type s
    .ok (if status = .ok ∧ setFlag then allreduceSetSendInPlaceFlag type s else s, status)
  | .rd type, s => allreduceAddAllreduceRdOp env args type s
  | .bcast type, s => .ok (allreduceAddBcastKntreeOp env args config type s)

/-- The calls in turn, up to the first one that fails. -/
def allreduceAddAll :
    List AllreduceStep → AllreduceMaking B → Except (Halt Status) (AllreduceMaking B × Status)
  | [], s => .ok (s, .ok)
  | step :: steps, s => do
    let (s, status) ← allreduceAdd env args config step s
    if status ≠ .ok then return (s, status)
    allreduceAddAll steps s

/-- `ucg_planc_ucx_allreduce_na_kntree_op_new` and the functions like it, by the calls they make. -/
def allreduceOpNew (steps : List AllreduceStep) (topo : Topo) :
    Except (Halt Status) (Topo × Option (MetaOp (AllreduceSubOp B))) :=
  if ¬env.mem then .ok (topo, none)
  else do
    let (s, status) ← allreduceAddAll env args config steps ⟨⟨topo, []⟩, false⟩
    return (s.topo, if status ≠ .ok then none else some (metaOpNew s.ops 0))

/-! ### The six algorithms -/

/-- `ucg_planc_ucx_allreduce_na_kntree_op_new`. -/
def allreduceNaKntreeOpNew :
    Topo → Except (Halt Status) (Topo × Option (MetaOp (AllreduceSubOp B))) :=
  allreduceOpNew env args config [.reduce .node true, .reduce .nodeLeader false,
    .bcast .nodeLeader, .bcast .node]

/-- `ucg_planc_ucx_allreduce_sa_kntree_op_new`. -/
def allreduceSaKntreeOpNew :
    Topo → Except (Halt Status) (Topo × Option (MetaOp (AllreduceSubOp B))) :=
  allreduceOpNew env args config [.reduce .socket true, .reduce .socketLeader true,
    .reduce .nodeLeader false, .bcast .nodeLeader, .bcast .socketLeader, .bcast .socket]

/-- `ucg_planc_ucx_allreduce_na_rd_and_kntree_op_new`. -/
def allreduceNaRdAndKntreeOpNew :
    Topo → Except (Halt Status) (Topo × Option (MetaOp (AllreduceSubOp B))) :=
  allreduceOpNew env args config [.reduce .node true, .rd .nodeLeader, .bcast .node]

/-- `ucg_planc_ucx_allreduce_sa_rd_and_kntree_op_new`. -/
def allreduceSaRdAndKntreeOpNew :
    Topo → Except (Halt Status) (Topo × Option (MetaOp (AllreduceSubOp B))) :=
  allreduceOpNew env args config [.reduce .socket true, .reduce .socketLeader true,
    .rd .nodeLeader, .bcast .socketLeader, .bcast .socket]

/-- `ucg_planc_ucx_allreduce_na_rd_and_bntree_op_new`. -/
def allreduceNaRdAndBntreeOpNew :
    Topo → Except (Halt Status) (Topo × Option (MetaOp (AllreduceSubOp B))) :=
  allreduceOpNew env args config [.reduce .node true, .rd .nodeLeader, .bcast .node]

/-- `ucg_planc_ucx_allreduce_sa_rd_and_bntree_op_new`. -/
def allreduceSaRdAndBntreeOpNew :
    Topo → Except (Halt Status) (Topo × Option (MetaOp (AllreduceSubOp B))) :=
  allreduceOpNew env args config [.reduce .socket true, .reduce .socketLeader true,
    .rd .nodeLeader, .bcast .socketLeader, .bcast .socket]

end OpNew

/-- What the checks look at besides the topology: the flag of a commutative operator, and
    `reduce_consistency` of the configuration of the context. -/
structure AllreduceChecked where
  commutative : Bool
  reduceConsistency : ℤ

/-- The check of a node-aware allreduce, such as `ucg_planc_ucx_allreduce_na_kntree_check`. -/
def allreduceNaCheck (checked : AllreduceChecked) (topo : TopoPpx) : Status :=
  if ¬checked.commutative then .errUnsupported
  else if topo.ppn = ppxUnknown then .errUnsupported
  else if checked.reduceConsistency = 1 then .errUnsupported
  else .ok

/-- The check of a socket-aware allreduce, such as `ucg_planc_ucx_allreduce_sa_kntree_check`. -/
def allreduceSaCheck (checked : AllreduceChecked) (topo : TopoPpx) : Status :=
  if ¬checked.commutative then .errUnsupported
  else if topo.ppn = ppxUnknown then .errUnsupported
  else if topo.pps = ppxUnknown then .errUnsupported
  else if checked.reduceConsistency = 1 then .errUnsupported
  else .ok

/-- The end of the prepare functions, after the check: the `op_new` is called. -/
def allreducePrepare (check : Status)
    (opNew : Topo → Except (Halt Status) (Topo × Option (MetaOp (AllreduceSubOp B))))
    (topo : Topo) : Except (Halt Status) (Topo × Except Status (MetaOp (AllreduceSubOp B))) :=
  if check ≠ .ok then .ok (topo, .error .errUnsupported)
  else do
    let (topo, op) ← opNew topo
    return (topo, match op with
      | none => .error .errNoMemory
      | some metaOp => .ok metaOp)

section Prepare

variable (env : AllreduceEnv B) (args : AllreduceArgs B) (config : AllreduceConfig)
  (checked : AllreduceChecked) (topo : TopoPpx)

/-- `ucg_planc_ucx_allreduce_na_kntree_prepare`. -/
def allreduceNaKntreePrepare :
    Except (Halt Status) (Topo × Except Status (MetaOp (AllreduceSubOp B))) :=
  allreducePrepare (allreduceNaCheck checked topo) (allreduceNaKntreeOpNew env args config)
    topo.topo

/-- `ucg_planc_ucx_allreduce_sa_kntree_prepare`. -/
def allreduceSaKntreePrepare :
    Except (Halt Status) (Topo × Except Status (MetaOp (AllreduceSubOp B))) :=
  allreducePrepare (allreduceSaCheck checked topo) (allreduceSaKntreeOpNew env args config)
    topo.topo

/-- `ucg_planc_ucx_allreduce_na_rd_and_kntree_prepare`. -/
def allreduceNaRdAndKntreePrepare :
    Except (Halt Status) (Topo × Except Status (MetaOp (AllreduceSubOp B))) :=
  allreducePrepare (allreduceNaCheck checked topo) (allreduceNaRdAndKntreeOpNew env args config)
    topo.topo

/-- `ucg_planc_ucx_allreduce_sa_rd_and_kntree_prepare`. -/
def allreduceSaRdAndKntreePrepare :
    Except (Halt Status) (Topo × Except Status (MetaOp (AllreduceSubOp B))) :=
  allreducePrepare (allreduceSaCheck checked topo) (allreduceSaRdAndKntreeOpNew env args config)
    topo.topo

/-- What the prepare functions of the binary trees fill in of a configuration on the stack. -/
def AllreduceEnv.bntreeConfig : AllreduceConfig :=
  { env.configStack with faninIntraDegree := 2, fanoutIntraDegree := 2 }

/-- `ucg_planc_ucx_allreduce_na_rd_and_bntree_prepare`. -/
def allreduceNaRdAndBntreePrepare :
    Except (Halt Status) (Topo × Except Status (MetaOp (AllreduceSubOp B))) :=
  allreducePrepare (allreduceNaCheck checked topo)
    (allreduceNaRdAndBntreeOpNew env args env.bntreeConfig) topo.topo

/-- `ucg_planc_ucx_allreduce_sa_rd_and_bntree_prepare`. -/
def allreduceSaRdAndBntreePrepare :
    Except (Halt Status) (Topo × Except Status (MetaOp (AllreduceSubOp B))) :=
  allreducePrepare (allreduceSaCheck checked topo)
    (allreduceSaRdAndBntreeOpNew env args env.bntreeConfig) topo.topo

/-- The hierarchical algorithms of an allreduce. -/
inductive AllreduceAlgo where
  | naKntree | saKntree | naRdAndKntree | saRdAndKntree | naRdAndBntree | saRdAndBntree
  deriving DecidableEq

/-- The prepare function of an algorithm. -/
def AllreduceAlgo.prepare :
    AllreduceAlgo → Except (Halt Status) (Topo × Except Status (MetaOp (AllreduceSubOp B)))
  | .naKntree => allreduceNaKntreePrepare env args config checked topo
  | .saKntree => allreduceSaKntreePrepare env args config checked topo
  | .naRdAndKntree => allreduceNaRdAndKntreePrepare env args config checked topo
  | .saRdAndKntree => allreduceSaRdAndKntreePrepare env args config checked topo
  | .naRdAndBntree => allreduceNaRdAndBntreePrepare env args checked topo
  | .saRdAndBntree => allreduceSaRdAndBntreePrepare env args checked topo

end Prepare

end Kucg.Ucx
