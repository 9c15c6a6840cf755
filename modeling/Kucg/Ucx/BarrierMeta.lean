import Kucg.Core.TopoDetail
import Kucg.Ucx.BarrierRd
import Kucg.Ucx.FaninKntree
import Kucg.Ucx.FanoutKntree
import Kucg.Ucx.TopoGroupOp

/-! The hierarchical barriers: fan-ins, recursive doublings and fan-outs in the groups of the nodes
    and sockets and of their leaders, one after another (`barrier_meta.c` and the six files of the
    algorithms).

    A fan-in is a gathering of what the members of a group know, a fan-out a scattering and a
    recursive doubling an exchange. The groups are levels, so in the end every rank knows of all
    (`Levels.all`), and has not come there before all have started. -/

namespace Kucg.Ucx

open Kucg.Core Kucg.Lib Kucg.Algo

variable {B β : Type}

/-! ### The sub-operations -/

/-- An operation of a hierarchical barrier. -/
inductive BarrierSubOp (B : Type) where
  | empty (op : EmptyOp)
  | fanin (op : FaninKntreeOp)
  | rd (op : BarrierRdOp)
  | fanout (op : BcastKntreeOp B)

/-- `super.super.status` of the operation. -/
def BarrierSubOp.status : BarrierSubOp B → Status
  | .empty op => op.status
  | .fanin op => op.status
  | .rd op => op.status
  | .fanout op => op.status

/-- The trigger and progress functions of the operations. -/
def barrierSubFuncs : OpFuncs (Prog (Cell B) β) (BarrierSubOp B) where
  trigger op id := match op with
    | .empty op => do
      let res ← emptyFuncs.trigger op id
      pure (.empty res.1, res.2)
    | .fanin op => do
      let res ← faninKntreeFuncs.trigger op id
      pure (.fanin res.1, res.2)
    | .rd op => do
      let res ← barrierRdFuncs.trigger op id
      pure (.rd res.1, res.2)
    | .fanout op => do
      let res ← bcastKntreeFuncs.trigger op id
      pure (.fanout res.1, res.2)
  progress op := match op with
    | .empty op => do
      let res ← emptyFuncs.progress op
      pure (.empty res.1, res.2)
    | .fanin op => do
      let res ← faninKntreeFuncs.progress op
      pure (.fanin res.1, res.2)
    | .rd op => do
      let res ← barrierRdFuncs.progress op
      pure (.rd res.1, res.2)
    | .fanout op => do
      let res ← bcastKntreeFuncs.progress op
      pure (.fanout res.1, res.2)

theorem embeds_empty : Embeds (emptyFuncs : OpFuncs (Prog (Cell B) β) EmptyOp) EmptyOp.status
    barrierSubFuncs BarrierSubOp.status .empty :=
  ⟨fun _ _ => rfl, fun _ => rfl, fun _ => rfl⟩

theorem embeds_fanin : Embeds (faninKntreeFuncs : OpFuncs (Prog (Cell B) β) FaninKntreeOp)
    FaninKntreeOp.status barrierSubFuncs BarrierSubOp.status .fanin :=
  ⟨fun _ _ => rfl, fun _ => rfl, fun _ => rfl⟩

theorem embeds_rd : Embeds (barrierRdFuncs : OpFuncs (Prog (Cell B) β) BarrierRdOp)
    BarrierRdOp.status barrierSubFuncs BarrierSubOp.status .rd :=
  ⟨fun _ _ => rfl, fun _ => rfl, fun _ => rfl⟩

theorem embeds_fanout : Embeds (bcastKntreeFuncs : OpFuncs (Prog (Cell B) β) (BcastKntreeOp B))
    BcastKntreeOp.status barrierSubFuncs BarrierSubOp.status .fanout :=
  ⟨fun _ _ => rfl, fun _ => rfl, fun _ => rfl⟩

/-! ### Adding the sub-operations -/

/-- The degrees of `ucg_planc_ucx_barrier_config_t`. -/
structure BarrierConfig where
  faninInterDegree : ℕ
  fanoutInterDegree : ℕ
  faninIntraDegree : ℕ
  fanoutIntraDegree : ℕ

/-- The types of the groups inside of a node. -/
def TopoGroupType.Intra (type : TopoGroupType) : Prop :=
  type = .node ∨ type = .socket ∨ type = .socketLeader

instance (type : TopoGroupType) : Decidable (TopoGroupType.Intra type) :=
  inferInstanceAs (Decidable (_ ∨ _))

/-- The degree of a fan-in tree. -/
def BarrierConfig.faninDegree (config : BarrierConfig) (type : TopoGroupType) : ℕ :=
  if TopoGroupType.Intra type then config.faninIntraDegree else config.faninInterDegree

/-- The degree of a fan-out tree. -/
def BarrierConfig.fanoutDegree (config : BarrierConfig) (type : TopoGroupType) : ℕ :=
  if TopoGroupType.Intra type then config.fanoutIntraDegree else config.fanoutInterDegree

/-- What a rank finds when it makes a barrier: how each addition goes, whether there is memory for
    the meta-operation, what `NULL` points to, and what the configurations on the stack hold before
    they are filled in. -/
structure BarrierEnv (B : Type) where
  add : ℕ → AddEnv
  mem : Bool
  null : Cell B
  bcastStack : BcastKntreeConfig
  barrierStack : BarrierConfig

section Add

variable (env : BarrierEnv B) (config : BarrierConfig) (type : TopoGroupType)
  (s : MetaMaking (BarrierSubOp B))

/-- `ucg_planc_ucx_barrier_add_fanin_kntree_op`. -/
def barrierAddFaninKntreeOp : MetaMaking (BarrierSubOp B) × Status :=
  metaAddTopoGroupOp (.empty emptyOpNew)
    (fun vgroup => .fanin (faninKntreeOpNew vgroup (config.faninDegree type)))
    (env.add s.ops.length) type s

/-- `ucg_planc_ucx_barrier_add_barrier_rd_op`. -/
def barrierAddBarrierRdOp : MetaMaking (BarrierSubOp B) × Status :=
  metaAddTopoGroupOp (.empty emptyOpNew) (fun vgroup => .rd (barrierRdOpNew vgroup))
    (env.add s.ops.length) type s

/-- `ucg_planc_ucx_barrier_add_fanout_kntree_op`. -/
def barrierAddFanoutKntreeOp : MetaMaking (BarrierSubOp B) × Status :=
  metaAddTopoGroupOp (.empty emptyOpNew)
    (fun vgroup => .fanout (bcastKntreeOpNew vgroup (fanoutArgs env.null)
      { env.bcastStack with kntreeDegree := config.fanoutDegree type }))
    (env.add s.ops.length) type s

end Add

/-- One of these three calls, with the type of its group. -/
inductive BarrierStep where
  | fanin (type : TopoGroupType)
  | rd (type : TopoGroupType)
  | fanout (type : TopoGroupType)

/-- The call. -/
def barrierAdd (env : BarrierEnv B) (config : BarrierConfig) :
    BarrierStep → MetaMaking (BarrierSubOp B) → MetaMaking (BarrierSubOp B) × Status
  | .fanin type => barrierAddFaninKntreeOp env config type
  | .rd type => barrierAddBarrierRdOp env type
  | .fanout type => barrierAddFanoutKntreeOp env config type

/-- `ucg_planc_ucx_barrier_na_kntree_op_new` and the functions like it, by the calls they make. -/
def barrierOpNew (steps : List BarrierStep) (env : BarrierEnv B) (config : BarrierConfig)
    (topo : Topo) : Topo × Option (MetaOp (BarrierSubOp B)) :=
  if ¬env.mem then (topo, none)
  else
    let (s, status) := addOps (steps.map (barrierAdd env config)) ⟨topo, []⟩
    (s.topo, if status ≠ .ok then none else some (metaOpNew s.ops 0))

/-! ### The six algorithms -/

/-- `ucg_planc_ucx_barrier_na_kntree_op_new`. -/
def barrierNaKntreeOpNew (env : BarrierEnv B) : BarrierConfig → Topo →
    Topo × Option (MetaOp (BarrierSubOp B)) :=
  barrierOpNew [.fanin .node, .fanin .nodeLeader, .fanout .nodeLeader, .fanout .node] env

/-- `ucg_planc_ucx_barrier_sa_kntree_op_new`. -/
def barrierSaKntreeOpNew (env : BarrierEnv B) : BarrierConfig → Topo →
    Topo × Option (MetaOp (BarrierSubOp B)) :=
  barrierOpNew [.fanin .socket, .fanin .socketLeader, .fanin .nodeLeader, .fanout .nodeLeader,
    .fanout .socketLeader, .fanout .socket] env

/-- `ucg_planc_ucx_barrier_na_rd_and_kntree_op_new`. -/
def barrierNaRdAndKntreeOpNew (env : BarrierEnv B) : BarrierConfig → Topo →
    Topo × Option (MetaOp (BarrierSubOp B)) :=
  barrierOpNew [.fanin .node, .rd .nodeLeader, .fanout .node] env

/-- `ucg_planc_ucx_barrier_sa_rd_and_kntree_op_new`. -/
def barrierSaRdAndKntreeOpNew (env : BarrierEnv B) : BarrierConfig → Topo →
    Topo × Option (MetaOp (BarrierSubOp B)) :=
  barrierOpNew [.fanin .socket, .fanin .socketLeader, .rd .nodeLeader, .fanout .socketLeader,
    .fanout .socket] env

/-- `ucg_planc_ucx_barrier_na_rd_and_bntree_op_new`. -/
def barrierNaRdAndBntreeOpNew (env : BarrierEnv B) : BarrierConfig → Topo →
    Topo × Option (MetaOp (BarrierSubOp B)) :=
  barrierOpNew [.fanin .node, .rd .nodeLeader, .fanout .node] env

/-- `ucg_planc_ucx_barrier_sa_rd_and_bntree_op_new`. -/
def barrierSaRdAndBntreeOpNew (env : BarrierEnv B) : BarrierConfig → Topo →
    Topo × Option (MetaOp (BarrierSubOp B)) :=
  barrierOpNew [.fanin .socket, .fanin .socketLeader, .rd .nodeLeader, .fanout .socketLeader,
    .fanout .socket] env

/-- `ucg_topo_t` with its numbers of ranks per node and per socket. -/
structure TopoPpx where
  topo : Topo
  ppn : ℤ
  pps : ℤ

/-- The check of a node-aware barrier, such as `ucg_planc_ucx_barrier_na_kntree_check`. -/
def barrierNaCheck (topo : TopoPpx) : Status :=
  if topo.ppn = ppxUnknown then .errUnsupported else .ok

/-- The check of a socket-aware barrier, such as `ucg_planc_ucx_barrier_sa_kntree_check`. -/
def barrierSaCheck (topo : TopoPpx) : Status :=
  if topo.ppn = ppxUnknown then .errUnsupported
  else if topo.pps = ppxUnknown then .errUnsupported
  else .ok

/-- The end of the prepare functions, after the check: the `op_new` is called. -/
def barrierPrepare (check : Status)
    (opNew : BarrierConfig → Topo → Topo × Option (MetaOp (BarrierSubOp B)))
    (config : BarrierConfig) (topo : TopoPpx) : Topo × Except Status (MetaOp (BarrierSubOp B)) :=
  if check ≠ .ok then (topo.topo, .error .errUnsupported)
  else match opNew config topo.topo with
    | (topo, none) => (topo, .error .errNoMemory)
    | (topo, some metaOp) => (topo, .ok metaOp)

section Prepare

variable (env : BarrierEnv B) (config : BarrierConfig) (topo : TopoPpx)

/-- `ucg_planc_ucx_barrier_na_kntree_prepare`. -/
def barrierNaKntreePrepare : Topo × Except Status (MetaOp (BarrierSubOp B)) :=
  barrierPrepare (barrierNaCheck topo) (barrierNaKntreeOpNew env) config topo

/-- `ucg_planc_ucx_barrier_sa_kntree_prepare`. -/
def barrierSaKntreePrepare : Topo × Except Status (MetaOp (BarrierSubOp B)) :=
  barrierPrepare (barrierSaCheck topo) (barrierSaKntreeOpNew env) config topo

/-- `ucg_planc_ucx_barrier_na_rd_and_kntree_prepare`. -/
def barrierNaRdAndKntreePrepare : Topo × Except Status (MetaOp (BarrierSubOp B)) :=
  barrierPrepare (barrierNaCheck topo) (barrierNaRdAndKntreeOpNew env) config topo

/-- `ucg_planc_ucx_barrier_sa_rd_and_kntree_prepare`. -/
def barrierSaRdAndKntreePrepare : Topo × Except Status (MetaOp (BarrierSubOp B)) :=
  barrierPrepare (barrierSaCheck topo) (barrierSaRdAndKntreeOpNew env) config topo

/-- What the prepare functions of the binary trees fill in of a configuration on the stack. -/
def BarrierEnv.bntreeConfig : BarrierConfig :=
  { env.barrierStack with faninIntraDegree := 2, fanoutIntraDegree := 2 }

/-- `ucg_planc_ucx_barrier_na_rd_and_bntree_prepare`. -/
def barrierNaRdAndBntreePrepare : Topo × Except Status (MetaOp (BarrierSubOp B)) :=
  barrierPrepare (barrierNaCheck topo) (barrierNaRdAndBntreeOpNew env) env.bntreeConfig topo

/-- `ucg_planc_ucx_barrier_sa_rd_and_bntree_prepare`. -/
def barrierSaRdAndBntreePrepare : Topo × Except Status (MetaOp (BarrierSubOp B)) :=
  barrierPrepare (barrierSaCheck topo) (barrierSaRdAndBntreeOpNew env) env.bntreeConfig topo

/-- The hierarchical algorithms of a barrier. -/
inductive BarrierAlgo where
  | naKntree | saKntree | naRdAndKntree | saRdAndKntree | naRdAndBntree | saRdAndBntree
  deriving DecidableEq

/-- The prepare function of an algorithm. -/
def BarrierAlgo.prepare : BarrierAlgo → Topo × Except Status (MetaOp (BarrierSubOp B))
  | .naKntree => barrierNaKntreePrepare env config topo
  | .saKntree => barrierSaKntreePrepare env config topo
  | .naRdAndKntree => barrierNaRdAndKntreePrepare env config topo
  | .saRdAndKntree => barrierSaRdAndKntreePrepare env config topo
  | .naRdAndBntree => barrierNaRdAndBntreePrepare env topo
  | .saRdAndBntree => barrierSaRdAndBntreePrepare env topo

end Prepare

end Kucg.Ucx
