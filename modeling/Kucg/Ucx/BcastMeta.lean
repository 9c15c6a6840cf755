import Kucg.Ucx.BarrierMeta
import Kucg.Ucx.BcastKntree
import Kucg.Ucx.TopoGroupOp

/-! The hierarchical broadcasts: the root sends the buffer to rank 0, which is the first of all
    leaders, and trees on the leaders and on the ranks of each of them pass it on (`bcast_meta.c`
    and `bcast_na_kntree.c`, `bcast_na_bntree.c`, `bcast_na_kntree_and_bntree.c` and
    `bcast_nta_kntree.c`).

    The flag `root_adjust` of the configuration is set while the operations are added. It gets its
    old value back where none of them has failed. -/

namespace Kucg.Ucx

open Kucg.Core Kucg.Lib Kucg.Algo

variable {B β : Type}

/-! ### The message from the root -/

/-- The flags of the operation, a bit each. -/
structure AdjustRootFlags where
  send : Bool
  recv : Bool

/-- `ucg_planc_ucx_op_t` of the message from the root to rank 0. -/
structure AdjustRootOp (B : Type) where
  vgroup : VGroup
  args : BcastArgs B
  status : Status
  id : ℕ
  flags : AdjustRootFlags

section AdjustRoot

/-- What `ucg_planc_ucx_bcast_adjust_root_op_progress` posts. The statuses of the calls are not
    looked at. -/
def adjustRootOpPost (op : AdjustRootOp B) : Prog (Cell B) β (AdjustRootOp B) :=
  if op.flags.send then do
    let _ ← p2pIsend (span op.args.buffer op.args.count) (some 0) op.vgroup
    return { op with flags := { op.flags with send := false } }
  else if op.flags.recv then do
    let _ ← p2pIrecv (span op.args.buffer op.args.count) (some op.args.root) op.vgroup 0
    return { op with flags := { op.flags with recv := false } }
  else pure op

/-- `ucg_planc_ucx_bcast_adjust_root_op_progress`. -/
def adjustRootOpProgress (op : AdjustRootOp B) : Prog (Cell B) β (AdjustRootOp B × Status) := do
  let op ← adjustRootOpPost op
  let status ← p2pTestall
  return ({ op with status := status }, status)

/-- What `ucg_planc_ucx_bcast_adjust_root_op_trigger` sets. No other ranks have the operation. -/
def AdjustRootOp.start (op : AdjustRootOp B) (id : ℕ) : AdjustRootOp B :=
  { op with
    id := id
    status := .inprogress
    flags :=
      if op.vgroup.myrank = 0 then ⟨false, true⟩
      else if op.vgroup.myrank = op.args.root then ⟨true, false⟩
      else ⟨false, false⟩ }

/-- `ucg_planc_ucx_bcast_adjust_root_op_trigger`. -/
def adjustRootOpTrigger (op : AdjustRootOp B) (id : ℕ) :
    Prog (Cell B) β (AdjustRootOp B × Status) := do
  let (op, status) ← adjustRootOpProgress (op.start id)
  return (op, if status = .inprogress then .ok else status)

/-- The trigger and progress functions of the operation. -/
def adjustRootFuncs : OpFuncs (Prog (Cell B) β) (AdjustRootOp B) where
  trigger := adjustRootOpTrigger
  progress := adjustRootOpProgress

/-- `ucg_planc_ucx_bcast_adjust_root_op_new`, when there is memory. -/
def adjustRootOpNew (vgroup : VGroup) (args : BcastArgs B) : AdjustRootOp B :=
  ⟨vgroup, args, .ok, 0, ⟨false, false⟩⟩

theorem busy_adjustRootOpPost {op : AdjustRootOp B} :
    (adjustRootOpPost op : Prog (Cell B) β _).Busy fun _ => True := by
  rw [adjustRootOpPost]
  split_ifs <;> simp

/-- The message comes to its end. -/
theorem adjustRoot_lively (op : AdjustRootOp B) (id : ℕ) :
    OpLively (adjustRootFuncs : OpFuncs (Prog (Cell B) β) _) AdjustRootOp.status id op := by
  refine ⟨fun _ => True, ⟨fun op _ => ?_, fun op _ => ?_⟩, Prog.all_of_forall fun _ => trivial⟩
  · change (adjustRootOpProgress op).All _
    simp only [adjustRootOpProgress, all_bind]
    exact Prog.all_of_forall fun _ => Prog.all_of_forall fun _ => ⟨rfl, trivial⟩
  · change (adjustRootOpProgress op).Busy _
    simp only [adjustRootOpProgress, busy_bind]
    exact busy_adjustRootOpPost.imp fun res _ => by simp

variable [DecidableEq B] {vgroup : VGroup} {args : BcastArgs B} {x : ℕ → β}

/-- The operation has posted its message, and the rank has the buffer. -/
structure AdjustRootSent (args : BcastArgs B) (x : ℕ → β) (op : AdjustRootOp B)
    (g : Ghost (Cell B) β) : Prop where
  args_eq : op.args = args
  flags_eq : op.flags = ⟨false, false⟩
  buffer : Holds g.mem args.buffer args.count x
  todo : g.todo = []

/-- What a call leaves behind, by its status. -/
def AdjustRootInv (args : BcastArgs B) (x : ℕ → β) (op : AdjustRootOp B) (g : Ghost (Cell B) β) :
    Prop :=
  AdjustRootSent args x op g ∧ (op.status = .inprogress ∨ op.status = .ok ∧ g.pend = [])

/-- A progress call, by what it posts. -/
theorem wp_adjustRootOpProgress {op : AdjustRootOp B} {g : Ghost (Cell B) β}
    (h : (adjustRootOpPost op).wp (AdjustRootSent args x) g) :
    (adjustRootOpProgress op).wp
      (fun res g => res.2 = res.1.status ∧ AdjustRootInv args x res.1 g) g := by
  rw [adjustRootOpProgress, wp_bind]
  refine h.imp fun op g hsent => ?_
  simp only [wp_bind, wp_p2pTestall, wp_pure]
  obtain ⟨rfl, hflags, hbuf, htodo⟩ := hsent
  exact ⟨⟨trivial, ⟨rfl, hflags, hbuf, htodo⟩, Or.inr ⟨rfl, rfl⟩⟩,
    trivial, ⟨rfl, hflags, hbuf, htodo⟩, Or.inl rfl⟩

/-- Such an operation obeys its message. -/
theorem adjustRoot_obeys_of {id : ℕ} {g : Ghost (Cell B) β}
    (h : (adjustRootOpPost ((adjustRootOpNew vgroup args).start id)).wp (AdjustRootSent args x) g) :
    Obeys adjustRootFuncs AdjustRootOp.status id (adjustRootOpNew vgroup args)
      (AdjustRootInv args x) (fun m _ => Holds m args.buffer args.count x) g where
  trigger := by
    change (adjustRootOpTrigger _ id).wp _ _
    rw [adjustRootOpTrigger, wp_bind]
    exact (wp_adjustRootOpProgress h).imp fun res g hres => hres.2
  progress op g hinv := by
    refine wp_adjustRootOpProgress ?_
    rw [adjustRootOpPost, hinv.1.flags_eq]
    exact hinv.1
  settled op g hinv := hinv.2.imp_right fun hdone => ⟨hdone.1, hinv.1.todo, hdone.2, hinv.1.buffer⟩

variable (vgroup args x) in
/-- The root. -/
theorem adjustRoot_obeys_send (hroot : args.root ≠ 0) (hr : vgroup.myrank = args.root) (id : ℕ)
    {m : Cell B → β} {k : Set ℕ} (hbuf : Holds m args.buffer args.count x) :
    Obeys adjustRootFuncs AdjustRootOp.status id (adjustRootOpNew vgroup args)
      (AdjustRootInv args x) (fun m _ => Holds m args.buffer args.count x)
      ⟨m, [], [.send (vgroup.rankMap 0) (vec args.count x) ∅], k⟩ := by
  refine adjustRoot_obeys_of ?_
  simp only [adjustRootOpPost, adjustRootOpNew, AdjustRootOp.start, hr, hroot, if_true, if_false,
    wp_bind, wp_p2pIsend, wp_pure, hbuf.map_span]
  exact ⟨fun i _ p hp => absurd hp List.not_mem_nil, _, _, rfl, Set.empty_subset _,
    rfl, rfl, hbuf, rfl⟩

variable (vgroup args x) in
/-- Rank 0. -/
theorem adjustRoot_obeys_recv (hr : vgroup.myrank = 0) (id : ℕ) {m : Cell B → β} {k : Set ℕ} :
    Obeys adjustRootFuncs AdjustRootOp.status id (adjustRootOpNew vgroup args)
      (AdjustRootInv args x) (fun m _ => Holds m args.buffer args.count x)
      ⟨m, [], [.recv (vgroup.rankMap args.root) (vec args.count x) ∅], k⟩ := by
  refine adjustRoot_obeys_of ?_
  simp only [adjustRootOpPost, adjustRootOpNew, AdjustRootOp.start, hr, if_true, if_false,
    Bool.false_eq_true, wp_bind, wp_p2pIrecv, wp_pure]
  exact ⟨fun i _ p hp => absurd hp List.not_mem_nil, _, _, _, rfl, by simp,
    rfl, rfl, holds_write _ _ _ _, rfl⟩

end AdjustRoot

/-! ### The sub-operations -/

/-- An operation of a hierarchical broadcast. -/
inductive BcastSubOp (B : Type) where
  | empty (op : EmptyOp)
  | adjust (op : AdjustRootOp B)
  | kntree (op : BcastKntreeOp B)

/-- `super.super.status` of the operation. -/
def BcastSubOp.status : BcastSubOp B → Status
  | .empty op => op.status
  | .adjust op => op.status
  | .kntree op => op.status

/-- The trigger and progress functions of the operations. -/
def bcastSubFuncs : OpFuncs (Prog (Cell B) β) (BcastSubOp B) where
  trigger op id := match op with
    | .empty op => do
      let res ← emptyFuncs.trigger op id
      pure (.empty res.1, res.2)
    | .adjust op => do
      let res ← adjustRootFuncs.trigger op id
      pure (.adjust res.1, res.2)
    | .kntree op => do
      let res ← bcastKntreeFuncs.trigger op id
      pure (.kntree res.1, res.2)
  progress op := match op with
    | .empty op => do
      let res ← emptyFuncs.progress op
      pure (.empty res.1, res.2)
    | .adjust op => do
      let res ← adjustRootFuncs.progress op
      pure (.adjust res.1, res.2)
    | .kntree op => do
      let res ← bcastKntreeFuncs.progress op
      pure (.kntree res.1, res.2)

theorem embeds_bcast_empty : Embeds (emptyFuncs : OpFuncs (Prog (Cell B) β) EmptyOp)
    EmptyOp.status bcastSubFuncs BcastSubOp.status .empty :=
  ⟨fun _ _ => rfl, fun _ => rfl, fun _ => rfl⟩

theorem embeds_bcast_adjust : Embeds (adjustRootFuncs : OpFuncs (Prog (Cell B) β) (AdjustRootOp B))
    AdjustRootOp.status bcastSubFuncs BcastSubOp.status .adjust :=
  ⟨fun _ _ => rfl, fun _ => rfl, fun _ => rfl⟩

theorem embeds_bcast_kntree :
    Embeds (bcastKntreeFuncs : OpFuncs (Prog (Cell B) β) (BcastKntreeOp B)) BcastKntreeOp.status
      bcastSubFuncs BcastSubOp.status .kntree :=
  ⟨fun _ _ => rfl, fun _ => rfl, fun _ => rfl⟩

/-! ### Adding the sub-operations -/

/-- The fields of `ucg_planc_ucx_bcast_config_t` that these algorithms look at. -/
structure BcastConfig where
  rootAdjust : Bool
  ntaKntreeInterDegree : ℕ
  ntaKntreeIntraDegree : ℕ
  naKntreeInterDegree : ℕ
  naKntreeIntraDegree : ℕ

/-- What a rank finds when it makes a broadcast: how each addition goes, whether there is memory for
    the meta-operation, and what a configuration on the stack holds before it is filled in. -/
structure BcastEnv where
  add : ℕ → AddEnv
  mem : Bool
  configStack : BcastConfig

section Add

variable (env : BcastEnv) (vgroup : VGroup) (args : BcastArgs B) (config : BcastConfig)
  (s : MetaMaking (BcastSubOp B))

/-- `ucg_planc_ucx_bcast_add_adjust_root_op`. -/
def bcastAddAdjustRootOp : MetaMaking (BcastSubOp B) × Status :=
  if args.root = 0 ∨ config.rootAdjust = false then (s, .ok)
  else if vgroup.myrank ≠ 0 ∧ vgroup.myrank ≠ args.root then
    planMetaOpAdd s (env.add s.ops.length).mem (.empty emptyOpNew)
  else planMetaOpAdd s (env.add s.ops.length).mem (.adjust (adjustRootOpNew vgroup args))

/-- `ucg_planc_ucx_bcast_add_topo_group_kntree_op`. -/
def bcastAddTopoGroupKntreeOp (kntreeConfig : BcastKntreeConfig) (type : TopoGroupType) :
    MetaMaking (BcastSubOp B) × Status :=
  metaAddTopoGroupOp (.empty emptyOpNew)
    (fun group => .kntree (bcastKntreeOpNew group
      (if args.root ≠ 0 ∧ kntreeConfig.rootAdjust then { args with root := 0 } else args)
      kntreeConfig))
    (env.add s.ops.length) type s

/-- `ucg_planc_ucx_bcast_add_inter_node_op`. -/
def bcastAddInterNodeOp : MetaMaking (BcastSubOp B) × Status :=
  bcastAddTopoGroupKntreeOp env args s ⟨config.naKntreeInterDegree, config.rootAdjust⟩ .nodeLeader

/-- `ucg_planc_ucx_bcast_add_intra_node_op`. -/
def bcastAddIntraNodeOp : MetaMaking (BcastSubOp B) × Status :=
  bcastAddTopoGroupKntreeOp env args s ⟨config.naKntreeIntraDegree, config.rootAdjust⟩ .node

/-- `ucg_planc_ucx_bcast_add_inter_subnet_op`. -/
def bcastAddInterSubnetOp : MetaMaking (BcastSubOp B) × Status :=
  bcastAddTopoGroupKntreeOp env args s ⟨config.ntaKntreeInterDegree, config.rootAdjust⟩
    .subnetLeader

/-- `ucg_planc_ucx_bcast_add_intra_subnet_op`. -/
def bcastAddIntraSubnetOp : MetaMaking (BcastSubOp B) × Status :=
  bcastAddTopoGroupKntreeOp env args s ⟨config.ntaKntreeIntraDegree, config.rootAdjust⟩ .subnet

end Add

/-! ### The four algorithms -/

section OpNew

variable (env : BcastEnv) (vgroup : VGroup) (args : BcastArgs B) (config : BcastConfig)

/-- `ucg_planc_ucx_bcast_na_kntree_op_new` and the one like it, by the calls that add the trees. The
    configuration is returned as it is left. -/
def bcastOpNew (addInter addIntra : BcastConfig → MetaMaking (BcastSubOp B) →
    MetaMaking (BcastSubOp B) × Status) (topo : Topo) :
    Topo × BcastConfig × Option (MetaOp (BcastSubOp B)) :=
  if ¬env.mem then (topo, config, none)
  else
    let adjustConfig := { config with rootAdjust := true }
    let (s, status) := addOps [bcastAddAdjustRootOp env vgroup args adjustConfig,
      addInter adjustConfig, addIntra adjustConfig] ⟨topo, []⟩
    if status ≠ .ok then (s.topo, adjustConfig, none)
    else (s.topo, { adjustConfig with rootAdjust := config.rootAdjust }, some (metaOpNew s.ops 0))

/-- `ucg_planc_ucx_bcast_na_kntree_op_new`. -/
def bcastNaKntreeOpNew : Topo → Topo × BcastConfig × Option (MetaOp (BcastSubOp B)) :=
  bcastOpNew env vgroup args config (bcastAddInterNodeOp env args) (bcastAddIntraNodeOp env args)

/-- `ucg_planc_ucx_bcast_nta_kntree_op_new`. -/
def bcastNtaKntreeOpNew : Topo → Topo × BcastConfig × Option (MetaOp (BcastSubOp B)) :=
  bcastOpNew env vgroup args config (bcastAddInterSubnetOp env args)
    (bcastAddIntraSubnetOp env args)

/-- The check of a node-aware broadcast, such as `ucg_planc_ucx_bcast_na_kntree_check`. -/
def bcastNaCheck (topo : TopoPpx) : Status :=
  if topo.ppn = ppxUnknown then .errUnsupported else .ok

/-- The end of the prepare functions, after the check: the `op_new` is called. -/
def bcastPrepare (check : Status)
    (opNew : Topo → Topo × BcastConfig × Option (MetaOp (BcastSubOp B))) (topo : Topo) :
    Topo × BcastConfig × Except Status (MetaOp (BcastSubOp B)) :=
  if check ≠ .ok then (topo, config, .error .errUnsupported)
  else match opNew topo with
    | (topo, config, none) => (topo, config, .error .errNoMemory)
    | (topo, config, some metaOp) => (topo, config, .ok metaOp)

variable (topo : TopoPpx)

/-- `ucg_planc_ucx_bcast_na_kntree_prepare`, with the configuration of the context. -/
def bcastNaKntreePrepare : Topo × BcastConfig × Except Status (MetaOp (BcastSubOp B)) :=
  bcastPrepare config (bcastNaCheck topo) (bcastNaKntreeOpNew env vgroup args config) topo.topo

/-- `ucg_planc_ucx_bcast_nta_kntree_prepare`, which checks nothing. -/
def bcastNtaKntreePrepare : Topo × BcastConfig × Except Status (MetaOp (BcastSubOp B)) :=
  bcastPrepare config .ok (bcastNtaKntreeOpNew env vgroup args config) topo.topo

/-- The prepare functions that fill in a configuration on the stack leave that of the context as it
    is. -/
def bcastStackPrepare (stackConfig : BcastConfig) :
    Topo × BcastConfig × Except Status (MetaOp (BcastSubOp B)) :=
  let (topo, _, op) := bcastPrepare stackConfig (bcastNaCheck topo)
    (bcastNaKntreeOpNew env vgroup args stackConfig) topo.topo
  (topo, config, op)

/-- `ucg_planc_ucx_bcast_na_bntree_prepare`. -/
def bcastNaBntreePrepare : Topo × BcastConfig × Except Status (MetaOp (BcastSubOp B)) :=
  bcastStackPrepare env vgroup args config topo { env.configStack with
    naKntreeInterDegree := 2
    naKntreeIntraDegree := 2
    rootAdjust := config.rootAdjust }

/-- `ucg_planc_ucx_bcast_na_kntree_and_bntree_prepare`. -/
def bcastNaKntreeAndBntreePrepare :
    Topo × BcastConfig × Except Status (MetaOp (BcastSubOp B)) :=
  bcastStackPrepare env vgroup args config topo { env.configStack with
    naKntreeInterDegree := config.naKntreeInterDegree
    naKntreeIntraDegree := 2
    rootAdjust := config.rootAdjust }

/-- The hierarchical algorithms of a broadcast. -/
inductive BcastAlgo where
  | naKntree | naBntree | naKntreeAndBntree | ntaKntree
  deriving DecidableEq

/-- The prepare function of an algorithm. -/
def BcastAlgo.prepare : BcastAlgo → Topo × BcastConfig × Except Status (MetaOp (BcastSubOp B))
  | .naKntree => bcastNaKntreePrepare env vgroup args config topo
  | .naBntree => bcastNaBntreePrepare env vgroup args config topo
  | .naKntreeAndBntree => bcastNaKntreeAndBntreePrepare env vgroup args config topo
  | .ntaKntree => bcastNtaKntreePrepare env vgroup args config topo

end OpNew

end Kucg.Ucx
