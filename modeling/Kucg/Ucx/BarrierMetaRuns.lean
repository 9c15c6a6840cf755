import Kucg.Ucx.BarrierMeta

/-! Every run of a hierarchical barrier.

    A step of a barrier is a phase (`BarrierStep.phase`), and the operations of its groups do what
    the phase says about the knowledge of the ranks (`barrierStep_work`). -/

namespace Kucg.Ucx

open Kucg.Core Kucg.Lib Kucg.Algo

variable {B β : Type}

/-! ### What a rank makes -/

/-- No location is refused. -/
def BarrierEnv.Located (env : BarrierEnv B) : Prop :=
  ∀ i, (env.add i).group.node.Located ∧ (env.add i).group.own.Located

/-- The type of the groups of a step. -/
def BarrierStep.type : BarrierStep → TopoGroupType
  | .fanin type | .rd type | .fanout type => type

/-- The operation of a member. -/
def BarrierStep.opNew (env : BarrierEnv B) (config : BarrierConfig) :
    BarrierStep → VGroup → BarrierSubOp B
  | .fanin type, vgroup => .fanin (faninKntreeOpNew vgroup (config.faninDegree type))
  | .rd _, vgroup => .rd (barrierRdOpNew vgroup)
  | .fanout type, vgroup => .fanout (bcastKntreeOpNew vgroup (fanoutArgs env.null)
      { env.bcastStack with kntreeDegree := config.fanoutDegree type })

theorem barrierAdd_eq (env : BarrierEnv B) (config : BarrierConfig) (step : BarrierStep)
    (s : MetaMaking (BarrierSubOp B)) :
    barrierAdd env config step s = metaAddTopoGroupOp (.empty emptyOpNew) (step.opNew env config)
      (env.add s.ops.length) step.type s := by
  cases step <;> rfl

section Making

variable {place : ℕ → Location} {size r : ℕ} {env : BarrierEnv B} {config : BarrierConfig}

/-- The operations that a rank adds follow from the locations. -/
theorem barrierAddOps_ok (hids : HasIds place size) (hr : r < size) (henv : env.Located) :
    ∀ {steps : List BarrierStep} {calls : List TopoCall} {ops : List (BarrierSubOp B)}
      {s' : MetaMaking (BarrierSubOp B)}, (∀ c ∈ calls, c.Located) →
      addOps (steps.map (barrierAdd env config)) ⟨(topoInit size r place).after calls, ops⟩ =
        (s', .ok) →
      s'.ops = ops ++ steps.map fun step =>
        memberOp (.empty emptyOpNew) (step.opNew env config) (topoLists place size step.type) r
  | [], calls, ops, s', _, h => by
    have hs : _ = s' := congrArg Prod.fst h
    rw [← hs, List.map_nil, List.map_nil, List.append_nil]
    rfl
  | step :: steps, calls, ops, s', hcalls, h => by
    obtain ⟨s₁, hfirst, hrest⟩ := addOps_cons_ok h
    rw [barrierAdd_eq] at hfirst
    rw [metaAddTopoGroupOp_ok hids hr hcalls hfirst] at hrest
    rw [barrierAddOps_ok hids hr henv (located_append_singleton hcalls (henv _)) hrest,
      List.map_cons, List.append_assoc, List.singleton_append]

end Making

/-! ### The work of a step -/

/-- Who tells whom in a step. -/
def BarrierStep.telling : BarrierStep → Telling
  | .fanin _ => .gather
  | .rd _ => .exchange
  | .fanout _ => .scatter

/-- The step as a phase. -/
def BarrierStep.phase (place : ℕ → Location) (size : ℕ) (step : BarrierStep) : TellPhase :=
  ⟨step.telling, topoLists place size step.type⟩

/-- The messages in the group of `l`, when rank `q` knows `K q` before. -/
noncomputable def stepTrace (config : BarrierConfig) (K : ℕ → Set ℕ) (step : BarrierStep)
    (l : List ℕ) : ℕ → List (Event β) :=
  let known v := K (l.getD v 0)
  match step with
  | .fanin type => faninTrace l.length (config.faninDegree type) known
  | .rd _ => barrierRdTrace l.length known
  | .fanout type => fanoutTrace l.length (config.fanoutDegree type) known

/-- Two configurations make the same trees in a step. -/
def BarrierStep.Agree (step : BarrierStep) (config config' : BarrierConfig) : Prop :=
  match step with
  | .fanin type => config.faninDegree type = config'.faninDegree type
  | .rd _ => True
  | .fanout type => config.fanoutDegree type = config'.fanoutDegree type

section After

variable {g : ℕ → List ℕ} {K : ℕ → Set ℕ} {r : ℕ}

theorem getD_idxOf_self {l : List ℕ} (h : r ∈ l) : l.getD (l.idxOf r) 0 = r := by
  rw [List.getD_eq_getElem _ _ (List.idxOf_lt_length_iff.mpr h), List.getElem_idxOf]

/-- A rank that is in no group keeps what it knows. -/
theorem after_of_not_inGroup (h : ¬InGroup g r) (telling : Telling) :
    TellPhase.after ⟨telling, g⟩ K r ⊆ K r := by
  rw [TellPhase.after]
  by_cases hmem : r ∈ g r
  · rw [if_pos hmem]
    have hlen : (g r).length = 1 := by
      have hpos := List.length_pos_of_mem hmem
      have hnot : ¬2 ≤ (g r).length := fun hlen => h ⟨hmem, hlen⟩
      omega
    obtain ⟨x, hx⟩ := List.length_eq_one_iff.mp hlen
    rw [hx, List.mem_singleton] at hmem
    subst hmem
    cases telling with
    | gather => simp [allOf, hx]
    | exchange => simp [allOf, hx]
    | scatter => simp [allOf, hx]
  · rw [if_neg hmem]

/-- The first member of a group gathers what is known at the root of its tree. -/
theorem after_gather {parent : ℕ → ℕ} {children : ℕ → List ℕ}
    (htree : RankTree (g r).length parent children) (hr : r ∈ g r) :
    TellPhase.after ⟨.gather, g⟩ K r ⊆
      treeKnow (g r).length parent (fun v => K ((g r).getD v 0)) ((g r).idxOf r) := by
  rw [TellPhase.after, if_pos hr]
  dsimp only
  split_ifs with hfirst
  · have hzero : (g r).idxOf r = 0 := by
      rw [IsFirst] at hfirst
      obtain ⟨l, hl⟩ := List.head?_eq_some_iff.mp hfirst
      rw [hl, List.idxOf_cons_self]
    rintro a ⟨q, hq, ha⟩
    rw [hzero]
    refine subset_treeKnow_zero htree (List.idxOf_lt_length_iff.mpr hq) ?_
    rwa [getD_idxOf_self hq]
  · refine Set.Subset.trans ?_ (subset_treeKnow _)
    rw [getD_idxOf_self hr]

theorem after_exchange (hr : r ∈ g r) : TellPhase.after ⟨.exchange, g⟩ K r ⊆
    rdKnow (g r).length (fun v => K ((g r).getD v 0)) (rdSteps (g r).length)
      (rdNew (g r).length ((g r).idxOf r)) := by
  rw [TellPhase.after, if_pos hr]
  rintro a ⟨q, hq, ha⟩
  refine subset_rdKnow (List.idxOf_lt_length_iff.mpr hq)
    (rdNew_lt (List.idxOf_lt_length_iff.mpr hr)) ?_
  rwa [getD_idxOf_self hq]

theorem after_scatter (hr : r ∈ g r) : TellPhase.after ⟨.scatter, g⟩ K r ⊆
    K ((g r).getD ((g r).idxOf r) 0) ∪ K ((g r).getD 0 0) := by
  rw [TellPhase.after, if_pos hr, getD_idxOf_self hr]
  refine Set.union_subset_union_right _ ?_
  rintro a ⟨q, hq, ha⟩
  obtain ⟨l, hl⟩ : ∃ l, g r = q :: l := List.head?_eq_some_iff.mp hq
  rwa [hl]

end After

section Work

variable [DecidableEq B] {place : ℕ → Location} {size : ℕ} {envs : ℕ → BarrierEnv B}
  {configs : ℕ → BarrierConfig} {config : BarrierConfig}

/-- The operations of a step do what its phase says. -/
theorem barrierStep_work (id : ℕ) (step : BarrierStep)
    (hagree : ∀ r < size, step.Agree (configs r) config) (K : ℕ → Set ℕ) :
    GroupWork (barrierSubFuncs : OpFuncs (Prog (Cell B) β) _) BarrierSubOp.status id size (size + 2)
      (topoLists place size step.type) (fun r => step.opNew (envs r) (configs r))
      (stepTrace config K step) (fun r _ k => K r ⊆ k)
      (fun r _ k => (step.phase place size).after K r ⊆ k) where
  grouping := isGrouping_topoLists _
  lt_size _ _ hq := lt_of_mem_topoLists hq
  obeys r hin m k hK := by
    have hmem : r ∈ topoLists place size step.type r := hin.1
    have hdeg := hagree r (lt_of_mem_topoLists hmem)
    have hv : (memberVGroup (topoLists place size step.type r) r).myrank <
        (memberVGroup (topoLists place size step.type r) r).size :=
      List.idxOf_lt_length_iff.mpr hmem
    have hknow : K ((topoLists place size step.type r).getD
        ((topoLists place size step.type r).idxOf r) 0) ⊆ k := by rwa [getD_idxOf_self hmem]
    cases step with
    | fanin type =>
      obtain ⟨inv, hobeys⟩ := @fanin_obeys (Cell B) β _ (config.faninDegree type)
        (fun v => K ((topoLists place size type r).getD v 0)) _ hin.2 hv id m k hknow
      dsimp only [BarrierStep.opNew]
      rw [show (configs r).faninDegree type = config.faninDegree type from hdeg]
      exact ⟨_, (hobeys.embed embeds_fanin).imp fun _ _ h =>
        (after_gather (rankTree_fanin hin.2) hmem).trans h⟩
    | rd type =>
      obtain ⟨inv, hobeys⟩ := @barrierRd_obeys (Cell B) β _
        (fun v => K ((topoLists place size type r).getD v 0)) _ hv id m k hknow
      exact ⟨_, (hobeys.embed embeds_rd).imp fun _ _ h => (after_exchange hmem).trans h⟩
    | fanout type =>
      obtain ⟨inv, hobeys⟩ := @fanout_obeys B β _ { (envs r).bcastStack with
          kntreeDegree := config.fanoutDegree type }
        (fun v => K ((topoLists place size type r).getD v 0)) (envs r).null _ hin.2 hv id m k hknow
      dsimp only [BarrierStep.opNew]
      rw [show (configs r).fanoutDegree type = config.fanoutDegree type from hdeg]
      exact ⟨_, (hobeys.embed embeds_fanout).imp fun _ _ h => (after_scatter hmem).trans h⟩
  idle r hin m k hK := (after_of_not_inGroup hin step.telling).trans hK
  lively r hin := by
    have hv : (memberVGroup (topoLists place size step.type r) r).myrank <
        (memberVGroup (topoLists place size step.type r) r).size :=
      List.idxOf_lt_length_iff.mpr hin.1
    cases step with
    | fanin type => exact (fanin_lively hin.2 hv id).embed embeds_fanin
    | rd type => exact (barrierRd_lively id).embed embeds_rd
    | fanout type => exact (bcastKntree_lively _ id).embed embeds_fanout
  paced r hin := by
    have hlen : (topoLists place size step.type r).length ≤ size := length_topoLists_le _
    cases step with
    | fanin type => exact (paced_upTrace _ (rankTree_fanin hin.2)).mono (hlen.trans (by omega))
    | rd type =>
      have hsteps : rdSteps (topoLists place size (BarrierStep.rd type).type r).length ≤
          (topoLists place size (BarrierStep.rd type).type r).length := Nat.log2_le_self _
      exact paced_barrierRdTrace.mono (by omega)
    | fanout type => exact (paced_downTrace _ (rankTree_bcast hin.2)).mono (hlen.trans (by omega))
  peer r hin v e he := by
    cases step with
    | fanin type => exact upTrace_peer (rankTree_fanin hin.2) e he
    | rd type => exact barrierRdTrace_peer (List.length_pos_of_mem hin.1).ne' e he
    | fanout type =>
      rw [stepTrace, fanoutTrace] at he
      exact downTrace_peer (rankTree_bcast hin.2) e he

/-- The steps one after another do what their phases say. -/
theorem barrierSteps_works (id : ℕ) : ∀ {steps : List BarrierStep} (K : ℕ → Set ℕ),
    (∀ step ∈ steps, ∀ r < size, step.Agree (configs r) config) →
    ∃ trace, GroupWorks (barrierSubFuncs : OpFuncs (Prog (Cell B) β) _) BarrierSubOp.status id
      .empty size (size + 2)
      (fun r => steps.map fun step => memberOp (.empty emptyOpNew)
        (step.opNew (envs r) (configs r)) (topoLists place size step.type) r)
      trace (fun r _ k => K r ⊆ k)
      (fun r _ k => afterPhases (steps.map (BarrierStep.phase place size)) K r ⊆ k) steps.length
  | [], K, _ => ⟨_, .nil _⟩
  | step :: steps, K, hagree => by
    rw [List.forall_mem_cons] at hagree
    obtain ⟨trace, hworks⟩ := barrierSteps_works id ((step.phase place size).after K) hagree.2
    exact ⟨_, .cons (barrierStep_work id step hagree.1 K) hworks⟩

end Work

/-! ### The six algorithms -/

/-- The calls of the `op_new` of an algorithm. -/
def BarrierAlgo.steps : BarrierAlgo → List BarrierStep
  | .naKntree => [.fanin .node, .fanin .nodeLeader, .fanout .nodeLeader, .fanout .node]
  | .saKntree => [.fanin .socket, .fanin .socketLeader, .fanin .nodeLeader, .fanout .nodeLeader,
      .fanout .socketLeader, .fanout .socket]
  | .naRdAndKntree | .naRdAndBntree => [.fanin .node, .rd .nodeLeader, .fanout .node]
  | .saRdAndKntree | .saRdAndBntree => [.fanin .socket, .fanin .socketLeader, .rd .nodeLeader,
      .fanout .socketLeader, .fanout .socket]

/-- The configuration of an algorithm. -/
def BarrierAlgo.config (env : BarrierEnv B) (config : BarrierConfig) : BarrierAlgo → BarrierConfig
  | .naKntree | .saKntree | .naRdAndKntree | .saRdAndKntree => config
  | .naRdAndBntree | .saRdAndBntree => env.bntreeConfig

section Algo

variable {env : BarrierEnv B} {config : BarrierConfig} {topo : TopoPpx}
  {metaOp : MetaOp (BarrierSubOp B)}

theorem barrierOpNew_some {steps : List BarrierStep} {topo topo' : Topo}
    (h : barrierOpNew steps env config topo = (topo', some metaOp)) :
    ∃ s, addOps (steps.map (barrierAdd env config)) ⟨topo, []⟩ = (s, .ok) ∧
      metaOp = metaOpNew s.ops 0 := by
  rw [barrierOpNew] at h
  dsimp only at h
  split_ifs at h with hmem hst
  · exact absurd (congrArg Prod.snd h) (by simp)
  · exact ⟨_, Prod.ext rfl (not_not.mp hst), (Option.some.inj (congrArg Prod.snd h)).symm⟩
  · exact absurd (congrArg Prod.snd h) (by simp)

theorem barrierPrepare_ok {check : Status} {steps : List BarrierStep}
    (h : (barrierPrepare check (barrierOpNew steps env) config topo).2 = .ok metaOp) :
    ∃ s, addOps (steps.map (barrierAdd env config)) ⟨topo.topo, []⟩ = (s, .ok) ∧
      metaOp = metaOpNew s.ops 0 := by
  rw [barrierPrepare] at h
  split_ifs at h with hcheck
  generalize hnew : barrierOpNew steps env config topo.topo = res at h
  obtain ⟨topo', _ | metaOp'⟩ := res
  · cases h
  · cases h
    exact barrierOpNew_some hnew

/-- What a preparation makes that succeeds. -/
theorem BarrierAlgo.prepare_ok {algo : BarrierAlgo}
    (h : (algo.prepare env config topo).2 = .ok metaOp) :
    ∃ s, addOps (algo.steps.map (barrierAdd env (algo.config env config))) ⟨topo.topo, []⟩ =
      (s, .ok) ∧ metaOp = metaOpNew s.ops 0 := by
  cases algo <;> exact barrierPrepare_ok h

/-- What the stack holds makes no difference for the trees. -/
theorem BarrierAlgo.agree (algo : BarrierAlgo) (env' : BarrierEnv B) : ∀ step ∈ algo.steps,
    step.Agree (algo.config env config) (algo.config env' config) := by
  cases algo <;> simp only [BarrierAlgo.steps, List.forall_mem_cons] <;>
    exact by simp [BarrierStep.Agree, BarrierAlgo.config, BarrierEnv.bntreeConfig,
      BarrierConfig.faninDegree, BarrierConfig.fanoutDegree, TopoGroupType.Intra]

/-- After the phases of an algorithm every rank knows everything. -/
theorem BarrierAlgo.all (algo : BarrierAlgo) (place : ℕ → Location) {size r : ℕ} (hr : r < size)
    (K : ℕ → Set ℕ) : allOf {q | q < size} K ⊆
      afterPhases (algo.steps.map (BarrierStep.phase place size)) K r := by
  obtain ⟨T, hone, htop⟩ := levels_nodeLeader place size
  have hmid (K : ℕ → Set ℕ) (r) (hr : r ∈ T) : allOf T K ⊆ afterPhases [] K r :=
    allOf_subsingleton hone K hr
  have hmidRd (K : ℕ → Set ℕ) (r) (hr : r ∈ {r | r < size ∧ LeadsNode place r}) :
      allOf {r | r < size ∧ LeadsNode place r} K ⊆
        afterPhases [⟨.exchange, topoLists place size .nodeLeader⟩] K r :=
    allOf_exchange (fun _ _ q hq => mem_nodeLeader.mpr hq) K hr
  cases algo with
  | naKntree => exact (levels_node htop).all hmid K r hr
  | saKntree => exact (levels_socket htop).all hmid K r hr
  | naRdAndKntree | naRdAndBntree => exact (levels_node (.top _)).all hmidRd K r hr
  | saRdAndKntree | saRdAndBntree => exact (levels_socket (.top _)).all hmidRd K r hr

end Algo

/-! ### Every run -/

/-- The request of rank `r`. -/
def barrierMetaProc (metaOps : ℕ → MetaOp (BarrierSubOp B)) (id r : ℕ) :
    Proc (Cell B) β (MetaOp (BarrierSubOp B)) :=
  opProc (metaFuncs barrierSubFuncs) MetaOp.status (metaOps r) id

/-- Every hierarchical barrier that all ranks have prepared is a barrier, however the ranks are
    placed, whatever groups they have asked for before, and whatever is on their stacks. -/
theorem barrierMeta_correct [DecidableEq B] (algo : BarrierAlgo) {place : ℕ → Location} {size : ℕ}
    (hids : HasIds place size) (config : BarrierConfig) (ppn pps : ℤ) {envs : ℕ → BarrierEnv B}
    {calls : ℕ → List TopoCall} (hlocated : ∀ r < size, (envs r).Located ∧ ∀ c ∈ calls r, c.Located)
    {metaOps : ℕ → MetaOp (BarrierSubOp B)}
    (hprepare : ∀ r < size, (algo.prepare (envs r) config
      ⟨(topoInit size r place).after (calls r), ppn, pps⟩).2 = .ok (metaOps r))
    (id : ℕ) (m : ℕ → Cell B → β) (acts : List Act) (N : Net (Cell B) β (MetaOp (BarrierSubOp B)))
    (hrun : (Net.init m).run size (barrierMetaProc metaOps id) acts = some N) :
    BarrierMeets size (barrierMetaProc metaOps id) MetaOp.status N := by
  obtain ⟨trace, hworks⟩ := @barrierSteps_works B β _ place size envs
    (fun r => algo.config (envs r) config) (algo.config (envs 0) config) id algo.steps
    (fun q => {q}) fun step hstep r _ => algo.agree (envs 0) step hstep
  have hops (r) (hr : r < size) : metaOps r = metaOpNew (algo.steps.map fun step =>
      memberOp (.empty emptyOpNew) (step.opNew (envs r) (algo.config (envs r) config))
        (topoLists place size step.type) r) 0 := by
    obtain ⟨s, hadd, heq⟩ := BarrierAlgo.prepare_ok (hprepare r hr)
    obtain ⟨henv, hcalls⟩ := hlocated r hr
    rw [heq, barrierAddOps_ok hids hr henv hcalls hadd, List.nil_append]
  have hne : algo.steps.length ≠ 0 := by cases algo <;> exact Nat.succ_ne_zero _
  refine barrierMeets hworks.paced (fun r hr => hworks.trace_of_le hr) (fun r hr => ?_)
    (fun r hr => ?_) hrun
  · rw [hops r hr]
    obtain ⟨inv, hobeys⟩ := hworks.obeys embeds_empty hne r (m r) (Set.Subset.refl {r})
    refine ⟨inv, hobeys.imp fun _ _ hknow q hq => hknow (algo.all place hr _ ?_)⟩
    exact ⟨q, hq, rfl⟩
  · rw [hops r hr]
    exact hworks.metaOp_lively embeds_empty hne r

/-! Two ranks on one node and a third on another. The third one is alone on its node, so it takes
    part only among the node leaders. Rank 0 finishes before the others. -/

def threePlaces (q : ℕ) : Location := ⟨false, true, true, 0, if q < 2 then 7 else 8, 3⟩

def threeBarrierEnv : BarrierEnv Unit :=
  ⟨fun _ => ⟨⟨envOf true, envOf true⟩, true⟩, true, ((), 0), ⟨0, false⟩, ⟨0, 0, 0, 0⟩⟩

/-- What rank `r` has prepared. -/
def threeMetaOps (r : ℕ) : MetaOp (BarrierSubOp Unit) :=
  match (BarrierAlgo.naKntree.prepare threeBarrierEnv ⟨2, 2, 2, 2⟩
    ⟨(topoInit 3 r threePlaces).after [], ppxUnbalanced, 2⟩).2 with
  | .ok metaOp => metaOp
  | .error _ => metaOpNew [] 0

def threeMetaActs : List Act :=
  [.start 0, .start 1, .start 2, .exec 0, .exec 0, .exec 0, .exec 0, .exec 1, .exec 1, .exec 1,
    .exec 1, .exec 1, .exec 2, .deliver 1 0, .sent 1, .resume 0, .exec 0, .exec 0, .resume 0,
    .exec 0, .exec 0, .exec 0, .exec 0, .resume 1, .exec 1, .exec 1, .resume 1, .exec 1, .resume 1,
    .exec 1, .resume 1, .exec 1, .exec 1, .exec 1, .exec 1, .resume 2, .exec 2, .exec 2, .exec 2,
    .exec 2, .exec 2, .deliver 2 0, .sent 2, .resume 0, .exec 0, .exec 0, .resume 0, .exec 0,
    .exec 0, .exec 0, .exec 0, .sent 0, .resume 0, .exec 0, .exec 0, .resume 0, .exec 0, .exec 0,
    .exec 0, .exec 0, .deliver 0 1, .sent 0, .resume 0, .exec 0, .exec 0]

theorem barrierMeta_correct_three : ∃ N op,
    (Net.init fun _ (_ : Cell Unit) => 0).run 3 (barrierMetaProc threeMetaOps 7) threeMetaActs =
      some N ∧ N.FinishedIn 0 op ∧
    BarrierMeets 3 (barrierMetaProc threeMetaOps 7) MetaOp.status N := by
  have hsome : (((Net.init fun _ (_ : Cell Unit) => 0).run 3 (barrierMetaProc threeMetaOps 7)
      threeMetaActs).bind fun N => (N.node 0).ctl.result).isSome := by decide +kernel
  obtain ⟨op, hbind⟩ := Option.isSome_iff_exists.mp hsome
  obtain ⟨N, hrun, hop⟩ := Option.bind_eq_some_iff.mp hbind
  have hids : HasIds threePlaces 3 := fun _ _ => ⟨rfl, rfl⟩
  have hprepared : ∀ r < 3, ((BarrierAlgo.naKntree.prepare threeBarrierEnv ⟨2, 2, 2, 2⟩
      ⟨(topoInit 3 r threePlaces).after [], ppxUnbalanced, 2⟩).2).toBool = true := by
    decide +kernel
  have hprepare : ∀ r < 3, (BarrierAlgo.naKntree.prepare threeBarrierEnv ⟨2, 2, 2, 2⟩
      ⟨(topoInit 3 r threePlaces).after [], ppxUnbalanced, 2⟩).2 = .ok (threeMetaOps r) := by
    intro r hr
    have hok := hprepared r hr
    rw [threeMetaOps]
    generalize (BarrierAlgo.naKntree.prepare threeBarrierEnv ⟨2, 2, 2, 2⟩
      ⟨(topoInit 3 r threePlaces).after [], ppxUnbalanced, 2⟩).2 = res at hok ⊢
    cases res with
    | ok metaOp => rfl
    | error st => cases hok
  exact ⟨N, op, hrun, Ctl.result_eq_some.mp hop, @barrierMeta_correct Unit ℕ _ .naKntree
    threePlaces 3 hids ⟨2, 2, 2, 2⟩ ppxUnbalanced 2 (fun _ => threeBarrierEnv) (fun _ => [])
    (fun r _ => ⟨fun _ => ⟨fun _ => rfl, fun _ => rfl⟩, by simp⟩) threeMetaOps hprepare 7 _
    threeMetaActs N hrun⟩

end Kucg.Ucx
