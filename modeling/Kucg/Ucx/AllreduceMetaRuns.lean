import Kucg.Lib.Totals
import Kucg.Ucx.AllreduceMeta
import Kucg.Ucx.AllreduceRdLive
import Kucg.Ucx.BarrierMetaRuns
import Kucg.Ucx.BcastTree
import Kucg.Ucx.ReduceRuns

/-! Every run of a hierarchical allreduce.

    A step is a phase, and the operations of its groups combine the values of the ranks as the phase
    says (`allreduceStep_work`, `stepValue_combines`). The value of a rank is in its send buffer as
    long as the rank has been in no group, and then in its receive buffer (`Carries`). -/

namespace Kucg.Ucx

open Kucg.Core Kucg.Lib Kucg.Algo

variable {B β : Type}

/-! ### What a rank makes -/

/-- No location is refused. -/
def AllreduceEnv.Located (env : AllreduceEnv B) : Prop :=
  ∀ i, (env.add i).group.node.Located ∧ (env.add i).group.own.Located

/-- The type of the groups of a step. -/
def AllreduceStep.type : AllreduceStep → TopoGroupType
  | .reduce type _ | .rd type | .bcast type => type

/-- The operation of a member, when `i` operations have been added before. -/
def AllreduceStep.opNew (env : AllreduceEnv B) (args : AllreduceArgs B) (config : AllreduceConfig)
    (inPlace : Bool) (i : ℕ) : AllreduceStep → VGroup → AllreduceSubOp B
  | .reduce type _, vgroup => .reduce (reduceKntreeOpNew vgroup
      ⟨args.sendFrom inPlace, args.recvbuf, args.count, 0⟩ (config.faninDegree type)
      (env.stagingArea i))
  | .rd _, vgroup => .rd (allreduceRdOpNew vgroup { args with sendbuf := args.sendFrom inPlace }
      (env.stagingArea i))
  | .bcast type, vgroup => .bcast (bcastKntreeOpNew vgroup ⟨args.recvbuf, args.count, 0⟩
      { env.bcastStack with kntreeDegree := config.fanoutDegree type })

/-- Rank `r` is in a group of one of the types. -/
def Grouped (place : ℕ → Location) (size : ℕ) (types : List TopoGroupType) (r : ℕ) : Prop :=
  ∃ type ∈ types, InGroup (topoLists place size type) r

instance (place : ℕ → Location) (size : ℕ) (types : List TopoGroupType) (r : ℕ) :
    Decidable (Grouped place size types r) :=
  inferInstanceAs (Decidable (∃ type ∈ types, _))

theorem grouped_append {place : ℕ → Location} {size r : ℕ} {types : List TopoGroupType}
    {type : TopoGroupType} : Grouped place size (types ++ [type]) r ↔
      Grouped place size types r ∨ InGroup (topoLists place size type) r := by
  simp [Grouped, or_and_right, exists_or]

/-- The types whose groups the flag tells of behind a step. -/
def AllreduceStep.flagged (types : List TopoGroupType) : AllreduceStep → List TopoGroupType
  | .reduce type setFlag => if setFlag then types ++ [type] else types
  | .rd _ | .bcast _ => types

/-- The operations that rank `r` adds for the steps, from the `i`-th one on, when the flag tells of
    the groups of `types`. -/
def allreduceOps (env : AllreduceEnv B) (args : AllreduceArgs B) (config : AllreduceConfig)
    (place : ℕ → Location) (size r : ℕ) :
    List TopoGroupType → ℕ → List AllreduceStep → List (AllreduceSubOp B)
  | _, _, [] => []
  | types, i, step :: steps =>
    memberOp (.empty emptyOpNew) (step.opNew env args config (Grouped place size types r) i)
        (topoLists place size step.type) r ::
      allreduceOps env args config place size r (step.flagged types) (i + 1) steps

section Making

variable {place : ℕ → Location} {size r : ℕ} {env : AllreduceEnv B} {args : AllreduceArgs B}
  {config : AllreduceConfig}

theorem addOp_ok (hids : HasIds place size) (hr : r < size) {type : TopoGroupType} {flag : Bool}
    {opNew : VGroup → AllreduceSubOp B} {calls : List TopoCall} {ops : List (AllreduceSubOp B)}
    {s' : AllreduceMaking B} (hcalls : ∀ c ∈ calls, c.Located)
    (h : AllreduceMaking.addOp env type ⟨⟨(topoInit size r place).after calls, ops⟩, flag⟩ opNew =
      (s', .ok)) :
    s' = ⟨⟨(topoInit size r place).after (calls ++ [⟨type, (env.add ops.length).group⟩]),
      ops ++ [memberOp (.empty emptyOpNew) opNew (topoLists place size type) r]⟩, flag⟩ ∧
    ((s'.topo.groups type).state = .enable ↔ InGroup (topoLists place size type) r) := by
  rw [AllreduceMaking.addOp] at h
  dsimp only at h
  generalize hres : metaAddTopoGroupOp (.empty emptyOpNew) opNew (env.add ops.length) type
    ⟨(topoInit size r place).after calls, ops⟩ = res at h
  obtain ⟨making, status⟩ := res
  obtain rfl : status = .ok := congrArg Prod.snd h
  obtain rfl : _ = s' := congrArg Prod.fst h
  refine ⟨?_, metaAddTopoGroupOp_enable hids hr hcalls hres⟩
  rw [metaAddTopoGroupOp_ok hids hr hcalls hres]

/-- A call that is fine, from the flag that the groups so far have set. -/
theorem allreduceAdd_ok (hids : HasIds place size) (hr : r < size) {types : List TopoGroupType}
    {step : AllreduceStep} {calls : List TopoCall} {ops : List (AllreduceSubOp B)}
    {s' : AllreduceMaking B} (hcalls : ∀ c ∈ calls, c.Located)
    (h : allreduceAdd env args config step
      ⟨⟨(topoInit size r place).after calls, ops⟩, Grouped place size types r⟩ = .ok (s', .ok)) :
    s' = ⟨⟨(topoInit size r place).after
        (calls ++ [⟨step.type, (env.add ops.length).group⟩]),
        ops ++ [memberOp (.empty emptyOpNew)
          (step.opNew env args config (Grouped place size types r) ops.length)
          (topoLists place size step.type) r]⟩, Grouped place size (step.flagged types) r⟩ := by
  cases step with
  | reduce type setFlag =>
    rw [allreduceAdd] at h
    generalize hres : allreduceAddReduceKntreeOp env args config type
      ⟨⟨(topoInit size r place).after calls, ops⟩, Grouped place size types r⟩ = res at h
    obtain ⟨s, status⟩ := res
    obtain ⟨hs, hstatus⟩ := Prod.ext_iff.mp (Except.ok.inj h)
    dsimp only at hs hstatus
    subst hstatus
    rw [allreduceAddReduceKntreeOp] at hres
    obtain ⟨rfl, henable⟩ := addOp_ok hids hr hcalls hres
    rw [← hs]
    cases setFlag with
    | false => rfl
    | true =>
      rw [if_pos ⟨rfl, rfl⟩, allreduceSetSendInPlaceFlag]
      refine congrArg (AllreduceMaking.mk _) ?_
      simp only [henable, AllreduceStep.flagged, if_true, grouped_append]
      by_cases hin : InGroup (topoLists place size type) r <;> simp [hin]
  | rd type =>
    rw [allreduceAdd, allreduceAddAllreduceRdOp] at h
    split_ifs at h
    exact (addOp_ok hids hr hcalls (Except.ok.inj h)).1
  | bcast type => exact (addOp_ok hids hr hcalls (Except.ok.inj h)).1

/-- The operations that a rank adds follow from the locations. -/
theorem allreduceAddAll_ok (hids : HasIds place size) (hr : r < size) (henv : env.Located) :
    ∀ {steps : List AllreduceStep} (types : List TopoGroupType) {calls : List TopoCall}
      {ops : List (AllreduceSubOp B)} {s' : AllreduceMaking B}, (∀ c ∈ calls, c.Located) →
      allreduceAddAll env args config steps
        ⟨⟨(topoInit size r place).after calls, ops⟩, Grouped place size types r⟩ = .ok (s', .ok) →
      s'.ops = ops ++ allreduceOps env args config place size r types ops.length steps
  | [], types, calls, ops, s', _, h => by
    obtain rfl : _ = s' := congrArg Prod.fst (Except.ok.inj h)
    rw [allreduceOps, List.append_nil]
  | step :: steps, types, calls, ops, s', hcalls, h => by
    rw [allreduceAddAll] at h
    generalize hres : allreduceAdd env args config step
      ⟨⟨(topoInit size r place).after calls, ops⟩, Grouped place size types r⟩ = res at h
    obtain err | ⟨s, status⟩ := res
    · cases h
    dsimp only [bind, Except.bind] at h
    split_ifs at h with hst
    · exact absurd (congrArg Prod.snd (Except.ok.inj h)) hst
    rw [not_not] at hst
    subst hst
    rw [allreduceAdd_ok hids hr hcalls hres] at h
    rw [allreduceAddAll_ok hids hr henv _ (located_append_singleton hcalls (henv _)) h,
      allreduceOps, List.append_assoc, List.singleton_append, List.length_append,
      List.length_singleton]

end Making

/-! ### The work of a step -/

/-- The types by whose groups the values have been moved behind a step. -/
def AllreduceStep.moves (types : List TopoGroupType) : AllreduceStep → List TopoGroupType
  | .reduce type _ | .rd type => types ++ [type]
  | .bcast _ => types

/-- What a step needs: a reduce or a recursive doubling that the flag tells where the values are, a
    broadcast that the values of its groups have been moved. -/
def AllreduceStep.Fits (flags moved : List TopoGroupType) : AllreduceStep → Prop
  | .reduce _ _ | .rd _ => flags = moved
  | .bcast type => type ∈ moved

/-- The steps get what they need. -/
def FitsAll : List TopoGroupType → List TopoGroupType → List AllreduceStep → Prop
  | _, _, [] => True
  | flags, moved, step :: steps =>
    step.Fits flags moved ∧ FitsAll (step.flagged flags) (step.moves moved) steps

/-- The types by whose groups the values have been moved in the end. -/
def movesAll : List TopoGroupType → List AllreduceStep → List TopoGroupType
  | types, [] => types
  | types, step :: steps => movesAll (step.moves types) steps

/-- The rank has the value `y` where it is when it has been moved or not. -/
def Carries (args : AllreduceArgs B) (moved : Bool) (y : ℕ → β) : Cond (Cell B) β := fun m _ =>
  AllreduceArgs.Brings { args with sendbuf := args.sendFrom moved } m y

theorem carries_true {args : AllreduceArgs B} {y : ℕ → β} {m : Cell B → β} {k : Set ℕ} :
    Carries args true y m k ↔ Holds m args.recvbuf args.count y :=
  ⟨fun h => h.input, fun h => ⟨h, by simp [AllreduceArgs.sendFrom]⟩⟩

/-- Two configurations make the same trees in a step. -/
def AllreduceStep.Agree (step : AllreduceStep) (config config' : AllreduceConfig) : Prop :=
  match step with
  | .reduce type _ => config.faninDegree type = config'.faninDegree type
  | .rd _ => True
  | .bcast type => config.fanoutDegree type = config'.fanoutDegree type

section Step

variable [CommSemigroup β] (count : ℕ) (config : AllreduceConfig) (V : ℕ → ℕ → β)

/-- The messages in the group of `l`, when rank `q` has `V q` before. -/
noncomputable def allreduceStepTrace (step : AllreduceStep) (l : List ℕ) : ℕ → List (Event β) :=
  let x v := V (l.getD v 0)
  match step with
  | .reduce type _ => reduceKntreeTrace l.length (config.faninDegree type) 0 count x
  | .rd _ => allreduceRdTrace l.length count x fun _ => ∅
  | .bcast type => bcastTreeTrace l.length 0 (bcastKntreeParent l.length (config.fanoutDegree type))
      (bcastKntreeChildren l.length (config.fanoutDegree type)) count (x 0)

/-- What rank `r` has after a step in the groups `g`. -/
noncomputable def stepValue (g : ℕ → List ℕ) (step : AllreduceStep) (r : ℕ) : ℕ → β :=
  let x v := V ((g r).getD v 0)
  if InGroup g r then
    match step with
    | .reduce type _ => reduceValue (g r).length (config.faninDegree type)
        (fun v => x (toRank (g r).length 0 v)) (fromRoot (g r).length 0 ((g r).idxOf r))
    | .rd _ => rdData (g r).length x (rdSteps (g r).length)
        (rdNew (g r).length ((g r).idxOf r))
    | .bcast _ => x 0
  else V r

variable {config V}

theorem stepValue_of_not_inGroup {g : ℕ → List ℕ} {step : AllreduceStep} {r : ℕ}
    (h : ¬InGroup g r) : stepValue config V g step r = V r := if_neg h

end Step

section Member

variable [DecidableEq B] [CommSemigroup β] {l : List ℕ} {r : ℕ} (hr : r ∈ l) (hlen : 2 ≤ l.length)
  {args : AllreduceArgs B} {V : ℕ → ℕ → β} {m : Cell B → β} {k : Set ℕ}

include hr hlen

/-- The reduce of a member of the group `l`. -/
theorem reduceMember_obeys {flag : Bool} {degree : ℕ} {staging : Cell B} (id : ℕ)
    (hap : Apart args.recvbuf args.count staging ((reduceKntreeOpNew (memberVGroup l r)
      ⟨args.sendFrom flag, args.recvbuf, args.count, 0⟩ degree staging).requestsCount * args.count))
    (hV : Carries args flag (V r) m k) : ∃ inv,
    Obeys (reduceKntreeFuncs (· * ·)) ReduceKntreeOp.status id (reduceKntreeOpNew (memberVGroup l r)
      ⟨args.sendFrom flag, args.recvbuf, args.count, 0⟩ degree staging) inv
      (Carries args true (reduceValue l.length degree
        (fun v => V (l.getD (toRank l.length 0 v) 0)) (fromRoot l.length 0 (l.idxOf r))))
      ⟨m, [], (reduceKntreeTrace l.length degree 0 args.count (fun v => V (l.getD v 0))
        (l.idxOf r)).map (Event.mapPeer (l.getD · 0)), k⟩ := by
  have hown : V (l.getD (l.idxOf r) 0) = V r := by rw [getD_idxOf_self hr]
  have hx : ReduceArgs.Brings ⟨args.sendFrom flag, args.recvbuf, args.count, 0⟩ m
      (V (l.getD (memberVGroup l r).myrank 0)) := by
    rw [memberVGroup, hown]
    exact ⟨hV.input, hV.apart⟩
  obtain ⟨inv, hobeys⟩ := reduceKntree_obeys (memberVGroup l r) _ degree staging
    (fun v => V (l.getD v 0)) hlen (List.idxOf_lt_length_iff.mpr hr)
    (by dsimp only [memberVGroup]; omega) hap id (k := k) hx
  exact ⟨inv, hobeys.imp fun _ _ h => carries_true.mpr h⟩

omit hlen in
/-- The recursive doubling. -/
theorem rdMember_obeys {flag : Bool} {staging : Cell B} (id : ℕ)
    (hV : Carries args flag (V r) m k) (hap : Apart args.recvbuf args.count staging args.count) :
    ∃ inv, Obeys (allreduceRdFuncs (· * ·)) AllreduceRdOp.status id
      (allreduceRdOpNew (memberVGroup l r) { args with sendbuf := args.sendFrom flag } staging) inv
      (Carries args true (rdData l.length (fun v => V (l.getD v 0)) (rdSteps l.length)
        (rdNew l.length (l.idxOf r))))
      ⟨m, [], (allreduceRdTrace l.length args.count (fun v => V (l.getD v 0)) (fun _ => ∅)
        (l.idxOf r)).map (Event.mapPeer (l.getD · 0)), k⟩ := by
  have hown : V (l.getD (l.idxOf r) 0) = V r := by rw [getD_idxOf_self hr]
  have hx : AllreduceArgs.Brings { args with sendbuf := args.sendFrom flag } m
      (V (l.getD (memberVGroup l r).myrank 0)) := by
    rw [memberVGroup, hown]
    exact hV
  have hobeys := allreduceRd_obeys (memberVGroup l r) { args with sendbuf := args.sendFrom flag }
    staging (fun v => V (l.getD v 0)) (fun _ => ∅) (List.idxOf_lt_length_iff.mpr hr) hap hx id
    (Set.empty_subset k)
  exact ⟨_, hobeys.imp fun _ _ h => carries_true.mpr h.1⟩

omit [CommSemigroup β] in
/-- The broadcast. -/
theorem bcastMember_obeys (config : BcastKntreeConfig) (id : ℕ)
    (hV : Carries args true (V r) m k) : ∃ inv, Obeys bcastKntreeFuncs BcastKntreeOp.status id
      (bcastKntreeOpNew (memberVGroup l r) ⟨args.recvbuf, args.count, 0⟩ config) inv
      (Carries args true (V (l.getD 0 0)))
      ⟨m, [], (bcastTreeTrace l.length 0 (bcastKntreeParent l.length config.kntreeDegree)
        (bcastKntreeChildren l.length config.kntreeDegree) args.count (V (l.getD 0 0))
        (l.idxOf r)).map (Event.mapPeer (l.getD · 0)), k⟩ := by
  have hbuf : l.idxOf r = 0 → Holds m args.recvbuf args.count (V (l.getD 0 0)) := by
    intro hzero
    have hown := getD_idxOf_self hr
    rw [hzero] at hown
    rw [hown]
    exact carries_true.mp hV
  obtain ⟨inv, hobeys⟩ := bcastKntree_obeys (memberVGroup l r) ⟨args.recvbuf, args.count, 0⟩ config
    (V (l.getD 0 0)) hlen (List.idxOf_lt_length_iff.mpr hr) (by dsimp only [memberVGroup]; omega)
    (fun _ => rfl) id (k := k) hbuf
  exact ⟨inv, hobeys.imp fun _ _ h => carries_true.mpr h⟩

end Member

section Work

variable [DecidableEq B] [CommSemigroup β] {place : ℕ → Location} {size count : ℕ}
  {envs : ℕ → AllreduceEnv B} {args : ℕ → AllreduceArgs B} {configs : ℕ → AllreduceConfig}
  {config : AllreduceConfig} {flags moved : List TopoGroupType} {V : ℕ → ℕ → β}

/-- The operations of a step combine the values. -/
theorem allreduceStep_work (id i : ℕ) (step : AllreduceStep)
    (hagree : ∀ r < size, step.Agree (configs r) config)
    (hcount : ∀ r < size, (args r).count = count)
    (hsend : ∀ r < size, ∀ sendbuf ∈ (args r).sendbuf, Apart sendbuf count (args r).recvbuf count)
    (hfits : step.Fits flags moved)
    (hstaged : ∀ r, InGroup (topoLists place size step.type) r →
      (step.opNew (envs r) (args r) (configs r) (Grouped place size flags r) i
        (memberVGroup (topoLists place size step.type r) r)).StagedApart) :
    GroupWork (allreduceSubFuncs ((· * ·) : β → β → β)) AllreduceSubOp.status id size (size + 2)
      (topoLists place size step.type)
      (fun r => step.opNew (envs r) (args r) (configs r) (Grouped place size flags r) i)
      (allreduceStepTrace count config V step)
      (fun r => Carries (args r) (Grouped place size moved r) (V r))
      (fun r => Carries (args r) (Grouped place size (step.moves moved) r)
        (stepValue config V (topoLists place size step.type) step r)) where
  grouping := isGrouping_topoLists _
  lt_size _ _ hq := lt_of_mem_topoLists hq
  obeys r hin m k hP := by
    have hmem : r ∈ topoLists place size step.type r := hin.1
    have hr := lt_of_mem_topoLists hmem
    have hdeg := hagree r hr
    have hstage := hstaged r hin
    have hcarries (types : List TopoGroupType) (htypes : step.type ∈ types) (y : ℕ → β)
        (m : Cell B → β) (k : Set ℕ) (h : Carries (args r) true y m k) :
        Carries (args r) (Grouped place size types r) y m k := by
      have hgrouped : Grouped place size types r := ⟨_, htypes, hin⟩
      rwa [decide_eq_true hgrouped]
    rw [← hcount r hr]
    cases step with
    | reduce type setFlag =>
      obtain rfl : flags = moved := hfits
      obtain ⟨inv, hobeys⟩ := reduceMember_obeys hmem hin.2 id hstage hP
      rw [stepValue, if_pos hin]
      dsimp only [AllreduceStep.opNew]
      rw [show (configs r).faninDegree type = config.faninDegree type from hdeg] at hobeys ⊢
      refine ⟨_, (hobeys.embed embeds_sub_reduce).imp fun m k => hcarries _ ?_ _ m k⟩
      exact List.mem_append_right _ (List.mem_singleton_self _)
    | rd type =>
      obtain rfl : flags = moved := hfits
      obtain ⟨inv, hobeys⟩ := rdMember_obeys hmem id hP hstage
      rw [stepValue, if_pos hin]
      refine ⟨_, (hobeys.embed embeds_sub_rd).imp fun m k => hcarries _ ?_ _ m k⟩
      exact List.mem_append_right _ (List.mem_singleton_self _)
    | bcast type =>
      have hgrouped : Grouped place size moved r := ⟨_, hfits, hin⟩
      rw [decide_eq_true hgrouped] at hP
      obtain ⟨inv, hobeys⟩ := bcastMember_obeys hmem hin.2 { (envs r).bcastStack with
        kntreeDegree := config.fanoutDegree type } id hP
      rw [stepValue, if_pos hin]
      dsimp only [AllreduceStep.opNew]
      rw [show (configs r).fanoutDegree type = config.fanoutDegree type from hdeg]
      exact ⟨_, (hobeys.embed embeds_sub_bcast).imp fun m k => hcarries _ hfits _ m k⟩
  idle r hin m k hP := by
    have hmoves : Grouped place size (step.moves moved) r ↔ Grouped place size moved r := by
      cases step with
      | reduce type setFlag => exact grouped_append.trans (or_iff_left hin)
      | rd type => exact grouped_append.trans (or_iff_left hin)
      | bcast type => exact Iff.rfl
    rw [stepValue_of_not_inGroup hin]
    simpa only [hmoves] using hP
  lively r hin := by
    have hr := lt_of_mem_topoLists hin.1
    have hv : (memberVGroup (topoLists place size step.type r) r).myrank <
        (memberVGroup (topoLists place size step.type r) r).size :=
      List.idxOf_lt_length_iff.mpr hin.1
    cases step with
    | reduce type setFlag => exact (reduceKntree_lively _ _ id).embed embeds_sub_reduce
    | rd type =>
      refine (allreduceRd_lively hv (hstaged r hin) ?_ (V r) id).embed embeds_sub_rd
      intro sendbuf hmem
      rw [AllreduceArgs.sendFrom] at hmem
      split_ifs at hmem
      · cases hmem
      · rw [hcount r hr]
        exact hsend r hr sendbuf hmem
    | bcast type => exact (bcastKntree_lively _ id).embed embeds_sub_bcast
  paced r hin := by
    have hlen : (topoLists place size step.type r).length ≤ size := length_topoLists_le _
    have hpos : 0 < (topoLists place size step.type r).length := List.length_pos_of_mem hin.1
    cases step with
    | reduce type setFlag =>
      rw [allreduceStepTrace]
      exact (paced_reduceKntreeTrace hin.2 hpos).mono (hlen.trans (by omega))
    | rd type =>
      have hsteps : rdSteps (topoLists place size (AllreduceStep.rd type).type r).length ≤
          (topoLists place size (AllreduceStep.rd type).type r).length := Nat.log2_le_self _
      exact paced_rdTrace.mono (by omega)
    | bcast type =>
      exact (paced_bcastTreeTrace (rankTree_bcast hin.2) hpos).mono (hlen.trans (by omega))
  peer r hin v e he := by
    have hpos : 0 < (topoLists place size step.type r).length := List.length_pos_of_mem hin.1
    cases step with
    | reduce type setFlag =>
      rw [allreduceStepTrace] at he
      exact reduceKntreeTrace_peer hin.2 hpos e he
    | rd type => exact rdTrace_peer hpos.ne' e he
    | bcast type => exact bcastTreeTrace_peer (rankTree_bcast hin.2) hpos e he

variable (config place size) in
/-- What the ranks have after the steps. -/
noncomputable def stepsValue : List AllreduceStep → (ℕ → ℕ → β) → ℕ → ℕ → β
  | [], V => V
  | step :: steps, V =>
    stepsValue steps (stepValue config V (topoLists place size step.type) step)

/-- The steps one after another. -/
theorem allreduceSteps_works (id : ℕ) (hcount : ∀ r < size, (args r).count = count)
    (hsend : ∀ r < size, ∀ sendbuf ∈ (args r).sendbuf,
      Apart sendbuf count (args r).recvbuf count) :
    ∀ {steps : List AllreduceStep} {i : ℕ} {flags moved : List TopoGroupType} (V : ℕ → ℕ → β),
      (∀ step ∈ steps, ∀ r < size, step.Agree (configs r) config) → FitsAll flags moved steps →
      (∀ r < size, ∀ op ∈ allreduceOps (envs r) (args r) (configs r) place size r flags i steps,
        op.StagedApart) →
      ∃ trace, GroupWorks (allreduceSubFuncs ((· * ·) : β → β → β)) AllreduceSubOp.status id
        .empty size (size + 2)
        (fun r => allreduceOps (envs r) (args r) (configs r) place size r flags i steps) trace
        (fun r => Carries (args r) (Grouped place size moved r) (V r))
        (fun r => Carries (args r) (Grouped place size (movesAll moved steps) r)
          (stepsValue place size config steps V r)) steps.length
  | [], i, flags, moved, V, _, _, _ => ⟨_, .nil _⟩
  | step :: steps, i, flags, moved, V, hagree, hfits, hstaged => by
    rw [List.forall_mem_cons] at hagree
    obtain ⟨trace, hworks⟩ := allreduceSteps_works id hcount hsend
      (stepValue config V (topoLists place size step.type) step) hagree.2 hfits.2
      fun r hr op hop => hstaged r hr op (List.mem_cons_of_mem _ hop)
    refine ⟨_, .cons (allreduceStep_work id i step hagree.1 hcount hsend hfits.1 fun r hin => ?_)
      hworks⟩
    have hfirst := hstaged r (lt_of_mem_topoLists hin.1) _ List.mem_cons_self
    rwa [memberOp, if_pos hin] at hfirst

end Work

/-! ### The values -/

/-- Who gets what in a step. -/
def AllreduceStep.telling : AllreduceStep → Telling
  | .reduce _ _ => .gather
  | .rd _ => .exchange
  | .bcast _ => .scatter

/-- The step as a phase. -/
def AllreduceStep.phase (place : ℕ → Location) (size : ℕ) (step : AllreduceStep) : TellPhase :=
  ⟨step.telling, topoLists place size step.type⟩

theorem prod_range_getD {M : Type*} [CommMonoid M] (f : ℕ → M) : ∀ l : List ℕ,
    ∏ v ∈ Finset.range l.length, f (l.getD v 0) = (l.map f).prod
  | [] => rfl
  | a :: l => by
    rw [List.length_cons, Finset.prod_range_succ', List.map_cons, List.prod_cons,
      ← prod_range_getD f l, mul_comm]
    rfl

section Values

variable [CommSemigroup β] {place : ℕ → Location} {size : ℕ} {config : AllreduceConfig}

/-- The product over a group. -/
theorem coe_prodFrom_getD {l : List ℕ} (hl : 0 < l.length) (V : ℕ → ℕ → β) :
    ((prodFrom (fun v => V (l.getD v 0)) 0 (l.length - 1) : ℕ → β) : WithOne (ℕ → β)) =
      (l.map fun q => (V q : WithOne (ℕ → β))).prod := by
  rw [coe_prodFrom, Nat.sub_add_cancel hl]
  exact prod_range_getD (fun q => (V q : WithOne (ℕ → β))) l

/-- A step in the groups `g` combines the values as its phase says. -/
theorem stepValue_combines (g : ℕ → List ℕ) (step : AllreduceStep) (V : ℕ → ℕ → β) :
    TellPhase.Combines ⟨step.telling, g⟩ (fun r => (V r : WithOne (ℕ → β)))
      fun r => (stepValue config V g step r : WithOne (ℕ → β)) := by
  intro r (hr : r ∈ g r)
  have hpos : 0 < (g r).length := List.length_pos_of_mem hr
  by_cases hin : InGroup g r
  · cases step with
    | reduce type setFlag =>
      intro hfirst
      obtain ⟨l, hl⟩ := List.head?_eq_some_iff.mp hfirst
      have hzero : (g r).idxOf r = 0 := by rw [show g r = r :: l from hl, List.idxOf_cons_self]
      have hroot : fromRoot (g r).length 0 0 = 0 := (fromRoot_eq_zero_iff hpos hpos).mpr rfl
      have hvalue : stepValue config V g (.reduce type setFlag) r =
          prodFrom (fun v => V ((g r).getD v 0)) 0 ((g r).length - 1) := by
        refine (if_pos hin).trans ?_
        dsimp only
        rw [hzero, hroot]
        exact reduceValue_root hin.2 hpos fun v => V ((g r).getD v 0)
      exact (congrArg WithOne.coe hvalue).trans (coe_prodFrom_getD hpos V)
    | rd type =>
      obtain ⟨k, hk, hprod⟩ := rdValue_all (P := IsProd fun v => V ((g r).getD v 0))
        (IsProd.single _) IsProd.mul hpos.ne' (rdNew_lt (List.idxOf_lt_length_iff.mpr hr))
      have hvalue : stepValue config V g (.rd type) r =
          prodFrom (fun v => V ((g r).getD v 0)) 0 ((g r).length - 1) := by
        rw [show (g r).length - 1 = k by omega]
        exact (if_pos hin).trans hprod
      exact (congrArg WithOne.coe hvalue).trans (coe_prodFrom_getD hpos V)
    | bcast type =>
      rintro q hq
      obtain ⟨l, hl⟩ := List.head?_eq_some_iff.mp hq
      have hvalue : stepValue config V g (.bcast type) r = V q := by
        refine (if_pos hin).trans ?_
        rw [show g r = q :: l from hl]
        rfl
      exact congrArg WithOne.coe hvalue
  · -- the rank is alone, and keeps what it has
    have hone : g r = [r] := by
      have hlen : (g r).length = 1 := by
        have hnot : ¬2 ≤ (g r).length := fun hlen => hin ⟨hr, hlen⟩
        omega
      obtain ⟨a, ha⟩ := List.length_eq_one_iff.mp hlen
      rw [ha, List.mem_singleton] at hr
      rw [ha, hr]
    cases step <;> simp [AllreduceStep.telling, stepValue_of_not_inGroup hin, hone]

variable (place size config) in
theorem stepsValue_combines : ∀ (steps : List AllreduceStep) (V : ℕ → ℕ → β),
    CombinesAll (steps.map (AllreduceStep.phase place size)) (fun r => (V r : WithOne (ℕ → β)))
      fun r => (stepsValue place size config steps V r : WithOne (ℕ → β))
  | [], _ => rfl
  | step :: steps, V => ⟨_, stepValue_combines _ step V, stepsValue_combines steps _⟩

end Values

/-! ### The six algorithms -/

/-- The calls of the `op_new` of an algorithm. -/
def AllreduceAlgo.steps : AllreduceAlgo → List AllreduceStep
  | .naKntree => [.reduce .node true, .reduce .nodeLeader false, .bcast .nodeLeader, .bcast .node]
  | .saKntree => [.reduce .socket true, .reduce .socketLeader true, .reduce .nodeLeader false,
      .bcast .nodeLeader, .bcast .socketLeader, .bcast .socket]
  | .naRdAndKntree | .naRdAndBntree => [.reduce .node true, .rd .nodeLeader, .bcast .node]
  | .saRdAndKntree | .saRdAndBntree => [.reduce .socket true, .reduce .socketLeader true,
      .rd .nodeLeader, .bcast .socketLeader, .bcast .socket]

/-- The configuration of an algorithm. -/
def AllreduceAlgo.config (env : AllreduceEnv B) (config : AllreduceConfig) :
    AllreduceAlgo → AllreduceConfig
  | .naKntree | .saKntree | .naRdAndKntree | .saRdAndKntree => config
  | .naRdAndBntree | .saRdAndBntree => env.bntreeConfig

section Algo

variable {env : AllreduceEnv B} {args : AllreduceArgs B} {config : AllreduceConfig}
  {checked : AllreduceChecked} {topo : TopoPpx} {metaOp : MetaOp (AllreduceSubOp B)}

theorem allreduceOpNew_some {steps : List AllreduceStep} {topo topo' : Topo}
    (h : allreduceOpNew env args config steps topo = .ok (topo', some metaOp)) :
    ∃ s, allreduceAddAll env args config steps ⟨⟨topo, []⟩, false⟩ = .ok (s, .ok) ∧
      metaOp = metaOpNew s.ops 0 := by
  rw [allreduceOpNew] at h
  split_ifs at h with hmem
  · generalize allreduceAddAll env args config steps ⟨⟨topo, []⟩, false⟩ = res at h ⊢
    obtain err | ⟨s, status⟩ := res
    · cases h
    dsimp only [bind, Except.bind] at h
    have hop := congrArg Prod.snd (Except.ok.inj h)
    dsimp only at hop
    split_ifs at hop with hst
    rw [not_not] at hst
    subst hst
    exact ⟨s, rfl, (Option.some.inj hop).symm⟩
  · cases h

theorem allreducePrepare_ok {check : Status} {steps : List AllreduceStep} {topo : Topo}
    (h : (allreducePrepare check (allreduceOpNew env args config steps) topo).map Prod.snd =
      .ok (.ok metaOp)) :
    check = .ok ∧ ∃ s, allreduceAddAll env args config steps ⟨⟨topo, []⟩, false⟩ = .ok (s, .ok) ∧
      metaOp = metaOpNew s.ops 0 := by
  rw [allreducePrepare] at h
  split_ifs at h with hcheck
  · cases h
  refine ⟨not_not.mp hcheck, ?_⟩
  generalize hnew : allreduceOpNew env args config steps topo = res at h
  obtain err | ⟨topo', _ | metaOp'⟩ := res
  · cases h
  · cases h
  · cases h
    exact allreduceOpNew_some hnew

/-- What a preparation makes that succeeds. -/
theorem AllreduceAlgo.prepare_ok {algo : AllreduceAlgo}
    (h : (algo.prepare env args config checked topo).map Prod.snd = .ok (.ok metaOp)) :
    checked.commutative = true ∧ ∃ s, allreduceAddAll env args (algo.config env config) algo.steps
      ⟨⟨topo.topo, []⟩, false⟩ = .ok (s, .ok) ∧ metaOp = metaOpNew s.ops 0 := by
  have hna (h : allreduceNaCheck checked topo = .ok) : checked.commutative = true := by
    by_contra hnot
    rw [allreduceNaCheck, if_pos hnot] at h
    cases h
  have hsa (h : allreduceSaCheck checked topo = .ok) : checked.commutative = true := by
    by_contra hnot
    rw [allreduceSaCheck, if_pos hnot] at h
    cases h
  cases algo with
  | naKntree | naRdAndKntree | naRdAndBntree => exact (allreducePrepare_ok h).imp_left hna
  | saKntree | saRdAndKntree | saRdAndBntree => exact (allreducePrepare_ok h).imp_left hsa

/-- What the stack holds makes no difference for the trees. -/
theorem AllreduceAlgo.agree (algo : AllreduceAlgo) (env' : AllreduceEnv B) : ∀ step ∈ algo.steps,
    step.Agree (algo.config env config) (algo.config env' config) := by
  cases algo <;> simp only [AllreduceAlgo.steps, List.forall_mem_cons] <;>
    exact by simp [AllreduceStep.Agree, AllreduceAlgo.config, AllreduceEnv.bntreeConfig,
      AllreduceConfig.faninDegree, AllreduceConfig.fanoutDegree, TopoGroupType.Intra]

/-- The flag is set where it is needed. -/
theorem AllreduceAlgo.fitsAll (algo : AllreduceAlgo) : FitsAll [] [] algo.steps := by
  cases algo <;> simp [AllreduceAlgo.steps, FitsAll, AllreduceStep.Fits, AllreduceStep.flagged,
    AllreduceStep.moves]

variable {place : ℕ → Location} {size r : ℕ}

/-- Every rank is in a group, unless there is only one rank. -/
theorem AllreduceAlgo.grouped (algo : AllreduceAlgo) (hsize : 2 ≤ size) (hr : r < size) :
    Grouped place size (movesAll [] algo.steps) r := by
  have hmany : {q | q < size}.Nontrivial := ⟨0, by simp; omega, 1, by simp; omega, zero_ne_one⟩
  obtain ⟨T, hone, htop⟩ := levels_nodeLeader place size
  have hnode := (levels_node htop).company hmany r hr
  have hsocket := (levels_socket htop).company hmany r hr
  have hnot : ¬(r ∈ T ∧ T.Nontrivial) := fun h => Set.not_subsingleton_iff.mpr h.2 hone
  cases algo with
  | naKntree | naRdAndKntree | naRdAndBntree =>
    obtain ⟨g, hg, hin⟩ := hnode.resolve_right hnot
    simp only [List.mem_cons, List.not_mem_nil, or_false] at hg
    obtain rfl | rfl := hg
    · exact ⟨.node, by decide, hin⟩
    · exact ⟨.nodeLeader, by decide, hin⟩
  | saKntree | saRdAndKntree | saRdAndBntree =>
    obtain ⟨g, hg, hin⟩ := hsocket.resolve_right hnot
    simp only [List.mem_cons, List.not_mem_nil, or_false] at hg
    obtain rfl | rfl | rfl := hg
    · exact ⟨.socket, by decide, hin⟩
    · exact ⟨.socketLeader, by decide, hin⟩
    · exact ⟨.nodeLeader, by decide, hin⟩

/-- After the steps every rank has the product of all inputs. -/
theorem AllreduceAlgo.result [CommSemigroup β] (algo : AllreduceAlgo) (hr : r < size)
    (x : ℕ → ℕ → β) : stepsValue place size config algo.steps x r = prodFrom x 0 (size - 1) := by
  have hcombines := stepsValue_combines place size config algo.steps x
  refine WithOne.coe_inj.mp ?_
  rw [coe_prodFrom, Nat.sub_add_cancel (by omega), ← total_all size]
  obtain ⟨T, hone, htop⟩ := levels_nodeLeader place size
  have hmid (V V' : ℕ → WithOne (ℕ → β)) (h : CombinesAll [] V V') (r) (hr : r ∈ T) :
      V' r = total (ranksOf size T) V := by
    rw [h]
    exact (total_subsingleton hone hr (htop.top_subset hr).1 V).symm
  have hmidRd (V V' : ℕ → WithOne (ℕ → β))
      (h : CombinesAll [⟨.exchange, topoLists place size .nodeLeader⟩] V V') (r)
      (hr : r ∈ {r | r < size ∧ LeadsNode place r}) :
      V' r = total (ranksOf size {r | r < size ∧ LeadsNode place r}) V := by
    obtain ⟨W, hW, rfl⟩ := h
    refine total_exchange (mem_nodeLeader.mpr hr) ((isGrouping_topoLists _).nodup r)
      (fun q => mem_nodeLeader.trans ?_) hW
    exact ⟨fun h => ⟨h.1, h⟩, fun h => h.2⟩
  have hlt (r) (hr : r ∈ {r | r < size}) : r < size := hr
  cases algo with
  | naKntree => exact (levels_node htop).combine hlt hmid _ _ hcombines r hr
  | saKntree => exact (levels_socket htop).combine hlt hmid _ _ hcombines r hr
  | naRdAndKntree | naRdAndBntree =>
    exact (levels_node (.top _)).combine hlt hmidRd _ _ hcombines r hr
  | saRdAndKntree | saRdAndBntree =>
    exact (levels_socket (.top _)).combine hlt hmidRd _ _ hcombines r hr

end Algo

/-! ### Every run -/

section Runs

variable [DecidableEq B] {place : ℕ → Location} {size count : ℕ} {envs : ℕ → AllreduceEnv B}
  {args : ℕ → AllreduceArgs B} {calls : ℕ → List TopoCall}
  {metaOps : ℕ → MetaOp (AllreduceSubOp B)} {x : ℕ → ℕ → β} {m : ℕ → Cell B → β}

/-- The request of rank `r`. -/
def allreduceMetaProc [Mul β] (metaOps : ℕ → MetaOp (AllreduceSubOp B)) (id r : ℕ) :
    Proc (Cell B) β (MetaOp (AllreduceSubOp B)) :=
  opProc (metaFuncs (allreduceSubFuncs (· * ·))) MetaOp.status (metaOps r) id

/-- The calls of all ranks: inputs `x` in memory `m`, and what was asked of the topology before. -/
structure AllreduceCall (size count : ℕ) (envs : ℕ → AllreduceEnv B) (args : ℕ → AllreduceArgs B)
    (calls : ℕ → List TopoCall) (x : ℕ → ℕ → β) (m : ℕ → Cell B → β) : Prop where
  count_eq : ∀ r < size, (args r).count = count
  brings : ∀ r < size, (args r).Brings (m r) (x r)
  located : ∀ r < size, (envs r).Located ∧ ∀ c ∈ calls r, c.Located

/-- With an operator that is commutative. -/
theorem allreduceMeta_of_comm [CommSemigroup β] (algo : AllreduceAlgo) (hids : HasIds place size)
    (hsize : 2 ≤ size) (config : AllreduceConfig) (checked : AllreduceChecked) (ppn pps : ℤ)
    (hcall : AllreduceCall size count envs args calls x m)
    (hprepare : ∀ r < size, (algo.prepare (envs r) (args r) config checked
      ⟨(topoInit size r place).after (calls r), ppn, pps⟩).map Prod.snd = .ok (.ok (metaOps r)))
    (hstaged : ∀ r < size, ∀ op ∈ (metaOps r).ops, op.StagedApart) (id : ℕ) {acts : List Act}
    {N : Net (Cell B) β (MetaOp (AllreduceSubOp B))}
    (hrun : (Net.init m).run size (allreduceMetaProc metaOps id) acts = some N) :
    AllreduceMeets size count args x (allreduceMetaProc metaOps id) MetaOp.status N := by
  have hops (r) (hr : r < size) : metaOps r = metaOpNew (allreduceOps (envs r) (args r)
      (algo.config (envs r) config) place size r [] 0 algo.steps) 0 := by
    obtain ⟨-, s, hadd, heq⟩ := AllreduceAlgo.prepare_ok (hprepare r hr)
    obtain ⟨henv, hcalls⟩ := hcall.located r hr
    rw [heq, allreduceAddAll_ok hids hr henv [] hcalls hadd]
    rfl
  have hsend (r) (hr : r < size) (sendbuf) (hmem : sendbuf ∈ (args r).sendbuf) :
      Apart sendbuf count (args r).recvbuf count := by
    have hapart := (hcall.brings r hr).apart sendbuf hmem
    rwa [hcall.count_eq r hr] at hapart
  obtain ⟨trace, hworks⟩ := @allreduceSteps_works B β _ _ place size count envs args
    (fun r => algo.config (envs r) config) (algo.config (envs 0) config) id hcall.count_eq hsend
    algo.steps 0 [] [] x (fun step hstep r _ => algo.agree (envs 0) step hstep) algo.fitsAll
    fun r hr op hop => hstaged r hr op (by rw [hops r hr]; exact hop)
  have hne : algo.steps.length ≠ 0 := by cases algo <;> exact Nat.succ_ne_zero _
  have hobeys (r) (hr : r < size) : ∃ inv, Obeys (metaFuncs (allreduceSubFuncs (· * ·)))
      MetaOp.status id (metaOps r) inv (Carries (args r) true (prodFrom x 0 (size - 1)))
      ⟨m r, [], trace r, {r}⟩ := by
    have hnone : ¬Grouped place size [] r := fun h => by simp [Grouped] at h
    have hmeta := hworks.obeys embeds_sub_empty hne r (m r) (k := {r}) (by
      rw [decide_eq_false hnone]
      exact hcall.brings r hr)
    rw [decide_eq_true (algo.grouped hsize hr), algo.result hr x] at hmeta
    rwa [hops r hr]
  obtain ⟨hsafe, hlive⟩ := obeys_run hworks.paced (fun r hr => hworks.trace_of_le hr) hobeys
    (fun r hr => by rw [hops r hr]; exact hworks.metaOp_lively embeds_sub_empty hne r) hrun
  refine ⟨fun r hr op hfin => ?_, hlive⟩
  obtain ⟨hok, know, hres, -⟩ := hsafe r hr op hfin
  rw [carries_true, hcall.count_eq r hr] at hres
  refine ⟨hok, fun j hj => ?_⟩
  rw [hres j hj, prodFrom_apply]

/-- Every hierarchical allreduce that all ranks have prepared gives all of them the combination of
    all inputs, however the ranks are placed, whatever groups they have asked for before, and
    whatever is on their stacks. The flag of a commutative operator is taken at its word. -/
theorem allreduceMeta_correct [Semigroup β] (algo : AllreduceAlgo) (hids : HasIds place size)
    (hsize : 2 ≤ size) (config : AllreduceConfig) (checked : AllreduceChecked)
    (hcomm : checked.commutative = true → ∀ a b : β, a * b = b * a) (ppn pps : ℤ)
    (hcall : AllreduceCall size count envs args calls x m)
    (hprepare : ∀ r < size, (algo.prepare (envs r) (args r) config checked
      ⟨(topoInit size r place).after (calls r), ppn, pps⟩).map Prod.snd = .ok (.ok (metaOps r)))
    (hstaged : ∀ r < size, ∀ op ∈ (metaOps r).ops, op.StagedApart) (id : ℕ) (acts : List Act)
    (N : Net (Cell B) β (MetaOp (AllreduceSubOp B)))
    (hrun : (Net.init m).run size (allreduceMetaProc metaOps id) acts = some N) :
    AllreduceMeets size count args x (allreduceMetaProc metaOps id) MetaOp.status N := by
  obtain ⟨hcommutative, -⟩ := AllreduceAlgo.prepare_ok (hprepare 0 (by omega))
  let _ : CommSemigroup β := { ‹Semigroup β› with mul_comm := hcomm hcommutative }
  exact allreduceMeta_of_comm algo hids hsize config checked ppn pps hcall hprepare hstaged id hrun

end Runs

/-! Two ranks on one node and a third one on another, whose call is in place. The third one takes
    part only among the node leaders. Rank 0 finishes before the others. -/

def threeAllreduceEnv : AllreduceEnv (Fin 3) :=
  ⟨fun _ => ⟨⟨envOf true, envOf true⟩, true⟩, fun _ => (Fin.last 2, 0), true, ⟨0, false⟩,
    ⟨0, 0, 0, 0⟩⟩

/-- Rank `r` contributes the number `r + 2`. -/
def threeNumbers (r : ℕ) (c : Cell (Fin 3)) : ℕ :=
  if c.1 = ((threeArgs r).sendbuf.getD (threeArgs r).recvbuf).1 then r + 2 else 1

/-- What the prepare function gives rank `r`. -/
def threePrepared (r : ℕ) :
    Except (Halt Status) (Except Status (MetaOp (AllreduceSubOp (Fin 3)))) :=
  (AllreduceAlgo.naRdAndKntree.prepare threeAllreduceEnv (threeArgs r) ⟨2, 2, 2, 2⟩ ⟨true, 0⟩
    ⟨(topoInit 3 r threePlaces).after [], ppxUnbalanced, 2⟩).map Prod.snd

/-- The operation of rank `r`. -/
def threeAllreduceOps (r : ℕ) : MetaOp (AllreduceSubOp (Fin 3)) :=
  match threePrepared r with
  | .ok (.ok metaOp) => metaOp
  | _ => metaOpNew [] 0

def threeAllreduceActs : List Act :=
  [.start 0, .start 1, .start 2, .exec 0, .exec 0, .exec 0, .exec 0, .exec 0, .exec 1, .exec 1,
    .exec 1, .exec 1, .exec 1, .exec 2, .deliver 1 0, .sent 1, .resume 0, .exec 0, .exec 0, .exec 0,
    .resume 0, .exec 0, .exec 0, .exec 0, .exec 0, .exec 0, .sent 0, .resume 1, .exec 1, .exec 1,
    .resume 1, .exec 1, .resume 1, .exec 1, .exec 1, .exec 1, .exec 1, .resume 2, .exec 2, .exec 2,
    .exec 2, .exec 2, .exec 2, .deliver 0 2, .deliver 2 0, .sent 2, .resume 0, .exec 0, .exec 0,
    .exec 0, .exec 0, .resume 0, .exec 0, .exec 0, .exec 0, .exec 0, .deliver 0 1, .sent 0,
    .resume 0, .exec 0, .exec 0]

theorem allreduceMeta_correct_three : ∃ N op,
    (Net.init threeNumbers).run 3 (allreduceMetaProc threeAllreduceOps 7) threeAllreduceActs =
      some N ∧ N.FinishedIn 0 op ∧
    AllreduceMeets 3 1 threeArgs (fun r _ => r + 2) (allreduceMetaProc threeAllreduceOps 7)
      MetaOp.status N := by
  have hsome : (((Net.init threeNumbers).run 3 (allreduceMetaProc threeAllreduceOps 7)
      threeAllreduceActs).bind fun N => (N.node 0).ctl.result).isSome := by decide +kernel
  obtain ⟨op, hbind⟩ := Option.isSome_iff_exists.mp hsome
  obtain ⟨N, hrun, hop⟩ := Option.bind_eq_some_iff.mp hbind
  have hids : HasIds threePlaces 3 := fun _ _ => ⟨rfl, rfl⟩
  have hcall : AllreduceCall 3 1 (fun _ => threeAllreduceEnv) threeArgs (fun _ => [])
      (fun r _ => r + 2) threeNumbers := by
    refine ⟨fun _ _ => rfl, fun r hr => ?_, fun r _ => ⟨fun _ => ⟨fun _ => rfl, fun _ => rfl⟩, ?_⟩⟩
    · interval_cases r
      · exact ⟨fun _ _ => rfl, by simp [threeArgs, Apart]⟩
      · exact ⟨fun _ _ => rfl, by simp [threeArgs, Apart]⟩
      · exact ⟨fun _ _ => rfl, by simp [threeArgs]⟩
    · simp
  have hprepared : ∀ r < 3, ((threePrepared r).toOption.bind Except.toOption).isSome := by
    decide +kernel
  have hprepare : ∀ r < 3, threePrepared r = .ok (.ok (threeAllreduceOps r)) := by
    intro r hr
    have hok := hprepared r hr
    rw [threeAllreduceOps]
    generalize threePrepared r = res at hok ⊢
    rcases res with err | err | metaOp
    · cases hok
    · cases hok
    · rfl
  have hstaged : ∀ r < 3, ∀ op ∈ (threeAllreduceOps r).ops, op.StagedApart := by decide +kernel
  exact ⟨N, op, hrun, Ctl.result_eq_some.mp hop, @allreduceMeta_correct (Fin 3) ℕ _ threePlaces 3 1
    (fun _ => threeAllreduceEnv) threeArgs (fun _ => []) threeAllreduceOps (fun r _ => r + 2)
    threeNumbers _ .naRdAndKntree hids (by decide) ⟨2, 2, 2, 2⟩ ⟨true, 0⟩
    (fun _ => Nat.mul_comm) ppxUnbalanced 2 hcall hprepare hstaged 7 threeAllreduceActs N hrun⟩

end Kucg.Ucx
