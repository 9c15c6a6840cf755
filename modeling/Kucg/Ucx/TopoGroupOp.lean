import Kucg.Core.TopoLevels
import Kucg.Ucx.OpLive

/-! Meta-operations whose sub-operations are those of topology groups.

    A rank that is in the group of a sub-operation adds the operation of a member, the others add an
    empty one (`planc_ucx_meta.c`). What a sub-operation does to its group is told by `GroupWork`:
    the messages between the places in the group, and the conditions before and after. Works one
    after another make a schedule of the whole meta-operation that proceeds in rounds
    (`GroupWorks`). -/

namespace Kucg.Ucx

open Kucg.Core Kucg.Lib

variable {ι β O : Type}

/-! ### The empty operation -/

/-- `ucg_planc_ucx_op_t` of an empty operation. -/
structure EmptyOp where
  status : Status
  id : ℕ

/-- `ucg_planc_ucx_empty_op_trigger`. -/
def emptyOpTrigger (_ : EmptyOp) (id : ℕ) : Prog ι β (EmptyOp × Status) := pure (⟨.ok, id⟩, .ok)

/-- `ucg_planc_ucx_empty_op_progress`. -/
def emptyOpProgress (op : EmptyOp) : Prog ι β (EmptyOp × Status) :=
  pure ({ op with status := .ok }, .ok)

/-- The trigger and progress functions of the operation. -/
def emptyFuncs : OpFuncs (Prog ι β) EmptyOp where
  trigger := emptyOpTrigger
  progress := emptyOpProgress

/-- `ucg_planc_ucx_empty_op_new`, when there is memory. -/
def emptyOpNew : EmptyOp := ⟨.ok, 0⟩

theorem empty_obeys [DecidableEq ι] {id : ℕ} {Q : Cond ι β} {g : Ghost ι β} (h : Done Q g) :
    Obeys emptyFuncs EmptyOp.status id emptyOpNew (fun op g => op.status = .ok ∧ Done Q g) Q g where
  trigger := ⟨rfl, h⟩
  progress _ _ h := ⟨rfl, rfl, h.2⟩
  settled _ _ h := Or.inr h

theorem empty_lively (id : ℕ) :
    OpLively (emptyFuncs : OpFuncs (Prog ι β) EmptyOp) EmptyOp.status id emptyOpNew :=
  ⟨fun _ => True, ⟨fun _ _ => ⟨rfl, trivial⟩, fun _ _ => Status.noConfusion⟩, trivial⟩

/-! ### Adding the operation of a topology group -/

/-- `ucg_plan_meta_op_t` while its operations are added, and the topology that has their groups. -/
structure MetaMaking (O : Type) where
  topo : Topo
  ops : List O

/-- `UCG_PLAN_OPS_MAX`. -/
def planOpsMax : ℕ := 8

/-- `ucg_plan_meta_op_add` of an operation that has been made if there was memory for it. -/
def planMetaOpAdd (s : MetaMaking O) (mem : Bool) (op : O) : MetaMaking O × Status :=
  if ¬mem then (s, .errNoMemory)
  else if planOpsMax ≤ s.ops.length then (s, .errNoMemory)
  else ({ s with ops := s.ops ++ [op] }, .ok)

/-- The `ucg_vgroup_t` of a topology group. -/
def topoGroupVGroup (group : TopoGroup) : VGroup :=
  ⟨group.size, group.myrank.getD 0, fun i => (group.rankMap.eval i).getD 0⟩

/-- How the creation of the group of an operation goes, and whether there is memory for the
    operation. -/
structure AddEnv where
  group : GetEnv
  mem : Bool

/-- `ucg_planc_ucx_barrier_add_fanin_topo_group_op` and the functions like it, by the operation
    that each of them makes. -/
def metaAddTopoGroupOp (empty : O) (opNew : VGroup → O) (env : AddEnv) (type : TopoGroupType)
    (s : MetaMaking O) : MetaMaking O × Status :=
  match topoGetGroup s.topo env.group type with
  | (topo, none) => ({ s with topo := topo }, .errUnsupported)
  | (topo, some group) =>
    let s := { s with topo := topo }
    if group.state = .disable then planMetaOpAdd s env.mem empty
    else if group.state ≠ .enable then (s, .errNoResource)
    else planMetaOpAdd s env.mem (opNew (topoGroupVGroup group))

/-- The calls of an `op_new` in turn, up to the first one that fails. -/
def addOps {S : Type} : List (S → S × Status) → S → S × Status
  | [], s => (s, .ok)
  | f :: fs, s =>
    let (s, status) := f s
    if status ≠ .ok then (s, status) else addOps fs s

/-- The group of `members` as rank `r` has it. -/
def memberVGroup (members : List ℕ) (r : ℕ) : VGroup :=
  ⟨members.length, members.idxOf r, (members.getD · 0)⟩

/-- Rank `r` is one of several members of its group. -/
def InGroup (members : ℕ → List ℕ) (r : ℕ) : Prop := r ∈ members r ∧ 2 ≤ (members r).length

instance (members : ℕ → List ℕ) (r : ℕ) : Decidable (InGroup members r) :=
  inferInstanceAs (Decidable (_ ∧ _))

/-- The operation that rank `r` adds for its group. -/
def memberOp (empty : O) (opNew : VGroup → O) (members : ℕ → List ℕ) (r : ℕ) : O :=
  if InGroup members r then opNew (memberVGroup (members r) r) else empty

theorem planMetaOpAdd_ok {s s' : MetaMaking O} {mem : Bool} {op : O}
    (h : planMetaOpAdd s mem op = (s', .ok)) : s' = { s with ops := s.ops ++ [op] } := by
  rw [planMetaOpAdd] at h
  split_ifs at h with hmem hfull
  · exact absurd (congrArg Prod.snd h) (by simp)
  · exact (congrArg Prod.fst h).symm
  · exact absurd (congrArg Prod.snd h) (by simp)

theorem located_append_singleton {calls : List TopoCall} {type : TopoGroupType} {env : GetEnv}
    (hcalls : ∀ c ∈ calls, c.Located) (henv : env.node.Located ∧ env.own.Located) :
    ∀ c ∈ calls ++ [⟨type, env⟩], c.Located :=
  List.forall_mem_append.mpr ⟨hcalls, List.forall_mem_singleton.mpr henv⟩

/-- A rank adds the operation of a member just when it is one of several members. -/
theorem metaAddTopoGroupOp_ok {place : ℕ → Location} {size r : ℕ} (hids : HasIds place size)
    (hr : r < size) {type : TopoGroupType} {calls : List TopoCall}
    (hcalls : ∀ c ∈ calls, c.Located) {empty : O} {opNew : VGroup → O} {env : AddEnv} {ops : List O}
    {s' : MetaMaking O} (h : metaAddTopoGroupOp empty opNew env type
      ⟨(topoInit size r place).after calls, ops⟩ = (s', .ok)) :
    s' = ⟨(topoInit size r place).after (calls ++ [⟨type, env.group⟩]),
      ops ++ [memberOp empty opNew (topoLists place size type) r]⟩ := by
  have hgroup (g : TopoGroup) (hg : g ∈ (topoGetGroup ((topoInit size r place).after calls)
      env.group type).2) : g.Lists (topoLists place size type r) r :=
    answer_lists hids hr hcalls hg
  rw [after_append_singleton]
  rw [metaAddTopoGroupOp] at h
  dsimp only at h hgroup ⊢
  generalize topoGetGroup ((topoInit size r place).after calls) env.group type = res at h hgroup ⊢
  obtain ⟨topo, _ | group⟩ := res
  · exact absurd (congrArg Prod.snd h) (by simp)
  have hlists := hgroup group rfl
  dsimp only at h ⊢
  split_ifs at h with hdis hen
  · rw [planMetaOpAdd_ok h, memberOp, if_neg]
    intro hin
    rw [hlists.enable_iff.mpr hin] at hdis
    cases hdis
  · exact absurd (congrArg Prod.snd h) (by simp)
  · rw [not_not] at hen
    have hvgroup : topoGroupVGroup group = memberVGroup (topoLists place size type r) r := by
      rw [topoGroupVGroup, memberVGroup, hlists.size hen, hlists.myrank hen]
      congr 1
      funext i
      rw [hlists.rankMap hen, List.getD_eq_getElem?_getD]
    have hin : InGroup (topoLists place size type) r := hlists.enable_iff.mp hen
    rw [planMetaOpAdd_ok h, memberOp, if_pos hin, hvgroup]

/-- Then the group in the topology is enabled just when the rank is one of several members. -/
theorem metaAddTopoGroupOp_enable {place : ℕ → Location} {size r : ℕ} (hids : HasIds place size)
    (hr : r < size) {type : TopoGroupType} {calls : List TopoCall}
    (hcalls : ∀ c ∈ calls, c.Located) {empty : O} {opNew : VGroup → O} {env : AddEnv} {ops : List O}
    {s' : MetaMaking O} (h : metaAddTopoGroupOp empty opNew env type
      ⟨(topoInit size r place).after calls, ops⟩ = (s', .ok)) :
    (s'.topo.groups type).state = .enable ↔ InGroup (topoLists place size type) r := by
  have hgroup (g : TopoGroup) (hg : g ∈ (topoGetGroup ((topoInit size r place).after calls)
      env.group type).2) : g.Lists (topoLists place size type r) r :=
    answer_lists hids hr hcalls hg
  rw [metaAddTopoGroupOp] at h
  generalize hres : topoGetGroup ((topoInit size r place).after calls) env.group type = res
    at h hgroup
  obtain ⟨topo, _ | group⟩ := res
  · exact absurd (congrArg Prod.snd h) (by simp)
  have hkept : topo.groups type = group := topoGetGroup_groups hres
  have htopo : s'.topo = topo := by
    dsimp only at h
    split_ifs at h with hdis hen
    · rw [planMetaOpAdd_ok h]
    · exact absurd (congrArg Prod.snd h) (by simp)
    · rw [planMetaOpAdd_ok h]
  rw [htopo, hkept]
  exact (hgroup group rfl).enable_iff

theorem addOps_cons_ok {S : Type} {f : S → S × Status} {fs : List (S → S × Status)} {s s' : S}
    (h : addOps (f :: fs) s = (s', .ok)) :
    ∃ s₁, f s = (s₁, .ok) ∧ addOps fs s₁ = (s', .ok) := by
  rw [addOps] at h
  dsimp only at h
  split_ifs at h with hst
  · exact absurd (congrArg Prod.snd h) hst
  · exact ⟨_, Prod.ext rfl (not_not.mp hst), h⟩

/-! ### The work of a group -/

section Work

variable [DecidableEq ι] (f : OpFuncs (Prog ι β) O) (status : O → Status) (id : ℕ)

/-- The operations `opNew` lead the members of every group from `P` to `Q` by the messages `T`, in
    at most `K` rounds. A rank that is in no group has nothing to do. -/
structure GroupWork (size K : ℕ) (members : ℕ → List ℕ) (opNew : ℕ → VGroup → O)
    (T : List ℕ → ℕ → List (Event β)) (P Q : ℕ → Cond ι β) : Prop where
  grouping : IsGrouping members
  lt_size : ∀ r, ∀ q ∈ members r, q < size
  obeys : ∀ r, InGroup members r → ∀ m k, P r m k → ∃ inv,
    Obeys f status id (opNew r (memberVGroup (members r) r)) inv (Q r)
      ⟨m, [], (T (members r) ((members r).idxOf r)).map (Event.mapPeer ((members r).getD · 0)), k⟩
  idle : ∀ r, ¬InGroup members r → ∀ m k, P r m k → Q r m k
  lively : ∀ r, InGroup members r → OpLively f status id (opNew r (memberVGroup (members r) r))
  paced : ∀ r, InGroup members r → Paced K (T (members r))
  peer : ∀ r, InGroup members r → ∀ v, ∀ e ∈ T (members r) v, e.peer < (members r).length

/-- The messages of the groups. -/
def workTrace (members : ℕ → List ℕ) (T : List ℕ → ℕ → List (Event β)) : ℕ → List (Event β) :=
  groupTrace members fun l => if 2 ≤ l.length then T l else fun _ => []

variable {f status id} {e : EmptyOp → O} {size K : ℕ} {members : ℕ → List ℕ}
  {opNew : ℕ → VGroup → O} {T : List ℕ → ℕ → List (Event β)} {P Q : ℕ → Cond ι β}

omit [DecidableEq ι] in
theorem workTrace_of_inGroup {r : ℕ} (h : InGroup members r) : workTrace members T r =
    (T (members r) ((members r).idxOf r)).map (Event.mapPeer ((members r).getD · 0)) := by
  rw [workTrace, groupTrace, if_pos h.1, if_pos h.2]

theorem workTrace_of_not_inGroup {r : ℕ} (h : ¬InGroup members r) :
    workTrace members T r = [] := by
  rw [workTrace, groupTrace]
  split_ifs with hr hlen
  · exact absurd ⟨hr, hlen⟩ h
  · rfl
  · rfl

namespace GroupWork

variable (h : GroupWork f status id size K members opNew T P Q)
include h

theorem paced_workTrace : Paced K (workTrace members T) := by
  refine Paced.group h.grouping (fun r hr => ?_) fun r hr v e he => ?_
  · split_ifs with hlen
    · exact h.paced r ⟨hr, hlen⟩
    · exact Paced.nil.mono (Nat.zero_le _)
  · split_ifs at he with hlen
    · exact h.peer r ⟨hr, hlen⟩ v e he
    · exact absurd he List.not_mem_nil

theorem workTrace_of_le {r : ℕ} (hr : size ≤ r) : workTrace members T r = [] :=
  workTrace_of_not_inGroup fun hin => absurd (h.lt_size r r hin.1) (by omega)

/-- The operation that a rank adds. -/
theorem memberOp_obeys (he : Embeds emptyFuncs EmptyOp.status f status e) (r : ℕ) {m : ι → β}
    {k : Set ℕ} (hP : P r m k) : ∃ inv, Obeys f status id
      (memberOp (e emptyOpNew) (opNew r) members r) inv (Q r)
      ⟨m, [], workTrace members T r, k⟩ := by
  by_cases hin : InGroup members r
  · rw [memberOp, if_pos hin, workTrace_of_inGroup hin]
    exact h.obeys r hin m k hP
  · rw [memberOp, if_neg hin, workTrace_of_not_inGroup hin]
    exact ⟨_, (empty_obeys ⟨rfl, rfl, h.idle r hin m k hP⟩).embed he⟩

theorem memberOp_lively (he : Embeds emptyFuncs EmptyOp.status f status e) (r : ℕ) :
    OpLively f status id (memberOp (e emptyOpNew) (opNew r) members r) := by
  by_cases hin : InGroup members r
  · rw [memberOp, if_pos hin]
    exact h.lively r hin
  · rw [memberOp, if_neg hin]
    exact (empty_lively id).embed he

end GroupWork

/-! ### Works one after another -/

variable (f status id e size K) in
/-- The operations that the ranks add for one work after another, and the messages of all. -/
inductive GroupWorks : (ℕ → List O) → (ℕ → List (Event β)) → (P Q : ℕ → Cond ι β) → ℕ → Prop
  | nil (P : ℕ → Cond ι β) : GroupWorks (fun _ => []) (fun _ => []) P P 0
  | cons {members : ℕ → List ℕ} {opNew : ℕ → VGroup → O} {T : List ℕ → ℕ → List (Event β)}
      {ops : ℕ → List O} {trace : ℕ → List (Event β)} {P R Q : ℕ → Cond ι β} {n : ℕ}
      (hwork : GroupWork f status id size K members opNew T P R)
      (hworks : GroupWorks ops trace R Q n) :
      GroupWorks (fun r => memberOp (e emptyOpNew) (opNew r) members r :: ops r)
        (fun r => workTrace members T r ++ trace r) P Q (n + 1)

namespace GroupWorks

variable {ops : ℕ → List O} {trace : ℕ → List (Event β)} {n : ℕ}
  (h : GroupWorks f status id e size K ops trace P Q n)
include h

theorem paced : Paced (n * K) trace := by
  induction h with
  | nil P => exact Paced.nil.mono (Nat.zero_le _)
  | cons hwork _ ih => exact (hwork.paced_workTrace.append ih).mono (by rw [Nat.succ_mul]; omega)

theorem trace_of_le {r : ℕ} (hr : size ≤ r) : trace r = [] := by
  induction h with
  | nil P => rfl
  | cons hwork _ ih =>
    dsimp only
    rw [hwork.workTrace_of_le hr, ih, List.append_nil]

theorem stages (he : Embeds emptyFuncs EmptyOp.status f status e) (r : ℕ) :
    Stages f status id (ops r) (trace r) (P r) (Q r) := by
  induction h with
  | nil P => exact .nil _
  | cons hwork _ ih => exact .cons (fun m k hP => hwork.memberOp_obeys he r hP) ih

theorem lively (he : Embeds emptyFuncs EmptyOp.status f status e) (r : ℕ) :
    ∀ op ∈ ops r, OpLively f status id op := by
  induction h with
  | nil P => simp
  | cons hwork _ ih => exact List.forall_mem_cons.mpr ⟨hwork.memberOp_lively he r, ih⟩

theorem ne_nil (hn : n ≠ 0) (r : ℕ) : ops r ≠ [] := by
  cases h with
  | nil P => exact absurd rfl hn
  | cons => exact List.cons_ne_nil _ _

/-- The meta-operation of a rank obeys all messages. -/
theorem obeys (he : Embeds emptyFuncs EmptyOp.status f status e) (hn : n ≠ 0) (r : ℕ) (m : ι → β)
    {k : Set ℕ} (hP : P r m k) : ∃ inv, Obeys (metaFuncs f) MetaOp.status id (metaOpNew (ops r) 0)
      inv (Q r) ⟨m, [], trace r, k⟩ := by
  have hobeys := metaOp_obeys (h.ne_nil hn r) (h.stages he r) hP
  exact ⟨_, hobeys.trigger, hobeys.progress, hobeys.settled⟩

/-- The meta-operation of a rank comes to its end. -/
theorem metaOp_lively (he : Embeds emptyFuncs EmptyOp.status f status e) (hn : n ≠ 0) (r : ℕ) :
    ∃ G μ, (opProc (metaFuncs f) MetaOp.status (metaOpNew (ops r) 0) id).Lively G μ := by
  have hlive := Ucx.metaOp_lively (h.ne_nil hn r) (h.lively he r)
  exact ⟨_, _, hlive.trigger, hlive.progress, hlive.busy⟩

end GroupWorks

end Work

end Kucg.Ucx
