import Kucg.Ucx.BarrierMetaRuns
import Kucg.Ucx.BcastMeta

/-! Every run of a hierarchical broadcast.

    The ranks that have the buffer are the root, then rank 0 as well, then all leaders and then all
    ranks. A step leads from a set to the next one if the first members of its groups are in the
    set, and the ranks that are new are in its groups (`bcastTree_work`, `adjustRoot_work`). -/

namespace Kucg.Ucx

open Kucg.Core Kucg.Lib Kucg.Algo

variable {B β : Type}

/-! ### What a rank makes -/

/-- No location is refused. -/
def BcastEnv.Located (env : BcastEnv) : Prop :=
  ∀ i, (env.add i).group.node.Located ∧ (env.add i).group.own.Located

/-- The group of all ranks, as rank `r` has it. -/
def wholeVGroup (size r : ℕ) : VGroup := ⟨size, r, fun q => q⟩

/-- The groups of the leaders. -/
def BcastAlgo.inter : BcastAlgo → TopoGroupType
  | .naKntree | .naBntree | .naKntreeAndBntree => .nodeLeader
  | .ntaKntree => .subnetLeader

/-- The groups of the ranks that have the same leader. -/
def BcastAlgo.intra : BcastAlgo → TopoGroupType
  | .naKntree | .naBntree | .naKntreeAndBntree => .node
  | .ntaKntree => .subnet

/-- The degree of the tree of the leaders. -/
def BcastAlgo.interDegree (config : BcastConfig) : BcastAlgo → ℕ
  | .naKntree | .naKntreeAndBntree => config.naKntreeInterDegree
  | .naBntree => 2
  | .ntaKntree => config.ntaKntreeInterDegree

/-- The degree of the other trees. -/
def BcastAlgo.intraDegree (config : BcastConfig) : BcastAlgo → ℕ
  | .naKntree => config.naKntreeIntraDegree
  | .naBntree | .naKntreeAndBntree => 2
  | .ntaKntree => config.ntaKntreeIntraDegree

/-- The root and rank 0, as a group of two. -/
def adjustLists (root r : ℕ) : List ℕ := if r = 0 ∨ r = root then [root, 0] else []

/-- The operation of a member of a tree. -/
def bcastTreeOp (args : BcastArgs B) (degree : ℕ) (vgroup : VGroup) : BcastSubOp B :=
  .kntree (bcastKntreeOpNew vgroup { args with root := 0 } ⟨degree, true⟩)

/-- The operations that rank `r` adds in front of the trees. -/
def adjustOps (args : BcastArgs B) (root size r : ℕ) : List (BcastSubOp B) :=
  if root = 0 then []
  else [memberOp (.empty emptyOpNew)
    (fun _ => .adjust (adjustRootOpNew (wholeVGroup size r) args)) (adjustLists root) r]

/-- The operations of the two trees. -/
def treeOps (args : BcastArgs B) (place : ℕ → Location) (inter intra : TopoGroupType)
    (interDegree intraDegree size r : ℕ) : List (BcastSubOp B) :=
  [memberOp (.empty emptyOpNew) (bcastTreeOp args interDegree) (topoLists place size inter) r,
    memberOp (.empty emptyOpNew) (bcastTreeOp args intraDegree) (topoLists place size intra) r]

/-- The operations that rank `r` adds. -/
def bcastOps (algo : BcastAlgo) (args : BcastArgs B) (config : BcastConfig)
    (place : ℕ → Location) (root size r : ℕ) : List (BcastSubOp B) :=
  adjustOps args root size r ++ treeOps args place algo.inter algo.intra (algo.interDegree config)
    (algo.intraDegree config) size r

theorem inGroup_adjustLists {root r : ℕ} : InGroup (adjustLists root) r ↔ r = 0 ∨ r = root := by
  rw [InGroup, adjustLists]
  split_ifs with h
  · simp only [List.mem_cons, List.not_mem_nil, List.length_cons, List.length_nil]
    tauto
  · simp [h]

section Making

variable {place : ℕ → Location} {size r : ℕ} {env : BcastEnv} {args : BcastArgs B}
  {config : BcastConfig}

theorem bcastAddAdjustRootOp_ok (hadjust : config.rootAdjust = true)
    {s s' : MetaMaking (BcastSubOp B)}
    (h : bcastAddAdjustRootOp env (wholeVGroup size r) args config s = (s', .ok)) :
    s' = { s with ops := s.ops ++ adjustOps args args.root size r } := by
  rw [bcastAddAdjustRootOp] at h
  rw [adjustOps]
  split_ifs at h with hskip hother
  · rw [if_pos (hskip.resolve_right (by simp [hadjust])), List.append_nil]
    exact (congrArg Prod.fst h).symm
  · rw [planMetaOpAdd_ok h, if_neg fun hzero => hskip (Or.inl hzero), memberOp, if_neg]
    rw [inGroup_adjustLists]
    exact not_or.mpr hother
  · rw [planMetaOpAdd_ok h, if_neg fun hzero => hskip (Or.inl hzero), memberOp, if_pos]
    rw [inGroup_adjustLists]
    have hmine : ¬(r ≠ 0 ∧ r ≠ args.root) := hother
    tauto

theorem bcastAddTopoGroupKntreeOp_ok (hids : HasIds place size) (hr : r < size)
    {type : TopoGroupType} {degree : ℕ} {calls : List TopoCall} {ops : List (BcastSubOp B)}
    {s' : MetaMaking (BcastSubOp B)} (hcalls : ∀ c ∈ calls, c.Located)
    (h : bcastAddTopoGroupKntreeOp env args ⟨(topoInit size r place).after calls, ops⟩
      ⟨degree, true⟩ type = (s', .ok)) :
    s' = ⟨(topoInit size r place).after (calls ++ [⟨type, (env.add ops.length).group⟩]),
      ops ++ [memberOp (.empty emptyOpNew) (bcastTreeOp args degree)
        (topoLists place size type) r]⟩ := by
  have hargs : (if args.root ≠ 0 ∧ true = true then { args with root := 0 } else args) =
      { args with root := 0 } := by
    split_ifs with hroot
    · rfl
    · have hzero : args.root = 0 := by simpa using hroot
      rw [← hzero]
  rw [bcastAddTopoGroupKntreeOp] at h
  dsimp only at h
  rw [hargs] at h
  exact metaAddTopoGroupOp_ok hids hr hcalls h

/-- The operations that a rank adds follow from the locations, and the configuration gets its old
    value back. -/
theorem bcastOpNew_ok (hids : HasIds place size) (hr : r < size) (henv : env.Located)
    {inter intra : TopoGroupType} {interDegree intraDegree : ℕ} {addInter addIntra :
      BcastConfig → MetaMaking (BcastSubOp B) → MetaMaking (BcastSubOp B) × Status}
    (hinter : addInter { config with rootAdjust := true } = fun s =>
      bcastAddTopoGroupKntreeOp env args s ⟨interDegree, true⟩ inter)
    (hintra : addIntra { config with rootAdjust := true } = fun s =>
      bcastAddTopoGroupKntreeOp env args s ⟨intraDegree, true⟩ intra)
    {calls : List TopoCall} (hcalls : ∀ c ∈ calls, c.Located) {topo : Topo} {config' : BcastConfig}
    {metaOp : MetaOp (BcastSubOp B)}
    (h : bcastOpNew env (wholeVGroup size r) args config addInter addIntra
      ((topoInit size r place).after calls) = (topo, config', some metaOp)) :
    config' = config ∧ metaOp = metaOpNew (adjustOps args args.root size r ++
      treeOps args place inter intra interDegree intraDegree size r) 0 := by
  rw [bcastOpNew] at h
  dsimp only at h
  generalize hadd : addOps _ _ = res at h
  obtain ⟨s, status⟩ := res
  split_ifs at h with hmem hst
  · simp at h
  · rw [not_not] at hst
    dsimp only at hst
    subst hst
    obtain ⟨-, rfl, hop⟩ : _ ∧ _ ∧ _ := by simpa only [Prod.mk.injEq] using h
    refine ⟨rfl, ?_⟩
    obtain ⟨s₁, hadjust, hrest⟩ := addOps_cons_ok hadd
    obtain ⟨s₂, hfirst, hrest⟩ := addOps_cons_ok hrest
    obtain ⟨s₃, hsecond, hrest⟩ := addOps_cons_ok hrest
    obtain rfl : s₃ = s := congrArg Prod.fst hrest
    rw [bcastAddAdjustRootOp_ok rfl hadjust, hinter] at hfirst
    rw [bcastAddTopoGroupKntreeOp_ok hids hr hcalls hfirst, hintra] at hsecond
    rw [← Option.some.inj hop, bcastAddTopoGroupKntreeOp_ok hids hr
      (located_append_singleton hcalls (henv _)) hsecond]
    simp [treeOps]
  · simp at h

theorem bcastPrepare_ok {check : Status}
    {opNew : Topo → Topo × BcastConfig × Option (MetaOp (BcastSubOp B))} {topo : Topo}
    {metaOp : MetaOp (BcastSubOp B)} (h : (bcastPrepare config check opNew topo).2.2 = .ok metaOp) :
    ∃ t, opNew topo = (t, (bcastPrepare config check opNew topo).2.1, some metaOp) := by
  rw [bcastPrepare] at h ⊢
  split_ifs at h ⊢ with hcheck
  · generalize opNew topo = res at h ⊢
    obtain ⟨t, config', _ | op⟩ := res
    · cases h
    · obtain rfl := Except.ok.inj h
      exact ⟨t, rfl⟩

/-- What a rank has prepared. The configuration of its context is as it was. -/
theorem BcastAlgo.prepare_ok (algo : BcastAlgo) (hids : HasIds place size) (hr : r < size)
    (henv : env.Located) {calls : List TopoCall} (hcalls : ∀ c ∈ calls, c.Located) {ppn pps : ℤ}
    {metaOp : MetaOp (BcastSubOp B)} (h : (algo.prepare env (wholeVGroup size r) args config
      ⟨(topoInit size r place).after calls, ppn, pps⟩).2.2 = .ok metaOp) :
    (algo.prepare env (wholeVGroup size r) args config
      ⟨(topoInit size r place).after calls, ppn, pps⟩).2.1 = config ∧
    metaOp = metaOpNew (bcastOps algo args config place args.root size r) 0 := by
  cases algo with
  | naKntree | ntaKntree =>
    obtain ⟨t, hnew⟩ := bcastPrepare_ok h
    exact bcastOpNew_ok hids hr henv rfl rfl hcalls hnew
  | naBntree | naKntreeAndBntree =>
    obtain ⟨t, hnew⟩ := bcastPrepare_ok h
    exact ⟨rfl, (bcastOpNew_ok hids hr henv rfl rfl hcalls hnew).2⟩

end Making

/-! ### Leaders -/

section Leaders

variable {place : ℕ → Location} {size r q : ℕ} (algo : BcastAlgo)

/-- What the ranks below the same leader have in common. -/
def BcastAlgo.key : BcastAlgo → Location → ℤ
  | .naKntree | .naBntree | .naKntreeAndBntree => Location.nodeId
  | .ntaKntree => Location.subnetId

/-- The leaders. -/
def BcastAlgo.leaders (place : ℕ → Location) (size : ℕ) : Set ℕ :=
  {q | q < size ∧ ∀ p < q, algo.key (place p) ≠ algo.key (place q)}

theorem topoLists_inter : topoLists place size algo.inter r =
    (List.range size).filter fun q => ∀ p < q, algo.key (place p) ≠ algo.key (place q) := by
  refine List.filter_congr fun q _ => ?_
  cases algo <;> exact decide_eq_decide.mpr Iff.rfl

theorem topoLists_intra : topoLists place size algo.intra r =
    (List.range size).filter fun q => algo.key (place q) = algo.key (place r) := by
  refine List.filter_congr fun q _ => ?_
  cases algo <;> exact decide_eq_decide.mpr Iff.rfl

theorem mem_topoLists_inter : q ∈ topoLists place size algo.inter r ↔
    q ∈ algo.leaders place size := by
  simp [topoLists_inter, BcastAlgo.leaders]

theorem mem_topoLists_intra : q ∈ topoLists place size algo.intra r ↔
    q < size ∧ algo.key (place q) = algo.key (place r) := by
  simp [topoLists_intra]

theorem zero_mem_leaders (hsize : 0 < size) : 0 ∈ algo.leaders place size :=
  ⟨hsize, fun _ hp => absurd hp (Nat.not_lt_zero _)⟩

/-- The first of the leaders is rank 0. -/
theorem head?_inter (h : (topoLists place size algo.inter r).head? = some q) : q = 0 := by
  rw [topoLists_inter, head?_filter_range] at h
  obtain ⟨hq, -, hfirst⟩ := h
  by_contra hne
  have hzero := hfirst 0 (Nat.pos_of_ne_zero hne)
  simp at hzero

/-- The first of the ranks below the same leader is this one. -/
theorem head?_intra (h : (topoLists place size algo.intra r).head? = some q) :
    q ∈ algo.leaders place size := by
  rw [topoLists_intra, head?_filter_range] at h
  obtain ⟨hq, hkey, hfirst⟩ := h
  rw [decide_eq_true_eq] at hkey
  refine ⟨hq, fun p hp heq => ?_⟩
  have hother := hfirst p hp
  rw [decide_eq_false_iff_not] at hother
  exact hother (heq.trans hkey)

theorem two_le_length_of_mem {l : List ℕ} {a b : ℕ} (ha : a ∈ l) (hb : b ∈ l) (hne : a ≠ b) :
    2 ≤ l.length := by
  by_contra hlt
  obtain ⟨c, rfl⟩ := List.length_eq_one_iff.mp
    (show l.length = 1 from le_antisymm (by omega) (List.length_pos_of_mem ha))
  exact hne ((List.mem_singleton.mp ha).trans (List.mem_singleton.mp hb).symm)

/-- A leader other than rank 0 is in the group of the leaders. -/
theorem inGroup_inter (h : r ∈ algo.leaders place size) (hne : r ≠ 0) :
    InGroup (topoLists place size algo.inter) r := by
  have hmem : r ∈ topoLists place size algo.inter r := (mem_topoLists_inter algo).mpr h
  have hzero : 0 ∈ topoLists place size algo.inter r :=
    (mem_topoLists_inter algo).mpr (zero_mem_leaders algo (Nat.zero_lt_of_lt h.1))
  exact ⟨hmem, two_le_length_of_mem hmem hzero hne⟩

/-- A rank that is no leader is in the group of its leader. -/
theorem inGroup_intra (hr : r < size) (h : r ∉ algo.leaders place size) :
    InGroup (topoLists place size algo.intra) r := by
  have hlead : ¬∀ p < r, algo.key (place p) ≠ algo.key (place r) := fun hall => h ⟨hr, hall⟩
  push Not at hlead
  obtain ⟨p, hp, hkey⟩ := hlead
  have hmem : r ∈ topoLists place size algo.intra r := (mem_topoLists_intra algo).mpr ⟨hr, rfl⟩
  have hother : p ∈ topoLists place size algo.intra r :=
    (mem_topoLists_intra algo).mpr ⟨hp.trans hr, hkey⟩
  exact ⟨hmem, two_le_length_of_mem hmem hother hp.ne'⟩

end Leaders

/-! ### The work of a step -/

section Work

variable [DecidableEq B] {place : ℕ → Location} {size count root : ℕ} {args : ℕ → BcastArgs B}
  {x : ℕ → β} {H H' : Set ℕ}

/-- The ranks of `H` have the buffer. -/
def Having (args : ℕ → BcastArgs B) (x : ℕ → β) (H : Set ℕ) (r : ℕ) : Cond (Cell B) β :=
  fun m _ => r ∈ H → Holds m (args r).buffer (args r).count x

theorem head?_of_idxOf_eq_zero {l : List ℕ} {r : ℕ} (hr : r ∈ l) (h : l.idxOf r = 0) :
    l.head? = some r := by
  have hown := getD_idxOf_self hr
  rw [h] at hown
  cases l with
  | nil => exact absurd hr List.not_mem_nil
  | cons a l => exact congrArg some hown

variable (place x H H') in
/-- A tree brings the buffer from the first members of its groups to all members. -/
theorem bcastTree_work (id degree : ℕ) (type : TopoGroupType)
    (hcount : ∀ r < size, (args r).count = count)
    (hfirst : ∀ r q, (topoLists place size type r).head? = some q → q ∈ H)
    (hnew : ∀ r ∈ H', r ∈ H ∨ InGroup (topoLists place size type) r) :
    GroupWork (bcastSubFuncs : OpFuncs (Prog (Cell B) β) _) BcastSubOp.status id size (size + 2)
      (topoLists place size type) (fun r => bcastTreeOp (args r) degree)
      (fun l => bcastTreeTrace l.length 0 (bcastKntreeParent l.length degree)
        (bcastKntreeChildren l.length degree) count x)
      (Having args x H) (Having args x H') where
  grouping := isGrouping_topoLists _
  lt_size _ _ hq := lt_of_mem_topoLists hq
  obeys r hin m k hP := by
    have hbuf (h : (topoLists place size type r).idxOf r = 0) :
        Holds m (args r).buffer (args r).count x :=
      hP (hfirst r r (head?_of_idxOf_eq_zero hin.1 h))
    have hpos : 0 < (topoLists place size type r).length := List.length_pos_of_mem hin.1
    obtain ⟨inv, hobeys⟩ := bcastKntree_obeys (memberVGroup (topoLists place size type r) r)
      { args r with root := 0 } ⟨degree, true⟩ x hin.2 (List.idxOf_lt_length_iff.mpr hin.1) hpos
      (fun _ => rfl) id (k := k) hbuf
    rw [← hcount r (lt_of_mem_topoLists hin.1)]
    exact ⟨_, (hobeys.embed embeds_bcast_kntree).imp fun _ _ h _ => h⟩
  idle r hin m k hP hr := hP ((hnew r hr).resolve_right hin)
  lively r hin := (bcastKntree_lively _ id).embed embeds_bcast_kntree
  paced r hin := by
    have hlen : (topoLists place size type r).length ≤ size := length_topoLists_le _
    exact (paced_bcastTreeTrace (rankTree_bcast hin.2) (List.length_pos_of_mem hin.1)).mono
      (hlen.trans (by omega))
  peer r hin v e he :=
    bcastTreeTrace_peer (rankTree_bcast hin.2) (List.length_pos_of_mem hin.1) e he

/-- The message from the root, in the group of two. -/
def adjustTrace (count : ℕ) (x : ℕ → β) : ℕ → List (Event β) :=
  downTrace 2 (fun _ => 0) (fun v => if v = 0 then [1] else []) fun _ => (vec count x, ∅)

theorem rankTree_pair : RankTree 2 (fun _ => 0) fun v => if v = 0 then [1] else [] where
  parent_lt _ hv _ := hv
  mem v c := by
    split_ifs with hv
    · rw [List.mem_singleton]
      omega
    · simp [hv]
  nodup v := by split_ifs <;> simp

theorem isGrouping_adjustLists (hroot : root ≠ 0) : IsGrouping (adjustLists root) where
  nodup r := by
    rw [adjustLists]
    split_ifs <;> simp [hroot]
  same r hr q hq := by
    rw [adjustLists] at hr hq
    split_ifs at hr hq with h
    · have hq : q = 0 ∨ q = root := by simpa [or_comm] using hq
      rw [adjustLists, adjustLists, if_pos h, if_pos hq]
    · exact absurd hr List.not_mem_nil

/-- The root sends the buffer to rank 0. -/
theorem adjustRoot_work (id : ℕ) (hroot : root ≠ 0) (hlt : root < size)
    (hargs : ∀ r < size, (args r).count = count ∧ (args r).root = root) :
    GroupWork (bcastSubFuncs : OpFuncs (Prog (Cell B) β) _) BcastSubOp.status id size (size + 2)
      (adjustLists root)
      (fun r _ => .adjust (adjustRootOpNew (wholeVGroup size r) (args r)))
      (fun _ => adjustTrace count x) (Having args x {root}) (Having args x {root, 0}) where
  grouping := isGrouping_adjustLists hroot
  lt_size r q hq := by
    rw [adjustLists] at hq
    split_ifs at hq
    · simp only [List.mem_cons, List.not_mem_nil, or_false] at hq
      omega
    · exact absurd hq List.not_mem_nil
  obeys r hin m k hP := by
    have hr := inGroup_adjustLists.mp hin
    rw [show adjustLists root r = [root, 0] from if_pos hr]
    have hlt : r < size := by omega
    obtain ⟨rfl, hmine⟩ := hargs r hlt
    by_cases hzero : r = 0
    · subst hzero
      have hidx : [root, 0].idxOf 0 = 1 := by simp [hroot]
      have hobeys := (adjustRoot_obeys_recv (wholeVGroup size 0) (args 0) x rfl id (m := m)
        (k := k)).embed embeds_bcast_adjust
      rw [hmine] at hobeys
      rw [hidx]
      exact ⟨_, hobeys.imp fun _ _ h _ => h⟩
    · obtain rfl : r = root := hr.resolve_left hzero
      have hidx : [r, 0].idxOf r = 0 := by simp
      have hobeys := (adjustRoot_obeys_send (wholeVGroup size r) (args r) x (by rwa [hmine])
        hmine.symm id (m := m) (k := k) (hP rfl)).embed embeds_bcast_adjust
      rw [hidx]
      exact ⟨_, hobeys.imp fun _ _ h _ => h⟩
  idle r hin m k hP hr := absurd (inGroup_adjustLists.mpr (by
    simpa [or_comm] using hr)) hin
  lively r hin := (adjustRoot_lively _ id).embed embeds_bcast_adjust
  paced r hin := (paced_downTrace _ rankTree_pair).mono (by omega)
  peer r hin v e he := by
    rw [show adjustLists root r = [root, 0] from if_pos (inGroup_adjustLists.mp hin)]
    exact downTrace_peer rankTree_pair e he

variable (place x) in
/-- The two trees, when rank 0 has the buffer. -/
theorem bcastTrees_works (algo : BcastAlgo) (id interDegree intraDegree : ℕ)
    (hcount : ∀ r < size, (args r).count = count) (hzero : 0 ∈ H) :
    ∃ trace, GroupWorks (bcastSubFuncs : OpFuncs (Prog (Cell B) β) _) BcastSubOp.status id .empty
      size (size + 2)
      (fun r => treeOps (args r) place algo.inter algo.intra interDegree intraDegree size r) trace
      (Having args x H) (Having args x {r | r < size}) 2 := by
  have hinter := bcastTree_work place x H (algo.leaders place size) id interDegree algo.inter hcount
    (fun r q hq => head?_inter algo hq ▸ hzero) ?_
  have hintra := bcastTree_work place x (algo.leaders place size) {r | r < size} id intraDegree
    algo.intra hcount (fun r q hq => head?_intra algo hq) ?_
  · exact ⟨_, .cons hinter (.cons hintra (.nil _))⟩
  · intro r hr
    exact (em _).imp_right fun hlead => inGroup_intra algo hr hlead
  · intro r hr
    by_cases hne : r = 0
    · exact Or.inl (hne ▸ hzero)
    · exact Or.inr (inGroup_inter algo hr hne)

variable (place x) in
/-- All operations. -/
theorem bcastOps_works (algo : BcastAlgo) (config : BcastConfig) (id : ℕ) (hlt : root < size)
    (hargs : ∀ r < size, (args r).count = count ∧ (args r).root = root) :
    ∃ trace n, n ≠ 0 ∧ GroupWorks (bcastSubFuncs : OpFuncs (Prog (Cell B) β) _) BcastSubOp.status id
      .empty size (size + 2) (fun r => bcastOps algo (args r) config place root size r) trace
      (Having args x {root}) (Having args x {r | r < size}) n := by
  have hcount (r) (hr : r < size) : (args r).count = count := (hargs r hr).1
  by_cases hroot : root = 0
  · obtain ⟨trace, hworks⟩ := bcastTrees_works place x algo id (algo.interDegree config)
      (algo.intraDegree config) hcount (H := {root}) (Set.mem_singleton_iff.mpr hroot.symm)
    refine ⟨trace, 2, two_ne_zero, ?_⟩
    simpa only [bcastOps, adjustOps, if_pos hroot, List.nil_append] using hworks
  · obtain ⟨trace, hworks⟩ := bcastTrees_works place x algo id (algo.interDegree config)
      (algo.intraDegree config) hcount (H := {root, 0}) (by simp)
    simp only [bcastOps, adjustOps, if_neg hroot, List.singleton_append]
    exact ⟨_, 3, three_ne_zero, .cons (adjustRoot_work id hroot hlt hargs) hworks⟩

end Work

/-! ### Every run -/

section Runs

variable [DecidableEq B] {place : ℕ → Location} {size count root : ℕ} {envs : ℕ → BcastEnv}
  {args : ℕ → BcastArgs B} {calls : ℕ → List TopoCall} {metaOps : ℕ → MetaOp (BcastSubOp B)}
  {x : ℕ → β} {m : ℕ → Cell B → β}

/-- The request of rank `r`. -/
def bcastMetaProc (metaOps : ℕ → MetaOp (BcastSubOp B)) (id r : ℕ) :
    Proc (Cell B) β (MetaOp (BcastSubOp B)) :=
  opProc (metaFuncs bcastSubFuncs) MetaOp.status (metaOps r) id

/-- A rank that has finished has the buffer of the root, and all ranks can finish. -/
structure BcastDelivers {σ : Type} (n count : ℕ) (args : ℕ → BcastArgs B) (x : ℕ → β)
    (proc : ℕ → Proc (Cell B) β σ) (status : σ → Status) (N : Net (Cell B) β σ) : Prop where
  safe : ∀ r < n, ∀ op, N.FinishedIn r op → status op = .ok ∧
    Holds (N.node r).mem (args r).buffer count x
  live : ∃ acts N', N.run n proc acts = some N' ∧ ∀ r < n, ∃ op, N'.FinishedIn r op

/-- Every hierarchical broadcast that all ranks have prepared brings the buffer of the root to all
    of them, whatever rank the root is, however the ranks are placed and whatever groups they have
    asked for before. -/
theorem bcastMeta_correct (algo : BcastAlgo) (hids : HasIds place size) (config : BcastConfig)
    (ppn pps : ℤ) (hcall : BcastCall size count root args m x)
    (hlocated : ∀ r < size, (envs r).Located ∧ ∀ c ∈ calls r, c.Located)
    (hprepare : ∀ r < size, (algo.prepare (envs r) (wholeVGroup size r) (args r) config
      ⟨(topoInit size r place).after (calls r), ppn, pps⟩).2.2 = .ok (metaOps r)) (id : ℕ)
    (acts : List Act) (N : Net (Cell B) β (MetaOp (BcastSubOp B)))
    (hrun : (Net.init m).run size (bcastMetaProc metaOps id) acts = some N) :
    BcastDelivers size count args x (bcastMetaProc metaOps id) MetaOp.status N := by
  have hops (r) (hr : r < size) : metaOps r =
      metaOpNew (bcastOps algo (args r) config place root size r) 0 := by
    obtain ⟨henv, hcalls⟩ := hlocated r hr
    rw [(algo.prepare_ok hids hr henv hcalls (hprepare r hr)).2, (hcall.same r hr).2]
  obtain ⟨trace, n, hn, hworks⟩ := bcastOps_works place x algo config id
    hcall.root_lt hcall.same
  have hobeys (r) (hr : r < size) : ∃ inv, Obeys (metaFuncs bcastSubFuncs) MetaOp.status id
      (metaOps r) inv (Having args x {r | r < size} r) ⟨m r, [], trace r, {r}⟩ := by
    rw [hops r hr]
    refine hworks.obeys embeds_bcast_empty hn r (m r) (k := {r}) fun hmem => ?_
    obtain rfl : r = root := hmem
    rw [(hcall.same r hr).1]
    exact hcall.input
  obtain ⟨hsafe, hlive⟩ := obeys_run hworks.paced (fun r hr => hworks.trace_of_le hr) hobeys
    (fun r hr => by rw [hops r hr]; exact hworks.metaOp_lively embeds_bcast_empty hn r) hrun
  refine ⟨fun r hr op hfin => ?_, hlive⟩
  obtain ⟨hok, know, hres, -⟩ := hsafe r hr op hfin
  have hbuf := hres hr
  rw [(hcall.same r hr).1] at hbuf
  exact ⟨hok, hbuf⟩

end Runs

/-! Two ranks on one node and a third one on another. The root is rank 1, which is no leader. -/

def threeBcastEnv : BcastEnv :=
  ⟨fun _ => ⟨⟨envOf true, envOf true⟩, true⟩, true, ⟨false, 0, 0, 0, 0⟩⟩

def threeBcastArgs : BcastArgs Unit := ⟨((), 0), 2, 1⟩

def threeBcastMem (r : ℕ) (c : Cell Unit) : ℕ := if r = 1 then c.2 + 5 else 0

/-- What the prepare function gives rank `r`. -/
def threeBcastPrepared (r : ℕ) : Except Status (MetaOp (BcastSubOp Unit)) :=
  (BcastAlgo.naKntree.prepare threeBcastEnv (wholeVGroup 3 r) threeBcastArgs ⟨false, 2, 2, 2, 2⟩
    ⟨(topoInit 3 r threePlaces).after [], ppxUnbalanced, 2⟩).2.2

/-- The operation of rank `r`. -/
def threeBcastOps (r : ℕ) : MetaOp (BcastSubOp Unit) :=
  match threeBcastPrepared r with
  | .ok metaOp => metaOp
  | .error _ => metaOpNew [] 0

def threeBcastActs : List Act :=
  [.start 0, .start 1, .start 2, .exec 0, .exec 0, .exec 0, .exec 0, .exec 1, .exec 1, .exec 1,
    .exec 1, .exec 2, .deliver 1 0, .sent 1, .resume 0, .exec 0, .exec 0, .resume 0, .exec 0,
    .exec 0, .exec 0, .exec 0, .sent 0, .resume 0, .exec 0, .exec 0, .resume 0, .exec 0, .exec 0,
    .exec 0, .exec 0, .sent 0, .resume 0, .exec 0, .exec 0, .resume 1, .exec 1, .exec 1,
    .resume 1, .exec 1, .resume 1, .exec 1, .exec 1, .exec 1, .exec 1, .deliver 0 1, .resume 1,
    .exec 1, .exec 1, .exec 1, .resume 2, .exec 2, .exec 2, .exec 2, .exec 2, .deliver 0 2,
    .resume 2, .exec 2, .exec 2, .exec 2, .resume 2, .exec 2]

theorem bcastMeta_correct_three : ∃ N op,
    (Net.init threeBcastMem).run 3 (bcastMetaProc threeBcastOps 7) threeBcastActs = some N ∧
      N.FinishedIn 2 op ∧ BcastDelivers 3 2 (fun _ => threeBcastArgs) (fun j => j + 5)
        (bcastMetaProc threeBcastOps 7) MetaOp.status N := by
  have hsome : (((Net.init threeBcastMem).run 3 (bcastMetaProc threeBcastOps 7)
      threeBcastActs).bind fun N => (N.node 2).ctl.result).isSome := by decide +kernel
  obtain ⟨op, hbind⟩ := Option.isSome_iff_exists.mp hsome
  obtain ⟨N, hrun, hop⟩ := Option.bind_eq_some_iff.mp hbind
  have hids : HasIds threePlaces 3 := fun _ _ => ⟨rfl, rfl⟩
  have hcall : BcastCall 3 2 1 (fun _ => threeBcastArgs) threeBcastMem fun j => j + 5 :=
    ⟨by decide, fun _ _ => ⟨rfl, rfl⟩, fun j _ => by simp [threeBcastMem, threeBcastArgs]⟩
  have hprepared : ∀ r < 3, (threeBcastPrepared r).toBool = true := by decide +kernel
  have hprepare : ∀ r < 3, threeBcastPrepared r = .ok (threeBcastOps r) := by
    intro r hr
    have hok := hprepared r hr
    rw [threeBcastOps]
    generalize threeBcastPrepared r = res at hok ⊢
    cases res with
    | ok metaOp => rfl
    | error st => cases hok
  exact ⟨N, op, hrun, Ctl.result_eq_some.mp hop, @bcastMeta_correct Unit ℕ _ threePlaces 3 2 1
    (fun _ => threeBcastEnv) (fun _ => threeBcastArgs) (fun _ => []) threeBcastOps
    (fun j => j + 5) threeBcastMem .naKntree hids ⟨false, 2, 2, 2, 2⟩ ppxUnbalanced 2 hcall
    (fun r _ => ⟨fun _ => ⟨fun _ => rfl, fun _ => rfl⟩, by simp⟩) hprepare 7 threeBcastActs N hrun⟩

end Kucg.Ucx
