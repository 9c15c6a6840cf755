import Kucg.Core.TopoGroups

/-! Any sequence of `ucg_topo_get_group` calls on a topology.

    What a call returns does not depend on the calls before it, as long as no socket group is asked
    for after the creation of the node group has failed (`topoGetGroup_history`). In a topology
    where every rank has a node id and a socket id it is the group that the ids describe, and the
    members of a group agree on it (`topoGroups_correct`). -/

namespace Kucg.Core

/-- A call of `ucg_topo_get_group`. -/
structure TopoCall where
  type : TopoGroupType
  env : GetEnv

/-- The topology after some calls. -/
def Topo.after (topo : Topo) (calls : List TopoCall) : Topo :=
  calls.foldl (fun topo c => (topoGetGroup topo c.env c.type).1) topo

/-- What a call returns. -/
def Topo.answer (topo : Topo) (c : TopoCall) : Option TopoGroup :=
  (topoGetGroup topo c.env c.type).2

/-- All calls of a run are calm. -/
def CalmRun : Topo → List TopoCall → Prop
  | _, [] => True
  | topo, c :: calls => topo.Calm c.type ∧ CalmRun (topoGetGroup topo c.env c.type).1 calls

section Runs

variable {place : ℕ → Location} {size r : ℕ} {topo : Topo}

@[simp] theorem after_append_singleton (topo : Topo) (calls : List TopoCall) (c : TopoCall) :
    topo.after (calls ++ [c]) = (topoGetGroup (topo.after calls) c.env c.type).1 := by
  rw [Topo.after, List.foldl_append]
  rfl

theorem calmRun_append_singleton : ∀ {topo : Topo} {calls : List TopoCall} {c : TopoCall},
    CalmRun topo (calls ++ [c]) ↔ CalmRun topo calls ∧ (topo.after calls).Calm c.type
  | topo, [], c => by simp [CalmRun, Topo.after]
  | topo, c' :: calls, c => by
    rw [List.cons_append, CalmRun, CalmRun, calmRun_append_singleton, and_assoc]
    rfl

/-- A calm run keeps the topology in order. -/
theorem TopoOk.after : ∀ {topo : Topo} {calls : List TopoCall}, TopoOk place size r topo →
    CalmRun topo calls → TopoOk place size r (topo.after calls)
  | _, [], h, _ => h
  | _, c :: _, h, hrun => (topoGetGroup_ok c.env h hrun.1).ok.after hrun.2

/-- A socket group that is asked for after the node group has failed is an empty one. -/
theorem answer_of_not_calm (h : TopoOk place size r topo) (type : TopoGroupType) (env : GetEnv)
    (hcalm : ¬topo.Calm type) (henv : env.own.Perfect) : ∃ g,
      topo.answer ⟨type, env⟩ = some g ∧ g.size = 0 ∧ g.state = .disable ∧
      ((topoGetGroup topo env type).1.groups .node).state = .error := by
  rw [Topo.Calm] at hcalm
  push Not at hcalm
  obtain ⟨hsocket, herr⟩ := hcalm
  have hmap : (topo.groups .node).rankMap = RankMap.zero := by
    rcases h.group .node with hf | hf | heq
    · rw [hf.state] at herr
      cases herr
    · exact hf.rankMap
    · rw [heq] at herr
      exact absurd herr topoGroupSpec_ne_error
  have hnot : (topo.groups type).state = .notInit := by
    by_contra hnot
    rw [h.prereq type hsocket hnot] at herr
    exact topoGroupSpec_ne_error herr
  have hne : TopoGroupType.node ≠ type := fun heq => not_ofSocket_node (heq ▸ hsocket)
  obtain ⟨aux, haux⟩ : ∃ aux, (topoGroupAid type).init env.own.filter = some aux := by
    rw [henv.filter]
    rcases hsocket with rfl | rfl <;> exact ⟨_, rfl⟩
  have hcreate : topoCreateSocketGroup topo env.own type = (topo.setGroup type
      { topo.groups type with size := 0, state := .disable }, true) := by
    rw [topoCreateSocketGroup, topoCreateGroup, hmap]
    dsimp only
    rw [if_neg (not_not.mpr henv.ranks), haux]
    exact if_pos (Or.inr (Nat.zero_le 1))
  have hget : topoGetGroup topo env type = topoCreated type (topo.setGroup type
      { topo.groups type with size := 0, state := .disable }, true) := by
    have hsock : topoGetSocketGroup topo env type =
        topoCreated type (topoCreateSocketGroup topo env.own type) := by
      rw [topoGetSocketGroup, if_neg (by rw [herr]; decide)]
      dsimp only
      rw [if_neg (by simp), if_neg (by rw [herr]; decide)]
    rw [← hcreate, ← hsock, topoGetGroup.eq_def]
    dsimp only
    rw [if_neg (not_not.mpr hnot)]
    rcases hsocket with rfl | rfl <;> rfl
  refine ⟨{ topo.groups type with size := 0, state := .disable }, ?_, rfl, rfl, ?_⟩
  · rw [Topo.answer, hget, topoCreated, groups_setGroup]
    rfl
  · rw [hget, topoCreated, groups_setGroup_of_ne hne]
    exact herr

/-- Two calls for a type return one group, whatever was called before them; and a socket group is
    returned only when the node group is there. Of the runs so far, calls of socket groups after a
    failure of the node group are left out, and these are the calls that do otherwise. -/
theorem topoGetGroup_history (place : ℕ → Location) (size r : ℕ) :
    (∀ calls calls' : List TopoCall, ∀ c c' : TopoCall, c.type = c'.type →
      CalmRun (topoInit size r place) (calls ++ [c]) →
      CalmRun (topoInit size r place) (calls' ++ [c']) →
      ∀ g ∈ ((topoInit size r place).after calls).answer c,
        ∀ g' ∈ ((topoInit size r place).after calls').answer c', g = g') ∧
    ∀ (calls : List TopoCall) (type : TopoGroupType), CalmRun (topoInit size r place) calls →
      ((∀ env, ∀ g ∈ ((topoInit size r place).after calls).answer ⟨type, env⟩, type.OfSocket →
        (((topoInit size r place).after (calls ++ [⟨type, env⟩])).groups .node).state = .enable ∨
        (((topoInit size r place).after (calls ++ [⟨type, env⟩])).groups .node).state = .disable) ↔
      ((topoInit size r place).after calls).Calm type) := by
  refine ⟨?_, fun calls type hrun => ⟨fun h => ?_, fun hcalm env g hg hsocket => ?_⟩⟩
  · rintro calls calls' ⟨type, env⟩ ⟨type', env'⟩ htype hrun hrun' g hg g' hg'
    obtain rfl : type = type' := htype
    rw [calmRun_append_singleton] at hrun hrun'
    have hok := topoGetGroup_ok env (topoOk_init.after hrun.1) hrun.2
    have hok' := topoGetGroup_ok env' (topoOk_init.after hrun'.1) hrun'.2
    rw [hok.group g hg, hok'.group g' hg']
  · by_contra hcalm
    let env : CreateEnv := ⟨true, true, fun _ => true, fun _ => true, fun _ => true⟩
    have hperf : env.Perfect := ⟨rfl, rfl, fun _ => rfl, fun _ => rfl, fun _ => rfl⟩
    obtain ⟨g, hg, -, -, herr⟩ := answer_of_not_calm (topoOk_init.after hrun) type ⟨env, env⟩
      hcalm hperf
    have hsocket : type.OfSocket := by
      by_contra hs
      exact hcalm fun h => absurd h hs
    have hstate := h ⟨env, env⟩ g hg hsocket
    rw [after_append_singleton, herr] at hstate
    rcases hstate with hs | hs <;> cases hs
  · have hok := topoGetGroup_ok env (topoOk_init.after hrun) hcalm
    rw [after_append_singleton, hok.prereq g hg hsocket]
    exact state_topoGroupSpec

end Runs

/-- Two ranks with the given ids. -/
def twoPlaces (hasNodeId : ℕ → Bool) (q : ℕ) : Location := ⟨false, hasNodeId q, true, 0, 7, 3⟩

/-- Nothing fails, or the location of a rank. -/
def envOf (located : Bool) : CreateEnv :=
  ⟨true, true, fun _ => located, fun _ => true, fun _ => true⟩

def TopoCall.of (type : TopoGroupType) (located : Bool) : TopoCall :=
  ⟨type, ⟨envOf located, envOf located⟩⟩

/-- A node group whose first creation runs out of memory, and a socket group asked for before and
    after it. -/
theorem topoGetGroup_history_two : ∃ g,
    ((topoInit 2 0 (twoPlaces fun _ => true)).after
      [⟨.node, ⟨envOf true, { envOf true with ranks := false }⟩⟩, .of .nodeLeader true]).answer
        (.of .socket true) = some g ∧
    ∀ g' ∈ (topoInit 2 0 (twoPlaces fun _ => true)).answer (.of .socket true), g = g' :=
  ⟨⟨some 0, 2, ⟨.full, 2⟩, .enable⟩, by decide, (topoGetGroup_history _ 2 0).1
    [⟨.node, ⟨envOf true, { envOf true with ranks := false }⟩⟩, .of .nodeLeader true] []
    (.of .socket true) (.of .socket true) rfl
    ⟨fun h => absurd h (by decide), fun h => absurd h (by decide), fun _ => by decide, trivial⟩
    ⟨fun _ => by decide, trivial⟩ _ (by decide)⟩

/-- A socket group of two ranks is returned with both of them at first, and with none of them after
    the node group has failed once. When the second rank has no node id, it is refused at first and
    returned with no member when it is asked for again. -/
theorem topoGetGroup_not_history :
    ((topoInit 2 0 (twoPlaces fun _ => true)).answer (.of .socket true) =
        some ⟨some 0, 2, ⟨.full, 2⟩, .enable⟩ ∧
      ((topoInit 2 0 (twoPlaces fun _ => true)).after [.of .node false]).answer (.of .socket true) =
        some ⟨none, 0, RankMap.zero, .disable⟩) ∧
    (topoInit 2 0 (twoPlaces (· = 0))).answer (.of .socket true) = none ∧
    ((topoInit 2 0 (twoPlaces (· = 0))).after [.of .socket true]).answer (.of .socket true) =
      some ⟨none, 0, RankMap.zero, .disable⟩ := by
  decide

/-! ### The groups that the ids describe -/

/-- The members of a group of rank `r` in increasing order: the ranks of its node or socket, and the
    lowest ranks of every node or of every socket of its node. -/
def topoList (place : ℕ → Location) (size r : ℕ) (type : TopoGroupType) : List ℕ :=
  (List.range size).filter fun q => match type with
    | .net => true
    | .subnet => (place q).subnetId = (place r).subnetId
    | .subnetLeader => ∀ p < q, (place p).subnetId ≠ (place q).subnetId
    | .node => (place q).nodeId = (place r).nodeId
    | .nodeLeader => ∀ p < q, (place p).nodeId ≠ (place q).nodeId
    | .socket => (place q).nodeId = (place r).nodeId ∧ (place q).socketId = (place r).socketId
    | .socketLeader => (place q).nodeId = (place r).nodeId ∧
        ∀ p < q, ¬((place p).nodeId = (place q).nodeId ∧ (place p).socketId = (place q).socketId)

/-- The group of rank `r` lists these members. A disabled group has no list. -/
structure TopoGroup.Lists (group : TopoGroup) (members : List ℕ) (r : ℕ) : Prop where
  state : group.state = .enable ∨ group.state = .disable
  enable_iff : group.state = .enable ↔ r ∈ members ∧ 2 ≤ members.length
  size : group.state = .enable → group.size = members.length
  rankMap : group.state = .enable → ∀ i, group.rankMap.eval i = members[i]?
  myrank : group.state = .enable → group.myrank = some (members.idxOf r)

section Lists

variable {place : ℕ → Location} {size r : ℕ}

theorem topoMembers_topoSeen (type : TopoGroupType) :
    topoMembers place r (topoSeen place size r type) type = topoList place size r type := by
  have hrange (q) (hq : q ∈ List.range size) (key : Location → ℤ) :
      (∀ p ∈ List.range size, p < q → key (place p) ≠ key (place q)) ↔
        ∀ p < q, key (place p) ≠ key (place q) :=
    ⟨fun h p hlt => h p (List.mem_range.mpr (hlt.trans (List.mem_range.mp hq))) hlt,
      fun h p _ hlt => h p hlt⟩
  cases type with
  | net | subnet | node => rfl
  | subnetLeader =>
    exact List.filter_congr fun q hq => decide_eq_decide.mpr (hrange q hq Location.subnetId)
  | nodeLeader =>
    exact List.filter_congr fun q hq => decide_eq_decide.mpr (hrange q hq Location.nodeId)
  | socket =>
    rw [topoMembers, topoSeen, if_pos (by decide), topoMembers, List.filter_filter]
    refine List.filter_congr fun q _ => ?_
    rw [Bool.eq_iff_iff]
    simp only [Bool.and_eq_true, decide_eq_true_eq]
    exact ⟨fun h => h.1, fun h => ⟨h, h.1⟩⟩
  | socketLeader =>
    rw [topoMembers, topoSeen, if_pos (by decide), topoMembers, List.filter_filter]
    refine List.filter_congr fun q hq => ?_
    rw [Bool.eq_iff_iff]
    simp only [Bool.and_eq_true, decide_eq_true_eq]
    constructor
    · rintro ⟨hlead, hnode⟩
      refine ⟨hnode, fun p hlt heq => hlead p (List.mem_filter.mpr ⟨?_, ?_⟩) hlt heq.2⟩
      · exact List.mem_range.mpr (hlt.trans (List.mem_range.mp hq))
      · exact decide_eq_true (heq.1.trans hnode)
    · rintro ⟨hnode, hlead⟩
      refine ⟨fun p hp hlt hs => hlead p hlt ⟨?_, hs⟩, hnode⟩
      have hn : (place p).nodeId = (place r).nodeId := of_decide_eq_true (List.mem_filter.mp hp).2
      exact hn.trans hnode.symm

/-- The members of a group see the same members. -/
theorem topoList_eq {q : ℕ} {type : TopoGroupType} (h : q ∈ topoList place size r type) :
    topoList place size q type = topoList place size r type := by
  have hq := (List.mem_filter.mp h).2
  cases type with
  | net | subnetLeader | nodeLeader => rfl
  | subnet | node => simp only [topoList, of_decide_eq_true hq]
  | socket =>
    obtain ⟨hnode, hsocket⟩ := of_decide_eq_true hq
    simp only [topoList, hnode, hsocket]
  | socketLeader =>
    obtain ⟨hnode, -⟩ := of_decide_eq_true hq
    simp only [topoList, hnode]

theorem groupOf_lists (members : List ℕ) : (groupOf members r).Lists members r := by
  have hmine : myIndex members r = none ↔ r ∉ members := by
    rw [myIndex]
    split_ifs with hr <;> simp [hr]
  rw [groupOf]
  split_ifs with hdis
  · refine ⟨Or.inr rfl, ⟨by simp, fun h => ?_⟩, by simp, by simp, by simp⟩
    rw [hmine] at hdis
    rcases hdis with hdis | hdis
    · exact absurd h.1 hdis
    · omega
  · rw [not_or, hmine, not_not] at hdis
    refine ⟨Or.inl rfl, ⟨fun _ => ⟨hdis.1, by omega⟩, fun _ => rfl⟩, fun _ => rfl,
      fun _ i => eval_rankMapInitByArray members i, fun _ => ?_⟩
    rw [myIndex, if_pos hdis.1]

/-- The rank is the only one of its node. -/
def Alone (place : ℕ → Location) (size r : ℕ) : Prop := (topoList place size r .node).length ≤ 1

instance : Decidable (Alone place size r) := inferInstanceAs (Decidable (_ ≤ _))

/-- A rank is on its own node. -/
theorem mem_topoList_node (hr : r < size) : r ∈ topoList place size r .node :=
  List.mem_filter.mpr ⟨List.mem_range.mpr hr, decide_eq_true rfl⟩

theorem state_node_eq_disable (hr : r < size) :
    (groupOf (topoMembers place r (List.range size) .node) r).state = .disable ↔
      Alone place size r := by
  have hlist := groupOf_lists (r := r) (topoList place size r .node)
  change (groupOf (topoList place size r .node) r).state = .disable ↔ _
  rw [Alone]
  constructor
  · intro hdis
    by_contra hlen
    rw [hlist.enable_iff.mpr ⟨mem_topoList_node hr, by omega⟩] at hdis
    cases hdis
  · intro hlen
    refine hlist.state.resolve_left fun hen => ?_
    have := (hlist.enable_iff.mp hen).2
    omega

/-- The group as it follows from the locations, by its members. -/
theorem topoGroupSpec_eq (hr : r < size) (type : TopoGroupType) :
    topoGroupSpec place size r type =
      if type.OfSocket ∧ Alone place size r then ⟨none, 0, RankMap.zero, .disable⟩
      else groupOf (topoList place size r type) r := by
  rw [topoGroupSpec, topoMembers_topoSeen]
  simp only [state_node_eq_disable hr]

/-- The socket and the socket leaders of a node of one rank are one rank. -/
theorem topoList_alone {type : TopoGroupType} (hsocket : type.OfSocket)
    (h : Alone place size r) : (topoList place size r type).length ≤ 1 := by
  refine le_trans ?_ h
  rw [← topoMembers_topoSeen, topoMembers, topoSeen, if_pos hsocket]
  exact List.length_filter_le _ _

theorem topoGroupSpec_lists (hr : r < size) (type : TopoGroupType) :
    (topoGroupSpec place size r type).Lists (topoList place size r type) r := by
  rw [topoGroupSpec_eq hr]
  split_ifs with h
  · refine ⟨Or.inr rfl, ⟨nofun, fun h' => ?_⟩, nofun, nofun, nofun⟩
    have := topoList_alone h.1 h.2
    omega
  · exact groupOf_lists _

/-- The types of the groups made from node and socket ids. -/
def TopoGroupType.ByIds : TopoGroupType → Prop
  | .node | .nodeLeader | .socket | .socketLeader => True
  | .net | .subnet | .subnetLeader => False

/-- Every rank has a node id and a socket id. -/
def HasIds (place : ℕ → Location) (size : ℕ) : Prop :=
  ∀ q < size, (place q).hasNodeId = true ∧ (place q).hasSocketId = true

theorem HasIds.checked (h : HasIds place size) {type : TopoGroupType} (htype : type.ByIds) :
    Checked place type (List.range size) := by
  intro q hq
  obtain ⟨hnode, hsocket⟩ := h q (List.mem_range.mp hq)
  cases type with
  | node | nodeLeader => exact if_pos hnode
  | socket | socketLeader => exact if_neg (by simp [hnode, hsocket])
  | net | subnet | subnetLeader => exact absurd htype id

/-- A call is not refused any location. -/
def TopoCall.Located (c : TopoCall) : Prop := c.env.node.Located ∧ c.env.own.Located

/-- When every rank has its ids and no location is refused, the node group does not fail, and so a
    run is calm. -/
theorem noFail_after (hids : HasIds place size) : ∀ {topo : Topo} {calls : List TopoCall},
    TopoOk place size r topo → NoFail place size topo → (∀ c ∈ calls, c.Located) →
    CalmRun topo calls ∧ NoFail place size (topo.after calls)
  | _, [], _, hno, _ => ⟨trivial, hno⟩
  | topo, c :: calls, h, hno, hloc => by
    rw [List.forall_mem_cons] at hloc
    have hcalm : topo.Calm c.type := fun _ => hno .node (hids.checked trivial)
    have hget := topoGetGroup_ok c.env h hcalm
    obtain ⟨hrun, hno'⟩ := noFail_after hids hget.ok (hget.noFail hloc.1.1 hloc.1.2 hno) hloc.2
    exact ⟨⟨hcalm, hrun⟩, hno'⟩

/-- When every rank has a node id and a socket id, then after any calls a call for a node or socket
    group, or for the group of their leaders, gives the group of the ranks described by the ids: it
    is enabled exactly when the rank is one of at least two members, and then lists them in
    increasing order. A group is always given when nothing fails, and two members of a group are
    given the same one. A disabled group has the number of its members and the index of the rank
    among them, except for the socket groups of a rank alone on its node, which have neither. -/
theorem topoGroups_correct (hids : HasIds place size) (hr : r < size) {type : TopoGroupType}
    (htype : type.ByIds) {calls : List TopoCall} (hcalls : ∀ c ∈ calls, c.Located) (env : GetEnv) :
    (env.node.Perfect → env.own.Perfect →
      ((topoInit size r place).after calls).answer ⟨type, env⟩ ≠ none) ∧
    ∀ g ∈ ((topoInit size r place).after calls).answer ⟨type, env⟩,
      g.Lists (topoList place size r type) r ∧
      (¬(type.OfSocket ∧ Alone place size r) → g.size = (topoList place size r type).length ∧
        g.myrank = myIndex (topoList place size r type) r) ∧
      ∀ q < size, r ∈ topoList place size r type → q ∈ topoList place size r type →
        topoList place size q type = topoList place size r type ∧
        ∀ calls' : List TopoCall, (∀ c ∈ calls', c.Located) → ∀ env',
          ∀ g' ∈ ((topoInit size q place).after calls').answer ⟨type, env'⟩,
            g'.state = g.state ∧ g'.size = g.size ∧ g'.rankMap = g.rankMap := by
  have hgroup {r : ℕ} {calls : List TopoCall} (hcalls : ∀ c ∈ calls, c.Located) (env : GetEnv) :
      NoFail place size ((topoInit size r place).after calls) ∧
      GetOk place size r ((topoInit size r place).after calls) env type
        (topoGetGroup ((topoInit size r place).after calls) env type) := by
    obtain ⟨hrun, hno⟩ := noFail_after hids (topoOk_init (r := r)) (fun _ _ => nofun) hcalls
    exact ⟨hno, topoGetGroup_ok env (topoOk_init.after hrun)
      fun _ => hno .node (hids.checked trivial)⟩
  obtain ⟨hno, hget⟩ := hgroup hcalls env
  refine ⟨fun hp hp' => hget.total hp hp' hno (hids.checked htype), fun g hg => ?_⟩
  obtain rfl := hget.group g hg
  refine ⟨topoGroupSpec_lists hr type, fun h => ?_, fun q hq hmem hmem' => ?_⟩
  · rw [topoGroupSpec_eq hr, if_neg h]
    exact ⟨by rw [groupOf]; split_ifs <;> rfl, myrank_groupOf ..⟩
  · have hlist := topoList_eq hmem'
    refine ⟨hlist, fun calls' hcalls' env' g' hg' => ?_⟩
    obtain rfl := (hgroup hcalls' env').2.group g' hg'
    by_cases hlen : (topoList place size r type).length ≤ 1
    · -- a group of one rank
      obtain ⟨x, hx⟩ : ∃ x, topoList place size r type = [x] :=
        List.length_eq_one_iff.mp (le_antisymm hlen (List.length_pos_of_mem hmem))
      rw [hx, List.mem_singleton] at hmem hmem'
      rw [hmem, hmem']
      exact ⟨rfl, rfl, rfl⟩
    · have hnot (r' : ℕ) (heq : topoList place size r' type = topoList place size r type) :
          ¬(type.OfSocket ∧ Alone place size r') := fun h => hlen (heq ▸ topoList_alone h.1 h.2)
      have hen {r' : ℕ} (hr' : r' ∈ topoList place size r type) :
          ¬(myIndex (topoList place size r type) r' = none ∨
            (topoList place size r type).length ≤ 1) := by
        rw [myIndex, if_pos hr']
        simpa using hlen
      rw [topoGroupSpec_eq hr, topoGroupSpec_eq hq, if_neg (hnot r rfl), if_neg (hnot q hlist),
        hlist, groupOf, groupOf, if_neg (hen hmem), if_neg (hen hmem')]
      exact ⟨rfl, rfl, rfl⟩

end Lists

theorem topoGroups_correct_two : ∃ g,
    ((topoInit 2 1 (twoPlaces fun _ => true)).after [.of .nodeLeader true]).answer
      (.of .socket true) = some g ∧ g.Lists [0, 1] 1 := by
  refine ⟨⟨some 1, 2, ⟨.full, 2⟩, .enable⟩, by decide, ?_⟩
  have hcalls : ∀ c ∈ [TopoCall.of .nodeLeader true], c.Located := by
    rintro c hc
    obtain rfl := List.mem_singleton.mp hc
    exact ⟨fun _ => rfl, fun _ => rfl⟩
  have hids : HasIds (twoPlaces fun _ => true) 2 := fun _ _ => ⟨rfl, rfl⟩
  have hsocket : TopoGroupType.socket.ByIds := trivial
  have hr : 1 < 2 := by decide
  exact ((topoGroups_correct hids hr hsocket hcalls ⟨envOf true, envOf true⟩).2 _ (by decide)).1

/-- A rank alone on its node is the first of the ranks with its node and socket id, but its socket
    group has no member and no rank. -/
theorem socketGroup_alone : topoList (twoPlaces fun _ => true) 1 0 .socket = [0] ∧
    (topoInit 1 0 (twoPlaces fun _ => true)).answer (.of .socket true) =
      some ⟨none, 0, RankMap.zero, .disable⟩ ∧
    ¬∀ g ∈ (topoInit 1 0 (twoPlaces fun _ => true)).answer (.of .socket true),
      g.size = (topoList (twoPlaces fun _ => true) 1 0 .socket).length ∧
      g.myrank = some ((topoList (twoPlaces fun _ => true) 1 0 .socket).idxOf 0) := by
  decide

/-! ### Runs that are not calm

    Once the node group has failed it stays so. A socket group that is asked for then may be wrong,
    but the node group is not given any more. -/

/-- A topology in order, or one whose node group has failed. -/
def InOrder (place : ℕ → Location) (size r : ℕ) (topo : Topo) : Prop :=
  TopoOk place size r topo ∨ (topo.groups .node).state = .error

section InOrder

variable {place : ℕ → Location} {size r : ℕ} {topo : Topo}

theorem inOrder_init : InOrder place size r (topoInit size r place) := Or.inl topoOk_init

theorem topoCreateGroup_groups_of_ne (env : CreateEnv) (rankMap : RankMap)
    {type type' : TopoGroupType} (h : type' ≠ type) :
    (topoCreateGroup topo env rankMap type).1.groups type' = topo.groups type' := by
  rw [topoCreateGroup]
  dsimp only
  split
  · rfl
  split
  · rfl
  split
  · exact groups_setGroup_of_ne h
  · exact groups_setGroup_of_ne h
  · split_ifs
    · exact groups_setGroup_of_ne h
    · exact groups_setGroup_of_ne h

/-- A node group that has failed is left as it is, and is not given. -/
theorem topoGetGroup_of_error (env : GetEnv) (type : TopoGroupType)
    (herr : (topo.groups .node).state = .error) :
    (topoGetGroup topo env type).1.groups .node = topo.groups .node ∧
      (type = .node → (topoGetGroup topo env type).2 = none) := by
  rw [topoGetGroup.eq_def]
  dsimp only
  split_ifs with hnot hfail
  · exact ⟨rfl, fun _ => rfl⟩
  · exact ⟨rfl, fun htype => absurd (htype ▸ herr) hfail⟩
  · cases type with
    | node => exact absurd (by simp [herr]) hnot
    | socket | socketLeader =>
      refine ⟨?_, fun h => by cases h⟩
      simp only [topoGetSocketGroup, herr, reduceCtorEq, if_false, not_true_eq_false]
      exact topoCreateGroup_groups_of_ne _ _ (by simp)
    | net | subnet | subnetLeader | nodeLeader =>
      exact ⟨topoCreateGroup_groups_of_ne _ _ (by simp), fun h => by cases h⟩

/-- A call in a topology in order. -/
theorem InOrder.get (h : InOrder place size r topo) (env : GetEnv) (type : TopoGroupType) :
    InOrder place size r (topoGetGroup topo env type).1 := by
  by_cases herr : (topo.groups .node).state = .error
  · exact Or.inr ((topoGetGroup_of_error env type herr).1 ▸ herr)
  · exact Or.inl (topoGetGroup_ok env (h.resolve_right herr) fun _ => herr).ok

/-- The node group is given as the locations say. -/
theorem InOrder.node (h : InOrder place size r topo) {env : GetEnv} {g : TopoGroup}
    (hg : g ∈ (topoGetGroup topo env .node).2) :
    g = topoGroupSpec place size r .node ∧ (topo.groups .node).state ≠ .error := by
  by_cases herr : (topo.groups .node).state = .error
  · rw [(topoGetGroup_of_error env .node herr).2 rfl] at hg
    cases hg
  · exact ⟨(topoGetGroup_ok env (h.resolve_right herr) fun _ => herr).group g hg, herr⟩

/-- The socket group is given as the locations say, if the node group is given after it. -/
theorem InOrder.socket_node (h : InOrder place size r topo) {env env' : GetEnv} {g g' : TopoGroup}
    (hg : g ∈ (topoGetGroup topo env .socket).2)
    (hg' : g' ∈ (topoGetGroup (topoGetGroup topo env .socket).1 env' .node).2) :
    g = topoGroupSpec place size r .socket ∧ g' = topoGroupSpec place size r .node := by
  obtain ⟨heq, hnot⟩ := (h.get env .socket).node hg'
  by_cases herr : (topo.groups .node).state = .error
  · rw [(topoGetGroup_of_error env .socket herr).1] at hnot
    exact absurd herr hnot
  · exact ⟨(topoGetGroup_ok env (h.resolve_right herr) fun _ => herr).group g hg, heq⟩

end InOrder

end Kucg.Core
