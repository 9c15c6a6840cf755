import Kucg.Core.TopoRuns
import Kucg.Lib.Telling

/-! The topology groups as levels: the lowest ranks of the sockets are the members of the groups of
    socket leaders, and the lowest ranks of these, or of the nodes, are the node leaders. -/

namespace Kucg.Core

open Kucg.Lib

variable {place : ℕ → Location} {size q r : ℕ}

/-- The group of every rank. -/
def topoLists (place : ℕ → Location) (size : ℕ) (type : TopoGroupType) (r : ℕ) : List ℕ :=
  topoList place size r type

theorem isGrouping_topoLists (type : TopoGroupType) : IsGrouping (topoLists place size type) where
  nodup _ := List.nodup_range.filter _
  same _ _ _ hq := topoList_eq hq

theorem lt_of_mem_topoLists {type : TopoGroupType} (h : q ∈ topoLists place size type r) :
    q < size :=
  List.mem_range.mp (List.mem_filter.mp h).1

theorem length_topoLists_le (type : TopoGroupType) :
    (topoLists place size type r).length ≤ size :=
  (List.length_filter_le ..).trans_eq List.length_range

/-- The group that a call gives lists the members by the locations. -/
theorem answer_lists (hids : HasIds place size) (hr : r < size) {type : TopoGroupType}
    {calls : List TopoCall} (hcalls : ∀ c ∈ calls, c.Located) {env : GetEnv} {g : TopoGroup}
    (hg : g ∈ ((topoInit size r place).after calls).answer ⟨type, env⟩) :
    g.Lists (topoLists place size type r) r := by
  obtain ⟨hrun, hno⟩ := noFail_after hids (topoOk_init (r := r)) (fun _ _ => nofun) hcalls
  have hcalm : ((topoInit size r place).after calls).Calm type :=
    fun _ => hno .node (hids.checked trivial)
  have hget := topoGetGroup_ok env (topoOk_init.after hrun) hcalm
  rw [hget.group g hg]
  exact topoGroupSpec_lists hr type

/-- A group that is given is kept in the topology. -/
theorem topoGetGroup_groups {topo topo' : Topo} {env : GetEnv} {type : TopoGroupType}
    {g : TopoGroup} (h : topoGetGroup topo env type = (topo', some g)) : topo'.groups type = g := by
  have hcreated {res : Topo × Bool} (h : topoCreated type res = (topo', some g)) :
      topo'.groups type = g := by
    obtain ⟨hfst, hsnd⟩ := Prod.ext_iff.mp h
    rw [topoCreated] at hfst hsnd
    dsimp only at hfst hsnd
    split_ifs at hsnd
    rw [← hfst, Option.some.inj hsnd]
  have hsocket (h : topoGetSocketGroup topo env type = (topo', some g)) :
      topo'.groups type = g := by
    rw [topoGetSocketGroup] at h
    generalize (if (topo.groups .node).state = .notInit
      then topoCreateFullGroup topo env.node .node else (topo, true)) = res at h
    obtain ⟨topo₁, ok⟩ := res
    dsimp only at h
    split_ifs at h with hok hdis
    · cases h
      rw [groups_setGroup]
    · exact hcreated h
    · cases h
  rw [topoGetGroup.eq_def] at h
  dsimp only at h
  split_ifs at h with hnot hfail
  · cases h
  · obtain ⟨rfl, hg⟩ := Prod.ext_iff.mp h
    exact Option.some.inj hg
  · cases type with
    | socket | socketLeader => exact hsocket h
    | net | subnet | subnetLeader | node | nodeLeader => exact hcreated h

/-- The rank is the lowest one of its node. -/
def LeadsNode (place : ℕ → Location) (r : ℕ) : Prop :=
  ∀ p < r, (place p).nodeId ≠ (place r).nodeId

/-- The rank is the lowest one of its socket. -/
def LeadsSocket (place : ℕ → Location) (r : ℕ) : Prop :=
  ∀ p < r, ¬((place p).nodeId = (place r).nodeId ∧ (place p).socketId = (place r).socketId)

theorem LeadsNode.socket (h : LeadsNode place r) : LeadsSocket place r :=
  fun p hp hsame => h p hp hsame.1

/-- Every rank has a lowest one in its socket. -/
theorem exists_leadsSocket (place : ℕ → Location) (r : ℕ) : ∃ p ≤ r, LeadsSocket place p ∧
    (place p).nodeId = (place r).nodeId := by
  induction r using Nat.strong_induction_on with
  | _ r ih =>
    by_cases hlead : LeadsSocket place r
    · exact ⟨r, le_rfl, hlead, rfl⟩
    · rw [LeadsSocket] at hlead
      push Not at hlead
      obtain ⟨p, hp, hnode, -⟩ := hlead
      obtain ⟨p', hp', hlead', hnode'⟩ := ih p hp
      exact ⟨p', hp'.trans hp.le, hlead', hnode'.trans hnode⟩

/-- The first of the numbers that have a property. -/
theorem head?_filter_range {n : ℕ} {p : ℕ → Bool} :
    ((List.range n).filter p).head? = some r ↔ r < n ∧ p r = true ∧ ∀ q < r, p q = false := by
  rw [List.head?_filter, List.find?_range_eq_some]
  simp only [List.mem_range, Bool.not_eq_true']
  tauto

/-! ### Members and first members -/

theorem mem_nodeLeader : q ∈ topoLists place size .nodeLeader r ↔ q < size ∧ LeadsNode place q := by
  simp [topoLists, topoList, LeadsNode]

theorem mem_socketLeader : q ∈ topoLists place size .socketLeader r ↔
    q < size ∧ (place q).nodeId = (place r).nodeId ∧ LeadsSocket place q := by
  simp [topoLists, topoList, LeadsSocket]

theorem isFirst_node : IsFirst (topoLists place size .node) r ↔ r < size ∧ LeadsNode place r := by
  rw [IsFirst, topoLists, topoList, head?_filter_range]
  simp [LeadsNode]

theorem isFirst_socket :
    IsFirst (topoLists place size .socket) r ↔ r < size ∧ LeadsSocket place r := by
  rw [IsFirst, topoLists, topoList, head?_filter_range]
  simp [LeadsSocket]

/-- The first leader of the sockets of a node is the leader of the node. -/
theorem isFirst_socketLeader :
    IsFirst (topoLists place size .socketLeader) r ↔ r < size ∧ LeadsNode place r := by
  rw [IsFirst, topoLists, topoList, head?_filter_range]
  simp only [decide_eq_true_eq, decide_eq_false_iff_not]
  refine and_congr_right fun _ => ⟨?_, ?_⟩
  · rintro ⟨-, hfirst⟩ p hp hnode
    obtain ⟨p', hp', hlead, hnode'⟩ := exists_leadsSocket place p
    exact hfirst p' (hp'.trans_lt hp) ⟨hnode'.trans hnode, hlead⟩
  · intro h
    exact ⟨⟨trivial, h.socket⟩, fun p hp hsame => h p hp hsame.1⟩

/-! ### Levels -/

section Levels

variable {gs : List (ℕ → List ℕ)} {T : Set ℕ}

/-- The groups of the nodes, below those of their leaders. -/
theorem levels_node (hnext : Levels gs {r | r < size ∧ LeadsNode place r} T) :
    Levels (topoLists place size .node :: gs) {r | r < size} T := by
  refine .level (isGrouping_topoLists _) (fun r hr => mem_topoList_node hr)
    (fun r _ q hq => lt_of_mem_topoLists hq) ?_
  convert hnext using 1
  ext r
  simp only [Set.mem_ofPred_eq, isFirst_node]
  tauto

/-- The groups of the sockets and of their leaders, below those of the leaders of the nodes. -/
theorem levels_socket (hnext : Levels gs {r | r < size ∧ LeadsNode place r} T) :
    Levels (topoLists place size .socket :: topoLists place size .socketLeader :: gs)
      {r | r < size} T := by
  refine .level (isGrouping_topoLists _) (fun r hr => ?_)
    (fun r _ q hq => lt_of_mem_topoLists hq) ?_
  · simpa [topoLists, topoList] using hr
  refine .level (isGrouping_topoLists _) ?_ ?_ ?_
  · rintro r ⟨hr, hfirst⟩
    exact mem_socketLeader.mpr ⟨hr, rfl, (isFirst_socket.mp hfirst).2⟩
  · rintro r - q hq
    obtain ⟨hq, -, hlead⟩ := mem_socketLeader.mp hq
    exact ⟨hq, isFirst_socket.mpr ⟨hq, hlead⟩⟩
  · convert hnext using 1
    ext r
    simp only [Set.mem_ofPred_eq, isFirst_socket, isFirst_socketLeader]
    exact ⟨fun h => h.2, fun h => ⟨⟨h.1, h.1, h.2.socket⟩, h⟩⟩

/-- The group of the leaders of the nodes has one first member. -/
theorem levels_nodeLeader (place : ℕ → Location) (size : ℕ) : ∃ T : Set ℕ, T.Subsingleton ∧
    Levels [topoLists place size .nodeLeader] {r | r < size ∧ LeadsNode place r} T := by
  refine ⟨_, ?_, .level (isGrouping_topoLists _) (fun r hr => mem_nodeLeader.mpr hr)
    (fun r _ q hq => mem_nodeLeader.mp hq) (.top _)⟩
  rintro r ⟨-, hr⟩ q ⟨-, hq⟩
  exact Option.some.inj (hr.symm.trans hq)

end Levels

end Kucg.Core
