import Kucg.Core.Topo
import Mathlib.Data.List.GetD

/-! What the groups of a topology are.

    The ranks that a creation looks at come in increasing order, so a leader filter keeps exactly
    the lowest rank of each id (`ScanInv`), and a creation that succeeds yields a group that depends
    on the locations alone (`topoCreateGroup_spec`). A topology is in order (`TopoOk`) when each of
    its groups is that one, or has failed, or has not been created; every call keeps it so, unless
    it asks for a socket group after the node group has failed. -/

namespace Kucg.Core

/-! ### Members -/

/-- Rank `q` is a member of the group of rank `r`, the ranks looked at being `seen`. -/
def Belongs (place : ℕ → Location) (r : ℕ) (seen : List ℕ) (type : TopoGroupType) (q : ℕ) : Prop :=
  match type with
  | .net => True
  | .subnet => (place q).subnetId = (place r).subnetId
  | .subnetLeader => ∀ p ∈ seen, p < q → (place p).subnetId ≠ (place q).subnetId
  | .node => (place q).nodeId = (place r).nodeId
  | .nodeLeader => ∀ p ∈ seen, p < q → (place p).nodeId ≠ (place q).nodeId
  | .socket => (place q).nodeId = (place r).nodeId ∧ (place q).socketId = (place r).socketId
  | .socketLeader => ∀ p ∈ seen, p < q → (place p).socketId ≠ (place q).socketId

instance (place : ℕ → Location) (r : ℕ) (seen : List ℕ) :
    (type : TopoGroupType) → DecidablePred (Belongs place r seen type)
  | .net, _ => inferInstanceAs (Decidable True)
  | .subnet, _ | .node, _ => inferInstanceAs (Decidable (_ = _))
  | .socket, _ => inferInstanceAs (Decidable (_ ∧ _))
  | .subnetLeader, _ | .nodeLeader, _ | .socketLeader, _ =>
    inferInstanceAs (Decidable (∀ p ∈ seen, _))

/-- The members of the group of rank `r` among the ranks `seen`. -/
def topoMembers (place : ℕ → Location) (r : ℕ) (seen : List ℕ) (type : TopoGroupType) : List ℕ :=
  seen.filter fun q => Belongs place r seen type q

/-- The id that the leaders of a type are told apart by. -/
def TopoGroupType.key : TopoGroupType → Option (Location → ℤ)
  | .subnetLeader => some Location.subnetId
  | .nodeLeader => some Location.nodeId
  | .socketLeader => some Location.socketId
  | .net | .subnet | .node | .socket => none

/-- A type keeps no filter, or one by the id of its leaders. -/
theorem topoGroupAid_cases (type : TopoGroupType) :
    (type.key = none ∧ ∃ check isMember, topoGroupAid type = auxPlain check isMember ∧
      ∀ place r seen q, Belongs place r seen type q ↔ isMember (place r) (place q) = true) ∨
    ∃ check key, type.key = some key ∧ topoGroupAid type = auxLeader check key ∧
      ∀ place r seen q, Belongs place r seen type q ↔
        ∀ p ∈ seen, p < q → key (place p) ≠ key (place q) := by
  cases type with
  | net => exact Or.inl ⟨rfl, _, _, rfl, fun _ _ _ _ => by simp [Belongs]⟩
  | subnet => exact Or.inl ⟨rfl, _, _, rfl, fun _ _ _ _ => by simp [Belongs, auxIsSubnetMember]⟩
  | node => exact Or.inl ⟨rfl, _, _, rfl, fun _ _ _ _ => by simp [Belongs, auxIsNodeMember]⟩
  | socket => exact Or.inl ⟨rfl, _, _, rfl, fun _ _ _ _ => by simp [Belongs, auxIsSocketMember]⟩
  | subnetLeader => exact Or.inr ⟨_, _, rfl, rfl, fun _ _ _ _ => Iff.rfl⟩
  | nodeLeader => exact Or.inr ⟨_, _, rfl, rfl, fun _ _ _ _ => Iff.rfl⟩
  | socketLeader => exact Or.inr ⟨_, _, rfl, rfl, fun _ _ _ _ => Iff.rfl⟩

/-- Later ranks do not change whether a rank is a member. -/
theorem belongs_append {place : ℕ → Location} {r : ℕ} {seen more : List ℕ} {type : TopoGroupType}
    {q : ℕ} (h : ∀ p ∈ more, q ≤ p) :
    Belongs place r (seen ++ more) type q ↔ Belongs place r seen type q := by
  obtain ⟨-, check, isMember, -, hb⟩ | ⟨check, key, -, -, hb⟩ := topoGroupAid_cases type
  · rw [hb, hb]
  · rw [hb, hb]
    refine ⟨fun hall p hp => hall p (List.mem_append_left _ hp), fun hall p hp hlt => ?_⟩
    rcases List.mem_append.mp hp with hp | hp
    · exact hall p hp hlt
    · exact absurd hlt (Nat.not_lt.mpr (h p hp))

/-- The members among more ranks continue those among the first ones. -/
theorem topoMembers_append {place : ℕ → Location} {r : ℕ} {seen more : List ℕ}
    {type : TopoGroupType} (h : (seen ++ more).Pairwise (· < ·)) :
    topoMembers place r (seen ++ more) type = topoMembers place r seen type ++
      more.filter fun q => Belongs place r (seen ++ more) type q := by
  rw [topoMembers, List.filter_append, topoMembers]
  congr 1
  refine List.filter_congr fun q hq => ?_
  have hle (p) (hp : p ∈ more) : q ≤ p := ((List.pairwise_append.mp h).2.2 q hq p hp).le
  simp only [belongs_append hle]

/-! ### The loop -/

/-- The filter holds the ids of the ranks seen. -/
def Tracks (place : ℕ → Location) (type : TopoGroupType) (seen : List ℕ) (aux : Filter) : Prop :=
  ∀ key ∈ type.key, ∀ id, id ∈ aux.buffer ↔ ∃ q ∈ seen, key (place q) = id

theorem mem_buffer_auxAddLeader {mem : Bool} {aux aux' : Filter} {id : ℤ}
    (h : auxAddLeader mem aux id = some aux') : aux'.buffer = aux.buffer ++ [id] := by
  rw [auxAddLeader] at h
  split_ifs at h <;> cases h <;> rfl

section Aux

variable {place : ℕ → Location} {r x : ℕ} {seen : List ℕ} {type : TopoGroupType} {aux aux' : Filter}

theorem tracks_init {mem : Bool} (h : (topoGroupAid type).init mem = some aux) :
    Tracks place type [] aux := by
  rintro key hkey id
  obtain ⟨hnone, -⟩ | ⟨check, key, -, haid, -⟩ := topoGroupAid_cases type
  · rw [hnone] at hkey
    cases hkey
  · rw [haid] at h
    simp only [auxLeader, auxInitLeaderFilter] at h
    split_ifs at h
    cases h
    simp

/-- `is_member` decides whether the next rank is one. -/
theorem isMember_iff (hlt : ∀ p ∈ seen, p < x) (htr : Tracks place type seen aux) :
    (topoGroupAid type).isMember aux (place r) (place x) = true ↔ Belongs place r seen type x := by
  obtain ⟨-, check, isMember, haid, hb⟩ | ⟨check, key, hkey, haid, hb⟩ := topoGroupAid_cases type
  · rw [haid, hb]
    rfl
  · have hmem := htr key hkey (key (place x))
    rw [haid, hb]
    simp only [auxLeader, auxIsLeader, Bool.not_eq_true', List.contains_eq_mem,
      decide_eq_false_iff_not, hmem]
    push Not
    exact ⟨fun h p hp _ => h p hp, fun h p hp => h p hp (hlt p hp)⟩

/-- A rank that is no member has an id that was seen. -/
theorem tracks_skip (hlt : ∀ p ∈ seen, p < x) (htr : Tracks place type seen aux)
    (hx : ¬Belongs place r seen type x) : Tracks place type (seen ++ [x]) aux := by
  intro key hkey id
  obtain ⟨hnone, -⟩ | ⟨check, key', hkey', haid, hb⟩ := topoGroupAid_cases type
  · rw [hnone] at hkey
    cases hkey
  · obtain rfl : key' = key := Option.some.inj (hkey'.symm.trans hkey)
    rw [hb] at hx
    push Not at hx
    obtain ⟨p, hp, -, heq⟩ := hx
    rw [htr key' hkey id]
    simp only [List.mem_append, List.mem_singleton]
    constructor
    · rintro ⟨q, hq, rfl⟩
      exact ⟨q, Or.inl hq, rfl⟩
    · rintro ⟨q, hq | rfl, rfl⟩
      · exact ⟨q, hq, rfl⟩
      · exact ⟨p, hp, heq⟩

theorem tracks_add {mem : Bool} (htr : Tracks place type seen aux)
    (h : (topoGroupAid type).addMember mem aux (place x) = some aux') :
    Tracks place type (seen ++ [x]) aux' := by
  intro key hkey id
  obtain ⟨hnone, -⟩ | ⟨check, key', hkey', haid, -⟩ := topoGroupAid_cases type
  · rw [hnone] at hkey
    cases hkey
  · obtain rfl : key' = key := Option.some.inj (hkey'.symm.trans hkey)
    rw [haid] at h
    rw [mem_buffer_auxAddLeader h, List.mem_append, htr key' hkey id]
    simp only [List.mem_append, List.mem_singleton]
    constructor
    · rintro (⟨q, hq, rfl⟩ | rfl)
      · exact ⟨q, Or.inl hq, rfl⟩
      · exact ⟨x, Or.inr rfl, rfl⟩
    · rintro ⟨q, hq | rfl, rfl⟩
      · exact Or.inl ⟨q, hq, rfl⟩
      · exact Or.inr rfl

end Aux

/-- The topology of `size` ranks as rank `r` has it. -/
structure Topo.Of (place : ℕ → Location) (size r : ℕ) (topo : Topo) : Prop where
  myrank_eq : topo.myrank = r
  size_eq : topo.size = size
  getLocation_eq : topo.getLocation = place
  myloc_eq : topo.myloc = place r

/-- The index of rank `r` among the members. -/
def myIndex (members : List ℕ) (r : ℕ) : Option ℕ :=
  if r ∈ members then some (members.idxOf r) else none

/-- The loop after the ranks `seen`, the group having had `myrank₀` before. -/
structure ScanInv (place : ℕ → Location) (r : ℕ) (type : TopoGroupType) (myrank₀ : Option ℕ)
    (seen : List ℕ) (s : Scan) : Prop where
  ranks : s.ranks = topoMembers place r seen type
  tracks : Tracks place type seen s.aux
  myrank : s.myrank = (myIndex s.ranks r).or myrank₀

section Scan

variable {place : ℕ → Location} {size r : ℕ} {type : TopoGroupType} {myrank₀ : Option ℕ}
  {topo : Topo} {env : CreateEnv} {rankMap : RankMap}

theorem myIndex_append_singleton {members : List ℕ} {x : ℕ} (hx : x ∉ members) :
    myIndex (members ++ [x]) r =
      if x = r then some members.length else myIndex members r := by
  by_cases hxr : x = r
  · subst hxr
    rw [if_pos rfl, myIndex, if_pos (by simp), List.idxOf_append_of_notMem hx]
    simp
  · have hrx : ¬r = x := fun h => hxr h.symm
    rw [if_neg hxr, myIndex, myIndex]
    by_cases hr : r ∈ members
    · rw [if_pos hr, if_pos (List.mem_append_left _ hr), List.idxOf_append_of_mem hr]
    · rw [if_neg hr, if_neg (by simp [hr, hrx])]

/-- What looking at a rank does. -/
theorem topoScanRank_cases (topo : Topo) (env : CreateEnv) (aid : TopoGroupAux) (s : Scan) {i x : ℕ}
    (hi : rankMap.eval i = some x) :
    (topoScanRank topo env rankMap aid s i = .error .errGroup ∧
      (env.location i = false ∨ aid.check (topo.getLocation x) ≠ .ok)) ∨
    (topoScanRank topo env rankMap aid s i = .error .errCleanupAux ∧
      aid.isMember s.aux topo.myloc (topo.getLocation x) = true ∧
      (aid.addMember (env.extendFilter i) s.aux (topo.getLocation x) = none ∨
        env.extendRanks i = false)) ∨
    (topoScanRank topo env rankMap aid s i = .ok s ∧
      aid.isMember s.aux topo.myloc (topo.getLocation x) = false) ∨
    ∃ aux sizeRanks, topoScanRank topo env rankMap aid s i = .ok ⟨aux, s.ranks ++ [x], sizeRanks,
        if x = topo.myrank then some s.ranks.length else s.myrank⟩ ∧
      aid.isMember s.aux topo.myloc (topo.getLocation x) = true ∧
      aid.addMember (env.extendFilter i) s.aux (topo.getLocation x) = some aux := by
  rw [topoScanRank, hi]
  dsimp only
  by_cases hloc : env.location i = true
  · rw [if_neg (not_not.mpr hloc)]
    by_cases hcheck : aid.check (topo.getLocation x) = .ok
    · rw [if_neg (not_not.mpr hcheck)]
      by_cases hmem : aid.isMember s.aux topo.myloc (topo.getLocation x) = true
      · rw [if_neg (not_not.mpr hmem)]
        cases hadd : aid.addMember (env.extendFilter i) s.aux (topo.getLocation x) with
        | none => exact Or.inr (Or.inl ⟨rfl, hmem, Or.inl rfl⟩)
        | some aux =>
          dsimp only
          by_cases hfull : s.ranks.length = s.sizeRanks ∧ ¬env.extendRanks i
          · rw [if_pos hfull]
            exact Or.inr (Or.inl ⟨rfl, hmem, Or.inr (by simpa using hfull.2)⟩)
          · rw [if_neg hfull]
            exact Or.inr (Or.inr (Or.inr ⟨aux, _, rfl, hmem, rfl⟩))
      · rw [if_pos hmem]
        exact Or.inr (Or.inr (Or.inl ⟨rfl, by simpa using hmem⟩))
    · rw [if_pos hcheck]
      exact Or.inl ⟨rfl, Or.inr hcheck⟩
  · rw [if_pos hloc]
    exact Or.inl ⟨rfl, Or.inl (by simpa using hloc)⟩

/-- One rank is looked at. -/
theorem topoScanRank_inv (htopo : topo.Of place size r) {i x : ℕ} (hi : rankMap.eval i = some x)
    {seen : List ℕ} (hsorted : (seen ++ [x]).Pairwise (· < ·)) {s s' : Scan}
    (hs : ScanInv place r type myrank₀ seen s)
    (hstep : topoScanRank topo env rankMap (topoGroupAid type) s i = .ok s') :
    ScanInv place r type myrank₀ (seen ++ [x]) s' := by
  have hlt (p) (hp : p ∈ seen) : p < x :=
    (List.pairwise_append.mp hsorted).2.2 p hp x (List.mem_singleton.mpr rfl)
  have hself : Belongs place r (seen ++ [x]) type x ↔ Belongs place r seen type x :=
    belongs_append fun p hp => (List.mem_singleton.mp hp).ge
  have hiff := isMember_iff (r := r) hlt hs.tracks
  have hcases := topoScanRank_cases topo env (topoGroupAid type) s hi
  rw [htopo.getLocation_eq, htopo.myloc_eq, htopo.myrank_eq, hstep] at hcases
  obtain ⟨h, -⟩ | ⟨h, -⟩ | ⟨h, hmem⟩ | ⟨aux, sizeRanks, h, hmem, hadd⟩ := hcases
  · cases h
  · cases h
  · cases h
    have hx : ¬Belongs place r seen type x := fun h => by simp [hiff.mpr h] at hmem
    refine ⟨?_, tracks_skip hlt hs.tracks hx, hs.myrank⟩
    rw [hs.ranks, topoMembers_append hsorted]
    simp [hself, hx]
  · cases h
    have hnew : s.ranks ++ [x] = topoMembers place r (seen ++ [x]) type := by
      rw [hs.ranks, topoMembers_append hsorted]
      simp [hself, hiff.mp hmem]
    have hnot : x ∉ s.ranks := by
      rw [hs.ranks]
      exact fun h => (hlt x (List.mem_filter.mp h).1).false
    refine ⟨hnew, tracks_add hs.tracks hadd, ?_⟩
    dsimp only
    rw [myIndex_append_singleton hnot, hs.myrank]
    split_ifs <;> rfl

/-- The loop stops where it has seen some of the ranks, or all of them. -/
theorem topoScan_inv (env : CreateEnv) (htopo : topo.Of place size r) :
    ∀ {is : List ℕ} {seen : List ℕ} {s : Scan}
    {ev : ℕ → ℕ}, (∀ i ∈ is, rankMap.eval i = some (ev i)) →
    (seen ++ is.map ev).Pairwise (· < ·) → ScanInv place r type myrank₀ seen s →
    ∃ seen' more, seen ++ is.map ev = seen' ++ more ∧
      ScanInv place r type myrank₀ seen' (topoScan topo env rankMap (topoGroupAid type) is s).1 ∧
      ((topoScan topo env rankMap (topoGroupAid type) is s).2 = none → more = [])
  | [], seen, s, ev, _, _, hs => ⟨seen, [], by simp, hs, fun _ => rfl⟩
  | i :: is, seen, s, ev, hev, hsorted, hs => by
    rw [List.forall_mem_cons] at hev
    rw [List.map_cons, List.append_cons] at hsorted ⊢
    rw [topoScan]
    cases hstep : topoScanRank topo env rankMap (topoGroupAid type) s i with
    | error e => exact ⟨seen, ev i :: is.map ev, by simp, hs, nofun⟩
    | ok s' =>
      exact topoScan_inv env htopo hev.2 hsorted
        (topoScanRank_inv htopo hev.1 (List.pairwise_append.mp hsorted).1 hs hstep)

/-- A member can be added unless memory runs out. -/
theorem addMember_isSome {mem : Bool} {aux : Filter} {location : Location}
    (h : (topoGroupAid type).addMember mem aux location = none) : mem = false := by
  obtain ⟨-, check, isMember, haid, -⟩ | ⟨check, key, -, haid, -⟩ := topoGroupAid_cases type
  · rw [haid] at h
    cases h
  · rw [haid] at h
    simp only [auxLeader, auxAddLeader] at h
    split_ifs at h with hfull hmem
    simpa using hmem

/-- The group of the type can be made from these ranks: each has what is checked. -/
def Checked (place : ℕ → Location) (type : TopoGroupType) (seen : List ℕ) : Prop :=
  ∀ q ∈ seen, (topoGroupAid type).check (place q) = .ok

/-- What an error of the loop comes from. -/
theorem topoScan_err (htopo : topo.Of place size r) : ∀ {is : List ℕ} {s s' : Scan} {ev : ℕ → ℕ}
    {e : ScanErr}, (∀ i ∈ is, rankMap.eval i = some (ev i)) →
    topoScan topo env rankMap (topoGroupAid type) is s = (s', some e) →
    (e = .errGroup ∧ ¬(env.Located ∧ Checked place type (is.map ev))) ∨
      (e = .errCleanupAux ∧ ¬env.Perfect)
  | [], _, _, _, _, _, h => by cases h
  | i :: is, s, s', ev, e, hev, h => by
    rw [List.forall_mem_cons] at hev
    rw [topoScan] at h
    obtain ⟨hstep, hwhy⟩ | ⟨hstep, -, hwhy⟩ | ⟨hstep, -⟩ | ⟨aux, sizeRanks, hstep, -⟩ :=
      topoScanRank_cases topo env (topoGroupAid type) s hev.1
    all_goals rw [hstep] at h
    · cases h
      refine Or.inl ⟨rfl, fun ⟨hloc, hcheck⟩ => ?_⟩
      rcases hwhy with hwhy | hwhy
      · rw [hloc i] at hwhy
        cases hwhy
      · rw [htopo.getLocation_eq] at hwhy
        exact hwhy (hcheck _ (List.mem_cons_self ..))
    · cases h
      refine Or.inr ⟨rfl, fun hperf => ?_⟩
      rcases hwhy with hwhy | hwhy
      · have := addMember_isSome hwhy
        rw [hperf.extendFilter i] at this
        cases this
      · rw [hperf.extendRanks i] at hwhy
        cases hwhy
    all_goals
      refine (topoScan_err htopo hev.2 h).imp_left fun ⟨he, hnot⟩ => ⟨he, fun ⟨hloc, hcheck⟩ =>
        hnot ⟨hloc, fun q hq => hcheck q (List.mem_cons_of_mem _ hq)⟩⟩

end Scan

/-! ### Creating a group -/

/-- The group of rank `r` with these members. -/
def groupOf (members : List ℕ) (r : ℕ) : TopoGroup :=
  if myIndex members r = none ∨ members.length ≤ 1 then
    ⟨myIndex members r, members.length, RankMap.zero, .disable⟩
  else ⟨myIndex members r, members.length, rankMapInitByArray members, .enable⟩

/-- The group is yet to be created; its rank may have been set by an attempt. -/
structure TopoGroup.Fresh (spec group : TopoGroup) : Prop where
  state : group.state = .notInit
  size : group.size = 0
  rankMap : group.rankMap = RankMap.zero
  myrank : group.myrank = none ∨ group.myrank = spec.myrank

/-- The creation of the group has failed for good. -/
structure TopoGroup.Failed (group : TopoGroup) : Prop where
  state : group.state = .error
  rankMap : group.rankMap = RankMap.zero

/-- A creation of `spec` from the ranks `seen`: what it leaves, and whether it succeeds. -/
inductive Outcome (place : ℕ → Location) (type : TopoGroupType) (seen : List ℕ) (env : CreateEnv)
    (spec : TopoGroup) : TopoGroup → Bool → Prop
  | created : Outcome place type seen env spec spec true
  | failed {group : TopoGroup} (hfailed : group.Failed)
      (hwhy : ¬(env.Located ∧ Checked place type seen)) :
      Outcome place type seen env spec group false
  | again {group : TopoGroup} (hfresh : spec.Fresh group) (hwhy : ¬env.Perfect) :
      Outcome place type seen env spec group false

@[simp] theorem setGroup_self (topo : Topo) (type : TopoGroupType) :
    topo.setGroup type (topo.groups type) = topo := by
  simp [Topo.setGroup]

@[simp] theorem groups_setGroup (topo : Topo) (type : TopoGroupType) (group : TopoGroup) :
    (topo.setGroup type group).groups type = group := by
  simp [Topo.setGroup]

theorem groups_setGroup_of_ne {topo : Topo} {type type' : TopoGroupType} {group : TopoGroup}
    (h : type' ≠ type) : (topo.setGroup type group).groups type' = topo.groups type' := by
  simp [Topo.setGroup, h]

theorem myrank_groupOf (members : List ℕ) (r : ℕ) :
    (groupOf members r).myrank = myIndex members r := by
  rw [groupOf]
  split_ifs <;> rfl

/-- A rank keeps its index when members follow. -/
theorem myIndex_append {members more : List ℕ} {r : ℕ} (h : myIndex members r ≠ none) :
    myIndex (members ++ more) r = myIndex members r := by
  rw [myIndex] at h
  split_ifs at h with hr
  · rw [myIndex, myIndex, if_pos hr, if_pos (List.mem_append_left _ hr),
      List.idxOf_append_of_mem hr]
  · exact absurd rfl h

/-- A creation makes the group, or fails, or can be tried again. -/
theorem topoCreateGroup_spec {place : ℕ → Location} {size r : ℕ} {type : TopoGroupType}
    {topo : Topo} (env : CreateEnv) {rankMap : RankMap} {seen : List ℕ}
    (htopo : topo.Of place size r) (hsize : rankMap.size = seen.length)
    (heval : ∀ i, rankMap.eval i = seen[i]?) (hsorted : seen.Pairwise (· < ·))
    (hfresh : (groupOf (topoMembers place r seen type) r).Fresh (topo.groups type)) :
    ∃ group ok, topoCreateGroup topo env rankMap type = (topo.setGroup type group, ok) ∧
      Outcome place type seen env (groupOf (topoMembers place r seen type) r) group ok := by
  have hagain (hwhy : ¬env.Perfect) :
      ∃ group ok, (topo, false) = (topo.setGroup type group, ok) ∧
        Outcome place type seen env (groupOf (topoMembers place r seen type) r) group ok :=
    ⟨topo.groups type, false, by rw [setGroup_self], .again hfresh hwhy⟩
  rw [topoCreateGroup]
  dsimp only
  by_cases hranks : env.ranks = true
  swap
  · rw [if_pos hranks]
    exact hagain fun h => hranks h.ranks
  rw [if_neg (not_not.mpr hranks)]
  cases hinit : (topoGroupAid type).init env.filter with
  | none =>
    refine hagain fun h => ?_
    rw [h.filter] at hinit
    cases type <;> cases hinit
  | some aux =>
    have hev (i) (hi : i ∈ List.range rankMap.size) :
        rankMap.eval i = some (seen.getD i 0) := by
      have hlt : i < seen.length := by rw [← hsize]; exact List.mem_range.mp hi
      rw [heval, List.getElem?_eq_getElem hlt, List.getD_eq_getElem _ _ hlt]
    have hmap : (List.range rankMap.size).map (fun i => seen.getD i 0) = seen := by
      refine List.ext_getElem (by simp [hsize]) fun i hi hi' => ?_
      rw [List.getElem_map, List.getElem_range, List.getD_eq_getElem _ _ hi']
    have hinv₀ : ScanInv place r type (topo.groups type).myrank []
        ⟨aux, [], 256, (topo.groups type).myrank⟩ := ⟨rfl, tracks_init hinit, rfl⟩
    obtain ⟨seen', more, heq, hinv, hend⟩ := topoScan_inv env htopo hev
      (by rwa [List.nil_append, hmap]) hinv₀
    rw [List.nil_append, hmap] at heq
    obtain ⟨s, res, hres⟩ : ∃ s res, topoScan topo env rankMap (topoGroupAid type)
        (List.range rankMap.size) ⟨aux, [], 256, (topo.groups type).myrank⟩ = (s, res) :=
          ⟨_, _, rfl⟩
    dsimp only
    rw [hres] at hinv hend ⊢
    cases res with
    | none =>
      -- all ranks have been seen
      obtain rfl : more = [] := hend rfl
      rw [List.append_nil] at heq
      subst heq
      have hmine : s.myrank = myIndex (topoMembers place r seen type) r := by
        rw [hinv.myrank, hinv.ranks]
        rcases hfresh.myrank with h | h
        · rw [h, Option.or_none]
        · rw [h, myrank_groupOf, Option.or_self]
      refine ⟨groupOf (topoMembers place r seen type) r, true, ?_, .created⟩
      dsimp only
      rw [hmine, hinv.ranks, groupOf]
      split_ifs with hdis
      · rw [hfresh.rankMap]
      · rfl
    | some e =>
      have herr := topoScan_err htopo hev hres
      rw [hmap] at herr
      have hmine : s.myrank = none ∨
          s.myrank = (groupOf (topoMembers place r seen type) r).myrank := by
        rw [hinv.myrank, hinv.ranks]
        by_cases h : myIndex (topoMembers place r seen' type) r = none
        · rw [h, Option.none_or]
          exact hfresh.myrank
        · rw [myrank_groupOf, heq, topoMembers_append (by rwa [← heq]), myIndex_append h,
            Option.or_of_isSome (Option.isSome_iff_ne_none.mpr h)]
          exact Or.inr rfl
      rcases herr with ⟨rfl, hwhy⟩ | ⟨rfl, hwhy⟩
      · exact ⟨_, false, rfl, .failed ⟨rfl, hfresh.rankMap⟩ hwhy⟩
      · exact ⟨_, false, rfl, .again ⟨hfresh.state, hfresh.size, hfresh.rankMap, hmine⟩ hwhy⟩

/-! ### The groups of a topology -/

/-- The types whose ranks are those of the node group. -/
def TopoGroupType.OfSocket (type : TopoGroupType) : Prop := type = .socket ∨ type = .socketLeader

instance : DecidablePred TopoGroupType.OfSocket := fun _ => inferInstanceAs (Decidable (_ ∨ _))

/-- The ranks that a group is made from. -/
def topoSeen (place : ℕ → Location) (size r : ℕ) (type : TopoGroupType) : List ℕ :=
  if type.OfSocket then topoMembers place r (List.range size) .node else List.range size

/-- The group of a type, as it follows from the locations. -/
def topoGroupSpec (place : ℕ → Location) (size r : ℕ) (type : TopoGroupType) : TopoGroup :=
  if type.OfSocket ∧ (groupOf (topoMembers place r (List.range size) .node) r).state = .disable then
    ⟨none, 0, RankMap.zero, .disable⟩
  else groupOf (topoMembers place r (topoSeen place size r type) type) r

/-- Every group is as it should be, or has failed, or is yet to be created; a socket group has been
    created or has failed only when the node group is there. -/
structure TopoOk (place : ℕ → Location) (size r : ℕ) (topo : Topo) : Prop
    extends topo.Of place size r where
  group : ∀ type, (topoGroupSpec place size r type).Fresh (topo.groups type) ∨
    (topo.groups type).Failed ∨ topo.groups type = topoGroupSpec place size r type
  prereq : ∀ type : TopoGroupType, type.OfSocket → (topo.groups type).state ≠ .notInit →
    topo.groups .node = topoGroupSpec place size r .node

section Groups

variable {place : ℕ → Location} {size r : ℕ} {topo : Topo} {type : TopoGroupType}

theorem state_groupOf (members : List ℕ) :
    (groupOf members r).state = .enable ∨ (groupOf members r).state = .disable := by
  rw [groupOf]
  split_ifs
  · exact Or.inr rfl
  · exact Or.inl rfl

theorem state_topoGroupSpec : (topoGroupSpec place size r type).state = .enable ∨
    (topoGroupSpec place size r type).state = .disable := by
  rw [topoGroupSpec]
  split_ifs
  · exact Or.inr rfl
  · exact state_groupOf _

theorem topoGroupSpec_ne_notInit : (topoGroupSpec place size r type).state ≠ .notInit := by
  rcases state_topoGroupSpec with h | h <;> rw [h] <;> decide

theorem topoGroupSpec_ne_error : (topoGroupSpec place size r type).state ≠ .error := by
  rcases state_topoGroupSpec with h | h <;> rw [h] <;> decide

theorem topoGroupSpec_of_not_socket (h : ¬type.OfSocket) :
    topoGroupSpec place size r type = groupOf (topoMembers place r (List.range size) type) r := by
  rw [topoGroupSpec, if_neg fun h' => h h'.1, topoSeen, if_neg h]

theorem not_ofSocket_node : ¬TopoGroupType.node.OfSocket := by decide

/-- The node group of a topology in order, if it has been created. -/
theorem TopoOk.node_eq (h : TopoOk place size r topo)
    (hnot : (topo.groups .node).state ≠ .notInit) (herr : (topo.groups .node).state ≠ .error) :
    topo.groups .node = topoGroupSpec place size r .node := by
  rcases h.group .node with hfresh | hfailed | heq
  · exact absurd hfresh.state hnot
  · exact absurd hfailed.state herr
  · exact heq

theorem TopoOk.fresh (h : TopoOk place size r topo) (hnot : (topo.groups type).state = .notInit) :
    (topoGroupSpec place size r type).Fresh (topo.groups type) := by
  rcases h.group type with hfresh | hfailed | heq
  · exact hfresh
  · have hstate := hfailed.state
    rw [hnot] at hstate
    cases hstate
  · rw [heq] at hnot
    exact absurd hnot topoGroupSpec_ne_notInit

theorem topoOk_init : TopoOk place size r (topoInit size r place) where
  myrank_eq := rfl
  size_eq := rfl
  getLocation_eq := rfl
  myloc_eq := rfl
  group _ := Or.inl ⟨rfl, rfl, rfl, Or.inl rfl⟩
  prereq _ _ h := absurd rfl h

/-- A group that was yet to be created is replaced. -/
theorem TopoOk.setGroup (h : TopoOk place size r topo)
    (hnot : (topo.groups type).state = .notInit) {group : TopoGroup}
    (hgroup : (topoGroupSpec place size r type).Fresh group ∨ group.Failed ∨
      group = topoGroupSpec place size r type)
    (hpre : type.OfSocket → topo.groups .node = topoGroupSpec place size r .node) :
    TopoOk place size r (topo.setGroup type group) where
  myrank_eq := h.myrank_eq
  size_eq := h.size_eq
  getLocation_eq := h.getLocation_eq
  myloc_eq := h.myloc_eq
  group type' := by
    by_cases htype : type' = type
    · subst htype
      rwa [groups_setGroup]
    · rw [groups_setGroup_of_ne htype]
      exact h.group type'
  prereq type' hsocket hstate := by
    have hnode (hne : TopoGroupType.node ≠ type)
        (hn : topo.groups .node = topoGroupSpec place size r .node) :
        (topo.setGroup type group).groups .node = topoGroupSpec place size r .node := by
      rwa [groups_setGroup_of_ne hne]
    by_cases htype : type' = type
    · subst htype
      exact hnode (fun heq => not_ofSocket_node (heq ▸ hsocket)) (hpre hsocket)
    · rw [groups_setGroup_of_ne htype] at hstate
      have hn := h.prereq type' hsocket hstate
      refine hnode (fun heq => ?_) hn
      subst heq
      rw [hn] at hnot
      exact topoGroupSpec_ne_notInit hnot

/-- What a creation leaves is in order. -/
theorem Outcome.settled {seen : List ℕ} {env : CreateEnv} {spec group : TopoGroup} {ok : Bool}
    (h : Outcome place type seen env spec group ok) :
    spec.Fresh group ∨ group.Failed ∨ group = spec := by
  cases h with
  | created => exact Or.inr (Or.inr rfl)
  | failed hfailed => exact Or.inr (Or.inl hfailed)
  | again hfresh => exact Or.inl hfresh

/-- A group is made from all ranks. -/
theorem topoCreateFullGroup_spec (env : CreateEnv) (h : TopoOk place size r topo)
    (hsocket : ¬type.OfSocket) (hnot : (topo.groups type).state = .notInit) :
    ∃ group ok, topoCreateFullGroup topo env type = (topo.setGroup type group, ok) ∧
      Outcome place type (List.range size) env (topoGroupSpec place size r type) group ok := by
  have hfresh := h.fresh hnot
  rw [topoGroupSpec_of_not_socket hsocket] at hfresh ⊢
  refine topoCreateGroup_spec env h.toOf (by simp [h.size_eq]) (fun i => ?_)
    List.pairwise_lt_range hfresh
  rw [RankMap.eval, h.size_eq]
  split_ifs with hi
  · rw [List.getElem?_range hi]
  · exact (List.getElem?_eq_none (by simpa using hi)).symm

/-- A group is made from the ranks of the node. -/
theorem topoCreateSocketGroup_spec (env : CreateEnv) (h : TopoOk place size r topo)
    (hsocket : type.OfSocket) (hnot : (topo.groups type).state = .notInit)
    (hnode : topo.groups .node = topoGroupSpec place size r .node)
    (henable : (topo.groups .node).state ≠ .disable) :
    ∃ group ok, topoCreateSocketGroup topo env type = (topo.setGroup type group, ok) ∧
      Outcome place type (topoSeen place size r type) env (topoGroupSpec place size r type)
        group ok := by
  have hfresh := h.fresh hnot
  have hnode' := hnode
  rw [topoGroupSpec_of_not_socket not_ofSocket_node] at hnode
  rw [hnode] at henable
  have hspec : topoGroupSpec place size r type =
      groupOf (topoMembers place r (topoSeen place size r type) type) r := by
    rw [topoGroupSpec, if_neg fun h' => henable h'.2]
  have hmap : (topo.groups .node).rankMap = rankMapInitByArray (topoSeen place size r type) := by
    rw [hnode, topoSeen, if_pos hsocket]
    rw [groupOf] at henable ⊢
    split_ifs with hdis
    · rw [if_pos hdis] at henable
      exact absurd rfl henable
    · rfl
  rw [hspec] at hfresh ⊢
  refine topoCreateGroup_spec env h.toOf (by rw [hmap]; simp) (fun i => ?_) ?_ hfresh
  · rw [hmap, eval_rankMapInitByArray]
  · rw [topoSeen, if_pos hsocket]
    exact List.pairwise_lt_range.filter _

/-! ### Calls -/

/-- A call does not ask for a socket group of a node group that has failed. -/
def Topo.Calm (topo : Topo) (type : TopoGroupType) : Prop :=
  type.OfSocket → (topo.groups .node).state ≠ .error

/-- No group has failed whose ids all ranks have. -/
def NoFail (place : ℕ → Location) (size : ℕ) (topo : Topo) : Prop :=
  ∀ type, Checked place type (List.range size) → (topo.groups type).state ≠ .error

/-- What a call does, when the topology is in order. -/
structure GetOk (place : ℕ → Location) (size r : ℕ) (topo : Topo) (env : GetEnv)
    (type : TopoGroupType) (res : Topo × Option TopoGroup) : Prop where
  ok : TopoOk place size r res.1
  group : ∀ g ∈ res.2, g = topoGroupSpec place size r type
  prereq : ∀ g ∈ res.2, type.OfSocket → res.1.groups .node = topoGroupSpec place size r .node
  noFail : env.node.Located → env.own.Located → NoFail place size topo → NoFail place size res.1
  total : env.node.Perfect → env.own.Perfect → NoFail place size topo →
    Checked place type (List.range size) → res.2 ≠ none

theorem NoFail.setGroup (h : NoFail place size topo) {group : TopoGroup}
    (hgroup : Checked place type (List.range size) → group.state ≠ .error) :
    NoFail place size (topo.setGroup type group) := by
  intro type' hcheck
  by_cases htype : type' = type
  · subst htype
    rw [groups_setGroup]
    exact hgroup hcheck
  · rw [groups_setGroup_of_ne htype]
    exact h type' hcheck

theorem Outcome.noFail {seen : List ℕ} {env : CreateEnv} {spec group : TopoGroup} {ok : Bool}
    (h : Outcome place type seen env spec group ok) (hloc : env.Located)
    (hspec : spec.state = .enable ∨ spec.state = .disable) (hcheck : Checked place type seen) :
    group.state ≠ .error := by
  cases h with
  | created => rcases hspec with hs | hs <;> rw [hs] <;> decide
  | failed hfailed hwhy => exact absurd ⟨hloc, hcheck⟩ hwhy
  | again hfresh => rw [hfresh.state]; decide

theorem Outcome.total {seen : List ℕ} {env : CreateEnv} {spec group : TopoGroup} {ok : Bool}
    (h : Outcome place type seen env spec group ok) (hperf : env.Perfect)
    (hcheck : Checked place type seen) : ok = true := by
  cases h with
  | created => rfl
  | failed hfailed hwhy => exact absurd ⟨hperf.located, hcheck⟩ hwhy
  | again hfresh hwhy => exact absurd hperf hwhy

theorem checked_topoSeen (h : Checked place type (List.range size)) :
    Checked place type (topoSeen place size r type) := by
  intro q hq
  refine h q ?_
  rw [topoSeen] at hq
  split_ifs at hq
  · exact (List.mem_filter.mp hq).1
  · exact hq

/-- Who has a socket id has a node id. -/
theorem checked_node (hsocket : type.OfSocket) (h : Checked place type (List.range size)) :
    Checked place .node (List.range size) := by
  intro q hq
  have hcheck : auxCheckSocketId (place q) = .ok := by
    rcases hsocket with rfl | rfl <;> exact h q hq
  rw [auxCheckSocketId] at hcheck
  split_ifs at hcheck with hids
  simp only [not_or, not_not] at hids
  exact if_pos hids.1

/-- A call that creates the group of its type. -/
theorem getOk_created {env : GetEnv} (h : TopoOk place size r topo)
    (hnot : (topo.groups type).state = .notInit)
    (hpre : type.OfSocket → topo.groups .node = topoGroupSpec place size r .node)
    {group : TopoGroup} {ok : Bool} (hout : Outcome place type (topoSeen place size r type) env.own
      (topoGroupSpec place size r type) group ok) :
    GetOk place size r topo env type (topoCreated type (topo.setGroup type group, ok)) where
  ok := h.setGroup hnot hout.settled hpre
  group g hg := by
    rw [topoCreated, groups_setGroup] at hg
    cases hout with
    | created => exact (Option.some.inj hg).symm
    | failed => cases hg
    | again => cases hg
  prereq g hg hsocket := by
    have hne : TopoGroupType.node ≠ type := fun heq => not_ofSocket_node (heq ▸ hsocket)
    rw [topoCreated, groups_setGroup_of_ne hne]
    exact hpre hsocket
  noFail _ hloc hno := hno.setGroup fun hcheck =>
    hout.noFail hloc state_topoGroupSpec (checked_topoSeen hcheck)
  total _ hperf hno hcheck := by
    rw [topoCreated, if_pos (hout.total hperf (checked_topoSeen hcheck))]
    nofun

/-- A call for a socket group, the node group being there. -/
theorem getOk_socket (env : GetEnv) (h : TopoOk place size r topo) (hsocket : type.OfSocket)
    (hnot : (topo.groups type).state = .notInit)
    (hnode : topo.groups .node = topoGroupSpec place size r .node) :
    GetOk place size r topo env type (topoGetSocketGroup topo env type) := by
  have hstate : (topo.groups .node).state ≠ .notInit := by
    rw [hnode]
    exact topoGroupSpec_ne_notInit
  rw [topoGetSocketGroup, if_neg hstate]
  dsimp only
  rw [if_neg (by simp)]
  by_cases hdis : (topo.groups .node).state = .disable
  · rw [if_pos hdis]
    have hspec : topoGroupSpec place size r type = ⟨none, 0, RankMap.zero, .disable⟩ := by
      rw [hnode, topoGroupSpec_of_not_socket not_ofSocket_node] at hdis
      rw [topoGroupSpec, if_pos ⟨hsocket, hdis⟩]
    have hfresh := h.fresh hnot
    have hgroup : ({ topo.groups type with state := .disable } : TopoGroup) =
        topoGroupSpec place size r type := by
      have hmine : (topo.groups type).myrank = none := by
        rcases hfresh.myrank with hm | hm
        · exact hm
        · rw [hm, hspec]
      dsimp only
      rw [hspec, hfresh.size, hfresh.rankMap, hmine]
    have hne : TopoGroupType.node ≠ type := fun heq => not_ofSocket_node (heq ▸ hsocket)
    exact {
      ok := h.setGroup hnot (Or.inr (Or.inr hgroup)) fun _ => hnode
      group := fun g hg => (Option.some.inj hg).symm.trans hgroup
      prereq := fun g _ _ => by rwa [groups_setGroup_of_ne hne]
      noFail := fun _ _ hno => hno.setGroup fun _ => nofun
      total := fun _ _ _ _ => nofun }
  · rw [if_neg hdis]
    obtain ⟨group, ok, heq, hout⟩ := topoCreateSocketGroup_spec env.own h hsocket hnot hnode hdis
    rw [heq]
    exact getOk_created h hnot (fun _ => hnode) hout

/-- A call for a socket group. -/
theorem getOk_socket_of_calm {env : GetEnv} (h : TopoOk place size r topo) (hsocket : type.OfSocket)
    (hnot : (topo.groups type).state = .notInit) (hcalm : topo.Calm type) :
    GetOk place size r topo env type (topoGetSocketGroup topo env type) := by
  by_cases hnode : (topo.groups .node).state = .notInit
  swap
  · exact getOk_socket env h hsocket hnot (h.node_eq hnode (hcalm hsocket))
  -- the node group is created first
  have hne : type ≠ .node := fun heq => not_ofSocket_node (heq ▸ hsocket)
  obtain ⟨group, ok, heq, hout⟩ := topoCreateFullGroup_spec env.node h not_ofSocket_node hnode
  have h₁ : TopoOk place size r (topo.setGroup .node group) :=
    h.setGroup hnode hout.settled fun hs => absurd hs not_ofSocket_node
  have hno (hloc : env.node.Located) (hno : NoFail place size topo) :
      NoFail place size (topo.setGroup .node group) :=
    hno.setGroup fun hcheck => hout.noFail hloc state_topoGroupSpec hcheck
  cases ok with
  | false =>
    have hres : topoGetSocketGroup topo env type = (topo.setGroup .node group, none) := by
      rw [topoGetSocketGroup, if_pos hnode, heq]
      rfl
    rw [hres]
    exact {
      ok := h₁
      group := nofun
      prereq := nofun
      noFail := fun hloc _ => hno hloc
      total := fun hperf _ _ hcheck =>
        absurd (hout.total hperf (checked_node hsocket hcheck)) (by decide) }
  | true =>
    cases hout
    have hnode₁ : (topo.setGroup .node (topoGroupSpec place size r .node)).groups .node =
        topoGroupSpec place size r .node := groups_setGroup ..
    have hres : topoGetSocketGroup topo env type =
        topoGetSocketGroup (topo.setGroup .node (topoGroupSpec place size r .node)) env type := by
      rw [topoGetSocketGroup, if_pos hnode, heq, topoGetSocketGroup,
        if_neg (by rw [hnode₁]; exact topoGroupSpec_ne_notInit)]
    have h₂ := getOk_socket env h₁ hsocket (by rwa [groups_setGroup_of_ne hne]) hnode₁
    rw [hres]
    exact { h₂ with
      noFail := fun hl hl' hn => h₂.noFail hl hl' (hno hl hn)
      total := fun hp hp' hn => h₂.total hp hp' (hno hp.located hn) }

/-- Every call that is calm. -/
theorem topoGetGroup_ok (env : GetEnv) (h : TopoOk place size r topo) (hcalm : topo.Calm type) :
    GetOk place size r topo env type (topoGetGroup topo env type) := by
  rw [topoGetGroup.eq_def]
  dsimp only
  by_cases hnot : (topo.groups type).state = .notInit
  · rw [if_neg (not_not.mpr hnot)]
    cases type with
    | socket => exact getOk_socket_of_calm h (Or.inl rfl) hnot hcalm
    | socketLeader => exact getOk_socket_of_calm h (Or.inr rfl) hnot hcalm
    | net | subnet | subnetLeader | node | nodeLeader =>
      obtain ⟨group, ok, heq, hout⟩ := topoCreateFullGroup_spec env.own h (by decide) hnot
      dsimp only
      rw [heq]
      exact getOk_created h hnot (fun hs => absurd hs (by decide)) hout
  · rw [if_pos hnot]
    refine ⟨h, fun g hg => ?_, fun g hg hs => h.prereq type hs hnot, fun _ _ hno => hno,
      fun _ _ hno hcheck => ?_⟩
    · split_ifs at hg with herr
      · cases hg
      · obtain rfl : topo.groups type = g := Option.some.inj hg
        rcases h.group type with hf | hs | heq
        · exact absurd hf.state hnot
        · exact absurd hs.state herr
        · exact heq
    · dsimp only
      rw [if_neg (hno type hcheck)]
      nofun

end Groups

end Kucg.Core
