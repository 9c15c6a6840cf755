import Kucg.Core.Status
import Kucg.Lib.Choreography
import Kucg.Lib.PutTree
import Kucg.Stars.LongPlan
import Kucg.Ucx.BcastRing

/-! The offloaded ring broadcasts of `bcast_ring_m.c` and `bcast_ring_2m.c`.

    The chains are those of the broadcasts by messages (`RingKind.Cuts`). What a rank puts in its
    lists from its own number alone makes a tree (`TreePlan`), the requests are those of a block
    that is put down this tree, and the rest is what holds of any such block. -/

namespace Kucg.Stars

open Kucg.Algo Kucg.Core Kucg.Lib Kucg.Ucx

/-- `submit_op`: a wait for each of `get_ranks`, then a put of the whole buffer for each of
    `put_ranks`. -/
def ringSubmit (args : BcastArgs) (deps : ℕ → CommDep) (me : ℕ) : List (StreamTask Addr) :=
  let length := args.count * args.dtSize
  ((List.range (deps me).getRanks.length).map fun idx =>
    .wait (waitEvent (deps me) CommDep.offsetCommon idx 0)) ++
  (List.range (deps me).putRanks.length).map fun idx =>
    .put ((deps me).putPeer idx) (putEvent deps CommDep.offsetCommon me idx 0)
      (bytes .recv 0 length) (bytes .recv 0 length)

namespace BcastRingM

/-- `bcast_ring_m check`. -/
def check (size : ℕ) : Status := if size ≤ 2 then .errUnsupported else .ok

/-- `bcast_ring_m offload_plan`. -/
def offloadPlan (args : BcastArgs) (numprocs myid : ℕ) : CommDep :=
  let root := args.root
  let getRankNum := if myid = root then 0 else 1
  let putRankNum :=
    if myid = (root + numprocs - 1) % numprocs ∨ myid = (root + 1) % numprocs then 0
    else if myid = root then 2
    else 1
  { getRanks := (List.range getRankNum).map fun _ =>
      ⟨if myid = (root + 2) % numprocs then root else (myid + numprocs - 1) % numprocs, 1⟩
    putRanks := (List.range putRankNum).map fun cnt => ⟨(myid + 1 + cnt) % numprocs, 1⟩ }

/-- `bcast_ring_m submit_op`. -/
def submitOp (args : BcastArgs) (numprocs : ℕ) : ℕ → List (StreamTask Addr) :=
  ringSubmit args (offloadPlan args numprocs)

end BcastRingM

namespace BcastRing2M

/-- `bcast_ring_2m check`. -/
def check (size : ℕ) : Status := if size ≤ 3 then .errUnsupported else .ok

/-- `bcast_ring_2m offload_plan`. -/
def offloadPlan (args : BcastArgs) (numprocs myid : ℕ) : CommDep :=
  let root := args.root
  let rank₁ := (root + 2) % numprocs
  let rank₂ := (root + numprocs / 2) % numprocs
  let getRankNum := if myid = root then 0 else 1
  let putRankNum :=
    if myid = (root + numprocs - 1) % numprocs ∨ myid = (root + 1) % numprocs ∨
      myid = (rank₂ + numprocs - 1) % numprocs then 0
    else if myid = root then if rank₁ ≠ rank₂ then 3 else 2
    else 1
  { getRanks := (List.range getRankNum).map fun _ =>
      ⟨if myid = rank₁ ∨ myid = rank₂ then root else (myid + numprocs - 1) % numprocs, 1⟩
    putRanks := (List.range putRankNum).map fun cnt =>
      ⟨if myid = root then if cnt < 1 then rank₂ else (myid + cnt) % numprocs
        else (myid + 1) % numprocs, 1⟩ }

/-- `bcast_ring_2m submit_op`. -/
def submitOp (args : BcastArgs) (numprocs : ℕ) : ℕ → List (StreamTask Addr) :=
  ringSubmit args (offloadPlan args numprocs)

end BcastRing2M

/-- The bytes that `rbuf_init` and `sbuf_init` register. -/
def BcastArgs.registered (args : BcastArgs) : Set ℕ := {i | i < args.count * args.dtSize}

/-- The bytes of the elements. -/
def BcastArgs.elements (args : BcastArgs) : Set ℕ :=
  {i | ∃ j < args.count, ∃ k < args.dtSize, i = j * args.dtExtent + k}

/-- What an offloaded ring broadcast guarantees in every interleaving of the ranks, where `data` are
    the bytes of the buffer that are to arrive. -/
structure RingDelivers {β : Type} (args : BcastArgs) (n : ℕ) (deps : ℕ → CommDep)
    (submit : ℕ → List (StreamTask Addr)) (data : Set ℕ) (m₀ : ℕ → Addr → β) : Prop where
  peers : ∀ p < n, ∀ info ∈ (deps p).getRanks ++ (deps p).putRanks, info.peerId < n
  /-- A rank has an entry for a peer as often as the peer has one for it. -/
  dual : ∀ p < n, ∀ q < n, ∀ len,
    (deps p).putRanks.count ⟨q, len⟩ = (deps q).getRanks.count ⟨p, len⟩
  root_waits : ∀ e, .wait e ∉ submit args.root
  waits_first : ∀ q < n, q ≠ args.root →
    ∃ e puts, submit q = .wait e :: puts ∧ ∀ e', .wait e' ∉ puts
  acyclic : ∀ p, ¬Relation.TransGen (PutsTo n submit) p p
  reaches : ∀ q < n, Relation.ReflTransGen (PutsTo n submit) args.root q
  /-- Before the end, some rank can go on. -/
  live : ∀ F : Fabric Addr β, F.Reachable n submit m₀ → ¬F.Finished n submit →
    ∃ p < n, (F.step n submit p).isSome
  /-- No interleaving goes on for ever. -/
  bounded : ∀ ranks (F : Fabric Addr β), (Fabric.init m₀).run n submit ranks = some F →
    ranks.length ≤ ∑ p ∈ Finset.range n, (submit p).length
  equal : ∀ F : Fabric Addr β, F.Reachable n submit m₀ → F.Finished n submit →
    ∀ q < n, ∀ i ∈ data, F.mem q (.recv, (i : ℕ)) = m₀ args.root (.recv, (i : ℕ))

/-! ### Plans that make a tree -/

/-- A rank has an entry for its parent and one for each of its children. -/
structure TreePlan (n root : ℕ) (parent depth : ℕ → ℕ) (children : ℕ → List ℕ)
    (deps : ℕ → CommDep) : Prop extends PutTree n root parent depth children where
  nodup : ∀ p < n, (children p).Nodup
  getRanks_root : (deps root).getRanks = []
  getRanks_eq : ∀ q < n, q ≠ root → (deps q).getRanks = [⟨parent q, 1⟩]
  putRanks_eq : ∀ p < n, (deps p).putRanks = (children p).map (⟨·, 1⟩)

namespace TreePlan

variable {n root : ℕ} {parent depth : ℕ → ℕ} {children : ℕ → List ℕ} {deps : ℕ → CommDep}
  (h : TreePlan n root parent depth children deps)

include h

theorem getPeer_lt {q : ℕ} (hq : q < n) {info : RankInfo} (hinfo : info ∈ (deps q).getRanks) :
    info.peerId < n := by
  rcases eq_or_ne q root with rfl | hne
  · rw [h.getRanks_root] at hinfo
    exact absurd hinfo List.not_mem_nil
  · rw [h.getRanks_eq q hq hne, List.mem_singleton] at hinfo
    exact hinfo ▸ h.parent_lt q hq hne

theorem putPeer_lt {p : ℕ} (hp : p < n) {info : RankInfo} (hinfo : info ∈ (deps p).putRanks) :
    info.peerId < n := by
  rw [h.putRanks_eq p hp] at hinfo
  obtain ⟨q, hq, rfl⟩ := List.mem_map.mp hinfo
  exact ((h.mem p hp q).mp hq).1

/-- The two lists of a pair of ranks are dual. -/
theorem count_eq {p q : ℕ} (hp : p < n) (hq : q < n) (len : ℕ) :
    (deps p).putRanks.count ⟨q, len⟩ = (deps q).getRanks.count ⟨p, len⟩ := by
  have hnodup : ((children p).map fun c => (⟨c, 1⟩ : RankInfo)).Nodup :=
    (h.nodup p hp).map fun a b hab => congrArg RankInfo.peerId hab
  have hmem : (⟨q, len⟩ : RankInfo) ∈ (children p).map (fun c => (⟨c, 1⟩ : RankInfo)) ↔
      (q ≠ root ∧ parent q = p) ∧ len = 1 := by
    simp only [List.mem_map, h.mem p hp, RankInfo.mk.injEq]
    constructor
    · rintro ⟨c, ⟨-, hne, hpar⟩, rfl, rfl⟩
      exact ⟨⟨hne, hpar⟩, rfl⟩
    · rintro ⟨⟨hne, hpar⟩, rfl⟩
      exact ⟨q, ⟨hq, hne, hpar⟩, rfl, rfl⟩
  rw [h.putRanks_eq p hp, hnodup.count, if_congr hmem rfl rfl]
  rcases eq_or_ne q root with rfl | hne
  · rw [h.getRanks_root, List.count_nil, if_neg fun hc => hc.1.1 rfl]
  · rw [h.getRanks_eq q hq hne, List.count_singleton]
    refine if_congr ?_ rfl rfl
    rw [beq_iff_eq, RankInfo.mk.injEq]
    exact ⟨fun hc => ⟨hc.1.2, hc.2.symm⟩, fun hc => ⟨⟨hne, hc.1⟩, hc.2.symm⟩⟩

/-- The one event of a rank is raised by its parent. -/
theorem putEvent_eq {p idx : ℕ} (hp : p < n) (hidx : idx < (children p).length) :
    (deps p).putPeer idx = (children p)[idx] ∧
      putEvent deps CommDep.offsetCommon p idx 0 = some 0 := by
  have hpeer : (deps p).putPeer idx = (children p)[idx] := by
    simp [CommDep.putPeer, h.putRanks_eq p hp, hidx]
  refine ⟨hpeer, ?_⟩
  obtain ⟨hq, hne, hpar⟩ := (h.mem p hp _).mp (List.getElem_mem hidx)
  -- no entry before this one is for the same child
  have hnone : ((deps p).putRanks.take idx).countP
      (fun info => info.peerId = (children p)[idx]) = 0 := by
    rw [List.countP_eq_zero, h.putRanks_eq p hp, ← List.map_take]
    intro info hinfo
    obtain ⟨c, hc, rfl⟩ := List.mem_map.mp hinfo
    rw [decide_eq_true_eq]
    rintro rfl
    obtain ⟨i, hi, hget⟩ := List.mem_take_iff_getElem.mp hc
    exact absurd ((h.nodup p hp).getElem_inj_iff.mp hget) (by omega)
  have hmatched : CommDep.matched deps p idx = some 0 := by
    rw [CommDep.matched, hpeer, hnone, h.getRanks_eq _ hq hne, hpar, CommDep.nthOf]
    simp
  rw [putEvent, hmatched]
  rfl

/-- The requests are those of a block that is put down the tree. -/
theorem ringSubmit_eq (args : BcastArgs) {p : ℕ} (hp : p < n) :
    ringSubmit args deps p =
      putTreeTasks root children (bytes .recv 0 (args.count * args.dtSize)) p := by
  rw [ringSubmit, putTreeTasks]
  congr 1
  · rcases eq_or_ne p root with rfl | hne
    · rw [h.getRanks_root, if_pos rfl]
      rfl
    · rw [h.getRanks_eq p hp hne, if_neg hne]
      rfl
  · have hlength : (deps p).putRanks.length = (children p).length := by
      rw [h.putRanks_eq p hp, List.length_map]
    refine List.ext_getElem (by simp [hlength]) fun idx h₁ h₂ => ?_
    rw [List.length_map] at h₂
    obtain ⟨hpeer, hevent⟩ := h.putEvent_eq hp h₂
    simp only [List.getElem_map, List.getElem_range, hpeer, hevent]

end TreePlan

/-- A block that is put down a tree gets to every rank. -/
theorem TreePlan.ringDelivers {β : Type} {n : ℕ} {parent depth : ℕ → ℕ} {children : ℕ → List ℕ}
    {deps : ℕ → CommDep} {args : BcastArgs}
    (h : TreePlan n args.root parent depth children deps) (m₀ : ℕ → Addr → β) :
    RingDelivers args n deps (ringSubmit args deps) args.registered m₀ := by
  have hcongr : ∀ p < n, ringSubmit args deps p =
      putTreeTasks args.root children (bytes .recv 0 (args.count * args.dtSize)) p :=
    fun p hp => h.ringSubmit_eq args hp
  have hsteps (F : Fabric Addr β) (p : ℕ) := Fabric.step_congr (F := F) (r := p) hcongr
  refine { peers := fun p hp info hinfo => ?_, dual := fun p hp q hq len => h.count_eq hp hq len,
           root_waits := fun e hwait => ?_, waits_first := fun q hq hne => ?_,
           acyclic := fun p => ?_, reaches := fun q hq => ?_,
           live := fun F hF hunfinished => ?_, bounded := fun ranks F hrun => ?_,
           equal := fun F hF hfin q hq i hi => ?_ }
  · rcases List.mem_append.mp hinfo with hget | hput
    · exact h.getPeer_lt hp hget
    · exact h.putPeer_lt hp hput
  · rw [hcongr _ h.root_lt] at hwait
    exact (wait_mem_putTreeTasks.mp hwait).1 rfl
  · refine ⟨0, _, (hcongr q hq).trans (putTreeTasks_of_ne hne), fun e' he' => ?_⟩
    obtain ⟨c, -, hc⟩ := List.mem_map.mp he'
    cases hc
  · rw [PutsTo.congr hcongr]
    exact h.acyclic p
  · rw [PutsTo.congr hcongr]
    exact h.reaches hq
  · obtain ⟨p, hp, hstep⟩ := h.exists_enabled (hF.congr hcongr)
      fun hfin => hunfinished (hfin.congr fun p hp => (hcongr p hp).symm)
    exact ⟨p, hp, by rwa [hsteps]⟩
  · have hle := Fabric.length_run_le .init hrun
    exact (Nat.le_add_right _ _).trans hle
  · refine h.toPutTree.delivers (hF.congr hcongr) (hfin.congr hcongr) hq ?_
    have hlt : i < args.count * args.dtSize := hi
    exact mem_bytes.mpr ⟨rfl, by omega, by omega⟩

/-! ### The chains -/

section Chains

variable {kind : RingKind} {n : ℕ} {args : BcastArgs} {extra : List ℕ} {deps : ℕ → CommDep}

/-- The parent in the group. -/
def chainParent (n root : ℕ) (extra : List ℕ) (q : ℕ) : ℕ :=
  toRank n root (ringParent extra (fromRoot n root q))

/-- The chains are a tree on the ranks of the group, in which a rank is as far from the root as its
    number says. -/
theorem chains_putTree (h : kind.Cuts n args.root extra) {children : ℕ → List ℕ}
    (hperm : ∀ p < n, (children p).Perm
      ((ringChildren n extra (fromRoot n args.root p)).map (toRank n args.root))) :
    PutTree n args.root (chainParent n args.root extra) (fromRoot n args.root) children where
  root_lt := h.root_lt
  parent_lt q _ _ := toRank_lt h.root_lt
  depth_lt q hq hne := by
    have hpos := fromRoot_pos h.root_lt hq hne
    have hlt := (ringTree h).parent_lt _ hpos (fromRoot_lt h.root_lt)
    rw [chainParent, fromRoot_toRank h.root_lt (hlt.trans (fromRoot_lt h.root_lt))]
    exact hlt
  mem p hp q := by
    rw [(hperm p hp).mem_iff, List.mem_map]
    constructor
    · rintro ⟨c, hc, rfl⟩
      obtain ⟨hpos, hcn, hpar⟩ := ((ringTree h).mem _ _).mp hc
      refine ⟨toRank_lt h.root_lt, fun hroot => ?_, ?_⟩
      · exact hpos.ne' ((toRank_eq_root_iff h.root_lt hcn).mp hroot)
      · rw [chainParent, fromRoot_toRank h.root_lt hcn, ← hpar, toRank_fromRoot h.root_lt hp]
    · rintro ⟨hq, hne, hpar⟩
      have hpos := fromRoot_pos h.root_lt hq hne
      have hlt := (ringTree h).parent_lt _ hpos (fromRoot_lt h.root_lt)
      refine ⟨fromRoot n args.root q, ((ringTree h).mem _ _).mpr ⟨hpos, fromRoot_lt h.root_lt, ?_⟩,
        toRank_fromRoot h.root_lt hq⟩
      rw [← hpar, chainParent, fromRoot_toRank h.root_lt (hlt.trans (fromRoot_lt h.root_lt))]

/-- Ranks that send to their children and get from their parents. -/
theorem chains_treePlan (h : kind.Cuts n args.root extra)
    (hroot : (deps args.root).getRanks = [])
    (hget : ∀ q < n, q ≠ args.root → (deps q).getRanks = [⟨if some q ∈ kind.recvFromRoot n args.root
      then args.root else leftOf n q, 1⟩])
    (hlength : ∀ p < n, ∀ info ∈ (deps p).putRanks, info.length = 1)
    (hput : ∀ p < n, ((deps p).putRanks.map (·.peerId)).Perm
      (if p = args.root then
          rightOf n args.root :: (kind.recvFromRoot n args.root).reduceOption
        else if kind.recvOnly n args.root (some (leftOf n p)) (some (rightOf n p)) then []
        else [rightOf n p])) :
    TreePlan n args.root (chainParent n args.root extra) (fromRoot n args.root)
      (fun p => (deps p).putRanks.map (·.peerId)) deps := by
  have hperm (p : ℕ) (hp : p < n) : ((deps p).putRanks.map (·.peerId)).Perm
      ((ringChildren n extra (fromRoot n args.root p)).map (toRank n args.root)) := by
    refine (hput p hp).trans (List.Perm.of_eq ?_)
    rcases eq_or_ne p args.root with rfl | hne
    · rw [if_pos rfl, h.kids_root]
    · rw [if_neg hne, h.kids_eq hp hne]
  refine { chains_putTree h hperm with
    nodup := fun p hp => ?_
    getRanks_root := hroot
    getRanks_eq := fun q hq hne => ?_
    putRanks_eq := fun p hp => ?_ }
  · refine (hperm p hp).nodup_iff.mpr (((ringTree h).nodup _).map_on fun a ha b hb hab => ?_)
    exact (toRank_inj h.root_lt (((ringTree h).mem _ _).mp ha).2.1
      (((ringTree h).mem _ _).mp hb).2.1).mp hab
  · rw [hget q hq hne, chainParent, h.parent_eq hq hne]
  · rw [List.map_map]
    refine ((List.map_congr_left fun info hinfo => ?_).trans (List.map_id _)).symm
    rw [Function.comp_apply, ← hlength p hp info hinfo, id_eq]

/-- The plan of `bcast_ring_m`. -/
theorem ringM_treePlan (hn : 3 ≤ n) (hroot : args.root < n) :
    TreePlan n args.root (chainParent n args.root (rank1Number n)) (fromRoot n args.root)
      (fun p => (BcastRingM.offloadPlan args n p).putRanks.map (·.peerId))
      (BcastRingM.offloadPlan args n) := by
  refine chains_treePlan (bcastIncRingM_cuts (by omega) hroot) ?_ (fun q hq hne => ?_)
    (fun p hp info hinfo => ?_) fun p hp => List.Perm.of_eq ?_
  · simp [BcastRingM.offloadPlan]
  · have hmem : some q ∈ bcastIncRingM.recvFromRoot n args.root ↔ q = (args.root + 2) % n := by
      simp [bcastIncRingM, recvFromRootRank1, show ¬n < 3 by omega]
    rw [if_congr hmem rfl rfl]
    simp [BcastRingM.offloadPlan, hne, leftOf]
  · rw [BcastRingM.offloadPlan, List.mem_map] at hinfo
    obtain ⟨_, -, rfl⟩ := hinfo
    rfl
  · have hleft : p = (args.root + n - 1) % n ↔ rightOf n p = args.root :=
      eq_comm.trans (Algo.rightOf_eq_iff hp hroot).symm
    have hright : p = (args.root + 1) % n ↔ leftOf n p = args.root :=
      eq_comm.trans (Algo.rightOf_eq_iff hroot hp)
    rcases eq_or_ne p args.root with rfl | hne
    · have hends : ¬(args.root = (args.root + n - 1) % n ∨ args.root = (args.root + 1) % n) := by
        rw [mod_eq_ite (by omega), mod_eq_ite (by omega)]
        split_ifs <;> omega
      simp only [BcastRingM.offloadPlan, if_neg hends, if_true, bcastIncRingM, recvFromRootRank1,
        if_neg (show ¬n < 3 by omega), List.reduceOption_singleton]
      rfl
    · simp only [BcastRingM.offloadPlan, if_neg hne, bcastIncRingM, hleft, hright,
        Option.some.injEq, decide_eq_true_eq]
      split_ifs <;> rfl

/-- The plan of `bcast_ring_2m`. -/
theorem ring2M_treePlan (hn : 4 ≤ n) (hroot : args.root < n) :
    TreePlan n args.root (chainParent n args.root (rank1Number n ++ rank2Number n))
      (fromRoot n args.root)
      (fun p => (BcastRing2M.offloadPlan args n p).putRanks.map (·.peerId))
      (BcastRing2M.offloadPlan args n) := by
  have hmid : (args.root + n / 2) % n = midRank n args.root := by rw [midRank, Nat.add_comm]
  -- With four or five ranks the two ranks behind the root are one.
  have hsame : (args.root + 2) % n = midRank n args.root ↔ n < 6 := by
    rw [← hmid, Nat.add_comm, Nat.add_comm args.root]
    refine (toRank_inj hroot (by omega) (by omega)).trans ?_
    omega
  refine chains_treePlan (bcastInc2RingM_cuts (by omega) hroot) ?_ (fun q hq hne => ?_)
    (fun p hp info hinfo => ?_) fun p hp => ?_
  · simp [BcastRing2M.offloadPlan]
  · have hmem : some q ∈ bcastInc2RingM.recvFromRoot n args.root ↔
        q = (args.root + 2) % n ∨ q = (args.root + n / 2) % n := by
      simp only [bcastInc2RingM, recvFromRootRank1, recvFromRootRank2, hmid,
        if_neg (show ¬n < 3 by omega), List.mem_cons, Option.some.injEq, List.not_mem_nil, or_false]
      split_ifs with hlt
      · rw [hsame.mpr hlt]
        simp
      · rw [Option.some.injEq]
    rw [if_congr hmem rfl rfl]
    simp [BcastRing2M.offloadPlan, hne, leftOf]
  · rw [BcastRing2M.offloadPlan, List.mem_map] at hinfo
    obtain ⟨_, -, rfl⟩ := hinfo
    rfl
  · have hleft : p = (args.root + n - 1) % n ↔ rightOf n p = args.root :=
      eq_comm.trans (Algo.rightOf_eq_iff hp hroot).symm
    have hright : p = (args.root + 1) % n ↔ leftOf n p = args.root :=
      eq_comm.trans (Algo.rightOf_eq_iff hroot hp)
    have hbefore : p = (midRank n args.root + n - 1) % n ↔ rightOf n p = midRank n args.root :=
      eq_comm.trans (Algo.rightOf_eq_iff hp (Nat.mod_lt _ (by omega))).symm
    rcases eq_or_ne p args.root with rfl | hne
    · have hends : ¬(args.root = (args.root + n - 1) % n ∨ args.root = (args.root + 1) % n ∨
          args.root = (midRank n args.root + n - 1) % n) := by
        rw [hbefore, rightOf, midRank, Nat.add_comm (n / 2), mod_eq_ite (by omega),
          mod_eq_ite (by omega), mod_eq_ite (by omega)]
        split_ifs <;> omega
      simp only [BcastRing2M.offloadPlan, hmid, if_neg hends, if_true, ne_eq, hsame,
        bcastInc2RingM, recvFromRootRank1, recvFromRootRank2, if_neg (show ¬n < 3 by omega)]
      by_cases hlt : n < 6
      · rw [if_neg (not_not.mpr hlt), if_pos hlt, ← hsame.mpr hlt]
        exact List.Perm.swap _ _ _
      · rw [if_pos hlt, if_neg hlt]
        exact @List.perm_append_comm _ [_] [_, _]
    · simp only [BcastRing2M.offloadPlan, hmid, if_neg hne, bcastInc2RingM, hleft, hright, hbefore,
        Option.some.injEq, decide_eq_true_eq, @or_comm (leftOf n p = args.root)]
      refine List.Perm.of_eq ?_
      split_ifs <;> rfl

end Chains

/-- Two elements of one byte, each with a gap behind it. -/
def ringPaddedArgs : BcastArgs := ⟨0, 2, 1, 2⟩

/-- `hccl_bcast_ring_modified_kernel`. -/
def bcastRingModifiedKernel (groupSize root myRank : ℕ) : List (Choreography.Op ℕ Unit) :=
  let leftLeftPeer := (myRank + groupSize - 2) % groupSize
  let leftPeer := (myRank + groupSize - 1) % groupSize
  let rightPeer := (myRank + 1) % groupSize
  let rightRightPeer := (myRank + 2) % groupSize
  if myRank = root then
    .send rightPeer () :: if groupSize > 2 then [.send rightRightPeer ()] else []
  else
    let peer := if groupSize > 2 ∧ leftLeftPeer = root then root else leftPeer
    .recv peer () :: if leftPeer ≠ root ∧ rightPeer ≠ root then [.send rightPeer ()] else []

/-- The kernel receives from the peers that `bcast_ring_m` gets from, and sends to those that it
    puts to, in the same order. -/
theorem bcastRingModifiedKernel_eq {n p : ℕ} {args : BcastArgs} (hn : 3 ≤ n)
    (hroot : args.root < n) (hp : p < n) :
    bcastRingModifiedKernel n args.root p =
      ((BcastRingM.offloadPlan args n p).getRanks.map fun info => .recv info.peerId ()) ++
      (BcastRingM.offloadPlan args n p).putRanks.map fun info => .send info.peerId () := by
  have hleft : p = (args.root + n - 1) % n ↔ (p + 1) % n = args.root :=
    eq_comm.trans (Algo.rightOf_eq_iff hp hroot).symm
  have hright : p = (args.root + 1) % n ↔ (p + n - 1) % n = args.root :=
    eq_comm.trans (Algo.rightOf_eq_iff hroot hp)
  have hskip : p = (args.root + 2) % n ↔ (p + n - 2) % n = args.root := by
    rw [mod_eq_ite (by omega), mod_eq_ite (by omega)]
    split_ifs <;> omega
  have hn' : n > 2 := hn
  rw [bcastRingModifiedKernel, BcastRingM.offloadPlan]
  rcases eq_or_ne p args.root with rfl | hne
  · have hends : ¬((args.root + 1) % n = args.root ∨ (args.root + n - 1) % n = args.root) := by
      rw [mod_eq_ite (by omega), mod_eq_ite (by omega)]
      split_ifs <;> omega
    simp [hleft, hright, hends, hn', List.range_succ, Nat.add_assoc]
  · have hends : ((p + 1) % n = args.root ∨ (p + n - 1) % n = args.root) ↔
        ¬((p + n - 1) % n ≠ args.root ∧ (p + 1) % n ≠ args.root) := by tauto
    simp only [if_neg hne, hleft, hright, hskip, hn', true_and, hends, ite_not]
    split_ifs <;> rfl

end Kucg.Stars
