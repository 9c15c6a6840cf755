import Kucg.Core.Status
import Kucg.Lib.Matching

/-! The lanes of an endpoint, from `scp_ep.c`, and the events of a transfer, from `scp_rma.c`.

    Each of two processes goes through its own lanes in order and connects each one to the first
    lane of the other process that is free and reachable. Both arrive at the same pairs, since there
    is only one greedy matching. The SDMA lanes are connected to each other before, if both
    processes are on one machine: a process that has one then insists on the other one having one,
    but not the other way round. -/

namespace Kucg.Stars

open Kucg.Core Kucg.Lib

/-- `SCP_MAX_LANE`; as a remote lane it says that a lane is not connected. -/
def scpMaxLane : ℕ := 9

/-! ### Creating an endpoint -/

/-- An interface of a worker: its resource and the transports that it matches. -/
structure ScpIface where
  rscIndex : ℕ
  isSdma : Bool
  isRc : Bool

/-- The loop of `scp_select_lanes`: the interfaces selected and the resource of the SDMA one. -/
def scpSelectLanes (multirails : ℕ) (interNode : Bool) : List ScpIface → ℕ → List ℕ → Option ℕ →
    List ℕ × Option ℕ
  | [], _, ifacesIdxs, sdmaRscIdx => (ifacesIdxs, sdmaRscIdx)
  | iface :: ifaces, idx, ifacesIdxs, sdmaRscIdx =>
    let matchSdma := iface.isSdma && !interNode
    let sdmaRscIdx := if matchSdma then some iface.rscIndex else sdmaRscIdx
    if matchSdma || iface.isRc then
      if ifacesIdxs.length + 1 ≥ multirails then
        ((ifacesIdxs ++ [idx]).take multirails, sdmaRscIdx)
      else scpSelectLanes multirails interNode ifaces (idx + 1) (ifacesIdxs ++ [idx]) sdmaRscIdx
    else scpSelectLanes multirails interNode ifaces (idx + 1) ifacesIdxs sdmaRscIdx

/-- The loop of `scp_ep_create_inner`: the interfaces of the lanes and the SDMA lane. `created` says
    for which interfaces `sct_ep_create` succeeds. -/
def scpCreateLanes (ifaces : List ScpIface) (sdmaRscIdx : Option ℕ) (created : ℕ → Bool) :
    List ℕ → List ℕ → Option ℕ → List ℕ × Option ℕ
  | [], lanes, sdmaEpIdx => (lanes, sdmaEpIdx)
  | idx :: ifacesIdxs, lanes, sdmaEpIdx =>
    if created idx then
      scpCreateLanes ifaces sdmaRscIdx created ifacesIdxs (lanes ++ [idx])
        (if sdmaRscIdx.isSome ∧ sdmaRscIdx = ifaces[idx]?.map ScpIface.rscIndex then
          some lanes.length else sdmaEpIdx)
    else scpCreateLanes ifaces sdmaRscIdx created ifacesIdxs lanes sdmaEpIdx

/-- `scp_ep_t` before it is connected: the interfaces of its lanes, the SDMA lane and the id of the
    machine. (`UINT8_MAX` as SDMA lane is `none`.) -/
structure ScpEp (multirails : ℕ) where
  sctEpsRscIdx : List ℕ
  sdmaEpIdx : Option ℕ
  guid : ℕ
  length_le : sctEpsRscIdx.length ≤ multirails
  length_le_max : sctEpsRscIdx.length ≤ scpMaxLane
  sdma_lt : ∀ s ∈ sdmaEpIdx, s < sctEpsRscIdx.length

/-- `sct_ep_num`. -/
def ScpEp.sctEpNum {multirails : ℕ} (ep : ScpEp multirails) : ℕ := ep.sctEpsRscIdx.length

theorem length_scpSelectLanes (multirails : ℕ) (interNode : Bool) : ∀ (ifaces : List ScpIface)
    (idx : ℕ) (ifacesIdxs : List ℕ) (sdmaRscIdx : Option ℕ), ifacesIdxs.length ≤ multirails →
      (scpSelectLanes multirails interNode ifaces idx ifacesIdxs sdmaRscIdx).1.length ≤ multirails
  | [], _, _, _, h => h
  | iface :: ifaces, idx, ifacesIdxs, sdmaRscIdx, h => by
    rw [scpSelectLanes]
    split
    · split
      · exact List.length_take_le _ _
      · refine length_scpSelectLanes multirails interNode ifaces _ _ _ ?_
        rw [List.length_append, List.length_singleton]
        omega
    · exact length_scpSelectLanes multirails interNode ifaces _ _ _ h

theorem scpCreateLanes_ok (ifaces : List ScpIface) (sdmaRscIdx : Option ℕ) (created : ℕ → Bool) :
    ∀ (ifacesIdxs lanes : List ℕ) (sdmaEpIdx : Option ℕ), (∀ s ∈ sdmaEpIdx, s < lanes.length) →
      let res := scpCreateLanes ifaces sdmaRscIdx created ifacesIdxs lanes sdmaEpIdx
      res.1.length ≤ lanes.length + ifacesIdxs.length ∧ ∀ s ∈ res.2, s < res.1.length
  | [], lanes, _, h => ⟨by simp [scpCreateLanes], h⟩
  | idx :: ifacesIdxs, lanes, sdmaEpIdx, h => by
    intro res
    have hlen : (lanes ++ [idx]).length = lanes.length + 1 := by simp
    rw [List.length_cons]
    by_cases hcreated : created idx
    · have ih := scpCreateLanes_ok ifaces sdmaRscIdx created ifacesIdxs (lanes ++ [idx])
        (if sdmaRscIdx.isSome ∧ sdmaRscIdx = ifaces[idx]?.map ScpIface.rscIndex then
          some lanes.length else sdmaEpIdx) fun s hs => by
            rw [hlen]
            split_ifs at hs
            · obtain rfl := Option.some.inj hs
              exact Nat.lt_succ_self _
            · exact (h s hs).trans (Nat.lt_succ_self _)
      have hres : res = _ := if_pos hcreated
      rw [hres]
      rw [hlen] at ih
      exact ⟨by have := ih.1; omega, ih.2⟩
    · have ih := scpCreateLanes_ok ifaces sdmaRscIdx created ifacesIdxs lanes sdmaEpIdx h
      have hres : res = _ := if_neg hcreated
      rw [hres]
      exact ⟨by have := ih.1; omega, ih.2⟩

/-- `scp_ep_create_inner`, for a maximum number of rails that the arrays have room for. -/
def scpEpCreateInner {multirails : ℕ} (hrails : multirails ≤ scpMaxLane) (ifaces : List ScpIface)
    (interNode : Bool) (created : ℕ → Bool) (guid : ℕ) : Option (ScpEp multirails) :=
  let selected := scpSelectLanes multirails interNode ifaces 0 [] none
  let lanes := scpCreateLanes ifaces selected.2 created selected.1 [] none
  if lanes.1 = [] then none
  else
    have hsel := length_scpSelectLanes multirails interNode ifaces 0 [] none (Nat.zero_le _)
    have hok := scpCreateLanes_ok ifaces selected.2 created selected.1 [] none
      fun _ hs => absurd hs (Option.not_mem_none _)
    have hle : lanes.1.length ≤ multirails := hok.1.trans (by simpa using hsel)
    some ⟨lanes.1, lanes.2, guid, hle, hle.trans hrails, hok.2⟩

/-! ### Connecting it -/

/-- The lanes of an endpoint that is connected: the remote lane of each lane and the lanes in the
    order in which they have been connected. -/
structure ScpLanes where
  remoteLanes : ℕ → ℕ
  localLanes : List ℕ

/-- Nothing is connected. -/
def ScpLanes.init : ScpLanes := ⟨fun _ => scpMaxLane, []⟩

/-- A lane is connected. -/
def ScpLanes.pair (lanes : ScpLanes) (p : ℕ × ℕ) : ScpLanes where
  remoteLanes := Function.update lanes.remoteLanes p.1 p.2
  localLanes := lanes.localLanes ++ [p.1]

/-- `conn_num`. -/
def ScpLanes.connNum (lanes : ScpLanes) : ℕ := lanes.localLanes.length

section Connect

variable {multirails : ℕ}

/-- `scp_connect_sct_ep`, where `reach` says which interfaces of the peer an interface can reach. -/
def scpConnectSctEp (reach : ℕ → ℕ → Bool) (self peer : ScpEp multirails) (selfIdx peerIdx : ℕ) :
    Status :=
  match self.sctEpsRscIdx[selfIdx]?, peer.sctEpsRscIdx[peerIdx]? with
  | some iface, some peerIface => if reach iface peerIface then .ok else .errUnreachable
  | _, _ => .errInvalidParam

/-- `scp_connect_sdma`. -/
def scpConnectSdma (reach : ℕ → ℕ → Bool) (self peer : ScpEp multirails) (lanes : ScpLanes) :
    ScpLanes × Status :=
  match self.sdmaEpIdx, peer.sdmaEpIdx with
  | some selfIdx, some peerIdx =>
    let status := scpConnectSctEp reach self peer selfIdx peerIdx
    if status = .ok then (lanes.pair (selfIdx, peerIdx), .ok) else (lanes, status)
  | _, _ => (lanes, .errUnsupported)

/-- What the loops of `scp_connect_rc` carry; `out` is the jump out of them. -/
structure RcLoop where
  lanes : ScpLanes
  selfMap : Finset ℕ
  peerMap : Finset ℕ
  multirails : ℕ
  out : Bool

/-- The body of the inner loop of `scp_connect_rc`. -/
def scpConnectRcStep (reach : ℕ → ℕ → Bool) (self peer : ScpEp multirails) (st : RcLoop)
    (p : ℕ × ℕ) : RcLoop :=
  if st.out then st
  else if p.1 ∈ st.selfMap ∨ p.2 ∈ st.peerMap then st
  else if scpConnectSctEp reach self peer p.1 p.2 ≠ .ok then st
  else
    { lanes := st.lanes.pair p
      selfMap := insert p.1 st.selfMap
      peerMap := insert p.2 st.peerMap
      multirails := st.multirails - 1
      out := st.multirails - 1 = 0 }

/-- `scp_connect_rc`; the bit of no SDMA lane is not in a map. -/
def scpConnectRc (reach : ℕ → ℕ → Bool) (self peer : ScpEp multirails) (lanes : ScpLanes) :
    RcLoop :=
  (List.range self.sctEpNum ×ˢ List.range peer.sctEpNum).foldl (scpConnectRcStep reach self peer)
    ⟨lanes, self.sdmaEpIdx.toFinset, peer.sdmaEpIdx.toFinset, multirails, false⟩

/-- The second part of `scp_connect_ep_inner`. -/
def scpConnectRest (reach : ℕ → ℕ → Bool) (self peer : ScpEp multirails) (lanes : ScpLanes) :
    ScpLanes × Status :=
  let st := scpConnectRc reach self peer lanes
  (st.lanes, if st.selfMap = ∅ then .errUnsupported else .ok)

/-- `scp_connect_ep_inner` of a new endpoint, with the unpacked address of the peer's. -/
def scpConnectEpInner (reach : ℕ → ℕ → Bool) (self peer : ScpEp multirails) : ScpLanes × Status :=
  if self.sdmaEpIdx.isSome ∧ peer.guid = self.guid then
    let (lanes, status) := scpConnectSdma reach self peer .init
    if status ≠ .ok then (lanes, status)
    else if self.sctEpNum = 1 then (lanes, .ok)
    else scpConnectRest reach self peer lanes
  else scpConnectRest reach self peer .init

end Connect

/-! ### Transfers -/

/-- The events that `scp_put_with_notify` notifies, by their index. -/
def scpPutWithNotify (lanes : ScpLanes) : List ℕ :=
  lanes.localLanes.filterMap fun src =>
    if lanes.remoteLanes src ≥ scpMaxLane then none else some src

/-- The lanes that `scp_ep_wait_notify` waits on, with the events. -/
def scpEpWaitNotify (lanes : ScpLanes) : List (ℕ × ℕ) :=
  lanes.localLanes.filterMap fun src =>
    if lanes.remoteLanes src ≥ scpMaxLane then none else some (src, lanes.remoteLanes src)

/-- The events that `scp_ep_alloc_event` allocates. -/
def scpEpAllocEvent (sctEpNum : ℕ) (lanes : ScpLanes) : List ℕ :=
  (List.range sctEpNum).filterMap fun src =>
    if lanes.remoteLanes src ≥ scpMaxLane then none else some (lanes.remoteLanes src)

/-! ### The pairs of an endpoint -/

section Pairs

variable {ps : List (ℕ × ℕ)} {lanes : ScpLanes} {i j : ℕ}

theorem localLanes_foldl : ∀ (ps : List (ℕ × ℕ)) (lanes : ScpLanes),
    (ps.foldl ScpLanes.pair lanes).localLanes = lanes.localLanes ++ ps.map Prod.fst
  | [], lanes => (List.append_nil _).symm
  | p :: ps, lanes => by
    rw [List.foldl_cons, localLanes_foldl ps, List.map_cons, List.append_cons]
    rfl

theorem remoteLanes_foldl_of_notMem : ∀ {ps : List (ℕ × ℕ)} {lanes : ScpLanes},
    i ∉ ps.map Prod.fst → (ps.foldl ScpLanes.pair lanes).remoteLanes i = lanes.remoteLanes i
  | [], _, _ => rfl
  | p :: ps, lanes, h => by
    rw [List.map_cons, List.mem_cons, not_or] at h
    rw [List.foldl_cons, remoteLanes_foldl_of_notMem h.2, ScpLanes.pair]
    exact Function.update_of_ne h.1 _ _

theorem remoteLanes_foldl_of_mem : ∀ {ps : List (ℕ × ℕ)} {lanes : ScpLanes},
    (ps.map Prod.fst).Nodup → (i, j) ∈ ps → (ps.foldl ScpLanes.pair lanes).remoteLanes i = j
  | p :: ps, lanes, hnodup, h => by
    rw [List.map_cons, List.nodup_cons] at hnodup
    rw [List.foldl_cons]
    rcases List.mem_cons.mp h with rfl | h
    · rw [remoteLanes_foldl_of_notMem hnodup.1]
      exact Function.update_self ..
    · exact remoteLanes_foldl_of_mem hnodup.2 h

/-- The lanes connected by pairs. -/
def lanesOf (ps : List (ℕ × ℕ)) : ScpLanes := ps.foldl ScpLanes.pair .init

/-- Pairs of lanes of two endpoints. -/
structure LanePairs (ps : List (ℕ × ℕ)) : Prop where
  left : (ps.map Prod.fst).Nodup
  right : (ps.map Prod.snd).Nodup
  lt : ∀ p ∈ ps, p.1 < scpMaxLane ∧ p.2 < scpMaxLane

theorem localLanes_lanesOf : (lanesOf ps).localLanes = ps.map Prod.fst := localLanes_foldl ps .init

theorem LanePairs.remoteLanes_eq (h : LanePairs ps) (hp : (i, j) ∈ ps) :
    (lanesOf ps).remoteLanes i = j := remoteLanes_foldl_of_mem h.left hp

/-- The remote lane of a lane is that of its pair, or none. -/
theorem LanePairs.remoteLanes_iff (h : LanePairs ps) (hj : j < scpMaxLane) :
    (lanesOf ps).remoteLanes i = j ↔ (i, j) ∈ ps := by
  constructor
  · intro hrem
    by_cases hi : i ∈ ps.map Prod.fst
    · obtain ⟨⟨i', j'⟩, hp, rfl⟩ := List.mem_map.mp hi
      rwa [← hrem, h.remoteLanes_eq hp]
    · rw [lanesOf, remoteLanes_foldl_of_notMem hi] at hrem
      exact absurd hrem hj.ne'
  · exact h.remoteLanes_eq

theorem LanePairs.putWithNotify (h : LanePairs ps) :
    scpPutWithNotify (lanesOf ps) = ps.map Prod.fst := by
  rw [scpPutWithNotify, localLanes_lanesOf, List.filterMap_map, ← List.filterMap_eq_map]
  refine List.filterMap_congr fun p hp => ?_
  rw [Function.comp_apply, h.remoteLanes_eq hp, if_neg (not_le.mpr (h.lt p hp).2)]
  rfl

theorem LanePairs.waitNotify (h : LanePairs ps) : scpEpWaitNotify (lanesOf ps) = ps := by
  rw [scpEpWaitNotify, localLanes_lanesOf, List.filterMap_map]
  conv_rhs => rw [← List.filterMap_some (l := ps)]
  refine List.filterMap_congr fun p hp => ?_
  rw [Function.comp_apply, h.remoteLanes_eq hp, if_neg (not_le.mpr (h.lt p hp).2)]

theorem LanePairs.mem_allocEvent (h : LanePairs ps) {n : ℕ} (hn : ∀ p ∈ ps, p.1 < n) :
    j ∈ scpEpAllocEvent n (lanesOf ps) ↔ j ∈ ps.map Prod.snd := by
  rw [scpEpAllocEvent, List.mem_filterMap, List.mem_map]
  constructor
  · rintro ⟨i, -, hi⟩
    split_ifs at hi with hle
    exact ⟨(i, j), (h.remoteLanes_iff (by
      rw [← Option.some.inj hi]
      exact not_le.mp hle)).mp (Option.some.inj hi), rfl⟩
  · rintro ⟨⟨i, j⟩, hp, rfl⟩
    refine ⟨i, List.mem_range.mpr (hn _ hp), ?_⟩
    rw [h.remoteLanes_eq hp, if_neg (not_le.mpr (h.lt _ hp).2)]

end Pairs

/-! ### The loops -/

section Loops

variable {multirails : ℕ} {reach : ℕ → ℕ → Bool} {ep peer : ScpEp multirails} {lanes : ScpLanes}
  {st : RcLoop} {taken : List (ℕ × ℕ)} {p : ℕ × ℕ}

/-- Two lanes that `scp_connect_rc` may connect. -/
def rcAllowed (reach : ℕ → ℕ → Bool) (ep peer : ScpEp multirails) (i j : ℕ) : Bool :=
  some i ≠ ep.sdmaEpIdx ∧ some j ≠ peer.sdmaEpIdx ∧ scpConnectSctEp reach ep peer i j = .ok

/-- The loops have connected these pairs of lanes, after those of `lanes`. -/
structure RcTracks (ep peer : ScpEp multirails) (lanes : ScpLanes) (st : RcLoop)
    (taken : List (ℕ × ℕ)) : Prop where
  lanes_eq : st.lanes = taken.foldl ScpLanes.pair lanes
  mem_self : ∀ i, i ∈ st.selfMap ↔ some i = ep.sdmaEpIdx ∨ i ∈ taken.map Prod.fst
  mem_peer : ∀ j, j ∈ st.peerMap ↔ some j = peer.sdmaEpIdx ∨ j ∈ taken.map Prod.snd
  rails : st.multirails + taken.length = multirails
  out : st.out = true → st.multirails = 0
  nodup : (taken.map Prod.fst).Nodup
  lt : ∀ i ∈ taken.map Prod.fst, i < ep.sctEpNum

/-- When there are as many pairs as lanes, all lanes are taken. -/
theorem RcTracks.mem_of_rails (h : RcTracks ep peer lanes st taken) (hrails : st.multirails = 0)
    {i : ℕ} (hi : i < ep.sctEpNum) : i ∈ taken.map Prod.fst := by
  have hsub : (taken.map Prod.fst).toFinset ⊆ Finset.range ep.sctEpNum := fun i hi =>
    Finset.mem_range.mpr (h.lt i (List.mem_toFinset.mp hi))
  have hcard : (Finset.range ep.sctEpNum).card ≤ (taken.map Prod.fst).toFinset.card := by
    rw [Finset.card_range, List.toFinset_card_of_nodup h.nodup, List.length_map]
    have hle : ep.sctEpNum ≤ multirails := ep.length_le
    have hrails' := h.rails
    omega
  have heq := Finset.eq_of_subset_of_card_le hsub hcard
  exact List.mem_toFinset.mp (heq ▸ Finset.mem_range.mpr hi)

theorem rcTracks_step (h : RcTracks ep peer lanes st taken) (hp : p.1 < ep.sctEpNum) :
    RcTracks ep peer lanes (scpConnectRcStep reach ep peer st p)
      (greedyStep (rcAllowed reach ep peer) taken p) := by
  have hrails := h.rails
  have hfree : (¬(p.1 ∈ st.selfMap ∨ p.2 ∈ st.peerMap) ∧
    scpConnectSctEp reach ep peer p.1 p.2 = .ok) ↔
      (rcAllowed reach ep peer p.1 p.2 = true ∧ p.1 ∉ taken.map Prod.fst ∧
        p.2 ∉ taken.map Prod.snd) := by
    rw [h.mem_self, h.mem_peer, rcAllowed, decide_eq_true_eq]
    tauto
  rw [scpConnectRcStep, greedyStep]
  by_cases hout : st.out
  · -- the loops have been left, as all lanes are taken
    have hmem := h.mem_of_rails (h.out hout) hp
    rw [if_pos hout, if_neg fun hall => hall.2.1 hmem]
    exact h
  rw [if_neg hout]
  by_cases hall : rcAllowed reach ep peer p.1 p.2 = true ∧ p.1 ∉ taken.map Prod.fst ∧
      p.2 ∉ taken.map Prod.snd
  · obtain ⟨hnot, hok⟩ := hfree.mpr hall
    have hpos : st.multirails ≠ 0 := fun hzero => hall.2.1 (h.mem_of_rails hzero hp)
    rw [if_pos hall, if_neg hnot, if_neg (not_not.mpr hok)]
    refine ⟨?_, fun i => ?_, fun j => ?_, ?_, fun hz => of_decide_eq_true hz, ?_, ?_⟩
    · rw [List.foldl_append, List.foldl_cons, List.foldl_nil, h.lanes_eq]
    · rw [Finset.mem_insert, h.mem_self, List.map_append, List.mem_append, List.map_singleton,
        List.mem_singleton]
      tauto
    · rw [Finset.mem_insert, h.mem_peer, List.map_append, List.mem_append, List.map_singleton,
        List.mem_singleton]
      tauto
    · rw [List.length_append, List.length_singleton]
      dsimp only
      omega
    · rw [List.map_append, List.map_singleton]
      exact List.nodup_append.mpr ⟨h.nodup, List.nodup_singleton _, fun a ha b hb hab =>
        hall.2.1 (List.mem_singleton.mp hb ▸ hab ▸ ha)⟩
    · rw [List.map_append, List.map_singleton]
      intro i hi
      rcases List.mem_append.mp hi with hi | hi
      · exact h.lt i hi
      · exact List.mem_singleton.mp hi ▸ hp
  · rw [if_neg hall]
    rw [← hfree, not_and] at hall
    by_cases hmap : p.1 ∈ st.selfMap ∨ p.2 ∈ st.peerMap
    · rw [if_pos hmap]
      exact h
    · rw [if_neg hmap, if_pos (hall hmap)]
      exact h

theorem rcTracks_foldl : ∀ {ps : List (ℕ × ℕ)} {st : RcLoop} {taken : List (ℕ × ℕ)},
    RcTracks ep peer lanes st taken → (∀ p ∈ ps, p.1 < ep.sctEpNum) →
      RcTracks ep peer lanes (ps.foldl (scpConnectRcStep reach ep peer) st)
        (ps.foldl (greedyStep (rcAllowed reach ep peer)) taken)
  | [], _, _, h, _ => h
  | p :: ps, st, taken, h, hlt => by
    rw [List.forall_mem_cons] at hlt
    rw [List.foldl_cons, List.foldl_cons]
    exact rcTracks_foldl (rcTracks_step h hlt.1) hlt.2

/-- The pairs that `scp_connect_rc` connects. -/
def rcPairs (reach : ℕ → ℕ → Bool) (ep peer : ScpEp multirails) : List (ℕ × ℕ) :=
  greedy (rcAllowed reach ep peer) (List.range ep.sctEpNum) (List.range peer.sctEpNum)

theorem rcTracks_connectRc (reach : ℕ → ℕ → Bool) (ep peer : ScpEp multirails)
    (lanes : ScpLanes) : RcTracks ep peer lanes (scpConnectRc reach ep peer lanes)
      (rcPairs reach ep peer) := by
  refine rcTracks_foldl ⟨rfl, fun i => ?_, fun j => ?_, rfl, nofun, List.nodup_nil, by simp⟩
    fun p hp => List.mem_range.mp (List.mem_product.mp hp).1
  · simp [eq_comm]
  · simp [eq_comm]

end Loops

/-! ### Both sides -/

section Sides

variable {multirails : ℕ} {reach : ℕ → ℕ → Bool} {ep peer : ScpEp multirails} {i j : ℕ}

/-- The reachability from the other side. -/
def reachBack (reach : ℕ → ℕ → Bool) : ℕ → ℕ → Bool := fun peerIface iface => reach iface peerIface

theorem connectSctEp_iff : scpConnectSctEp reach ep peer i j = .ok ↔
    ∃ iface ∈ ep.sctEpsRscIdx[i]?, ∃ peerIface ∈ peer.sctEpsRscIdx[j]?,
      reach iface peerIface = true := by
  rw [scpConnectSctEp]
  cases ep.sctEpsRscIdx[i]? <;> cases peer.sctEpsRscIdx[j]? <;> simp

theorem connectSctEp_back : scpConnectSctEp (reachBack reach) peer ep j i = .ok ↔
    scpConnectSctEp reach ep peer i j = .ok := by
  rw [connectSctEp_iff, connectSctEp_iff]
  constructor
  · rintro ⟨b, hb, a, ha, h⟩
    exact ⟨a, ha, b, hb, h⟩
  · rintro ⟨a, ha, b, hb, h⟩
    exact ⟨b, hb, a, ha, h⟩

theorem rcAllowed_back : rcAllowed (reachBack reach) peer ep j i = rcAllowed reach ep peer i j := by
  rw [rcAllowed, rcAllowed, decide_eq_decide, connectSctEp_back]
  tauto

theorem lexMatching_rcPairs (reach : ℕ → ℕ → Bool) (ep peer : ScpEp multirails) :
    LexMatching (fun i j => i ∈ List.range ep.sctEpNum ∧ j ∈ List.range peer.sctEpNum ∧
      rcAllowed reach ep peer i j) fun i j => (i, j) ∈ rcPairs reach ep peer :=
  lexMatching_greedy List.pairwise_lt_range List.pairwise_lt_range

/-- Both sides connect the same lanes. -/
theorem mem_rcPairs_back :
    (j, i) ∈ rcPairs (reachBack reach) peer ep ↔ (i, j) ∈ rcPairs reach ep peer := by
  have hback := (lexMatching_rcPairs (reachBack reach) peer ep).flip
  simp only [rcAllowed_back] at hback
  have h : LexMatching (fun i j => j ∈ List.range peer.sctEpNum ∧ i ∈ List.range ep.sctEpNum ∧
      rcAllowed reach ep peer i j) fun i j => (i, j) ∈ rcPairs reach ep peer := fun i j =>
    (lexMatching_rcPairs reach ep peer i j).trans (and_congr_left' and_left_comm)
  exact hback.unique h i j

theorem mem_rcPairs (h : (i, j) ∈ rcPairs reach ep peer) :
    i < ep.sctEpNum ∧ j < peer.sctEpNum ∧ some i ≠ ep.sdmaEpIdx ∧ some j ≠ peer.sdmaEpIdx := by
  obtain ⟨hi, hj, hR⟩ := (lexMatching_rcPairs reach ep peer).allowed h
  obtain ⟨hself, hpeer, -⟩ := of_decide_eq_true hR
  exact ⟨List.mem_range.mp hi, List.mem_range.mp hj, hself, hpeer⟩

theorem nodup_rcPairs : ((rcPairs reach ep peer).map Prod.fst).Nodup :=
  (rcTracks_connectRc reach ep peer .init).nodup

/-- The pairs that an endpoint connects. -/
def epPairs (reach : ℕ → ℕ → Bool) (ep peer : ScpEp multirails) : List (ℕ × ℕ) :=
  if ep.sdmaEpIdx.isSome ∧ peer.guid = ep.guid then
    match ep.sdmaEpIdx, peer.sdmaEpIdx with
    | some a, some b =>
      if scpConnectSctEp reach ep peer a b = .ok then (a, b) :: rcPairs reach ep peer else []
    | _, _ => []
  else rcPairs reach ep peer

theorem lanes_connectRest (lanes : ScpLanes) : (scpConnectRest reach ep peer lanes).1 =
    (rcPairs reach ep peer).foldl ScpLanes.pair lanes :=
  (rcTracks_connectRc reach ep peer lanes).lanes_eq

/-- The connection of an endpoint, by its pairs. -/
theorem lanes_connectEpInner :
    (scpConnectEpInner reach ep peer).1 = lanesOf (epPairs reach ep peer) := by
  rw [scpConnectEpInner, epPairs]
  by_cases hsdma : ep.sdmaEpIdx.isSome ∧ peer.guid = ep.guid
  · rw [if_pos hsdma, if_pos hsdma]
    obtain ⟨a, ha⟩ := Option.isSome_iff_exists.mp hsdma.1
    rw [scpConnectSdma, ha]
    cases hb : peer.sdmaEpIdx with
    | none => rfl
    | some b =>
      dsimp only
      by_cases hok : scpConnectSctEp reach ep peer a b = .ok
      · rw [if_pos hok, if_pos hok]
        dsimp only
        rw [if_neg (by simp)]
        by_cases hone : ep.sctEpNum = 1
        · -- the only lane is the SDMA lane
          have hnil : rcPairs reach ep peer = [] := by
            refine List.eq_nil_iff_forall_not_mem.mpr fun p hp => ?_
            obtain ⟨hi, -, hne, -⟩ := mem_rcPairs (i := p.1) (j := p.2) hp
            have hlt : a < ep.sctEpNum := ep.sdma_lt a ha
            exact hne (ha ▸ congrArg some (by omega))
          rw [if_pos hone, hnil]
          rfl
        · rw [if_neg hone]
          exact lanes_connectRest _
      · rw [if_neg hok, if_neg hok]
        dsimp only
        rw [if_pos hok]
        rfl
  · rw [if_neg hsdma, if_neg hsdma]
    exact lanes_connectRest _

theorem lanePairs_rcPairs : LanePairs (rcPairs reach ep peer) where
  left := nodup_rcPairs
  right := by
    refine List.Nodup.map_on (fun p hp q hq heq => Prod.ext ?_ heq) nodup_rcPairs.of_map
    exact (lexMatching_rcPairs reach ep peer).right_unique (i := p.1) (j := p.2) hp (heq ▸ hq)
  lt p hp := by
    obtain ⟨hi, hj, -⟩ := mem_rcPairs (i := p.1) (j := p.2) hp
    exact ⟨hi.trans_le ep.length_le_max, hj.trans_le peer.length_le_max⟩

theorem lanePairs_epPairs : LanePairs (epPairs reach ep peer) := by
  have hnil : LanePairs [] := ⟨List.nodup_nil, List.nodup_nil, by simp⟩
  rw [epPairs]
  split_ifs with hsdma
  · cases ha : ep.sdmaEpIdx with
    | none => exact hnil
    | some a =>
      cases hb : peer.sdmaEpIdx with
      | none => exact hnil
      | some b =>
        dsimp only
        split_ifs with hok
        · have hrc : LanePairs (rcPairs reach ep peer) := lanePairs_rcPairs
          refine ⟨List.nodup_cons.mpr ⟨fun hmem => ?_, hrc.left⟩,
            List.nodup_cons.mpr ⟨fun hmem => ?_, hrc.right⟩, fun p hp => ?_⟩
          · obtain ⟨⟨i, j⟩, hp, rfl⟩ := List.mem_map.mp hmem
            exact (mem_rcPairs hp).2.2.1 ha.symm
          · obtain ⟨⟨i, j⟩, hp, rfl⟩ := List.mem_map.mp hmem
            exact (mem_rcPairs hp).2.2.2 hb.symm
          · rcases List.mem_cons.mp hp with rfl | hp
            · exact ⟨(ep.sdma_lt a ha).trans_le ep.length_le_max,
                (peer.sdma_lt b hb).trans_le peer.length_le_max⟩
            · exact hrc.lt p hp
        · exact hnil
  · exact lanePairs_rcPairs

/-- Only one of two processes on the same machine has an SDMA lane. -/
def SdmaOneSided (ep peer : ScpEp multirails) : Prop :=
  peer.guid = ep.guid ∧ ep.sdmaEpIdx.isSome ≠ peer.sdmaEpIdx.isSome

/-- Otherwise the pairs are those of `scp_connect_rc`, with or without the SDMA lanes. -/
theorem mem_epPairs (h : ¬SdmaOneSided ep peer) : (i, j) ∈ epPairs reach ep peer ↔
    if ep.sdmaEpIdx.isSome ∧ peer.guid = ep.guid then
      ∃ a ∈ ep.sdmaEpIdx, ∃ b ∈ peer.sdmaEpIdx, scpConnectSctEp reach ep peer a b = .ok ∧
        (i = a ∧ j = b ∨ (i, j) ∈ rcPairs reach ep peer)
    else (i, j) ∈ rcPairs reach ep peer := by
  rw [epPairs]
  split_ifs with hsdma
  · obtain ⟨a, ha⟩ := Option.isSome_iff_exists.mp hsdma.1
    have hb : peer.sdmaEpIdx.isSome := by
      by_contra hnone
      exact h ⟨hsdma.2, by simp [hsdma.1, Bool.eq_false_iff.mpr hnone]⟩
    obtain ⟨b, hb⟩ := Option.isSome_iff_exists.mp hb
    rw [ha, hb]
    dsimp only
    split_ifs with hok
    · simp [hok]
    · simp [hok]
  · rfl

theorem mem_epPairs_back (h : ¬SdmaOneSided ep peer) :
    (j, i) ∈ epPairs (reachBack reach) peer ep ↔ (i, j) ∈ epPairs reach ep peer := by
  have hback : ¬SdmaOneSided peer ep := fun ⟨hguid, hne⟩ => h ⟨hguid.symm, hne.symm⟩
  rw [mem_epPairs h, mem_epPairs hback]
  have hiff : (peer.sdmaEpIdx.isSome ∧ ep.guid = peer.guid) ↔
      (ep.sdmaEpIdx.isSome ∧ peer.guid = ep.guid) := by
    constructor
    · rintro ⟨hs, hg⟩
      exact ⟨by_contra fun hn => h ⟨hg.symm, by simp [hs, Bool.eq_false_iff.mpr hn]⟩, hg.symm⟩
    · rintro ⟨hs, hg⟩
      exact ⟨by_contra fun hn => h ⟨hg, by simp [hs, Bool.eq_false_iff.mpr hn]⟩, hg.symm⟩
  simp only [hiff]
  split_ifs
  · simp only [connectSctEp_back, mem_rcPairs_back]
    constructor
    · rintro ⟨b, hb, a, ha, hok, hor⟩
      exact ⟨a, ha, b, hb, hok, hor.imp_left And.symm⟩
    · rintro ⟨a, ha, b, hb, hok, hor⟩
      exact ⟨b, hb, a, ha, hok, hor.imp_left And.symm⟩
  · exact mem_rcPairs_back

theorem lt_epPairs (h : ¬SdmaOneSided ep peer) (hp : (i, j) ∈ epPairs reach ep peer) :
    i < ep.sctEpNum ∧ j < peer.sctEpNum := by
  rw [mem_epPairs h] at hp
  have hrc (hp : (i, j) ∈ rcPairs reach ep peer) : i < ep.sctEpNum ∧ j < peer.sctEpNum :=
    ⟨(mem_rcPairs hp).1, (mem_rcPairs hp).2.1⟩
  split_ifs at hp
  · obtain ⟨a, ha, b, hb, -, ⟨rfl, rfl⟩ | hp⟩ := hp
    · exact ⟨ep.sdma_lt _ ha, peer.sdma_lt _ hb⟩
    · exact hrc hp
  · exact hrc hp

end Sides

/-! ### Symmetry -/

/-- Transfers from one process to another one, whose endpoint has `sctEpNum` lanes: the events that
    the put notifies are those that the other process has allocated and waits for, and it waits for
    the event of a lane on the lane that this one is paired with. -/
structure Transfers (source target : ScpLanes) (sctEpNum : ℕ) : Prop where
  notified : (scpPutWithNotify source).Perm ((scpEpWaitNotify target).map Prod.snd)
  lane : ∀ j e, (j, e) ∈ scpEpWaitNotify target → source.remoteLanes e = j
  allocated : ∀ e, e ∈ scpEpAllocEvent sctEpNum target ↔ e ∈ scpPutWithNotify source

/-- What the connections of two endpoints to each other are to be: they pair the same lanes, no lane
    twice, and so they have the same number of lanes and their transfers fit together. -/
structure LanesMeet {multirails : ℕ} (reach : ℕ → ℕ → Bool) (A B : ScpEp multirails)
    (lanesA lanesB : ScpLanes) : Prop where
  paired : ∀ i < scpMaxLane, ∀ j < scpMaxLane,
    lanesA.remoteLanes i = j ↔ lanesB.remoteLanes j = i
  once_left : ∀ i i' j, j < scpMaxLane → lanesA.remoteLanes i = j → lanesA.remoteLanes i' = j →
    i = i'
  once_right : ∀ j j' i, i < scpMaxLane → lanesB.remoteLanes j = i → lanesB.remoteLanes j' = i →
    j = j'
  nodup : lanesA.localLanes.Nodup ∧ lanesB.localLanes.Nodup
  connNum : lanesA.connNum = lanesB.connNum
  forth : Transfers lanesA lanesB B.sctEpNum
  back : Transfers lanesB lanesA A.sctEpNum

section Symmetry

variable {multirails : ℕ} {reach : ℕ → ℕ → Bool} {A B : ScpEp multirails}
  {ps qs : List (ℕ × ℕ)}

/-- Pairs that are each other's mirror images. -/
theorem perm_swap (hp : LanePairs ps) (hq : LanePairs qs)
    (hswap : ∀ i j, (j, i) ∈ qs ↔ (i, j) ∈ ps) : ps.Perm (qs.map Prod.swap) := by
  have hnodup : (qs.map Prod.swap).Nodup := hq.left.of_map.map Prod.swap_injective
  rw [List.perm_ext_iff_of_nodup hp.left.of_map hnodup]
  rintro ⟨i, j⟩
  rw [← hswap i j, List.mem_map]
  constructor
  · intro h
    exact ⟨(j, i), h, rfl⟩
  · rintro ⟨q, hq, heq⟩
    obtain rfl : q = (j, i) := Prod.swap_injective heq
    exact hq

theorem transfers_of_swap (hp : LanePairs ps) (hq : LanePairs qs)
    (hswap : ∀ i j, (j, i) ∈ qs ↔ (i, j) ∈ ps) {n : ℕ} (hn : ∀ q ∈ qs, q.1 < n) :
    Transfers (lanesOf ps) (lanesOf qs) n where
  notified := by
    rw [hp.putWithNotify, hq.waitNotify]
    have hperm := (perm_swap hp hq hswap).map Prod.fst
    rwa [List.map_map] at hperm
  lane j e h := by
    rw [hq.waitNotify] at h
    exact hp.remoteLanes_eq ((hswap e j).mp h)
  allocated e := by
    rw [hq.mem_allocEvent hn, hp.putWithNotify, List.mem_map, List.mem_map]
    constructor
    · rintro ⟨⟨j, i⟩, h, rfl⟩
      exact ⟨(i, j), (hswap i j).mp h, rfl⟩
    · rintro ⟨⟨i, j⟩, h, rfl⟩
      exact ⟨(j, i), (hswap i j).mpr h, rfl⟩

theorem lanesMeet_of_swap (hp : LanePairs ps) (hq : LanePairs qs)
    (hswap : ∀ i j, (j, i) ∈ qs ↔ (i, j) ∈ ps) (hA : ∀ p ∈ ps, p.1 < A.sctEpNum)
    (hB : ∀ q ∈ qs, q.1 < B.sctEpNum) : LanesMeet reach A B (lanesOf ps) (lanesOf qs) where
  paired i hi j hj := by
    rw [hp.remoteLanes_iff hj, hq.remoteLanes_iff hi, hswap i j]
  once_left i i' j hj h h' := by
    rw [hp.remoteLanes_iff hj] at h h'
    exact congrArg Prod.fst (List.inj_on_of_nodup_map hp.right h h' rfl)
  once_right j j' i hi h h' := by
    rw [hq.remoteLanes_iff hi] at h h'
    exact congrArg Prod.fst (List.inj_on_of_nodup_map hq.right h h' rfl)
  nodup := by
    rw [localLanes_lanesOf, localLanes_lanesOf]
    exact ⟨hp.left, hq.left⟩
  connNum := by
    rw [ScpLanes.connNum, ScpLanes.connNum, localLanes_lanesOf, localLanes_lanesOf,
      List.length_map, List.length_map, (perm_swap hp hq hswap).length_eq, List.length_map]
  forth := transfers_of_swap hp hq hswap hB
  back := transfers_of_swap hq hp (fun j i => (hswap i j).symm) hA

/-- Some lanes other than the SDMA lanes can reach each other. -/
def RcReachable (reach : ℕ → ℕ → Bool) (A B : ScpEp multirails) : Prop :=
  ∃ i j, some i ≠ A.sdmaEpIdx ∧ some j ≠ B.sdmaEpIdx ∧
    ∃ iface ∈ A.sctEpsRscIdx[i]?, ∃ peerIface ∈ B.sctEpsRscIdx[j]?, reach iface peerIface = true

/-- If lanes can reach each other, some are connected. -/
theorem rcPairs_eq_nil_iff : rcPairs reach A B = [] ↔ ¬RcReachable reach A B := by
  constructor
  · rintro hnil ⟨i, j, hi, hj, hreach⟩
    have hmem : (i, j) ∈ rcPairs reach A B := by
      have hok := connectSctEp_iff.mpr hreach
      obtain ⟨a, ha, b, hb, -⟩ := hreach
      refine (lexMatching_rcPairs reach A B i j).mpr ⟨⟨?_, ?_, ?_⟩, ?_, ?_⟩
      · exact List.mem_range.mpr (List.getElem?_eq_some_iff.mp ha).1
      · exact List.mem_range.mpr (List.getElem?_eq_some_iff.mp hb).1
      · exact decide_eq_true ⟨hi, hj, hok⟩
      · simp [hnil]
      · simp [hnil]
    exact absurd (hnil ▸ hmem) List.not_mem_nil
  · intro hnot
    refine List.eq_nil_iff_forall_not_mem.mpr fun p hp => hnot ⟨p.1, p.2, ?_⟩
    have hR := ((lexMatching_rcPairs reach A B).allowed (i := p.1) (j := p.2) hp).2.2
    obtain ⟨hi, hj, hok⟩ := of_decide_eq_true hR
    exact ⟨hi, hj, connectSctEp_iff.mp hok⟩

/-- The side without an SDMA lane connects what it can, and the other one nothing. -/
theorem epPairs_oneSided (h : SdmaOneSided A B) : epPairs reach A B = [] ∧
      epPairs (reachBack reach) B A = rcPairs (reachBack reach) B A ∨
    epPairs reach A B = rcPairs reach A B ∧ epPairs (reachBack reach) B A = [] := by
  obtain ⟨hguid, hne⟩ := h
  rw [epPairs, epPairs]
  cases hA : A.sdmaEpIdx <;> cases hB : B.sdmaEpIdx
  · simp [hA, hB] at hne
  · exact Or.inr ⟨by simp, by simp [hguid]⟩
  · exact Or.inl ⟨by simp [hguid], by simp⟩
  · simp [hA, hB] at hne

/-- Two endpoints that connect to each other pair the same lanes if and only if both or none of them
    have an SDMA lane, or they are on different machines, or no other lanes can reach each other. -/
theorem lanes_iff (reach : ℕ → ℕ → Bool) (A B : ScpEp multirails) :
    LanesMeet reach A B (scpConnectEpInner reach A B).1
        (scpConnectEpInner (reachBack reach) B A).1 ↔
      ¬(SdmaOneSided A B ∧ RcReachable reach A B) := by
  have hrc : rcPairs (reachBack reach) B A = [] ↔ rcPairs reach A B = [] := by
    constructor <;> intro hnil <;> refine List.eq_nil_iff_forall_not_mem.mpr fun p hp => ?_
    · exact absurd (hnil ▸ mem_rcPairs_back.mpr hp) List.not_mem_nil
    · exact absurd (hnil ▸ mem_rcPairs_back.mp hp) List.not_mem_nil
  rw [lanes_connectEpInner, lanes_connectEpInner]
  constructor
  · rintro h ⟨hone, hreach⟩
    have hnum := h.connNum
    rw [ScpLanes.connNum, ScpLanes.connNum, localLanes_lanesOf, localLanes_lanesOf,
      List.length_map, List.length_map] at hnum
    refine absurd hreach (rcPairs_eq_nil_iff.mp ?_)
    rcases epPairs_oneSided hone with ⟨hA, hB⟩ | ⟨hA, hB⟩ <;> rw [hA, hB] at hnum
    · exact hrc.mp (List.eq_nil_of_length_eq_zero hnum.symm)
    · exact List.eq_nil_of_length_eq_zero hnum
  · intro hcond
    by_cases hone : SdmaOneSided A B
    · -- nothing can be connected
      have hnil := rcPairs_eq_nil_iff.mpr fun hreach => hcond ⟨hone, hreach⟩
      have hempty : epPairs reach A B = [] ∧ epPairs (reachBack reach) B A = [] := by
        rcases epPairs_oneSided hone with ⟨hA, hB⟩ | ⟨hA, hB⟩
        · exact ⟨hA, hB.trans (hrc.mpr hnil)⟩
        · exact ⟨hA.trans hnil, hB⟩
      rw [hempty.1, hempty.2]
      have hpairs : LanePairs [] := ⟨List.nodup_nil, List.nodup_nil, by simp⟩
      exact lanesMeet_of_swap hpairs hpairs (by simp) (by simp) (by simp)
    · refine lanesMeet_of_swap lanePairs_epPairs lanePairs_epPairs
        (fun i j => mem_epPairs_back hone) (fun p hp => (lt_epPairs hone hp).1) fun q hq => ?_
      exact (lt_epPairs hone ((mem_epPairs_back hone).mp hq)).2

end Symmetry

/-! Two processes on one machine with at most two rails: one has an SDMA and an RC interface, the
    other one an RC interface only. -/

/-- The endpoint of a worker with these interfaces. -/
def twoRails (ifaces : List ScpIface) : Option (ScpEp 2) :=
  scpEpCreateInner (by decide) ifaces false (fun _ => true) 5

theorem lanes_oneSided : ∃ A B : ScpEp 2,
    twoRails [⟨0, true, false⟩, ⟨1, false, true⟩] = some A ∧ twoRails [⟨0, false, true⟩] = some B ∧
    scpConnectEpInner (fun _ _ => true) A B = (ScpLanes.init, .errUnsupported) ∧
    (scpConnectEpInner (reachBack fun _ _ => true) B A).1.localLanes = [0] ∧
    ¬LanesMeet (fun _ _ => true) A B (scpConnectEpInner (fun _ _ => true) A B).1
      (scpConnectEpInner (reachBack fun _ _ => true) B A).1 := by
  refine ⟨_, _, rfl, rfl, rfl, rfl, fun h => ?_⟩
  have hnum := h.connNum
  revert hnum
  decide

end Kucg.Stars
