import Kucg.Stars.Lanes
import Kucg.Stars.SelectIfaces

/-! The maximum number of rails (`scp_context.h`, `scp_ep.c`, `scp_worker.c`).

    The number is read in four places. The number of lanes is clamped, and then set to the
    configured number all the same. The interfaces are cut to that number by their latency, before
    it is known which peers are on the same node; so that no interface may be left that is usable
    between nodes. The lanes of an endpoint are all those interfaces, whatever the number of lanes,
    in arrays of nine. `railsOk_iff` says when nothing of this matters. -/

namespace Kucg.Stars

open Kucg.Lib SelectIfaces

namespace Rails

/-- The transport of a resource, as `scp_context_is_rsc_match` tells them apart. -/
inductive Tl where
  | sdma
  | rc
  | other
  deriving DecidableEq

/-! ### The number of lanes -/

/-- What `scp_enable_multi_rail` assigns to `lane_num` for a message that is not below the
threshold: a number in range, and then the configured one. -/
def laneNums (multirails : ℕ) : List ℕ :=
  (if multirails = 0 then [1] else if scpMaxLane < multirails then [scpMaxLane] else []) ++
    [multirails]

/-- `scp_enable_multi_rail`: the `lane_num` that it leaves. -/
def scpEnableMultiRail (multirails threshold sendSize : ℕ) : ℕ :=
  if sendSize < threshold then 1 else (laneNums multirails).getLastD 0

/-- The number of lanes that is meant. -/
def effectiveLanes (multirails threshold sendSize : ℕ) : ℕ :=
  if sendSize < threshold then 1 else max 1 (min multirails scpMaxLane)

theorem scpEnableMultiRail_iff {multirails threshold sendSize : ℕ} :
    scpEnableMultiRail multirails threshold sendSize =
      effectiveLanes multirails threshold sendSize ↔
        sendSize < threshold ∨ 1 ≤ multirails ∧ multirails ≤ scpMaxLane := by
  rw [scpEnableMultiRail, effectiveLanes, laneNums, List.getLastD_concat]
  split_ifs with h
  · simp [h]
  · simp only [scpMaxLane]
    omega

/-! ### Creating an endpoint -/

/-- What `scp_select_lanes` and `scp_ep_create_inner` see of an interface. -/
def scpIface (tl : ℕ → Tl) (iface : Iface) : ScpIface where
  rscIndex := iface.rscIndex
  isSdma := tl iface.rscIndex = .sdma
  isRc := tl iface.rscIndex = .rc

/-- The loop of `scp_select_lanes`: the entries of `ifaces_idxs`, their count and the resource of
the SDMA interface; `none` when an entry behind the array is written. -/
def selectLanes (multirails : ℕ) (interNode : Bool) : List ScpIface → ℕ → List ℕ → Option ℕ →
    Option ((List ℕ × ℕ) × Option ℕ)
  | [], _, ifacesIdxs, sdmaRscIdx => some ((ifacesIdxs, ifacesIdxs.length), sdmaRscIdx)
  | iface :: ifaces, idx, ifacesIdxs, sdmaRscIdx =>
    let matchSdma := iface.isSdma && !interNode
    let sdmaRscIdx := if matchSdma then some iface.rscIndex else sdmaRscIdx
    if matchSdma || iface.isRc then
      if scpMaxLane ≤ ifacesIdxs.length then none
      else if multirails ≤ ifacesIdxs.length + 1 then
        some ((ifacesIdxs ++ [idx], multirails), sdmaRscIdx)
      else selectLanes multirails interNode ifaces (idx + 1) (ifacesIdxs ++ [idx]) sdmaRscIdx
    else selectLanes multirails interNode ifaces (idx + 1) ifacesIdxs sdmaRscIdx

/-- `scp_ep_create_inner`, where `created` says for which interfaces `sct_ep_create` succeeds: the
interfaces of the lanes and the SDMA lane. The inner `none` is an error. -/
def createInner (multirails : ℕ) (interNode : Bool) (ifaces : List ScpIface) (created : ℕ → Bool) :
    Option (Option (List ℕ × Option ℕ)) := do
  let ((ifacesIdxs, ifaceCnt), sdmaRscIdx) ← selectLanes multirails interNode ifaces 0 [] none
  let lanes := scpCreateLanes ifaces sdmaRscIdx created (ifacesIdxs.take ifaceCnt) [] none
  some (if lanes.1 = [] then none else some lanes)

/-- The interface may get a lane. -/
def Usable (interNode : Bool) (iface : ScpIface) : Bool :=
  (iface.isSdma && !interNode) || iface.isRc

/-- How many may. -/
def usable (interNode : Bool) (ifaces : List ScpIface) : ℕ :=
  (ifaces.filter (Usable interNode)).length

theorem usable_cons_of_pos {interNode : Bool} {iface : ScpIface} {ifaces : List ScpIface}
    (h : Usable interNode iface = true) :
    usable interNode (iface :: ifaces) = usable interNode ifaces + 1 := by
  rw [usable, List.filter_cons_of_pos h, List.length_cons, usable]

theorem usable_cons_of_neg {interNode : Bool} {iface : ScpIface} {ifaces : List ScpIface}
    (h : ¬Usable interNode iface = true) :
    usable interNode (iface :: ifaces) = usable interNode ifaces := by
  rw [usable, List.filter_cons_of_neg h, usable]

/-- The interfaces from `idx` on that may get a lane. -/
def usableFrom (interNode : Bool) (ifaces : List ScpIface) (idx : ℕ) : List ℕ :=
  ((ifaces.zipIdx idx).filter fun x => Usable interNode x.1).map Prod.snd

theorem usableFrom_cons_of_pos {interNode : Bool} {iface : ScpIface} {ifaces : List ScpIface}
    {idx : ℕ}
    (h : Usable interNode iface = true) : usableFrom interNode (iface :: ifaces) idx =
      idx :: usableFrom interNode ifaces (idx + 1) := by
  rw [usableFrom, List.zipIdx_cons, List.filter_cons, if_pos h, List.map_cons, usableFrom]

theorem usableFrom_cons_of_neg {interNode : Bool} {iface : ScpIface} {ifaces : List ScpIface}
    {idx : ℕ}
    (h : ¬Usable interNode iface = true) : usableFrom interNode (iface :: ifaces) idx =
      usableFrom interNode ifaces (idx + 1) := by
  rw [usableFrom, List.zipIdx_cons, List.filter_cons, if_neg h, usableFrom]

theorem length_usableFrom {interNode : Bool} : ∀ {ifaces : List ScpIface} {idx : ℕ},
    (usableFrom interNode ifaces idx).length = usable interNode ifaces
  | [], _ => rfl
  | iface :: ifaces, idx => by
    by_cases huse : Usable interNode iface = true
    · rw [usableFrom_cons_of_pos huse, List.length_cons, length_usableFrom, usable_cons_of_pos huse]
    · rw [usableFrom_cons_of_neg huse, length_usableFrom, usable_cons_of_neg huse]

/-- The first of them are selected, unless they are too many for the array. -/
theorem selectLanes_take (multirails : ℕ) (interNode : Bool) : ∀ (ifaces : List ScpIface) (idx : ℕ)
    (ifacesIdxs : List ℕ) (sdmaRscIdx : Option ℕ),
    ifacesIdxs.length < max 1 multirails → ifacesIdxs.length ≤ scpMaxLane →
    (scpMaxLane < min (ifacesIdxs.length + usable interNode ifaces) multirails →
      selectLanes multirails interNode ifaces idx ifacesIdxs sdmaRscIdx = none) ∧
    (min (ifacesIdxs.length + usable interNode ifaces) multirails ≤ scpMaxLane →
      ∃ sel, selectLanes multirails interNode ifaces idx ifacesIdxs sdmaRscIdx = some sel ∧
        sel.1.1.take sel.1.2 = (ifacesIdxs ++ usableFrom interNode ifaces idx).take multirails)
  | [], idx, ifacesIdxs, sdmaRscIdx, hlt, hle => by
    have husable : usable interNode [] = 0 := rfl
    have hnil : usableFrom interNode [] idx = [] := rfl
    rw [husable, hnil, List.append_nil]
    refine ⟨fun h => by omega, fun _ => ⟨_, rfl, ?_⟩⟩
    rw [List.take_length]
    rcases Nat.eq_zero_or_pos multirails with rfl | hpos
    · rw [List.eq_nil_of_length_eq_zero (show ifacesIdxs.length = 0 by omega), List.take_nil]
    · rw [List.take_of_length_le (by omega)]
  | iface :: ifaces, idx, ifacesIdxs, sdmaRscIdx, hlt, hle => by
    rw [selectLanes]
    by_cases huse : Usable interNode iface = true
    · have hfrom : ifacesIdxs ++ usableFrom interNode (iface :: ifaces) idx =
          (ifacesIdxs ++ [idx]) ++ usableFrom interNode ifaces (idx + 1) := by
        rw [usableFrom_cons_of_pos huse, List.append_cons]
      have hlen : (ifacesIdxs ++ [idx]).length = ifacesIdxs.length + 1 := by
        rw [List.length_append, List.length_singleton]
      have htest : (iface.isSdma && !interNode || iface.isRc) = true := huse
      rw [usable_cons_of_pos huse, hfrom, if_pos htest]
      by_cases hfull : scpMaxLane ≤ ifacesIdxs.length
      · rw [if_pos hfull]
        refine ⟨fun _ => rfl, fun h => ?_⟩
        rw [scpMaxLane] at hfull h hle
        omega
      · rw [if_neg hfull]
        by_cases hlast : multirails ≤ ifacesIdxs.length + 1
        · rw [if_pos hlast]
          refine ⟨fun h => by omega, fun _ => ⟨_, rfl, ?_⟩⟩
          exact (List.take_append_of_le_length (by rw [hlen]; exact hlast)).symm
        · rw [if_neg hlast]
          have ih := selectLanes_take multirails interNode ifaces (idx + 1) (ifacesIdxs ++ [idx])
            (if (iface.isSdma && !interNode) = true then some iface.rscIndex else sdmaRscIdx)
            (by omega) (by omega)
          rwa [hlen, Nat.add_assoc, Nat.add_comm 1] at ih
    · have htest : ¬(iface.isSdma && !interNode || iface.isRc) = true := huse
      rw [usable_cons_of_neg huse, usableFrom_cons_of_neg huse, if_neg htest]
      exact selectLanes_take multirails interNode ifaces (idx + 1) ifacesIdxs _ hlt hle

/-- The lanes are those of the interfaces that can be created. -/
theorem lanes_createLanes {ifaces : List ScpIface} {sdmaRscIdx : Option ℕ} {created : ℕ → Bool} :
    ∀ {idxs lanes : List ℕ} {sdmaEpIdx : Option ℕ},
      (scpCreateLanes ifaces sdmaRscIdx created idxs lanes sdmaEpIdx).1 =
        lanes ++ idxs.filter created
  | [], lanes, _ => (List.append_nil lanes).symm
  | idx :: idxs, lanes, sdmaEpIdx => by
    rw [scpCreateLanes]
    by_cases hidx : created idx = true
    · rw [if_pos hidx, lanes_createLanes, List.filter_cons_of_pos hidx, ← List.append_cons]
    · rw [if_neg hidx, lanes_createLanes, List.filter_cons_of_neg hidx]

/-- An endpoint gets a lane for each of the first usable interfaces that can be created, unless they
are too many for the array. -/
theorem createInner_take (multirails : ℕ) (interNode : Bool) (ifaces : List ScpIface)
    (created : ℕ → Bool) :
    (scpMaxLane < min (usable interNode ifaces) multirails →
      createInner multirails interNode ifaces created = none) ∧
    (min (usable interNode ifaces) multirails ≤ scpMaxLane →
      ∃ lanes, lanes.1 = ((usableFrom interNode ifaces 0).take multirails).filter created ∧
        createInner multirails interNode ifaces created =
          some (if lanes.1 = [] then none else some lanes)) := by
  have h := selectLanes_take multirails interNode ifaces 0 [] none
    (by rw [List.length_nil]; omega) (Nat.zero_le _)
  rw [List.length_nil, Nat.zero_add, List.nil_append] at h
  refine ⟨fun hfull => ?_, fun hroom => ?_⟩
  · rw [createInner, h.1 hfull]
    rfl
  · obtain ⟨⟨⟨idxs, cnt⟩, sdma⟩, hselect, htake⟩ := h.2 hroom
    refine ⟨scpCreateLanes ifaces sdma created (idxs.take cnt) [] none, ?_, ?_⟩
    · rw [lanes_createLanes, List.nil_append]
      exact congrArg _ htake
    · rw [createInner, hselect]
      rfl

/-- Endpoints of a worker with no more interfaces than rails: the arrays have room for all of their
lanes or not; if they have, there are at most as many lanes as usable interfaces, and as many if all
of them can be created. -/
theorem createInner_cases {multirails : ℕ} {ifaces : List ScpIface}
    (hrails : ifaces.length ≤ multirails) (interNode : Bool) :
    (scpMaxLane < usable interNode ifaces → ∀ created,
      createInner multirails interNode ifaces created = none) ∧
    (usable interNode ifaces ≤ scpMaxLane → ∀ created,
      ∃ lanes : List ℕ × Option ℕ, lanes.1.length ≤ usable interNode ifaces ∧
        ((∀ idx, created idx = true) → lanes.1.length = usable interNode ifaces) ∧
        createInner multirails interNode ifaces created =
          some (if lanes.1 = [] then none else some lanes)) := by
  have husable : usable interNode ifaces ≤ multirails := (List.length_filter_le _ _).trans hrails
  have hmin : min (usable interNode ifaces) multirails = usable interNode ifaces := by omega
  have hlen : (usableFrom interNode ifaces 0).length = usable interNode ifaces := length_usableFrom
  have htake : (usableFrom interNode ifaces 0).take multirails = usableFrom interNode ifaces 0 :=
    List.take_of_length_le (by omega)
  refine ⟨fun hfull created => ?_, fun hroom created => ?_⟩
  · exact (createInner_take multirails interNode ifaces created).1 (by omega)
  · obtain ⟨lanes, hlanes, hinner⟩ :=
      (createInner_take multirails interNode ifaces created).2 (by omega)
    rw [htake] at hlanes
    refine ⟨lanes, ?_, fun hall => ?_, hinner⟩
    · rw [hlanes, ← hlen]
      exact List.length_filter_le _ _
    · rw [hlanes, List.filter_eq_self.mpr fun idx _ => hall idx, hlen]

/-! ### The interfaces that are kept -/

/-- The first interfaces by their latency, those that were opened first among equals. -/
def fastest (multirails : ℕ) (ifaces : List Iface) : List Iface :=
  (ifaces.mergeSort fun x y => decide (x.latency ≤ y.latency)).take multirails

/-- The same by exchanging neighbours, which can be run. -/
theorem fastest_eq (multirails : ℕ) (ifaces : List Iface) : fastest multirails ifaces =
    (bubbleSort (keyGt Iface.latency) ifaces.length ifaces).take multirails := by
  rw [fastest, bubbleSort_eq_mergeSort]

section Kept

variable {Md : Type} [Inhabited Md] {subnetId : Md → ℕ} {context context' : Context Md}
  {ifaces kept : List Iface}

theorem scpWorkerCmpIface_eq : scpWorkerCmpIface = keyGt Iface.latency := by
  funext x y
  rw [scpWorkerCmpIface, keyGt, ← decide_not]
  exact decide_eq_decide.mpr not_le

/-- The interfaces that are kept are the fastest, in another order. -/
theorem kept_perm (h : scpWorkerSelectIfaces subnetId context ifaces = some (context', kept)) :
    kept.Perm (fastest context.multirails ifaces) := by
  have hnum : (if context.multirails ≤ ifaces.length then context.multirails else ifaces.length) =
      min context.multirails ifaces.length := by
    rw [Nat.min_def]
  have hlen : (ifaces.mergeSort fun x y => decide (x.latency ≤ y.latency)).length = ifaces.length :=
    List.length_mergeSort ..
  simp only [scpWorkerSelectIfaces, hnum, Option.bind_eq_bind, Option.bind_eq_some_iff,
    Option.some.injEq, Prod.mk.injEq, scpWorkerCmpIface_eq, bubbleSort_eq_mergeSort] at h
  obtain ⟨-, -, -, -, -, rfl⟩ := h
  obtain ⟨front, heq, hperm, -⟩ := bubbleSort_eq
    (fun iface => subnetId (context.tlMds.getD (context.mdIndex iface.rscIndex) default))
    (n := min context.multirails ifaces.length)
    (l := ifaces.mergeSort fun x y => decide (x.latency ≤ y.latency)) (by omega)
  have hfront : front.length = min context.multirails ifaces.length := by
    rw [hperm.length_eq, List.length_take, hlen]
    omega
  have hsort : bubbleSort (scpWorkerCmpMdSubnet subnetId context)
      (min context.multirails ifaces.length)
      (ifaces.mergeSort fun x y => decide (x.latency ≤ y.latency)) = front ++ _ := heq
  rw [hsort, List.take_left' hfront, fastest]
  refine hperm.trans (.of_eq ?_)
  rw [Nat.min_comm, ← hlen, ← List.take_take]
  exact List.take_of_length_le (List.length_take_le' _ _)

end Kept

/-! ### All four places -/

/-- The interfaces that are kept, as the endpoints see them. -/
def scpIfaces (tl : ℕ → Tl) (kept : List Iface) : List ScpIface := kept.map (scpIface tl)

/-- The limit is kept: the number of lanes is in range; each endpoint gets its lanes within the
arrays, at least one and no more than that number, and connects them within the arrays; and between
nodes it gets one if an interface for this was opened. -/
structure RailsOk (multirails threshold sendSize : ℕ) (tl : ℕ → Tl) (ifaces kept : List Iface) :
    Prop where
  laneNum : scpEnableMultiRail multirails threshold sendSize =
    effectiveLanes multirails threshold sendSize
  inside : ∀ interNode created,
    ∃ res, createInner multirails interNode (scpIfaces tl kept) created = some res
  lanes : ∀ interNode created lanes,
    createInner multirails interNode (scpIfaces tl kept) created = some (some lanes) →
      1 ≤ lanes.1.length ∧ lanes.1.length ≤ effectiveLanes multirails threshold sendSize
  connects : ∀ (reach : ℕ → ℕ → Bool) (self peer : ScpEp multirails),
    (scpConnectEpInner reach self peer).1.connNum ≤ scpMaxLane ∧
      ∀ src ∈ (scpConnectEpInner reach self peer).1.localLanes, src < scpMaxLane
  interNode : (∃ iface ∈ ifaces, tl iface.rscIndex = .rc) → ∃ lanes,
    createInner multirails true (scpIfaces tl kept) (fun _ => true) = some (some lanes)

/-- The condition: the configured number is in range, or the message is small; the fastest
interfaces are not too many for the arrays, and for a small message not too many for one lane; and
among them is one that is usable between nodes, if there is one at all. -/
structure RailsFit (multirails threshold sendSize : ℕ) (tl : ℕ → Tl) (ifaces : List Iface) :
    Prop where
  range : sendSize < threshold ∨ 1 ≤ multirails ∧ multirails ≤ scpMaxLane
  room : ((fastest multirails ifaces).filter fun i => tl i.rscIndex ≠ .other).length ≤ scpMaxLane
  single : sendSize < threshold →
    ((fastest multirails ifaces).filter fun i => tl i.rscIndex ≠ .other).length ≤ 1
  interNode : (∃ iface ∈ ifaces, tl iface.rscIndex = .rc) →
    ∃ iface ∈ fastest multirails ifaces, tl iface.rscIndex = .rc

section Main

variable {multirails : ℕ} {tl : ℕ → Tl} {ifaces kept : List Iface}

/-- The lanes stay within the arrays when they are connected. -/
theorem connects (reach : ℕ → ℕ → Bool) (self peer : ScpEp multirails) :
    (scpConnectEpInner reach self peer).1.connNum ≤ scpMaxLane ∧
      ∀ src ∈ (scpConnectEpInner reach self peer).1.localLanes, src < scpMaxLane := by
  have hpairs : LanePairs (epPairs reach self peer) := lanePairs_epPairs
  rw [ScpLanes.connNum, lanes_connectEpInner, localLanes_lanesOf]
  have hlt : ∀ src ∈ (epPairs reach self peer).map Prod.fst, src < scpMaxLane := by
    intro src hsrc
    obtain ⟨p, hp, rfl⟩ := List.mem_map.mp hsrc
    exact (hpairs.lt p hp).1
  refine ⟨?_, hlt⟩
  have hsub := hpairs.left.subperm fun src hsrc => List.mem_range.mpr (hlt src hsrc)
  exact hsub.length_le.trans_eq (List.length_range ..)

/-- On one node both transports get a lane. -/
theorem usable_intra : usable false (scpIfaces tl kept) =
    (kept.filter fun i => tl i.rscIndex ≠ .other).length := by
  rw [usable, scpIfaces, List.filter_map, List.length_map]
  congr 1
  refine List.filter_congr fun iface _ => ?_
  simp only [Function.comp_apply, Usable, scpIface, Bool.not_false, Bool.and_true]
  cases tl iface.rscIndex <;> decide

variable (tl kept) in
theorem usable_inter_le : usable true (scpIfaces tl kept) ≤ usable false (scpIfaces tl kept) := by
  refine (List.monotone_filter_right _ fun iface huse => ?_).length_le
  simp only [Usable, Bool.not_true, Bool.and_false, Bool.false_or] at huse
  simp [Usable, huse]

/-- Between nodes one of them does. -/
theorem usable_inter_pos : 0 < usable true (scpIfaces tl kept) ↔
    ∃ iface ∈ kept, tl iface.rscIndex = .rc := by
  rw [usable, List.length_pos_iff_exists_mem]
  simp only [List.mem_filter, scpIfaces, List.mem_map, Usable, Bool.not_true, Bool.and_false,
    Bool.false_or]
  constructor
  · rintro ⟨_, ⟨iface, hi, rfl⟩, hrc⟩
    exact ⟨iface, hi, of_decide_eq_true hrc⟩
  · rintro ⟨iface, hi, hrc⟩
    exact ⟨_, ⟨iface, hi, rfl⟩, decide_eq_true hrc⟩

end Main

variable {Md : Type} [Inhabited Md] {subnetId : Md → ℕ} {context context' : Context Md}
  {ifaces kept : List Iface} {threshold sendSize : ℕ} {tl : ℕ → Tl}

/-- The limit of a worker that could be created is kept in all four places exactly in these
cases. -/
theorem railsOk_iff (h : scpWorkerSelectIfaces subnetId context ifaces = some (context', kept)) :
    RailsOk context.multirails threshold sendSize tl ifaces kept ↔
      RailsFit context.multirails threshold sendSize tl ifaces := by
  have hkept := kept_perm h
  have hlen : (scpIfaces tl kept).length ≤ context.multirails := by
    rw [scpIfaces, List.length_map, hkept.length_eq, fastest]
    exact List.length_take_le _ _
  have hcount :
    ((fastest context.multirails ifaces).filter fun i => tl i.rscIndex ≠ .other).length =
      usable false (scpIfaces tl kept) := by
    rw [usable_intra]
    exact (hkept.symm.filter _).length_eq
  have hrc : (∃ iface ∈ fastest context.multirails ifaces, tl iface.rscIndex = .rc) ↔
      0 < usable true (scpIfaces tl kept) := by
    rw [usable_inter_pos]
    exact ⟨fun ⟨i, hi, hrc⟩ => ⟨i, hkept.symm.subset hi, hrc⟩,
      fun ⟨i, hi, hrc⟩ => ⟨i, hkept.subset hi, hrc⟩⟩
  have hle := usable_inter_le tl kept
  have hcases (interNode : Bool) := createInner_cases hlen interNode
  constructor
  · intro hok
    have hroom : usable false (scpIfaces tl kept) ≤ scpMaxLane := by
      by_contra hfull
      obtain ⟨res, hres⟩ := hok.inside false fun _ => true
      rw [(hcases false).1 (by omega)] at hres
      cases hres
    refine ⟨scpEnableMultiRail_iff.mp hok.laneNum, hcount ▸ hroom, fun hsmall => ?_, fun hopened =>
      ?_⟩
    · rw [hcount]
      by_contra hmany
      obtain ⟨lanes, -, hall, heq⟩ := (hcases false).2 hroom fun _ => true
      have hlanes := hall fun _ => rfl
      have hne : lanes.1 ≠ [] := fun hnil => by
        rw [hnil, List.length_nil] at hlanes
        omega
      rw [if_neg hne] at heq
      have hbound := (hok.lanes false _ lanes heq).2
      rw [effectiveLanes, if_pos hsmall] at hbound
      omega
    · rw [hrc]
      obtain ⟨lanes, hlanes⟩ := hok.interNode hopened
      by_contra hnone
      obtain ⟨lanes', hbound, -, heq⟩ := (hcases true).2 (by omega) fun _ => true
      have hnil : lanes'.1 = [] := List.eq_nil_of_length_eq_zero (by omega)
      rw [heq, if_pos hnil] at hlanes
      cases hlanes
  · intro hfit
    have hroom : usable false (scpIfaces tl kept) ≤ scpMaxLane := hcount ▸ hfit.room
    have hroom' (interNode : Bool) : usable interNode (scpIfaces tl kept) ≤ scpMaxLane := by
      cases interNode <;> omega
    refine ⟨scpEnableMultiRail_iff.mpr hfit.range, fun interNode created => ?_,
      fun interNode created lanes hlanes => ?_, connects, fun hopened => ?_⟩
    · obtain ⟨lanes, -, -, heq⟩ := (hcases interNode).2 (hroom' interNode) created
      exact ⟨_, heq⟩
    · obtain ⟨lanes', hbound, -, heq⟩ := (hcases interNode).2 (hroom' interNode) created
      rw [heq] at hlanes
      split_ifs at hlanes with hnil
      · cases hlanes
      · obtain rfl := Option.some.inj (Option.some.inj hlanes)
        refine ⟨List.length_pos_iff.mpr hnil, ?_⟩
        have hall : lanes'.1.length ≤ usable false (scpIfaces tl kept) := by
          cases interNode <;> omega
        rw [effectiveLanes]
        split_ifs with hsmall
        · have := hfit.single hsmall
          omega
        · rcases hfit.range with hlt | ⟨hpos, hmax⟩
          · exact absurd hlt hsmall
          · have hfilter : usable false (scpIfaces tl kept) ≤ (scpIfaces tl kept).length :=
              List.length_filter_le ..
            omega
    · have hpos := hrc.mp (hfit.interNode hopened)
      obtain ⟨lanes, -, hall, heq⟩ := (hcases true).2 (hroom' true) fun _ => true
      have hlanes := hall fun _ => rfl
      have hne : lanes.1 ≠ [] := fun hnil => by
        rw [hnil, List.length_nil] at hlanes
        omega
      rw [if_neg hne] at heq
      exact ⟨lanes, heq⟩

/-- Two rails, a slow interface for shared memory and a fast one for other nodes. -/
theorem railsOk_two : ∃ context' kept,
    scpWorkerSelectIfaces id ⟨[70, 60], id, 0b11, 2⟩ [⟨0, 2⟩, ⟨1, 1⟩] = some (context', kept) ∧
      RailsOk 2 100 200 (fun r => if r = 0 then .sdma else .rc) [⟨0, 2⟩, ⟨1, 1⟩] kept := by
  have hselect : scpWorkerSelectIfaces id ⟨[70, 60], id, 0b11, 2⟩ [⟨0, 2⟩, ⟨1, 1⟩] = some (_, _) :=
    rfl
  refine ⟨_, _, hselect, (railsOk_iff hselect).mpr ?_⟩
  refine ⟨by decide, ?_, by decide, fun _ => ?_⟩
  · rw [fastest_eq]
    decide
  · rw [fastest_eq]
    exact ⟨⟨1, 1⟩, by decide⟩

/-- No rails: no lane, and no endpoint between nodes. -/
theorem not_railsOk_zero : ∃ context' kept,
    scpWorkerSelectIfaces id ⟨[70], id, 0b1, 0⟩ [⟨0, 1⟩] = some (context', kept) ∧
      ¬RailsOk 0 100 200 (fun _ => .rc) [⟨0, 1⟩] kept := by
  refine ⟨_, _, rfl, fun hok => ?_⟩
  have hnum := hok.laneNum
  revert hnum
  decide

end Rails

end Kucg.Stars
