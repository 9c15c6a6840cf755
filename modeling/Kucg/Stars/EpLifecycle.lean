import Kucg.Lib.Acquire
import Kucg.Lib.Run
import Kucg.Stars.Rails

/-! The life of an endpoint: created, connected and destroyed (`scp_ep.c`).

    An endpoint and its two address buffers come from pools of the worker. The buffers go back when
    the endpoint is connected, or else when it is destroyed. Three things are wrong: a creation that
    fails leaves the worker locked; the buffer of the peer's address is lost when an endpoint that
    is not connected is destroyed, because the other pointer is tested for it; and an endpoint with
    an SDMA lane whose peer is on another machine connects successfully without any lane.
    `balanced_iff_fineRun` says that a run without these keeps everything in balance, and that each
    of them breaks it. -/

namespace Kucg.Stars

open Kucg.Core Kucg.Lib Rails

namespace EpLifecycle

/-- The objects that a worker takes from its pools, named by the endpoint that they are for. -/
inductive PoolObj where
  | ep (id : ℕ)
  | selfAddr (id : ℕ)
  | peerAddr (id : ℕ)
  deriving DecidableEq

/-- The allocations of `scp_ep_create_base`. -/
inductive Alloc where
  | ep
  | selfAddr
  | peerAddr
  deriving DecidableEq

/-- `scp_ep_state_t`. -/
inductive EpState where
  | inited
  | connected
  | broken
  deriving DecidableEq

/-- `scp_ep_t`: its address buffers (`none` is `NULL`), its state, the interfaces of its lanes, the
SDMA lane (`none` is `UINT8_MAX`) and the lanes that are connected. -/
structure Ep where
  selfAddr : Option PoolObj
  peerAddr : Option PoolObj
  epState : EpState
  sctEpsRscIdx : List ℕ
  sdmaEpIdx : Option ℕ
  lanes : ScpLanes

/-- `sct_ep_num`. -/
def Ep.sctEpNum (ep : Ep) : ℕ := ep.sctEpsRscIdx.length

/-- `scp_ep_is_connected`. -/
def scpEpIsConnected (ep : Ep) : Bool := ep.epState = .connected

/-- The test of `ucg_planc_stars_channel_connect` for an endpoint that is connected already. -/
def skipsConnect (ep : Ep) : Bool := 0 < ep.lanes.connNum

/-- What the endpoints of a worker share: the maximum number of rails, the opened interfaces and the
id of the machine. -/
structure Config where
  multirails : ℕ
  ifaces : List ScpIface
  guid : ℕ

/-! ### Creating and destroying -/

/-- `ucg_mpool_put`. -/
def ucgMpoolPut : Option PoolObj → Acquire Alloc PoolObj Unit
  | none => Acquire.crash
  | some obj => Acquire.give obj

/-- `scp_ep_create_base`, where `fails` says which allocations fail. -/
def scpEpCreateBase (fails : Alloc → Bool) (id : ℕ) : Acquire Alloc PoolObj Ep := do
  Acquire.call fails .ep
  Acquire.take (.ep id)
  Acquire.onFail (do
      Acquire.call fails .selfAddr
      Acquire.take (.selfAddr id)
      Acquire.onFail (do
          Acquire.call fails .peerAddr
          Acquire.take (.peerAddr id))
        (Acquire.give (.selfAddr id)))
    (Acquire.give (.ep id))
  pure ⟨some (.selfAddr id), some (.peerAddr id), .inited, [], none, .init⟩

/-- `scp_ep_destory_base`: the second test is of `self_addr` again. -/
def scpEpDestoryBase (id : ℕ) (ep : Ep) : Acquire Alloc PoolObj Unit := do
  Acquire.skipIf (ep.selfAddr = none) (ucgMpoolPut ep.selfAddr)
  let ep := { ep with selfAddr := none }
  Acquire.skipIf (ep.selfAddr = none) (ucgMpoolPut ep.peerAddr)
  ucgMpoolPut (some (.ep id))

/-- `scp_worker_t`: its lock, the objects taken from its pools, and its endpoints. -/
structure Worker where
  async : Bool
  pool : Holdings PoolObj
  eps : ℕ → Option Ep
  next : ℕ

/-- What a creation meets: which allocations fail, for which interfaces `sct_ep_create` succeeds. -/
structure CreateArgs where
  interNode : Bool
  fails : Alloc → Bool
  created : ℕ → Bool

/-- `scp_ep_create`. It does not return (`none`) when the lock is held, and when the lanes do not
fit in their array. -/
def scpEpCreate (cfg : Config) (args : CreateArgs) (worker : Worker) : Option Worker :=
  if worker.async then none
  else
    match scpEpCreateBase args.fails worker.next worker.pool with
    | (.done ep, pool) =>
      match createInner cfg.multirails args.interNode cfg.ifaces args.created with
      | none => none
      | some none =>
        some { worker with async := true, pool := (scpEpDestoryBase worker.next ep pool).2 }
      | some (some (sctEpsRscIdx, sdmaEpIdx)) =>
        let ep := { ep with sctEpsRscIdx, sdmaEpIdx }
        some ⟨false, pool, Function.update worker.eps worker.next (some ep), worker.next + 1⟩
    | (_, pool) => some { worker with async := true, pool }

/-- `scp_ep_destroy`. -/
def scpEpDestroy (id : ℕ) (ep : Ep) (worker : Worker) : Worker :=
  { worker with
    pool := (scpEpDestoryBase id ep worker.pool).2
    eps := Function.update worker.eps id none }

/-! ### Connecting -/

/-- The unpacked address of the peer's endpoint. -/
structure PeerEp where
  numEpAddrs : ℕ
  sdmaEpIdx : Option ℕ
  guid : ℕ

/-- What a connect meets: whether the two addresses can be unpacked, the peer's endpoint, and which
pairs of lanes `scp_do_connect_sct_ep` connects. -/
structure ConnectArgs where
  unpacked : Bool
  epUnpacked : Bool
  peer : PeerEp
  connects : ℕ → ℕ → Bool

/-- `scp_connect_sct_ep`. -/
def scpConnectSctEp (args : ConnectArgs) (ep : Ep) (selfIdx peerIdx : ℕ) : Status :=
  if ep.sctEpNum ≤ selfIdx ∨ args.peer.numEpAddrs ≤ peerIdx then .errInvalidParam
  else if args.connects selfIdx peerIdx then .ok
  else .errUnreachable

/-- `scp_connect_sdma`. -/
def scpConnectSdma (args : ConnectArgs) (ep : Ep) : ScpLanes × Status :=
  match ep.sdmaEpIdx, args.peer.sdmaEpIdx with
  | some selfIdx, some peerIdx =>
    if scpMaxLane ≤ selfIdx ∨ scpMaxLane ≤ peerIdx then (ep.lanes, .errUnsupported)
    else
      let status := scpConnectSctEp args ep selfIdx peerIdx
      if status = .ok then (ep.lanes.pair (selfIdx, peerIdx), .ok) else (ep.lanes, status)
  | _, _ => (ep.lanes, .errUnsupported)

/-- The body of the inner loop of `scp_connect_rc`; `multirails` is a byte. -/
def scpConnectRcStep (args : ConnectArgs) (ep : Ep) (st : RcLoop) (p : ℕ × ℕ) : RcLoop :=
  if st.out then st
  else if p.1 ∈ st.selfMap ∨ p.2 ∈ st.peerMap then st
  else if scpConnectSctEp args ep p.1 p.2 ≠ .ok then st
  else
    { lanes := st.lanes.pair p
      selfMap := insert p.1 st.selfMap
      peerMap := insert p.2 st.peerMap
      multirails := (st.multirails + 255) % 256
      out := (st.multirails + 255) % 256 = 0 }

/-- `scp_connect_rc`. -/
def scpConnectRc (cfg : Config) (args : ConnectArgs) (ep : Ep) (lanes : ScpLanes) : RcLoop :=
  (List.range ep.sctEpNum ×ˢ List.range args.peer.numEpAddrs).foldl (scpConnectRcStep args ep)
    ⟨lanes, ep.sdmaEpIdx.toFinset, args.peer.sdmaEpIdx.toFinset, cfg.multirails, false⟩

/-- The second part of `scp_connect_ep_inner`. -/
def scpConnectRest (cfg : Config) (args : ConnectArgs) (ep : Ep) (lanes : ScpLanes) :
    ScpLanes × Status :=
  let st := scpConnectRc cfg args ep lanes
  (st.lanes, if st.selfMap = ∅ then .errUnsupported else .ok)

/-- `scp_connect_ep_inner`. -/
def scpConnectEpInner (cfg : Config) (args : ConnectArgs) (ep : Ep) : ScpLanes × Status :=
  if ep.sdmaEpIdx.isSome ∧ args.peer.guid = cfg.guid then
    let (lanes, status) := scpConnectSdma args ep
    if status ≠ .ok then (lanes, status)
    else if ep.sctEpNum = 1 then (lanes, .ok)
    else scpConnectRest cfg args ep lanes
  else scpConnectRest cfg args ep ep.lanes

/-- `scp_connect_ep`. -/
def scpConnectEp (cfg : Config) (args : ConnectArgs) (ep : Ep) :
    Acquire Alloc PoolObj (Ep × Status) :=
  if args.unpacked = false then pure (ep, .errInvalidParam)
  else if ep.peerAddr = none then pure (ep, .errInvalidParam)
  else if args.epUnpacked = false then pure (ep, .errInvalidParam)
  else
    let (lanes, status) := scpConnectEpInner cfg args ep
    if status ≠ .ok then pure ({ ep with lanes }, status)
    else do
      ucgMpoolPut ep.peerAddr
      ucgMpoolPut ep.selfAddr
      pure ({ ep with lanes, epState := .connected, selfAddr := none, peerAddr := none }, .ok)

/-! ### Runs -/

/-- A call. `channel` is the part of `ucg_planc_stars_channel_connect` for one peer. -/
inductive Call where
  | create (args : CreateArgs)
  | connect (id : ℕ) (args : ConnectArgs)
  | channel (id : ℕ) (args : ConnectArgs)
  | destroy (id : ℕ)

/-- A worker, and the endpoints whose connect has been successful. -/
structure State where
  worker : Worker
  succeeded : Finset ℕ

/-- A worker without endpoints. -/
def State.init : State := ⟨⟨false, .empty, fun _ => none, 0⟩, ∅⟩

/-- `scp_connect_ep` of an endpoint of the worker. -/
def connectCall (cfg : Config) (st : State) (id : ℕ) (args : ConnectArgs) (ep : Ep) :
    Option State :=
  match scpConnectEp cfg args ep st.worker.pool with
  | (.done (ep, status), pool) =>
    some ⟨{ st.worker with pool, eps := Function.update st.worker.eps id (some ep) },
      if status = .ok then insert id st.succeeded else st.succeeded⟩
  | _ => none

/-- A call changes the state; `none`: it does not return. There are no calls for endpoints that do
not exist. -/
def step (cfg : Config) (st : State) : Call → Option State
  | .create args => (scpEpCreate cfg args st.worker).map fun worker => { st with worker }
  | .connect id args =>
    match st.worker.eps id with
    | none => some st
    | some ep => connectCall cfg st id args ep
  | .channel id args =>
    match st.worker.eps id with
    | none => some st
    | some ep => if skipsConnect ep then some st else connectCall cfg st id args ep
  | .destroy id =>
    match st.worker.eps id with
    | none => some st
    | some ep => some { st with worker := scpEpDestroy id ep st.worker }

/-- The objects that are in use: the endpoints, and the buffers of those not connected. -/
def InUse (st : State) : PoolObj → Prop
  | .ep id => (st.worker.eps id).isSome
  | .selfAddr id => (st.worker.eps id).isSome ∧ id ∉ st.succeeded
  | .peerAddr id => (st.worker.eps id).isSome ∧ id ∉ st.succeeded

/-- The lock is free, what is held is in use and held once, nothing was returned that was not held,
and both tests of an endpoint say whether its connect has been successful. -/
structure Balanced (st : State) : Prop where
  free : st.worker.async = false
  fine : st.worker.pool.misused = false
  nodup : st.worker.pool.held.Nodup
  held : ∀ obj, obj ∈ st.worker.pool.held ↔ InUse st obj
  treated : ∀ id ep, st.worker.eps id = some ep →
    (scpEpIsConnected ep = true ↔ id ∈ st.succeeded) ∧ (skipsConnect ep = true ↔ id ∈ st.succeeded)

/-- Each call of the run returns and leaves all in balance. -/
def Keeps (cfg : Config) : State → List Call → Prop
  | _, [] => True
  | st, call :: calls => ∃ st', step cfg st call = some st' ∧ Balanced st' ∧ Keeps cfg st' calls

/-- No allocation fails, and one of the interfaces selected can be created. -/
def Creatable (cfg : Config) (args : CreateArgs) : Prop :=
  (∀ alloc, args.fails alloc = false) ∧
    ∃ sel, selectLanes cfg.multirails args.interNode cfg.ifaces 0 [] none = some sel ∧
      ∃ idx ∈ sel.1.1.take sel.1.2, args.created idx = true

/-- Some pair of RC lanes can be connected. -/
def RcConnectable (args : ConnectArgs) (ep : Ep) : Prop :=
  ∃ i j, some i ≠ ep.sdmaEpIdx ∧ some j ≠ args.peer.sdmaEpIdx ∧ scpConnectSctEp args ep i j = .ok

/-- There is an SDMA lane, for a peer on another machine, and no other lane can be connected. -/
def ConnectsNothing (cfg : Config) (args : ConnectArgs) (ep : Ep) : Prop :=
  ep.sdmaEpIdx.isSome ∧ args.peer.guid ≠ cfg.guid ∧ ¬RcConnectable args ep

/-- A connect that does not succeed without a lane. -/
def ConnectFine (cfg : Config) (st : State) (id : ℕ) (args : ConnectArgs) : Prop :=
  ∀ ep, st.worker.eps id = some ep →
    ¬(args.unpacked = true ∧ ep.peerAddr ≠ none ∧ args.epUnpacked = true ∧
      ConnectsNothing cfg args ep)

/-- The call does not reach one of the three defects. -/
def Fine (cfg : Config) (st : State) : Call → Prop
  | .create args => Creatable cfg args
  | .connect id args => ConnectFine cfg st id args
  | .channel id args => ConnectFine cfg st id args
  | .destroy id => ∀ ep, st.worker.eps id = some ep → scpEpIsConnected ep = true

/-- No call of the run does. -/
def FineRun (cfg : Config) : State → List Call → Prop
  | _, [] => True
  | st, call :: calls => Fine cfg st call ∧ ∀ st', step cfg st call = some st' →
      FineRun cfg st' calls

/-! ### Which lanes are connected -/

section Connecting

variable {cfg : Config} {args : ConnectArgs} {ep : Ep} {st : RcLoop} {p : ℕ × ℕ}

/-- The loops connect this pair of lanes. -/
def Connects (args : ConnectArgs) (ep : Ep) (st : RcLoop) (p : ℕ × ℕ) : Prop :=
  p.1 ∉ st.selfMap ∧ p.2 ∉ st.peerMap ∧ scpConnectSctEp args ep p.1 p.2 = .ok

theorem connectRcStep_of_not (hout : st.out = false) (h : ¬Connects args ep st p) :
    scpConnectRcStep args ep st p = st := by
  rw [scpConnectRcStep, if_neg (by simp [hout])]
  split_ifs with hmap hok
  · rfl
  · rfl
  · rw [not_or] at hmap
    exact absurd ⟨hmap.1, hmap.2, not_not.mp hok⟩ h

theorem connectRcStep_of (hout : st.out = false) (h : Connects args ep st p) :
    (scpConnectRcStep args ep st p).lanes = st.lanes.pair p ∧
      (scpConnectRcStep args ep st p).selfMap = insert p.1 st.selfMap := by
  rw [scpConnectRcStep, if_neg (by simp [hout]), if_neg (not_or.mpr ⟨h.1, h.2.1⟩),
    if_neg (not_not.mpr h.2.2)]
  exact ⟨rfl, rfl⟩

theorem connNum_pair (lanes : ScpLanes) (p : ℕ × ℕ) :
    (lanes.pair p).connNum = lanes.connNum + 1 := by
  simp [ScpLanes.pair, ScpLanes.connNum]

variable (args ep st p) in
/-- No lane is taken back. -/
theorem le_connectRcStep : st.lanes.connNum ≤ (scpConnectRcStep args ep st p).lanes.connNum ∧
    st.selfMap ⊆ (scpConnectRcStep args ep st p).selfMap := by
  rw [scpConnectRcStep]
  split_ifs
  · exact ⟨le_rfl, subset_rfl⟩
  · exact ⟨le_rfl, subset_rfl⟩
  · exact ⟨le_rfl, subset_rfl⟩
  · exact ⟨by simp [connNum_pair], Finset.subset_insert _ _⟩

variable (args ep) in
theorem le_connectRcFoldl : ∀ (ps : List (ℕ × ℕ)) (st : RcLoop),
    st.lanes.connNum ≤ (ps.foldl (scpConnectRcStep args ep) st).lanes.connNum ∧
      st.selfMap ⊆ (ps.foldl (scpConnectRcStep args ep) st).selfMap
  | [], _ => ⟨le_rfl, subset_rfl⟩
  | p :: ps, st => by
    have hstep := le_connectRcStep args ep st p
    have hrest := le_connectRcFoldl ps (scpConnectRcStep args ep st p)
    exact ⟨hstep.1.trans hrest.1, hstep.2.trans hrest.2⟩

/-- Without a pair that can be connected, the loops change nothing. -/
theorem connectRcFoldl_of_not : ∀ {ps : List (ℕ × ℕ)} {st : RcLoop}, st.out = false →
    (∀ p ∈ ps, ¬Connects args ep st p) → ps.foldl (scpConnectRcStep args ep) st = st
  | [], _, _, _ => rfl
  | p :: ps, st, hout, h => by
    rw [List.foldl_cons, connectRcStep_of_not hout (h p (by simp))]
    exact connectRcFoldl_of_not hout fun q hq => h q (by simp [hq])

/-- With one, they connect a lane: the first of them at the latest. -/
theorem connectRcFoldl_of : ∀ {ps : List (ℕ × ℕ)} {st : RcLoop}, st.out = false →
    (∃ p ∈ ps, Connects args ep st p) →
      st.lanes.connNum < (ps.foldl (scpConnectRcStep args ep) st).lanes.connNum ∧
        (ps.foldl (scpConnectRcStep args ep) st).selfMap ≠ ∅
  | [], _, _, h => by simp at h
  | p :: ps, st, hout, h => by
    rw [List.foldl_cons]
    by_cases hp : Connects args ep st p
    · obtain ⟨hlanes, hself⟩ := connectRcStep_of hout hp
      obtain ⟨hnum, hsub⟩ := le_connectRcFoldl args ep ps
        (scpConnectRcStep args ep st p)
      rw [hlanes, connNum_pair] at hnum
      refine ⟨by omega, fun hempty => ?_⟩
      rw [hself, hempty] at hsub
      exact absurd (hsub (Finset.mem_insert_self _ _)) (Finset.notMem_empty _)
    · rw [connectRcStep_of_not hout hp]
      refine connectRcFoldl_of hout ?_
      obtain ⟨q, hq, hc⟩ := h
      rcases List.mem_cons.mp hq with rfl | hq
      · exact absurd hc hp
      · exact ⟨q, hq, hc⟩

theorem connectSctEp_ok {i j : ℕ} (h : scpConnectSctEp args ep i j = .ok) :
    i < ep.sctEpNum ∧ j < args.peer.numEpAddrs := by
  rw [scpConnectSctEp] at h
  by_cases hlt : ep.sctEpNum ≤ i ∨ args.peer.numEpAddrs ≤ j
  · rw [if_pos hlt] at h
    exact absurd h (by decide)
  · rw [not_or, not_le, not_le] at hlt
    exact hlt

variable (cfg args ep) in
/-- `scp_connect_rc` starts with such a pair, or there is none. -/
theorem exists_connects_iff (lanes : ScpLanes) :
    (∃ p ∈ List.range ep.sctEpNum ×ˢ List.range args.peer.numEpAddrs, Connects args ep
      ⟨lanes, ep.sdmaEpIdx.toFinset, args.peer.sdmaEpIdx.toFinset, cfg.multirails, false⟩ p) ↔
      RcConnectable args ep := by
  constructor
  · rintro ⟨⟨i, j⟩, -, hself, hpeer, hok⟩
    rw [Option.mem_toFinset] at hself hpeer
    exact ⟨i, j, fun h => hself h.symm, fun h => hpeer h.symm, hok⟩
  · rintro ⟨i, j, hself, hpeer, hok⟩
    obtain ⟨hi, hj⟩ := connectSctEp_ok hok
    refine ⟨(i, j), ?_, ?_, ?_, hok⟩
    · exact List.mem_product.mpr ⟨List.mem_range.mpr hi, List.mem_range.mpr hj⟩
    · rw [Option.mem_toFinset]
      exact fun h => hself h.symm
    · rw [Option.mem_toFinset]
      exact fun h => hpeer h.symm

variable (cfg args ep) in
/-- The second part of a connect: one more lane; or none, and then an SDMA lane is what makes the
difference between success and failure. -/
theorem connectRest_cases (lanes : ScpLanes) :
    (RcConnectable args ep ∧ (scpConnectRest cfg args ep lanes).2 = .ok ∧
      lanes.connNum < (scpConnectRest cfg args ep lanes).1.connNum) ∨
    (¬RcConnectable args ep ∧ scpConnectRest cfg args ep lanes =
      (lanes, if ep.sdmaEpIdx.isSome then .ok else .errUnsupported)) := by
  have hiff := exists_connects_iff cfg args ep lanes
  by_cases h : RcConnectable args ep
  · obtain ⟨hnum, hself⟩ := connectRcFoldl_of (by rfl) (hiff.mpr h)
    exact .inl ⟨h, if_neg hself, hnum⟩
  · right
    have hnone : scpConnectRc cfg args ep lanes =
        ⟨lanes, ep.sdmaEpIdx.toFinset, args.peer.sdmaEpIdx.toFinset, cfg.multirails, false⟩ :=
      connectRcFoldl_of_not rfl fun p hp hc => h (hiff.mp ⟨p, hp, hc⟩)
    refine ⟨h, ?_⟩
    rw [scpConnectRest, hnone]
    cases ep.sdmaEpIdx with
    | none => rfl
    | some s => simp

variable (args ep) in
/-- The SDMA lanes are connected or nothing is. -/
theorem connectSdma_cases :
    ((scpConnectSdma args ep).2 = .ok ∧
      (scpConnectSdma args ep).1.connNum = ep.lanes.connNum + 1) ∨
    ((scpConnectSdma args ep).2 ≠ .ok ∧ (scpConnectSdma args ep).1 = ep.lanes) := by
  rw [scpConnectSdma]
  cases ep.sdmaEpIdx with
  | none => simp
  | some selfIdx =>
    cases args.peer.sdmaEpIdx with
    | none => simp
    | some peerIdx =>
      by_cases hmax : scpMaxLane ≤ selfIdx ∨ scpMaxLane ≤ peerIdx
      · simp [hmax]
      · by_cases hok : scpConnectSctEp args ep selfIdx peerIdx = .ok
        · simp [hmax, hok, connNum_pair]
        · simp [hmax, hok]

variable (cfg args ep) in
/-- A connect succeeds with a lane or fails without one; if not, it is the case described by
`ConnectsNothing`. -/
theorem connectEpInner_cases :
    (ConnectsNothing cfg args ep ∧ scpConnectEpInner cfg args ep = (ep.lanes, .ok)) ∨
    (¬ConnectsNothing cfg args ep ∧
      ((scpConnectEpInner cfg args ep).2 = .ok ∧
        ep.lanes.connNum < (scpConnectEpInner cfg args ep).1.connNum ∨
      (scpConnectEpInner cfg args ep).2 ≠ .ok ∧ (scpConnectEpInner cfg args ep).1 = ep.lanes)) := by
  rw [scpConnectEpInner]
  by_cases hsdma : ep.sdmaEpIdx.isSome ∧ args.peer.guid = cfg.guid
  · right
    rw [if_pos hsdma]
    refine ⟨fun h => h.2.1 hsdma.2, ?_⟩
    rcases connectSdma_cases args ep with ⟨hok, hnum⟩ | ⟨hne, hlanes⟩
    · -- the SDMA lane is connected, and then the connect cannot fail
      left
      simp only [hok, ne_eq, not_true_eq_false, if_false]
      by_cases hone : ep.sctEpNum = 1
      · simp only [if_pos hone, hnum]
        exact ⟨trivial, Nat.lt_succ_self _⟩
      · simp only [if_neg hone]
        rcases connectRest_cases cfg args ep
          (scpConnectSdma args ep).1 with ⟨-, hst, hlt⟩ | ⟨-, heq⟩
        · exact ⟨hst, by omega⟩
        · rw [heq, if_pos hsdma.1]
          exact ⟨rfl, by rw [hnum]; exact Nat.lt_succ_self _⟩
    · right
      simp only [if_pos hne]
      exact ⟨hne, hlanes⟩
  · rw [if_neg hsdma]
    rcases connectRest_cases cfg args ep ep.lanes with
      ⟨hrc, hst, hlt⟩ | ⟨hrc, heq⟩
    · exact .inr ⟨fun h => h.2.2 hrc, .inl ⟨hst, hlt⟩⟩
    · rw [heq]
      by_cases hsome : ep.sdmaEpIdx.isSome
      · left
        rw [if_pos hsome]
        exact ⟨⟨hsome, fun hguid => hsdma ⟨hsome, hguid⟩, hrc⟩, rfl⟩
      · right
        rw [if_neg hsome]
        exact ⟨fun h => hsome h.1, .inr ⟨by simp, rfl⟩⟩

end Connecting

/-! ### What a call does -/

section Calls

variable {cfg : Config} {st st' : State} {id : ℕ} {ep : Ep} {fails : Alloc → Bool}
  {pool : Holdings PoolObj}

theorem createBase_of (h : ∀ alloc, fails alloc = false) :
    scpEpCreateBase fails id pool =
      (.done ⟨some (.selfAddr id), some (.peerAddr id), .inited, [], none, .init⟩,
        ⟨.peerAddr id :: .selfAddr id :: .ep id :: pool.held, pool.misused⟩) := by
  simp [scpEpCreateBase, bind, Acquire.bind, Acquire.call, Acquire.take, Acquire.onFail, h]
  rfl

variable (id pool) in
theorem createBase_of_not (h : ¬∀ alloc, fails alloc = false) :
    ∃ c pool', scpEpCreateBase fails id pool = (.failed c, pool') := by
  rw [not_forall] at h
  obtain ⟨alloc, h⟩ := h
  rw [Bool.not_eq_false] at h
  by_cases hep : fails .ep = true
  · exact ⟨.ep, _, by simp [scpEpCreateBase, bind, Acquire.bind, Acquire.call, hep]; rfl⟩
  by_cases hself : fails .selfAddr = true
  · exact ⟨.selfAddr, _, by
      simp [scpEpCreateBase, bind, Acquire.bind, Acquire.call, Acquire.take, Acquire.onFail, hep,
        hself]
      rfl⟩
  obtain rfl : alloc = .peerAddr := by
    cases alloc with
    | ep => exact absurd h hep
    | selfAddr => exact absurd h hself
    | peerAddr => rfl
  exact ⟨.peerAddr, _, by
    simp [scpEpCreateBase, bind, Acquire.bind, Acquire.call, Acquire.take, Acquire.onFail, hep,
      hself, h]
    rfl⟩

/-- An endpoint gets lanes exactly when an interface that is selected can be created. -/
theorem createInner_iff {multirails : ℕ} {interNode : Bool} {ifaces : List ScpIface}
    {created : ℕ → Bool} :
    (∃ lanes, createInner multirails interNode ifaces created = some (some lanes)) ↔
      ∃ sel, selectLanes multirails interNode ifaces 0 [] none = some sel ∧
        ∃ idx ∈ sel.1.1.take sel.1.2, created idx = true := by
  rw [createInner]
  rcases hsel : selectLanes multirails interNode ifaces 0 [] none with _ | ⟨⟨idxs, cnt⟩, sdma⟩
  · simp
  · simp only [Option.bind_eq_bind, Option.bind_some, Option.some.injEq, lanes_createLanes,
      List.nil_append, List.filter_eq_nil_iff]
    by_cases hnone : ∀ idx ∈ idxs.take cnt, ¬created idx = true
    · rw [if_pos hnone]
      constructor
      · rintro ⟨lanes, h⟩
        exact absurd h (by simp)
      · rintro ⟨sel, rfl, idx, hidx, hcreated⟩
        exact absurd hcreated (hnone idx hidx)
    · rw [if_neg hnone]
      push Not at hnone
      exact ⟨fun _ => ⟨_, rfl, hnone⟩, fun _ => ⟨_, rfl⟩⟩

/-- A new endpoint of the worker, with both of its buffers. -/
def FreshEp (id : ℕ) (ep : Ep) : Prop :=
  ep.selfAddr = some (.selfAddr id) ∧ ep.peerAddr = some (.peerAddr id) ∧ ep.epState = .inited ∧
    ep.lanes.connNum = 0

/-- An endpoint that is connected. -/
def JoinedEp (ep : Ep) : Prop :=
  ep.selfAddr = none ∧ ep.peerAddr = none ∧ ep.epState = .connected ∧ 0 < ep.lanes.connNum

/-- What keeps a worker in balance: each endpoint is new or connected. -/
structure Inv (st : State) : Prop where
  free : st.worker.async = false
  fine : st.worker.pool.misused = false
  nodup : st.worker.pool.held.Nodup
  held : ∀ obj, obj ∈ st.worker.pool.held ↔ InUse st obj
  fresh : ∀ id, st.worker.next ≤ id → st.worker.eps id = none ∧ id ∉ st.succeeded
  joined : ∀ id ep, st.worker.eps id = some ep → id ∈ st.succeeded → JoinedEp ep
  waiting : ∀ id ep, st.worker.eps id = some ep → id ∉ st.succeeded → FreshEp id ep

theorem inv_init : Inv .init where
  free := rfl
  fine := rfl
  nodup := List.nodup_nil
  held obj := by cases obj <;> simp [State.init, InUse, Holdings.empty]
  fresh _ _ := ⟨rfl, by simp [State.init]⟩
  joined _ _ h := by simp [State.init] at h
  waiting _ _ h := by simp [State.init] at h

theorem Inv.balanced (h : Inv st) : Balanced st where
  free := h.free
  fine := h.fine
  nodup := h.nodup
  held := h.held
  treated id ep hep := by
    by_cases hid : id ∈ st.succeeded
    · obtain ⟨-, -, hstate, hnum⟩ := h.joined id ep hep hid
      simp [scpEpIsConnected, skipsConnect, hstate, hnum, hid]
    · obtain ⟨-, -, hstate, hnum⟩ := h.waiting id ep hep hid
      simp [scpEpIsConnected, skipsConnect, hstate, hnum, hid]

/-- A creation that succeeds. -/
theorem create_of {args : CreateArgs} (h : Inv st) (hc : Creatable cfg args) :
    ∃ st', step cfg st (.create args) = some st' ∧ Inv st' := by
  obtain ⟨⟨rsc, sdma⟩, hinner⟩ := createInner_iff.mpr hc.2
  have hnext := h.fresh st.worker.next le_rfl
  have hnot (obj : PoolObj) (hobj : obj = .ep st.worker.next ∨ obj = .selfAddr st.worker.next ∨
      obj = .peerAddr st.worker.next) : obj ∉ st.worker.pool.held := by
    rw [h.held]
    rcases hobj with rfl | rfl | rfl <;> simp [InUse, hnext.1]
  refine ⟨⟨⟨false, ⟨.peerAddr st.worker.next :: .selfAddr st.worker.next :: .ep st.worker.next ::
      st.worker.pool.held, st.worker.pool.misused⟩, Function.update st.worker.eps st.worker.next
      (some ⟨some (.selfAddr st.worker.next), some (.peerAddr st.worker.next), .inited, rsc, sdma,
        .init⟩), st.worker.next + 1⟩, st.succeeded⟩, ?_, ?_⟩
  · simp only [step, scpEpCreate, h.free, Bool.false_eq_true, if_false, createBase_of hc.1, hinner,
      Option.map_some]
  · refine ⟨rfl, h.fine, ?_, fun obj => ?_, fun id hid => ?_, fun id ep hep hmem => ?_,
      fun id ep hep hmem => ?_⟩
    · simp [hnot, h.nodup]
    · simp only [List.mem_cons, h.held]
      cases obj with
      | ep id => by_cases hid : id = st.worker.next <;> simp [InUse, hid]
      | selfAddr id => by_cases hid : id = st.worker.next <;> simp [InUse, hid, hnext.2]
      | peerAddr id => by_cases hid : id = st.worker.next <;> simp [InUse, hid, hnext.2]
    · dsimp only at hid ⊢
      rw [Function.update_of_ne (by omega)]
      exact h.fresh id (by omega)
    · dsimp only at hep hmem
      have hne : id ≠ st.worker.next := fun heq => hnext.2 (heq ▸ hmem)
      rw [Function.update_of_ne hne] at hep
      exact h.joined id ep hep hmem
    · dsimp only at hep hmem
      by_cases hid : id = st.worker.next
      · subst hid
        rw [Function.update_self] at hep
        obtain rfl := Option.some.inj hep
        exact ⟨rfl, rfl, rfl, rfl⟩
      · rw [Function.update_of_ne hid] at hep
        exact h.waiting id ep hep hmem

/-- Another creation leaves the worker locked, or it does not return. -/
theorem create_of_not {args : CreateArgs} (h : Inv st) (hc : ¬Creatable cfg args) :
    ∀ st', step cfg st (.create args) = some st' → st'.worker.async = true := by
  intro st' hst
  simp only [step, scpEpCreate, h.free, Bool.false_eq_true, if_false] at hst
  by_cases hfails : ∀ alloc, args.fails alloc = false
  · have hinner : ¬∃ lanes, createInner cfg.multirails args.interNode cfg.ifaces args.created =
        some (some lanes) := fun hl => hc ⟨hfails, createInner_iff.mp hl⟩
    rw [createBase_of hfails] at hst
    rcases hres : createInner cfg.multirails args.interNode cfg.ifaces args.created with
      _ | _ | lanes
    · simp [hres] at hst
    · simp only [hres, Option.map_some, Option.some.injEq] at hst
      rw [← hst]
    · exact absurd ⟨lanes, hres⟩ hinner
  · obtain ⟨c, pool', hbase⟩ := createBase_of_not st.worker.next st.worker.pool hfails
    simp only [hbase, Option.map_some, Option.some.injEq] at hst
    rw [← hst]

/-- A connect that fails changes nothing. -/
theorem update_self_eps (hep : st.worker.eps id = some ep) :
    Function.update st.worker.eps id (some ep) = st.worker.eps :=
  Function.update_eq_self_iff.mpr hep.symm

/-- What a connect does to an endpoint that is not connected: it fails and leaves everything as it
was, or it gives back both buffers. -/
theorem connectEp_waiting (cfg : Config) (args : ConnectArgs) (h : Inv st)
    (hep : st.worker.eps id = some ep)
    (hid : id ∉ st.succeeded) :
    (∃ status, status ≠ .ok ∧
      ¬(args.unpacked = true ∧ args.epUnpacked = true ∧ ConnectsNothing cfg args ep) ∧
      scpConnectEp cfg args ep st.worker.pool = (.done (ep, status), st.worker.pool)) ∨
    ∃ lanes, scpConnectEp cfg args ep st.worker.pool = (.done ({ ep with
          lanes, epState := .connected, selfAddr := none, peerAddr := none }, .ok),
        ⟨(st.worker.pool.held.erase (.peerAddr id)).erase (.selfAddr id), false⟩) ∧
      ((args.unpacked = true ∧ args.epUnpacked = true ∧ ConnectsNothing cfg args ep ∧
          lanes.connNum = 0) ∨
        (¬ConnectsNothing cfg args ep ∧ 0 < lanes.connNum)) := by
  obtain ⟨hself, hpeer, -, hnum⟩ := h.waiting id ep hep hid
  have hpeerMem : PoolObj.peerAddr id ∈ st.worker.pool.held :=
    (h.held _).mpr ⟨by simp [hep], hid⟩
  have hselfMem : PoolObj.selfAddr id ∈ st.worker.pool.held.erase (.peerAddr id) :=
    (List.mem_erase_of_ne (by simp)).mpr ((h.held _).mpr ⟨by simp [hep], hid⟩)
  rw [scpConnectEp]
  by_cases hunp : args.unpacked = false
  · rw [if_pos hunp]
    exact .inl ⟨.errInvalidParam, by simp, by simp [hunp], rfl⟩
  by_cases hepUnp : args.epUnpacked = false
  · rw [if_neg hunp, if_neg (by simp [hpeer]), if_pos hepUnp]
    exact .inl ⟨.errInvalidParam, by simp, by simp [hepUnp], rfl⟩
  rw [if_neg hunp, if_neg (by simp [hpeer]), if_neg hepUnp]
  rw [Bool.not_eq_false] at hunp hepUnp
  have hgive (lanes : ScpLanes) : (ucgMpoolPut ep.peerAddr >>= fun _ =>
      ucgMpoolPut ep.selfAddr >>= fun _ => (pure ({ ep with
        lanes, epState := .connected, selfAddr := none, peerAddr := none }, .ok) :
          Acquire Alloc PoolObj (Ep × Status))) st.worker.pool =
      (.done ({ ep with lanes, epState := .connected, selfAddr := none, peerAddr := none }, .ok),
        ⟨(st.worker.pool.held.erase (.peerAddr id)).erase (.selfAddr id), false⟩) := by
    simp [hself, hpeer, ucgMpoolPut, bind, Acquire.bind, Acquire.give, h.fine, hpeerMem, hselfMem]
    rfl
  rcases connectEpInner_cases cfg args ep with
    ⟨hnothing, heq⟩ | ⟨hsome, ⟨hok, hlt⟩ | ⟨hne, hlanes⟩⟩
  · right
    refine ⟨ep.lanes, ?_, .inl ⟨hunp, hepUnp, hnothing, hnum⟩⟩
    rw [heq]
    exact hgive ep.lanes
  · right
    refine ⟨(scpConnectEpInner cfg args ep).1, ?_, .inr ⟨hsome, by omega⟩⟩
    simp only [hok, ne_eq, not_true_eq_false, if_false]
    exact hgive _
  · left
    refine ⟨_, hne, fun hbad => hsome hbad.2.2, ?_⟩
    simp only [if_pos hne, hlanes]
    rfl

/-- An endpoint that is connected is left as it is. -/
theorem connectEp_joined {args : ConnectArgs} (h : Inv st) (hep : st.worker.eps id = some ep)
    (hid : id ∈ st.succeeded) : scpConnectEp cfg args ep st.worker.pool =
      (.done (ep, .errInvalidParam), st.worker.pool) := by
  obtain ⟨-, hpeer, -, -⟩ := h.joined id ep hep hid
  rw [scpConnectEp]
  by_cases hunp : args.unpacked = false
  · rw [if_pos hunp]
    rfl
  · rw [if_neg hunp, if_pos hpeer]
    rfl

/-- A connect that fails leaves the state as it is. -/
theorem connectCall_failed {args : ConnectArgs} {status : Status}
    (hep : st.worker.eps id = some ep) (hst : status ≠ .ok)
    (h : scpConnectEp cfg args ep st.worker.pool = (.done (ep, status), st.worker.pool)) :
    connectCall cfg st id args ep = some st := by
  simp only [connectCall, h, if_neg hst, update_self_eps hep]

/-- Once connected, an endpoint uses no buffers. -/
theorem inv_joined (h : Inv st) (hep : st.worker.eps id = some ep) (hid : id ∉ st.succeeded)
    {joined : Ep} (hjoined : JoinedEp joined) :
    Inv ⟨{ st.worker with
        pool := ⟨(st.worker.pool.held.erase (.peerAddr id)).erase (.selfAddr id), false⟩
        eps := Function.update st.worker.eps id (some joined) }, insert id st.succeeded⟩ := by
  refine ⟨h.free, rfl, (h.nodup.erase _).erase _, fun obj => ?_, fun i hi => ?_,
    fun i e hie hmem => ?_, fun i e hie hmem => ?_⟩
  · rw [(h.nodup.erase _).mem_erase_iff, h.nodup.mem_erase_iff, h.held]
    cases obj with
    | ep i => by_cases hi : i = id <;> simp [InUse, hi, hep]
    | selfAddr i => by_cases hi : i = id <;> simp [InUse, hi]
    | peerAddr i => by_cases hi : i = id <;> simp [InUse, hi]
  · dsimp only at hi ⊢
    obtain ⟨hnone, hnot⟩ := h.fresh i hi
    have hne : i ≠ id := by
      rintro rfl
      rw [hnone] at hep
      exact absurd hep (by simp)
    rw [Function.update_of_ne hne, Finset.mem_insert, not_or]
    exact ⟨hnone, hne, hnot⟩
  · dsimp only at hie hmem
    by_cases hi : i = id
    · subst hi
      rw [Function.update_self] at hie
      exact Option.some.inj hie ▸ hjoined
    · rw [Function.update_of_ne hi] at hie
      exact h.joined i e hie ((Finset.mem_insert.mp hmem).resolve_left hi)
  · dsimp only at hie hmem
    rw [Finset.mem_insert, not_or] at hmem
    rw [Function.update_of_ne hmem.1] at hie
    exact h.waiting i e hie hmem.2

/-- A connect keeps the invariant, or it is the one that connects nothing. -/
theorem connectCall_iff (cfg : Config) (args : ConnectArgs) (h : Inv st)
    (hep : st.worker.eps id = some ep) :
    ∃ st', connectCall cfg st id args ep = some st' ∧
      ((ConnectFine cfg st id args ∧ Inv st') ∨ (¬ConnectFine cfg st id args ∧ ¬Balanced st')) := by
  by_cases hid : id ∈ st.succeeded
  · refine ⟨st, connectCall_failed hep (by simp) (connectEp_joined h hep hid), .inl ⟨?_, h⟩⟩
    intro e he hbad
    obtain rfl := Option.some.inj (hep.symm.trans he)
    exact hbad.2.1 (h.joined id ep hep hid).2.1
  have hpeer : ep.peerAddr ≠ none := by
    rw [(h.waiting id ep hep hid).2.1]
    exact Option.some_ne_none _
  have hfine : ConnectFine cfg st id args ↔
      ¬(args.unpacked = true ∧ args.epUnpacked = true ∧ ConnectsNothing cfg args ep) := by
    simp [ConnectFine, hep, hpeer]
  rw [hfine]
  rcases connectEp_waiting cfg args h hep hid with
    ⟨status, hst, hnot, heq⟩ | ⟨lanes, heq, hcase⟩
  · exact ⟨st, connectCall_failed hep hst heq, .inl ⟨hnot, h⟩⟩
  · refine ⟨_, by simp only [connectCall, heq, if_true]; rfl, ?_⟩
    rcases hcase with ⟨hunp, hepUnp, hnothing, hnum⟩ | ⟨hsome, hnum⟩
    · -- it counts as not connected
      refine .inr ⟨not_not.mpr ⟨hunp, hepUnp, hnothing⟩, fun hbal => ?_⟩
      have htreated := (hbal.treated id _ (Function.update_self ..)).2.mpr
        (Finset.mem_insert_self _ _)
      simp [skipsConnect, hnum] at htreated
    · exact .inl ⟨fun hbad => hsome hbad.2.2, inv_joined h hep hid ⟨rfl, rfl, rfl, hnum⟩⟩

theorem destroyBase_joined (h : Inv st) (hep : st.worker.eps id = some ep)
    (hid : id ∈ st.succeeded) : (scpEpDestoryBase id ep st.worker.pool).2 =
      ⟨st.worker.pool.held.erase (.ep id), false⟩ := by
  have hmem : PoolObj.ep id ∈ st.worker.pool.held := (h.held _).mpr (by simp [InUse, hep])
  simp [scpEpDestoryBase, Acquire.skipIf, bind, Acquire.bind, Acquire.pure, ucgMpoolPut,
    Acquire.give, (h.joined id ep hep hid).1, h.fine, hmem]

theorem destroyBase_waiting (h : Inv st) (hep : st.worker.eps id = some ep)
    (hid : id ∉ st.succeeded) : (scpEpDestoryBase id ep st.worker.pool).2.held =
      (st.worker.pool.held.erase (.selfAddr id)).erase (.ep id) := by
  simp [scpEpDestoryBase, Acquire.skipIf, bind, Acquire.bind, Acquire.pure, ucgMpoolPut,
    Acquire.give, (h.waiting id ep hep hid).1]

/-- Destroying an endpoint that is connected keeps the invariant; otherwise a buffer stays held. -/
theorem destroy_iff (cfg : Config) (h : Inv st) (hep : st.worker.eps id = some ep) :
    ∃ st', step cfg st (.destroy id) = some st' ∧
      ((Fine cfg st (.destroy id) ∧ Inv st') ∨
        (¬Fine cfg st (.destroy id) ∧ ¬Balanced st')) := by
  refine ⟨_, by simp only [step, hep]; rfl, ?_⟩
  have hfine : Fine cfg st (.destroy id) ↔ scpEpIsConnected ep = true := by simp [Fine, hep]
  rw [hfine, (h.balanced.treated id ep hep).1]
  by_cases hid : id ∈ st.succeeded
  · left
    refine ⟨hid, h.free, ?_, ?_, fun obj => ?_, fun i hi => ?_, fun i e hie hmem => ?_,
      fun i e hie hmem => ?_⟩
    · simp only [scpEpDestroy, destroyBase_joined h hep hid]
    · simp only [scpEpDestroy, destroyBase_joined h hep hid]
      exact h.nodup.erase _
    · simp only [scpEpDestroy, destroyBase_joined h hep hid, h.nodup.mem_erase_iff, h.held]
      cases obj with
      | ep i => by_cases hi : i = id <;> simp [InUse, hi]
      | selfAddr i => by_cases hi : i = id <;> simp [InUse, hi, hid]
      | peerAddr i => by_cases hi : i = id <;> simp [InUse, hi, hid]
    · simp only [scpEpDestroy] at hi ⊢
      by_cases hii : i = id
      · subst hii
        exact absurd hep (by simp [(h.fresh i hi).1])
      · rw [Function.update_of_ne hii]
        exact h.fresh i hi
    · simp only [scpEpDestroy] at hie
      by_cases hi : i = id
      · subst hi
        simp at hie
      · rw [Function.update_of_ne hi] at hie
        exact h.joined i e hie hmem
    · simp only [scpEpDestroy] at hie
      by_cases hi : i = id
      · subst hi
        simp at hie
      · rw [Function.update_of_ne hi] at hie
        exact h.waiting i e hie hmem
  · refine .inr ⟨hid, fun hbal => ?_⟩
    have hpeer : PoolObj.peerAddr id ∈ (scpEpDestoryBase id ep st.worker.pool).2.held := by
      rw [destroyBase_waiting h hep hid, List.mem_erase_of_ne (by simp),
        List.mem_erase_of_ne (by simp), h.held]
      exact ⟨by simp [hep], hid⟩
    obtain ⟨hsome, -⟩ := (hbal.held (.peerAddr id)).mp hpeer
    simp [scpEpDestroy] at hsome

/-- A call of the kind that is fine keeps the invariant; another one breaks the balance, or does not
return. -/
theorem step_cases (cfg : Config) (h : Inv st) (call : Call) :
    (Fine cfg st call ∧ ∃ st', step cfg st call = some st' ∧ Inv st') ∨
    (¬Fine cfg st call ∧ ∀ st', step cfg st call = some st' → ¬Balanced st') := by
  have hsame (hf : Fine cfg st call) (hs : step cfg st call = some st) :
      (Fine cfg st call ∧ ∃ st', step cfg st call = some st' ∧ Inv st') ∨
      (¬Fine cfg st call ∧ ∀ st', step cfg st call = some st' → ¬Balanced st') :=
    .inl ⟨hf, st, hs, h⟩
  cases call with
  | create args =>
    by_cases hc : Creatable cfg args
    · exact .inl ⟨hc, create_of h hc⟩
    · exact .inr ⟨hc, fun st' hst hbal =>
        absurd hbal.free (by simp [create_of_not h hc st' hst])⟩
  | connect id args =>
    rcases hep : st.worker.eps id with _ | ep
    · exact hsame (by simp [Fine, ConnectFine, hep]) (by simp [step, hep])
    · obtain ⟨st', hst, hcase⟩ := connectCall_iff cfg args h hep
      have hstep : step cfg st (.connect id args) = some st' := by simp only [step, hep, hst]
      rcases hcase with ⟨hf, hinv⟩ | ⟨hf, hbal⟩
      · exact .inl ⟨hf, st', hstep, hinv⟩
      · exact .inr ⟨hf, fun s hs => Option.some.inj (hstep.symm.trans hs) ▸ hbal⟩
  | channel id args =>
    rcases hep : st.worker.eps id with _ | ep
    · exact hsame (by simp [Fine, ConnectFine, hep]) (by simp [step, hep])
    · by_cases hskip : skipsConnect ep = true
      · -- then it is connected, and has no buffer
        have hid := (h.balanced.treated id ep hep).2.mp hskip
        exact hsame (by simp [Fine, ConnectFine, hep, (h.joined id ep hep hid).2.1])
          (by simp [step, hep, hskip])
      · obtain ⟨st', hst, hcase⟩ := connectCall_iff cfg args h hep
        have hstep : step cfg st (.channel id args) = some st' := by
          simp only [step, hep, if_neg hskip, hst]
        rcases hcase with ⟨hf, hinv⟩ | ⟨hf, hbal⟩
        · exact .inl ⟨hf, st', hstep, hinv⟩
        · exact .inr ⟨hf, fun s hs => Option.some.inj (hstep.symm.trans hs) ▸ hbal⟩
  | destroy id =>
    rcases hep : st.worker.eps id with _ | ep
    · exact hsame (by simp [Fine, hep]) (by simp [step, hep])
    · obtain ⟨st', hst, hcase⟩ := destroy_iff cfg h hep
      rcases hcase with ⟨hf, hinv⟩ | ⟨hf, hbal⟩
      · exact .inl ⟨hf, st', hst, hinv⟩
      · exact .inr ⟨hf, fun s hs => Option.some.inj (hst.symm.trans hs) ▸ hbal⟩

theorem keeps_of_inv (calls : List Call) {st : State} (h : Inv st) :
    Keeps cfg st calls ↔ FineRun cfg st calls :=
  keeps_iff_fineRun (Keeps cfg) (FineRun cfg) (fun _ hinv => hinv.balanced) (fun _ => Iff.rfl)
    (fun _ _ _ => Iff.rfl) (fun _ _ _ => Iff.rfl)
    (fun _ hinv call => step_cases cfg hinv call) calls st h

end Calls

/-- In a run, every call returns and leaves the lock free, the objects in balance and the endpoints
told apart, exactly when no creation fails, no endpoint is destroyed before it is connected, and no
endpoint is connected without a lane. -/
theorem balanced_iff_fineRun (cfg : Config) (calls : List Call) :
    Keeps cfg .init calls ↔ FineRun cfg .init calls := keeps_of_inv calls inv_init

/-- An endpoint is created and destroyed, and its buffer for the peer's address is still held. -/
theorem not_keeps_destroy : ¬Keeps ⟨2, [⟨0, false, true⟩], 7⟩ .init
    [.create ⟨false, fun _ => false, fun _ => true⟩, .destroy 0] := by
  rintro ⟨st, hst, -, st', hst', hbal, -⟩
  obtain rfl := Option.some.inj hst
  obtain rfl := Option.some.inj hst'
  have hheld := (hbal.held (.peerAddr 0)).mp (by decide)
  exact absurd hheld.1 (by decide)

end EpLifecycle

end Kucg.Stars
