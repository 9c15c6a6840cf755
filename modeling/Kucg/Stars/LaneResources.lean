import Kucg.Stars.EpLifecycle
import Kucg.Stars.MemoryKeys

/-! What a lane uses (`scp_rma.c`, `scp_mm.c`, `scp_ep.c`, `planc_stars_wireup.c`).

    Memory handles and keys belong to memory domains, bandwidths and marks to interfaces, but all of
    them are looked up by the number of the lane. A lane is numbered by the interfaces that come
    before it, among those selected for its endpoint that could be created; and the interface for
    the bandwidth is taken from a table of the worker that every endpoint overwrites.
    `resources_iff_fineRun` says when a lane gets what belongs to its interface. -/

namespace Kucg.Stars

open Kucg.Lib Rails MemoryKeys

namespace LaneResources

/-- What the endpoints of a process share: the maximum number of rails, the opened interfaces, the
components of the memory domains, the domain of each interface and its bandwidth. -/
structure Config where
  multirails : ℕ
  ifaces : List ScpIface
  tlMds : List Component
  mdIndex : ℕ → ℕ
  bandwidth : ℕ → ℕ
  mdIndex_lt : ∀ idx < ifaces.length, mdIndex idx < tlMds.length

/-- How an endpoint is created: for which interfaces `sct_ep_create` succeeds. -/
structure Creation where
  interNode : Bool
  created : ℕ → Bool

/-- A lane that is connected: `local_lanes` and `remote_lanes`, and which interface of which process
is at the other end. -/
structure Conn (P : Type) where
  src : ℕ
  dst : ℕ
  peer : P
  peerIface : ℕ

/-- `scp_ep_t`: the interfaces of its lanes, their bandwidths and those that are connected; and how
it was created. -/
structure Ep (P : Type) where
  creation : Creation
  sctEpsRscIdx : List ℕ
  bandwidths : ℕ → ℕ
  conns : List (Conn P)

/-- The interface of a lane. -/
def Ep.iface {P : Type} (ep : Ep P) (lane : ℕ) : ℕ := ep.sctEpsRscIdx.getD lane 0

/-- The endpoints of each process in the order of their creation, its table `iface2idx`, and who has
unpacked whose keys. -/
structure State (P : Type) where
  eps : P → List (Ep P)
  iface2idx : P → ℕ → ℕ
  exchanged : List (P × P)

/-- No endpoints. -/
def State.init (P : Type) : State P := ⟨fun _ => [], fun _ _ => 0, []⟩

/-! ### The functions -/

/-- `scp_mem_reg`: the handles, named by the memory domains that they are from. -/
def scpMemReg (cfg : Config) : List ℕ := List.range cfg.tlMds.length

/-- What `scp_do_put_with_notify` looks up: the memory handle and the key (by their memory domains),
the entry of `flag_array` and the interface whose request is used. -/
structure Put where
  memh : Option ℕ
  rkey : Option ℕ
  flagIdx : ℕ
  sctReqIdx : ℕ

/-- `scp_do_put_with_notify`. -/
def scpDoPutWithNotify {P : Type} (cfg peerCfg : Config) (ep : Ep P) (src dst : ℕ) : Put where
  memh := (scpMemReg cfg)[src]?
  rkey := (scpMemReg peerCfg)[dst]?
  flagIdx := src
  sctReqIdx := ep.iface src

/-- `ucg_planc_stars_fill_bandwidth`. -/
def fillBandwidth {P : Type} (cfg : Config) (iface2idx : ℕ → ℕ) (ep : Ep P) : Ep P :=
  { ep with bandwidths := fun epIdx =>
      if epIdx < ep.sctEpsRscIdx.length then cfg.bandwidth (iface2idx epIdx)
      else ep.bandwidths epIdx }

/-- `scp_connect_ep`, where `pairs` are the lanes that can be connected. -/
def scpConnectEp {P : Type} (peer : P) (peerEp : Ep P) (pairs : List (ℕ × ℕ)) (ep : Ep P) : Ep P :=
  { ep with conns := pairs.map fun d => ⟨d.1, d.2, peer, peerEp.iface d.2⟩ }

/-- The events: a process creates an endpoint; it connects endpoint `e` to endpoint `f` of a
process; it unpacks the keys of a process. -/
inductive Event (P : Type) where
  | create (p : P) (creation : Creation)
  | connect (p : P) (e : ℕ) (peer : P) (f : ℕ) (pairs : List (ℕ × ℕ))
  | exchange (p peer : P)

section Steps

variable {P : Type} [DecidableEq P] (cfg : P → Config)

/-- `scp_ep_create` of a process; `none` if it writes behind the array of the selected
interfaces. -/
def create (st : State P) (p : P) (creation : Creation) : Option (State P) :=
  (createInner (cfg p).multirails creation.interNode (cfg p).ifaces creation.created).map fun res =>
    match res with
    | none => st
    | some (lanes, _) =>
      { st with
        eps := Function.update st.eps p (st.eps p ++ [⟨creation, lanes, fun _ => 0, []⟩])
        iface2idx := Function.update st.iface2idx p fun epIdx =>
          lanes.getD epIdx (st.iface2idx p epIdx) }

/-- The lanes exist on both sides. -/
def Within (ep peerEp : Ep P) (pairs : List (ℕ × ℕ)) : Prop :=
  ∀ d ∈ pairs, d.1 < ep.sctEpsRscIdx.length ∧ d.2 < peerEp.sctEpsRscIdx.length

instance (ep peerEp : Ep P) (pairs : List (ℕ × ℕ)) : Decidable (Within ep peerEp pairs) :=
  inferInstanceAs (Decidable (∀ d ∈ pairs, _))

/-- The part of `ucg_planc_stars_channel_connect` for one peer. -/
def connect (st : State P) (p : P) (e : ℕ) (ep : Ep P) (peer : P) (peerEp : Ep P)
    (pairs : List (ℕ × ℕ)) : State P :=
  if ep.conns = [] ∧ Within ep peerEp pairs then
    { st with eps := Function.update st.eps p ((st.eps p).set e
        (scpConnectEp peer peerEp pairs (fillBandwidth (cfg p) (st.iface2idx p) ep))) }
  else st

/-- An event changes the state. -/
def step (st : State P) : Event P → Option (State P)
  | .create p creation => create cfg st p creation
  | .connect p e peer f pairs =>
    match (st.eps p)[e]?, (st.eps peer)[f]? with
    | some ep, some peerEp => some (connect cfg st p e ep peer peerEp pairs)
    | _, _ => some st
  | .exchange p peer => some { st with exchanged := (p, peer) :: st.exchanged }

/-! ### What is to be shown -/

/-- The put on a lane of an endpoint. -/
def putOn (p : P) (ep : Ep P) (c : Conn P) : Put :=
  scpDoPutWithNotify (cfg p) (cfg c.peer) ep c.src c.dst

/-- Each lane that is connected uses the handle and the key of the memory domains of its interfaces
and has the bandwidth of its interface; there is one mark for each interface; and who has unpacked
keys has, index by index, those that were packed. -/
structure Right (st : State P) : Prop where
  memh : ∀ p, ∀ ep ∈ st.eps p, ∀ c ∈ ep.conns,
    (putOn cfg p ep c).memh = some ((cfg p).mdIndex (ep.iface c.src))
  rkey : ∀ p, ∀ ep ∈ st.eps p, ∀ c ∈ ep.conns,
    (putOn cfg p ep c).rkey = some ((cfg c.peer).mdIndex c.peerIface)
  bandwidth : ∀ p, ∀ ep ∈ st.eps p, ∀ c ∈ ep.conns,
    ep.bandwidths c.src = (cfg p).bandwidth (ep.iface c.src)
  marks : ∀ p, ∀ ep ∈ st.eps p, ∀ c ∈ ep.conns, ∀ ep' ∈ st.eps p, ∀ c' ∈ ep'.conns,
    (putOn cfg p ep c).flagIdx = (putOn cfg p ep' c').flagIdx ↔ ep.iface c.src = ep'.iface c'.src
  keys : ∀ x ∈ st.exchanged, ∀ rkeys,
    (scpMdMkeyPack (cfg x.2).tlMds rkeys).bind (scpMdMkeyUnpack (cfg x.1).tlMds) =
      some (packedKeys rkeys 0 (cfg x.2).tlMds, packedSize (cfg x.2).tlMds)

/-- Nothing is written behind an array, and all is right after each event. -/
def Keeps : State P → List (Event P) → Prop
  | _, [] => True
  | st, event :: events => ∃ st', step cfg st event = some st' ∧ Right cfg st' ∧ Keeps st' events

/-- The interfaces that an endpoint tries to create. -/
def selected (cfg : Config) (interNode : Bool) : List ℕ :=
  (((cfg.ifaces.zipIdx).filter fun x => Usable interNode x.1).map Prod.snd).take cfg.multirails

/-- How many of those before an interface can be created. -/
def createdBefore (cfg : Config) (creation : Creation) (idx : ℕ) : ℕ :=
  ((selected cfg creation.interNode).takeWhile (· ≠ idx)).countP creation.created

/-- The interface with this number of lane, of the last endpoint that has so many. -/
def lastIface (eps : List (Ep P)) (lane : ℕ) : Option ℕ :=
  (eps.map Ep.sctEpsRscIdx).reverse.findSome? fun lanes => lanes[lane]?

/-- Each interface that gets connected has so many before it as memory domains come before its own,
and so has the peer's; the interface that another endpoint has put in its place is as fast; and no
other interface with this memory domain is connected. -/
structure ConnectFine (st : State P) (p : P) (ep : Ep P) (peer : P) (peerEp : Ep P)
    (pairs : List (ℕ × ℕ)) : Prop where
  md : ∀ d ∈ pairs,
    (cfg p).mdIndex (ep.iface d.1) = createdBefore (cfg p) ep.creation (ep.iface d.1)
  peerMd : ∀ d ∈ pairs, (cfg peer).mdIndex (peerEp.iface d.2) =
    createdBefore (cfg peer) peerEp.creation (peerEp.iface d.2)
  bandwidth : ∀ d ∈ pairs, ∀ idx, lastIface (st.eps p) d.1 = some idx →
    (cfg p).bandwidth idx = (cfg p).bandwidth (ep.iface d.1)
  marks : ∀ d ∈ pairs, ∀ ep' ∈ st.eps p, ∀ c ∈ ep'.conns,
    (cfg p).mdIndex (ep'.iface c.src) = (cfg p).mdIndex (ep.iface d.1) →
      ep'.iface c.src = ep.iface d.1

/-- The condition for each event: not more interfaces are selected than the array has room for, the
lanes get connected as above, and the keys can be unpacked. -/
def Fine (st : State P) : Event P → Prop
  | .create p creation =>
      min (usable creation.interNode (cfg p).ifaces) (cfg p).multirails ≤ scpMaxLane
  | .connect p e peer f pairs => ∀ ep peerEp, (st.eps p)[e]? = some ep →
      (st.eps peer)[f]? = some peerEp → ep.conns = [] → Within ep peerEp pairs →
      ConnectFine cfg st p ep peer peerEp pairs
  | .exchange p peer => packedSize (cfg peer).tlMds ≤ scpMmPackSize ∧ (cfg peer).tlMds ≠ [] ∧
      Agree (cfg p).tlMds 0 (cfg peer).tlMds

/-- The condition for a run. -/
def FineRun : State P → List (Event P) → Prop
  | _, [] => True
  | st, event :: events => Fine cfg st event ∧ ∀ st', step cfg st event = some st' →
      FineRun st' events

end Steps

/-! ### The lanes of an endpoint -/

section Lanes

variable {cfg : Config} {creation : Creation}

/-- An interface is selected once. -/
theorem nodup_selected {interNode : Bool} : (selected cfg interNode).Nodup := by
  have hsub : ((cfg.ifaces.zipIdx.filter fun x => Usable interNode x.1).map Prod.snd).Sublist
      (cfg.ifaces.zipIdx.map Prod.snd) := List.filter_sublist.map _
  have hrange : cfg.ifaces.zipIdx.map Prod.snd = List.range cfg.ifaces.length := by
    rw [List.zipIdx_map_snd, List.range_eq_range']
  refine ((List.take_sublist _ _).trans hsub).nodup ?_
  rw [hrange]
  exact List.nodup_range

theorem selected_lt {interNode : Bool} {idx : ℕ} (h : idx ∈ selected cfg interNode) :
    idx < cfg.ifaces.length := by
  obtain ⟨⟨iface, i⟩, hi, rfl⟩ := List.mem_map.mp (List.mem_of_mem_take h)
  exact (List.getElem?_eq_some_iff.mp (List.mk_mem_zipIdx_iff_getElem?.mp
    (List.mem_of_mem_filter hi))).1

/-- The number of an element of a filtered list: those before it that are kept. -/
theorem countP_takeWhile {q : ℕ → Bool} : ∀ {l : List ℕ} {k x : ℕ}, l.Nodup →
    (l.filter q)[k]? = some x → (l.takeWhile (· ≠ x)).countP q = k
  | [], k, x, _, h => by simp at h
  | y :: l, k, x, hnodup, h => by
    obtain ⟨hy, hl⟩ := List.nodup_cons.mp hnodup
    by_cases hq : q y = true
    · rw [List.filter_cons_of_pos hq] at h
      cases k with
      | zero =>
        obtain rfl : y = x := Option.some.inj h
        rw [List.takeWhile_cons_of_neg (by simp), List.countP_nil]
      | succ k =>
        rw [List.getElem?_cons_succ] at h
        have hx : x ∈ l := List.mem_of_mem_filter (List.mem_of_getElem? h)
        have hne : y ≠ x := fun heq => hy (heq ▸ hx)
        rw [List.takeWhile_cons_of_pos (by simpa using hne), List.countP_cons_of_pos hq,
          countP_takeWhile hl h]
    · rw [List.filter_cons_of_neg hq] at h
      have hx : x ∈ l := List.mem_of_mem_filter (List.mem_of_getElem? h)
      have hne : y ≠ x := fun heq => hy (heq ▸ hx)
      rw [List.takeWhile_cons_of_pos (by simpa using hne), List.countP_cons_of_neg hq,
        countP_takeWhile hl h]

end Lanes

/-! ### What each event does -/

section Tables

variable {P : Type} {ep : Ep P} {e : ℕ}

theorem scpMemReg_getElem? {cfg : Config} {k md : ℕ} :
    (scpMemReg cfg)[k]? = some md ↔ k < cfg.tlMds.length ∧ k = md := by
  rw [scpMemReg, List.getElem?_eq_some_iff]
  simp

theorem getElem?_iface {lane : ℕ} (h : lane < ep.sctEpsRscIdx.length) :
    ep.sctEpsRscIdx[lane]? = some (ep.iface lane) := by
  rw [Ep.iface, List.getD_eq_getElem?_getD, List.getElem?_eq_getElem h, Option.getD_some]

theorem exists_lastIface {eps : List (Ep P)} (hep : ep ∈ eps) {lane : ℕ}
    (hlane : lane < ep.sctEpsRscIdx.length) : ∃ idx, lastIface eps lane = some idx := by
  rw [← Option.isSome_iff_exists, lastIface, List.findSome?_isSome_iff]
  refine ⟨ep.sctEpsRscIdx, List.mem_reverse.mpr (List.mem_map_of_mem hep), ?_⟩
  rw [List.getElem?_eq_getElem hlane]
  rfl

/-- Connecting leaves the interfaces of the lanes as they are. -/
theorem lastIface_set {eps : List (Ep P)} {new : Ep P} (hep : eps[e]? = some ep)
    (hnew : new.sctEpsRscIdx = ep.sctEpsRscIdx) : lastIface (eps.set e new) = lastIface eps := by
  obtain ⟨hlt, rfl⟩ := List.getElem?_eq_some_iff.mp hep
  have hmap : (eps.set e new).map Ep.sctEpsRscIdx = eps.map Ep.sctEpsRscIdx := by
    rw [List.map_set, hnew, ← List.getElem_map Ep.sctEpsRscIdx (h := by simpa using hlt)]
    exact List.set_getElem_self _
  funext lane
  rw [lastIface, hmap, lastIface]

end Tables

section Invariant

variable {P : Type} {cfg : P → Config} {st : State P} {p : P} {ep : Ep P}

/-- How the lanes of an endpoint came about, and what the table of the worker has of them. -/
structure Inv (cfg : P → Config) (st : State P) : Prop where
  right : Right cfg st
  made : ∀ p, ∀ ep ∈ st.eps p,
    ep.sctEpsRscIdx = (selected (cfg p) ep.creation.interNode).filter ep.creation.created
  table : ∀ p lane idx, lastIface (st.eps p) lane = some idx → st.iface2idx p lane = idx

/-- The number of a lane. -/
theorem createdBefore_iface (h : Inv cfg st) (hep : ep ∈ st.eps p) {lane : ℕ}
    (hlane : lane < ep.sctEpsRscIdx.length) :
    createdBefore (cfg p) ep.creation (ep.iface lane) = lane := by
  refine countP_takeWhile nodup_selected ?_
  rw [← h.made p ep hep, getElem?_iface hlane]

/-- What is registered for a lane is for its memory domain if the number of the domain is that of
the lane. -/
theorem memh_iff (h : Inv cfg st) (hep : ep ∈ st.eps p) {lane : ℕ}
    (hlane : lane < ep.sctEpsRscIdx.length) :
    (scpMemReg (cfg p))[lane]? = some ((cfg p).mdIndex (ep.iface lane)) ↔
      (cfg p).mdIndex (ep.iface lane) = createdBefore (cfg p) ep.creation (ep.iface lane) := by
  have hmem : ep.iface lane ∈ selected (cfg p) ep.creation.interNode := by
    have hlist : ep.iface lane ∈ ep.sctEpsRscIdx := List.mem_of_getElem? (getElem?_iface hlane)
    rw [h.made p ep hep] at hlist
    exact List.mem_of_mem_filter hlist
  have hlt := (cfg p).mdIndex_lt _ (selected_lt hmem)
  rw [scpMemReg_getElem?, createdBefore_iface h hep hlane]
  constructor
  · rintro ⟨-, heq⟩
    exact heq.symm
  · intro heq
    rw [heq] at hlt
    exact ⟨hlt, heq.symm⟩

theorem inv_init : Inv cfg (State.init P) := by
  refine ⟨⟨?_, ?_, ?_, ?_, ?_⟩, ?_, ?_⟩ <;> simp [State.init, lastIface]

end Invariant

section Events

variable {P : Type} [DecidableEq P] {cfg : P → Config} {st : State P} {p peer : P}
  {ep peerEp : Ep P}
  {e f : ℕ} {pairs : List (ℕ × ℕ)}

/-- A new endpoint has no lane that is connected. -/
theorem Inv.create {creation : Creation} (h : Inv cfg st) {lanes : List ℕ}
    (hlanes : lanes = (selected (cfg p) creation.interNode).filter creation.created) :
    Inv cfg { st with
      eps := Function.update st.eps p (st.eps p ++ [⟨creation, lanes, fun _ => 0, []⟩])
      iface2idx := Function.update st.iface2idx p fun epIdx =>
        lanes.getD epIdx (st.iface2idx p epIdx) } := by
  have hold {p' : P} {ep' : Ep P}
      (hep : ep' ∈ Function.update st.eps p (st.eps p ++ [⟨creation, lanes, fun _ => 0, []⟩]) p')
      {c : Conn P} (hc : c ∈ ep'.conns) : ep' ∈ st.eps p' := by
    by_cases hp : p' = p
    · subst hp
      rw [Function.update_self, List.mem_append, List.mem_singleton] at hep
      rcases hep with hep | rfl
      · exact hep
      · simp at hc
    · rwa [Function.update_of_ne hp] at hep
  refine ⟨⟨?_, ?_, ?_, ?_, h.right.keys⟩, ?_, ?_⟩
  · exact fun p' ep' hep c hc => h.right.memh p' ep' (hold hep hc) c hc
  · exact fun p' ep' hep c hc => h.right.rkey p' ep' (hold hep hc) c hc
  · exact fun p' ep' hep c hc => h.right.bandwidth p' ep' (hold hep hc) c hc
  · exact fun p' ep' hep c hc ep'' hep'' c' hc' =>
      h.right.marks p' ep' (hold hep hc) c hc ep'' (hold hep'' hc') c' hc'
  · intro p' ep' hep
    dsimp only at hep
    by_cases hp : p' = p
    · subst hp
      rw [Function.update_self, List.mem_append, List.mem_singleton] at hep
      rcases hep with hep | rfl
      · exact h.made p' ep' hep
      · exact hlanes
    · rw [Function.update_of_ne hp] at hep
      exact h.made p' ep' hep
  · intro p' lane idx hlast
    dsimp only at hlast ⊢
    by_cases hp : p' = p
    · subst hp
      rw [Function.update_self, lastIface, List.map_append, List.reverse_append] at hlast
      rw [Function.update_self]
      simp only [List.map_cons, List.map_nil, List.reverse_cons, List.reverse_nil, List.nil_append,
        List.cons_append, List.findSome?_cons] at hlast
      rcases hlane : lanes[lane]? with _ | i
      · rw [hlane] at hlast
        rw [List.getD_eq_getElem?_getD, hlane]
        exact h.table p' lane idx hlast
      · rw [hlane] at hlast
        rw [List.getD_eq_getElem?_getD, hlane]
        exact Option.some.inj hlast
    · rw [Function.update_of_ne hp] at hlast ⊢
      exact h.table p' lane idx hlast

/-- Connecting an endpoint of which nothing is connected yet. -/
theorem connect_iff (h : Inv cfg st) (he : (st.eps p)[e]? = some ep)
    (hf : (st.eps peer)[f]? = some peerEp) (hconns : ep.conns = [])
      (hpairs : Within ep peerEp pairs) :
    (ConnectFine cfg st p ep peer peerEp pairs →
      Inv cfg (connect cfg st p e ep peer peerEp pairs)) ∧
    (Right cfg (connect cfg st p e ep peer peerEp pairs) →
      ConnectFine cfg st p ep peer peerEp pairs) := by
  have hep : ep ∈ st.eps p := List.mem_of_getElem? he
  have hpeerEp : peerEp ∈ st.eps peer := List.mem_of_getElem? hf
  rw [connect, if_pos ⟨hconns, hpairs⟩]
  generalize hnew : scpConnectEp peer peerEp pairs (fillBandwidth (cfg p) (st.iface2idx p) ep) = new
  have hlanes : new.sctEpsRscIdx = ep.sctEpsRscIdx := by rw [← hnew]; rfl
  have hcreation : new.creation = ep.creation := by rw [← hnew]; rfl
  have hiface (lane : ℕ) : new.iface lane = ep.iface lane := by rw [Ep.iface, hlanes, Ep.iface]
  have hconn {c : Conn P} : c ∈ new.conns ↔
      ∃ d ∈ pairs, (⟨d.1, d.2, peer, peerEp.iface d.2⟩ : Conn P) = c := by
    rw [← hnew]
    exact List.mem_map
  have hbandwidth {d : ℕ × ℕ} (hd : d ∈ pairs) : ∃ idx, lastIface (st.eps p) d.1 = some idx ∧
      new.bandwidths d.1 = (cfg p).bandwidth idx := by
    obtain ⟨idx, hidx⟩ := exists_lastIface hep (hpairs d hd).1
    refine ⟨idx, hidx, ?_⟩
    rw [← hnew, ← h.table p d.1 idx hidx]
    exact if_pos (hpairs d hd).1
  have hmem {ep' : Ep P} (hep' : ep' ∈ (st.eps p).set e new) : ep' ∈ st.eps p ∨ ep' = new :=
    List.mem_or_eq_of_mem_set hep'
  -- the endpoints that have connected lanes stay
  have hstays {ep' : Ep P} (hep' : ep' ∈ st.eps p) {c : Conn P} (hc : c ∈ ep'.conns) :
      ep' ∈ (st.eps p).set e new := by
    obtain ⟨k, hk⟩ := List.mem_iff_getElem?.mp hep'
    have hne : e ≠ k := by
      rintro rfl
      obtain rfl := Option.some.inj (he.symm.trans hk)
      rw [hconns] at hc
      exact List.not_mem_nil hc
    exact List.mem_iff_getElem?.mpr ⟨k, by rw [List.getElem?_set_ne hne, hk]⟩
  have hnewMem : new ∈ (st.eps p).set e new :=
    List.mem_set (List.getElem?_eq_some_iff.mp he).1 _
  -- the lane of a connected one is the number of its memory domain
  have hslot {ep' : Ep P} (hep' : ep' ∈ st.eps p) {c : Conn P} (hc : c ∈ ep'.conns) :
      c.src = (cfg p).mdIndex (ep'.iface c.src) :=
    (scpMemReg_getElem?.mp (h.right.memh p ep' hep' c hc)).2
  constructor
  · intro hfine
    have hnum {d : ℕ × ℕ} (hd : d ∈ pairs) : d.1 = (cfg p).mdIndex (ep.iface d.1) := by
      rw [hfine.md d hd, createdBefore_iface h hep (hpairs d hd).1]
    have hsplit {p' : P} {ep' : Ep P}
      (hep' : ep' ∈ Function.update st.eps p ((st.eps p).set e new) p') :
        ep' ∈ st.eps p' ∨ p' = p ∧ ep' = new := by
      by_cases hp : p' = p
      · subst hp
        rw [Function.update_self] at hep'
        exact (hmem hep').imp_right fun heq => ⟨rfl, heq⟩
      · rw [Function.update_of_ne hp] at hep'
        exact .inl hep'
    have hmarks {d : ℕ × ℕ} (hd : d ∈ pairs) {ep' : Ep P} (hep' : ep' ∈ st.eps p) {c : Conn P}
        (hc : c ∈ ep'.conns) : d.1 = c.src ↔ ep.iface d.1 = ep'.iface c.src := by
      constructor
      · intro heq
        refine (hfine.marks d hd ep' hep' c hc ?_).symm
        rw [← hslot hep' hc, ← hnum hd, heq]
      · intro heq
        rw [hnum hd, heq, ← hslot hep' hc]
    refine ⟨⟨?_, ?_, ?_, ?_, h.right.keys⟩, ?_, ?_⟩
    · intro p' ep' hep' c hc
      rcases hsplit hep' with hold | ⟨rfl, rfl⟩
      · exact h.right.memh p' ep' hold c hc
      · obtain ⟨d, hd, rfl⟩ := hconn.mp hc
        rw [hiface]
        exact (memh_iff h hep (hpairs d hd).1).mpr (hfine.md d hd)
    · intro p' ep' hep' c hc
      rcases hsplit hep' with hold | ⟨rfl, rfl⟩
      · exact h.right.rkey p' ep' hold c hc
      · obtain ⟨d, hd, rfl⟩ := hconn.mp hc
        exact (memh_iff h hpeerEp (hpairs d hd).2).mpr (hfine.peerMd d hd)
    · intro p' ep' hep' c hc
      rcases hsplit hep' with hold | ⟨rfl, rfl⟩
      · exact h.right.bandwidth p' ep' hold c hc
      · obtain ⟨d, hd, rfl⟩ := hconn.mp hc
        obtain ⟨idx, hidx, hbw⟩ := hbandwidth hd
        rw [hbw, hiface]
        exact hfine.bandwidth d hd idx hidx
    · intro p' ep₁ hep₁ c₁ hc₁ ep₂ hep₂ c₂ hc₂
      rcases hsplit hep₁ with hold₁ | ⟨rfl, rfl⟩
      · rcases hsplit hep₂ with hold₂ | ⟨rfl, rfl⟩
        · exact h.right.marks p' ep₁ hold₁ c₁ hc₁ ep₂ hold₂ c₂ hc₂
        · obtain ⟨d, hd, rfl⟩ := hconn.mp hc₂
          rw [hiface, eq_comm, eq_comm (a := ep₁.iface _)]
          exact hmarks hd hold₁ hc₁
      · obtain ⟨d₁, hd₁, rfl⟩ := hconn.mp hc₁
        rw [hiface]
        rcases hsplit hep₂ with hold₂ | ⟨-, rfl⟩
        · exact hmarks hd₁ hold₂ hc₂
        · obtain ⟨d₂, hd₂, rfl⟩ := hconn.mp hc₂
          rw [hiface]
          refine ⟨fun heq => congrArg _ heq, fun heq => ?_⟩
          exact (hnum hd₁).trans ((congrArg _ heq).trans (hnum hd₂).symm)
    · intro p' ep' hep'
      rcases hsplit hep' with hold | ⟨rfl, rfl⟩
      · exact h.made p' ep' hold
      · rw [hlanes, hcreation]
        exact h.made p' ep hep
    · intro p' lane idx hlast
      dsimp only at hlast ⊢
      by_cases hp : p' = p
      · subst hp
        rw [Function.update_self, lastIface_set he hlanes] at hlast
        exact h.table p' lane idx hlast
      · rw [Function.update_of_ne hp] at hlast
        exact h.table p' lane idx hlast
  · intro hright
    have hin {ep' : Ep P} (hep' : ep' ∈ (st.eps p).set e new) :
        ep' ∈ Function.update st.eps p ((st.eps p).set e new) p := by
      rwa [Function.update_self]
    have hnewIn := hin hnewMem
    have hmemh {d : ℕ × ℕ} (hd : d ∈ pairs) :
        (scpMemReg (cfg p))[d.1]? = some ((cfg p).mdIndex (ep.iface d.1)) := by
      have := hright.memh p new hnewIn _ (hconn.mpr ⟨d, hd, rfl⟩)
      rwa [hiface] at this
    refine ⟨fun d hd => ?_, fun d hd => ?_, fun d hd idx hidx => ?_, fun d hd ep' hep' c hc heq =>
      ?_⟩
    · exact (memh_iff h hep (hpairs d hd).1).mp (hmemh hd)
    · refine (memh_iff h hpeerEp (hpairs d hd).2).mp ?_
      exact hright.rkey p new hnewIn _ (hconn.mpr ⟨d, hd, rfl⟩)
    · obtain ⟨idx', hidx', hbw⟩ := hbandwidth hd
      obtain rfl := Option.some.inj (hidx.symm.trans hidx')
      rw [← hbw, ← hiface]
      exact hright.bandwidth p new hnewIn _ (hconn.mpr ⟨d, hd, rfl⟩)
    · have hiff := hright.marks p ep' (hin (hstays hep' hc)) c hc new hnewIn _
        (hconn.mpr ⟨d, hd, rfl⟩)
      rw [hiface] at hiff
      refine hiff.mp ?_
      exact (hslot hep' hc).trans (heq.trans (scpMemReg_getElem?.mp (hmemh hd)).2.symm)

/-- An event of the fine kind keeps the invariant; another one does not, or it does not return. -/
theorem step_cases (h : Inv cfg st) (event : Event P) :
    (Fine cfg st event ∧ ∃ st', step cfg st event = some st' ∧ Inv cfg st') ∨
    (¬Fine cfg st event ∧ ∀ st', step cfg st event = some st' → ¬Right cfg st') := by
  cases event with
  | create p creation =>
    obtain ⟨hfull, hroom⟩ := createInner_take (cfg p).multirails creation.interNode (cfg p).ifaces
      creation.created
    by_cases hfits : min (usable creation.interNode (cfg p).ifaces) (cfg p).multirails ≤ scpMaxLane
    · obtain ⟨lanes, hlanes, hinner⟩ := hroom hfits
      refine .inl ⟨hfits, ?_⟩
      rw [step, create, hinner, Option.map_some]
      by_cases hnil : lanes.1 = []
      · rw [if_pos hnil]
        exact ⟨st, rfl, h⟩
      · rw [if_neg hnil]
        exact ⟨_, rfl, h.create hlanes⟩
    · refine .inr ⟨hfits, fun st' hst => ?_⟩
      rw [step, create, hfull (not_le.mp hfits)] at hst
      cases hst
  | connect p e peer f pairs =>
    have hsame (hstep : step cfg st (.connect p e peer f pairs) = some st)
        (hfine : Fine cfg st (.connect p e peer f pairs)) :
        (Fine cfg st (.connect p e peer f pairs) ∧
          ∃ st', step cfg st (.connect p e peer f pairs) = some st' ∧ Inv cfg st') ∨
        (¬Fine cfg st (.connect p e peer f pairs) ∧
          ∀ st', step cfg st (.connect p e peer f pairs) = some st' → ¬Right cfg st') :=
      .inl ⟨hfine, st, hstep, h⟩
    rcases he : (st.eps p)[e]? with _ | ep
    · exact hsame (by rw [step, he]) fun ep peerEp he' => by rw [he] at he'; cases he'
    rcases hf : (st.eps peer)[f]? with _ | peerEp
    · exact hsame (by rw [step, he, hf]) fun ep peerEp _ hf' => by rw [hf] at hf'; cases hf'
    have hstep : step cfg st (.connect p e peer f pairs) =
        some (connect cfg st p e ep peer peerEp pairs) := by
      rw [step, he, hf]
    by_cases hconns : ep.conns = [] ∧ Within ep peerEp pairs
    · have hfine : Fine cfg st (.connect p e peer f pairs) ↔
          ConnectFine cfg st p ep peer peerEp pairs := by
        simp only [Fine, he, hf, Option.some.injEq]
        exact ⟨fun hall => hall ep peerEp rfl rfl hconns.1 hconns.2,
          fun hone ep' peerEp' heq hpeq _ _ => heq ▸ hpeq ▸ hone⟩
      obtain ⟨hto, hfrom⟩ := connect_iff h he hf hconns.1 hconns.2
      rw [hfine, hstep]
      by_cases hcf : ConnectFine cfg st p ep peer peerEp pairs
      · exact .inl ⟨hcf, _, rfl, hto hcf⟩
      · exact .inr ⟨hcf, fun st' hst hright => hcf (hfrom (Option.some.inj hst ▸ hright))⟩
    · refine hsame (by rw [hstep, connect, if_neg hconns]) fun ep' peerEp' he' hf' hnil hin => ?_
      obtain rfl := Option.some.inj (he.symm.trans he')
      obtain rfl := Option.some.inj (hf.symm.trans hf')
      exact absurd ⟨hnil, hin⟩ hconns
  | exchange p peer =>
    have hkeys := unpack_pack_iff (cfg p).tlMds (cfg peer).tlMds
    by_cases hfine : Fine cfg st (.exchange p peer)
    · refine .inl
        ⟨hfine, _, rfl, ⟨⟨h.right.memh, h.right.rkey, h.right.bandwidth, h.right.marks, ?_⟩,
        h.made, h.table⟩⟩
      intro x hx
      rcases List.mem_cons.mp hx with rfl | hx
      · exact hkeys.mpr hfine
      · exact h.right.keys x hx
    · refine .inr ⟨hfine, fun st' hst hright => hfine ?_⟩
      obtain rfl := Option.some.inj hst
      exact hkeys.mp (hright.keys (p, peer) (List.mem_cons_self ..))

theorem keeps_of_inv (events : List (Event P)) {st : State P} (h : Inv cfg st) :
    Keeps cfg st events ↔ FineRun cfg st events :=
  keeps_iff_fineRun (Keeps cfg) (FineRun cfg) (fun _ hinv => hinv.right) (fun _ => Iff.rfl)
    (fun _ _ _ => Iff.rfl) (fun _ _ _ => Iff.rfl)
    (fun _ hinv event => step_cases hinv event) events st h

end Events

/-- In a run, every lane has what belongs to its interface, and every bundle the keys of the peer,
exactly when no creation selects more interfaces than there is room for; an interface that is
connected has as many before it that were created as there are memory domains before its own, on
both sides; the last endpoint with so many lanes has one as fast in its place; no two connected
interfaces share a memory domain; and keys are unpacked where the same memory domains have keys. -/
theorem resources_iff_fineRun {P : Type} [DecidableEq P] (cfg : P → Config)
    (events : List (Event P)) :
    Keeps cfg (State.init P) events ↔ FineRun cfg (State.init P) events :=
  keeps_of_inv events inv_init

/-- Two interfaces with a memory domain each. The first cannot be created for an endpoint: the lane
of the second is connected with the memory of the first. -/
theorem not_keeps_skipped :
    ¬Keeps (fun _ => ⟨2, [⟨0, false, true⟩, ⟨1, false, true⟩], [.rcAcc, .rcAcc], id, fun _ => 0,
        by decide⟩) (State.init Unit)
      [.create () ⟨false, fun idx => idx = 1⟩, .connect () 0 () 0 [(0, 0)]] := by
  rintro ⟨st, hst, -, st', hst', hright, -⟩
  obtain rfl := Option.some.inj hst
  obtain rfl := Option.some.inj hst'
  have := hright.memh () _ (List.mem_singleton.mpr rfl) _ (List.mem_singleton.mpr rfl)
  exact absurd this (by decide)

end LaneResources

end Kucg.Stars
