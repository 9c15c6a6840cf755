import Kucg.Algo.Ring
import Kucg.Algo.ScatterPuts
import Kucg.Lib.Placement
import Kucg.Stars.CommPlan

/-! What the offloaded long broadcasts have in common: a binomial scatter of the buffer in blocks,
    and a rolling allgather of the blocks.

    A rank has one entry for a peer, both in the tree and on the ring: the event of the scatter
    comes first, that of the ring last. So the entries are counted by their events
    (`CommDep.events`), and the indices that are found through the map are those of the entries
    (`PutPeers.Indexed`). -/

namespace Kucg.Stars

open Kucg.Algo Kucg.Lib

/-- `ucg_coll_bcast_args_t`, with what it needs of the datatype. -/
structure BcastArgs where
  root : ℕ
  count : ℕ
  dtSize : ℕ
  dtExtent : ℕ

/-- Which part of a long broadcast a request belongs to. -/
inductive LongPhase where
  | first
  | scatter
  | ring
  deriving DecidableEq, Repr

/-- `put_peer` with `put_event_num`, and `rank_idx_map`. -/
structure PutPeers where
  ranks : List RankInfo
  rankIdxMap : List (ℕ × ℕ)
  deriving Repr

namespace PutPeers

/-- `add_put_rank`. -/
def addPutRank (s : PutPeers) (peerId : ℕ) : PutPeers where
  ranks := s.ranks ++ [⟨peerId, 1⟩]
  rankIdxMap := (peerId, s.ranks.length) :: s.rankIdxMap

/-- A neighbour on the ring gets an entry, or one more event in the one that it has. -/
def addRollingPeer (s : PutPeers) (peerId : ℕ) : PutPeers :=
  match s.rankIdxMap.lookup peerId with
  | none => s.addPutRank peerId
  | some idx =>
    { s with ranks := s.ranks.modify idx fun info => { info with length := info.length + 1 } }

/-- The entries for the children, after those in `first`, and for the neighbours on the ring. -/
def build (first : List RankInfo) (children : List ℕ) (leftPeer rightPeer : ℕ) : PutPeers :=
  [leftPeer, rightPeer].foldl addRollingPeer (children.foldl addPutRank ⟨first, []⟩)

end PutPeers

/-- `get_peer_init`, for a rank with a parent or none. -/
def longGetPeers (leftPeer rightPeer : ℕ) : Option ℕ → List RankInfo
  | none => [⟨leftPeer, 1⟩, ⟨rightPeer, 1⟩]
  | some parent =>
    if parent = leftPeer then [⟨leftPeer, 2⟩, ⟨rightPeer, 1⟩]
    else if parent = rightPeer then [⟨leftPeer, 1⟩, ⟨rightPeer, 2⟩]
    else [⟨parent, 1⟩, ⟨leftPeer, 1⟩, ⟨rightPeer, 1⟩]

/-- `get_ranks[idx]` of the parent. -/
def longParentIdx (dep : CommDep) (parent : ℕ) : ℕ := if dep.getPeer 0 = parent then 0 else 1

/-- `get_ranks[idx]` of a neighbour on the ring. -/
def longRingIdx (dep : CommDep) (peer : ℕ) : ℕ :=
  let getRankNum := dep.getRanks.length
  if peer = dep.getPeer (getRankNum - 1) then getRankNum - 1 else getRankNum - 2

/-- `length` of `get_ranks[idx]`. -/
def CommDep.getLength (dep : CommDep) (idx : ℕ) : ℕ := (dep.getRanks.getD idx default).length

/-- `length` of `put_ranks[idx]`. -/
def CommDep.putLength (dep : CommDep) (idx : ℕ) : ℕ := (dep.putRanks.getD idx default).length

/-- `ofd_bntree_put_req`: the blocks of the sub-tree of `put_ranks[idx]`, whose number in the tree
    of `vsize` ranks is `peerVrank`, one request for each of them. -/
def longBntreePutReq (args : BcastArgs) (vsize : ℕ) (deps : ℕ → CommDep)
    (me idx peerVrank childSize : ℕ) : List (LongPhase × StreamTask Addr) :=
  let recvcount := args.count / vsize
  let division := args.count % vsize
  (List.range childSize).map fun blockIdx =>
    let sendDispls := peerVrank + blockIdx
    let sendcount := if sendDispls < vsize - 1 then recvcount else recvcount + division
    let sendOffset : ℕ := sendDispls * recvcount * args.dtExtent
    (.scatter, .put ((deps me).putPeer idx)
      (if blockIdx = childSize - 1 then putEvent deps CommDep.offsetCommon me idx 0 else none)
      (bytes .recv sendOffset (sendcount * args.dtExtent))
      (bytes .recv sendOffset (sendcount * args.dtExtent)))

/-- `ofd_rolling_put_req` for `put_ranks[idx]`. -/
def longRollingPutReq (args : BcastArgs) (vsize : ℕ) (deps : ℕ → CommDep) (me vrank : ℕ)
    (iter : RingIter) (idx : ℕ) : LongPhase × StreamTask Addr :=
  let recvcount := args.count / vsize
  let lastcount := args.count % vsize + args.count / vsize
  let stepIdx := iter.idx
  let peer := if (vrank + stepIdx) % 2 ≠ 0 then iter.left else iter.right
  let blockIdx :=
    if peer = iter.right then (vrank + vsize - stepIdx / 2) % vsize
    else (vrank + stepIdx / 2 + vsize) % vsize
  let sendOffset : ℕ := blockIdx * recvcount * args.dtExtent
  let count := if blockIdx = vsize - 1 then lastcount else recvcount
  let length := count * args.dtSize
  (.ring, .put ((deps me).putPeer idx)
    (putEvent deps CommDep.offsetCommon me idx ((deps me).putLength idx - 1))
    (bytes .recv sendOffset length) (bytes .recv sendOffset length))

/-- `ofd_wait_req` for `get_ranks[idx]`. -/
def longWaitReq (phase : LongPhase) (eidIdx : ℕ) (dep : CommDep) (idx : ℕ) :
    LongPhase × StreamTask Addr := (phase, .wait (waitEvent dep CommDep.offsetCommon idx eidIdx))

/-- A round of the loop of `allgather_submit` with the neighbour `peerId`; `peerVrank` gives the
    number of the peer in an entry, and `none` is `UCG_ERR_NO_RESOURCE`. -/
def longAllgatherStep (args : BcastArgs) (vsize : ℕ) (deps : ℕ → CommDep)
    (rankIdxMap : List (ℕ × ℕ)) (me vrank : ℕ) (iter : RingIter) (peerId : ℕ)
    (peerVrank : ℕ → ℕ) : Option (List (LongPhase × StreamTask Addr)) := do
  let peerIdx ← rankIdxMap.lookup peerId
  let getIdx := longRingIdx (deps me) peerId
  let put := longRollingPutReq args vsize deps me vrank iter peerIdx
  let wait := longWaitReq .ring ((deps me).getLength getIdx - 1) (deps me) getIdx
  return if vrank > peerVrank ((deps me).putPeer peerIdx) then [put, wait] else [wait, put]

/-! ### Entries and events -/

/-- The events in the entries for a peer. -/
def CommDep.events (ranks : List RankInfo) (peer : ℕ) : ℕ :=
  ((ranks.filter fun info => info.peerId = peer).map (·.length)).sum

namespace PutPeers

/-- The peers of the entries. -/
def ids (s : PutPeers) : List ℕ := s.ranks.map (·.peerId)

/-- The map has the indices of the entries from `skip` on, of which there is one for a peer. -/
structure Indexed (skip : ℕ) (s : PutPeers) : Prop where
  nodup : s.ids.Nodup
  skip_le : skip ≤ s.ids.length
  found : ∀ r i, s.rankIdxMap.lookup r = some i → s.ids[i]? = some r
  missing : ∀ r, s.rankIdxMap.lookup r = none → r ∉ s.ids.drop skip

variable {s : PutPeers} {skip r : ℕ}

theorem map_modify {f : RankInfo → RankInfo} (hf : ∀ x, (f x).peerId = x.peerId) :
    ∀ {l : List RankInfo} {i : ℕ}, (l.modify i f).map (·.peerId) = l.map (·.peerId)
  | [], _ => by simp
  | x :: l, 0 => by simp [hf]
  | x :: l, i + 1 => by
    rw [List.modify_succ_cons, List.map_cons, map_modify hf, List.map_cons]

theorem ids_addPutRank : (s.addPutRank r).ids = s.ids ++ [r] := by
  rw [ids, addPutRank, List.map_append]
  rfl

theorem ids_addRollingPeer : (s.addRollingPeer r).ids =
    if s.rankIdxMap.lookup r = none then s.ids ++ [r] else s.ids := by
  rw [addRollingPeer]
  cases h : s.rankIdxMap.lookup r with
  | none => rw [if_pos rfl]; exact ids_addPutRank
  | some idx =>
    rw [if_neg (by simp)]
    exact map_modify (f := fun info => { info with length := info.length + 1 }) fun _ => rfl

theorem lookup_addPutRank {r' : ℕ} : (s.addPutRank r).rankIdxMap.lookup r' =
    if r' = r then some s.ids.length else s.rankIdxMap.lookup r' := by
  rw [addPutRank, List.lookup_cons, ids, List.length_map]
  by_cases h : r' = r
  · rw [if_pos h, beq_iff_eq.mpr h]
  · rw [if_neg h, beq_eq_false_iff_ne.mpr h]

theorem lookup_addRollingPeer (r' : ℕ) : (s.addRollingPeer r).rankIdxMap.lookup r' =
    if r' = r ∧ s.rankIdxMap.lookup r = none then some s.ids.length
    else s.rankIdxMap.lookup r' := by
  rw [addRollingPeer]
  cases h : s.rankIdxMap.lookup r with
  | none =>
    dsimp only
    rw [lookup_addPutRank]
    exact if_congr (and_iff_left rfl).symm rfl rfl
  | some idx => rw [if_neg (by simp)]

theorem Indexed.addPutRank (h : s.Indexed skip) (hr : r ∉ s.ids) :
    (s.addPutRank r).Indexed skip where
  nodup := by
    rw [ids_addPutRank, List.nodup_append]
    refine ⟨h.nodup, List.nodup_singleton r, fun a ha b hb => ?_⟩
    rw [List.mem_singleton.mp hb]
    exact fun heq => hr (heq ▸ ha)
  skip_le := by
    rw [ids_addPutRank, List.length_append]
    exact h.skip_le.trans (Nat.le_add_right ..)
  found r' i := by
    rw [ids_addPutRank, lookup_addPutRank]
    split_ifs with hr'
    · intro hi
      obtain rfl := Option.some.inj hi
      rw [List.getElem?_append_right le_rfl, Nat.sub_self, hr']
      rfl
    · intro hi
      have hfound := h.found r' i hi
      rwa [List.getElem?_append_left (List.getElem?_eq_some_iff.mp hfound).1]
  missing r' := by
    rw [ids_addPutRank, lookup_addPutRank, List.drop_append_of_le_length h.skip_le]
    split_ifs with hr'
    · exact fun hi => absurd hi (by simp)
    · intro hi hmem
      rcases List.mem_append.mp hmem with hmem | hmem
      · exact h.missing r' hi hmem
      · exact hr' (List.mem_singleton.mp hmem)

theorem Indexed.addRollingPeer (h : s.Indexed skip) (hr : r ∉ s.ids.take skip) :
    (s.addRollingPeer r).Indexed skip := by
  have hids := ids_addRollingPeer (s := s) (r := r)
  have hlookup (r' : ℕ) := lookup_addRollingPeer (s := s) (r := r) r'
  cases hl : s.rankIdxMap.lookup r with
  | none =>
    have hmem : r ∉ s.ids := by
      rw [← List.take_append_drop skip s.ids, List.mem_append, not_or]
      exact ⟨hr, h.missing r hl⟩
    have hadd := h.addPutRank hmem
    rwa [PutPeers.addRollingPeer, hl]
  | some idx =>
    rw [if_neg (by simp [hl])] at hids
    simp only [hl, reduceCtorEq, and_false, if_false] at hlookup
    exact ⟨hids ▸ h.nodup, hids ▸ h.skip_le, fun r' i hi => hids ▸ h.found r' i (hlookup r' ▸ hi),
      fun r' hi => hids ▸ h.missing r' (hlookup r' ▸ hi)⟩

/-- Either way there is one more event for the peer. -/
theorem events_addPutRank {q : ℕ} : CommDep.events (s.addPutRank r).ranks q =
    CommDep.events s.ranks q + if r = q then 1 else 0 := by
  rw [CommDep.events, addPutRank, List.filter_append, List.map_append, List.sum_append,
    CommDep.events, List.filter_singleton]
  by_cases h : r = q <;> simp [h]

theorem events_modify {q : ℕ} : ∀ {l : List RankInfo} {i : ℕ},
    (l.map (·.peerId))[i]? = some r →
    CommDep.events (l.modify i fun info => { info with length := info.length + 1 }) q =
      CommDep.events l q + if r = q then 1 else 0
  | [], _, h => by simp at h
  | x :: l, 0, h => by
    rw [List.map_cons, List.getElem?_cons_zero, Option.some.injEq] at h
    subst h
    rw [List.modify_zero_cons, CommDep.events, CommDep.events, List.filter_cons, List.filter_cons]
    by_cases hq : x.peerId = q
    · simp only [hq, decide_true, if_true, List.map_cons, List.sum_cons]
      omega
    · simp [hq]
  | x :: l, i + 1, h => by
    rw [List.map_cons, List.getElem?_cons_succ] at h
    have ih := events_modify (q := q) h
    rw [CommDep.events, CommDep.events] at ih
    rw [List.modify_succ_cons, CommDep.events, CommDep.events, List.filter_cons, List.filter_cons]
    by_cases hq : x.peerId = q
    · simp only [hq, decide_true, if_true, List.map_cons, List.sum_cons, ih]
      omega
    · simpa only [hq, decide_false, Bool.false_eq_true, if_false] using ih

theorem Indexed.events_addRollingPeer (h : s.Indexed skip) {q : ℕ} :
    CommDep.events (s.addRollingPeer r).ranks q =
      CommDep.events s.ranks q + if r = q then 1 else 0 := by
  rw [PutPeers.addRollingPeer]
  cases hl : s.rankIdxMap.lookup r with
  | none => exact events_addPutRank
  | some idx => exact events_modify (h.found r idx hl)

/-! The entries of a rank. -/

variable {first : List RankInfo} {children : List ℕ}

theorem foldl_addPutRank : ∀ {children : List ℕ} {s : PutPeers}, s.Indexed skip →
    (s.ids ++ children).Nodup → (children.foldl PutPeers.addPutRank s).Indexed skip ∧
      (children.foldl PutPeers.addPutRank s).ids = s.ids ++ children ∧
      ∀ q, CommDep.events (children.foldl PutPeers.addPutRank s).ranks q =
        CommDep.events s.ranks q + children.count q
  | [], s, h, _ => ⟨h, (List.append_nil _).symm, fun _ => rfl⟩
  | c :: cs, s, h, hnodup => by
    have hc : c ∉ s.ids := fun hmem =>
      (List.nodup_append.mp hnodup).2.2 c hmem c List.mem_cons_self rfl
    have hnodup' : ((s.addPutRank c).ids ++ cs).Nodup := by
      rwa [ids_addPutRank, List.append_assoc, List.singleton_append]
    obtain ⟨h₁, h₂, h₃⟩ := foldl_addPutRank (h.addPutRank hc) hnodup'
    refine ⟨h₁, ?_, fun q => ?_⟩
    · rw [List.foldl_cons, h₂, ids_addPutRank, List.append_assoc, List.singleton_append]
    · rw [List.foldl_cons, h₃, events_addPutRank, List.count_cons]
      by_cases hcq : c = q
      · simp [hcq]
        omega
      · simp [hcq]

theorem indexed_first (h : (first.map (·.peerId)).Nodup) :
    (⟨first, []⟩ : PutPeers).Indexed first.length where
  nodup := h
  skip_le := (List.length_map ..).ge
  found r i hi := by simp at hi
  missing r _ hmem := by
    rw [ids, List.drop_of_length_le (List.length_map ..).le] at hmem
    exact List.not_mem_nil hmem

/-- What the entries are. -/
structure Built (first : List RankInfo) (children : List ℕ) (leftPeer rightPeer : ℕ)
    (s : PutPeers) : Prop where
  nodup : s.ids.Nodup
  starts_with : first.map (·.peerId) ++ children <+: s.ids
  found : ∀ r i, s.rankIdxMap.lookup r = some i → s.ids[i]? = some r
  left_found : (s.rankIdxMap.lookup leftPeer).isSome
  right_found : (s.rankIdxMap.lookup rightPeer).isSome
  events : ∀ q, CommDep.events s.ranks q = CommDep.events first q + children.count q +
    (if leftPeer = q then 1 else 0) + if rightPeer = q then 1 else 0

theorem built {leftPeer rightPeer : ℕ} (hnodup : (first.map (·.peerId) ++ children).Nodup)
    (hleft : leftPeer ∉ first.map (·.peerId)) (hright : rightPeer ∉ first.map (·.peerId)) :
    Built first children leftPeer rightPeer (build first children leftPeer rightPeer) := by
  obtain ⟨h, hids, hevents⟩ := foldl_addPutRank (s := ⟨first, []⟩)
    (indexed_first (List.nodup_append.mp hnodup).1) hnodup
  have hlen : first.length = (first.map (·.peerId)).length := (List.length_map ..).symm
  have htake {t : PutPeers} (ht : first.map (·.peerId) <+: t.ids) :
      t.ids.take first.length = first.map (·.peerId) := by
    rw [hlen]
    exact (List.prefix_iff_eq_take.mp ht).symm
  have hpre : first.map (·.peerId) <+: (children.foldl addPutRank ⟨first, []⟩).ids := by
    rw [hids]
    exact List.prefix_append ..
  have hgrow {t : PutPeers} {r : ℕ} : t.ids <+: (t.addRollingPeer r).ids := by
    rw [ids_addRollingPeer]
    split_ifs
    · exact List.prefix_append ..
    · exact List.prefix_rfl
  have h₁ := h.addRollingPeer (r := leftPeer) (by rwa [htake hpre])
  have h₂ := h₁.addRollingPeer (r := rightPeer) (by rwa [htake (hpre.trans hgrow)])
  have hbuild : build first children leftPeer rightPeer =
      ((children.foldl addPutRank ⟨first, []⟩).addRollingPeer leftPeer).addRollingPeer rightPeer :=
    rfl
  rw [hbuild]
  refine ⟨h₂.nodup, ?_, h₂.found, ?_, ?_, fun q => ?_⟩
  · have hle := hgrow (t := children.foldl addPutRank ⟨first, []⟩) (r := leftPeer)
    rw [hids] at hle
    exact hle.trans hgrow
  · rw [lookup_addRollingPeer]
    split_ifs
    · rfl
    · rw [lookup_addRollingPeer]
      split_ifs with hnone
      · rfl
      · exact Option.ne_none_iff_isSome.mp fun hh => hnone ⟨rfl, hh⟩
  · rw [lookup_addRollingPeer]
    split_ifs with hnone
    · rfl
    · exact Option.ne_none_iff_isSome.mp fun hh => hnone ⟨rfl, hh⟩
  · rw [h₁.events_addRollingPeer, h.events_addRollingPeer, hevents]

/-- An entry has all events for its peer. -/
theorem length_eq_events : ∀ {l : List RankInfo} {i : ℕ}, (l.map (·.peerId)).Nodup →
    (l.map (·.peerId))[i]? = some r → l[i]? = some ⟨r, CommDep.events l r⟩
  | [], _, _, h => by simp at h
  | x :: l, 0, hnodup, h => by
    rw [List.map_cons, List.getElem?_cons_zero, Option.some.injEq] at h
    subst h
    have hnil : l.filter (fun info => info.peerId = x.peerId) = [] := by
      refine List.filter_eq_nil_iff.mpr fun y hy heq => ?_
      rw [List.map_cons, List.nodup_cons] at hnodup
      exact hnodup.1 (of_decide_eq_true heq ▸ List.mem_map_of_mem (f := (·.peerId)) hy)
    rw [CommDep.events, List.filter_cons, if_pos (by simp), hnil]
    rfl
  | x :: l, i + 1, hnodup, h => by
    rw [List.map_cons, List.getElem?_cons_succ] at h
    rw [List.map_cons, List.nodup_cons] at hnodup
    have hne : x.peerId ≠ r := fun heq => hnodup.1 (heq ▸ List.mem_of_getElem? h)
    rw [List.getElem?_cons_succ, length_eq_events hnodup.2 h, CommDep.events, CommDep.events,
      List.filter_cons, if_neg (by simpa using hne)]

end PutPeers

/-! ### The plans of all ranks -/

/-- The entry in front of those for the children. -/
def longFirst (more : Bool) (k : ℕ) (real : ℕ → ℕ) (v : ℕ) : List RankInfo :=
  if more ∧ v = 0 then [⟨real k, 1⟩] else []

/-- The entries of `k` ranks on the ring, and of the one that rank 0 serves first. -/
structure LongPlan (more : Bool) (k : ℕ) (real : ℕ → ℕ) (deps : ℕ → CommDep)
    (maps : ℕ → List (ℕ × ℕ)) : Prop where
  three : 3 ≤ k
  inj : ∀ v < scatterRanks more k, ∀ w < scatterRanks more k, real v = real w → v = w
  get_ring : ∀ v < k, (deps (real v)).getRanks = longGetPeers (real (leftOf k v))
    (real (rightOf k v)) (if v = 0 then none else some (real (kntreeParent 2 v)))
  get_more : more = true → (deps (real k)).getRanks = [⟨real 0, 1⟩]
  put_ring : ∀ v < k, (⟨(deps (real v)).putRanks, maps (real v)⟩ : PutPeers) =
    .build (longFirst more k real v) ((kntreeChildren k 2 v).map real) (real (leftOf k v))
      (real (rightOf k v))
  put_more : more = true → (deps (real k)).putRanks = []

/-- The slots of events 0 (of the scatter), 1 (from the left) and 2 (from the right). -/
noncomputable def longSlot (k v e : ℕ) : ℕ :=
  if v = 0 then if e = 0 then 2 else if e ≤ 2 then e - 1 else e
  else if v < k ∧ kntreeParent 2 v ≠ leftOf k v ∧ kntreeParent 2 v = rightOf k v then
    if e = 0 then 1 else if e = 1 then 0 else e
  else e

theorem longSlot_inj {k v e e' : ℕ} (h : longSlot k v e = longSlot k v e') : e = e' := by
  rw [longSlot, longSlot] at h
  split_ifs at h <;> omega

theorem longSlot_last {k : ℕ} (hk : 0 < k) : longSlot k k 0 = 0 := by
  rw [longSlot, if_neg hk.ne', if_neg fun hh => lt_irrefl k hh.1]

namespace LongPlan

variable {more : Bool} {k : ℕ} {real : ℕ → ℕ} {deps : ℕ → CommDep} {maps : ℕ → List (ℕ × ℕ)}
  {v w : ℕ}

theorem real_inj (h : LongPlan more k real deps maps) (hv : v < k) (hw : w < k) :
    real v = real w ↔ v = w :=
  ⟨h.inj v (hv.trans_le le_scatterRanks) w (hw.trans_le le_scatterRanks), fun heq => heq ▸ rfl⟩

/-- The entries of a rank that it gets from, and their slots. -/
theorem getRanks_cases (h : LongPlan more k real deps maps) (hv : v < k) :
    v = 0 ∧ (deps (real v)).getRanks = [⟨real (leftOf k v), 1⟩, ⟨real (rightOf k v), 1⟩] ∧
        longSlot k v 1 = 0 ∧ longSlot k v 2 = 1 ∨
      0 < v ∧ kntreeParent 2 v = leftOf k v ∧
        (deps (real v)).getRanks = [⟨real (leftOf k v), 2⟩, ⟨real (rightOf k v), 1⟩] ∧
        longSlot k v 0 = 0 ∧ longSlot k v 1 = 1 ∧ longSlot k v 2 = 2 ∨
      0 < v ∧ kntreeParent 2 v = rightOf k v ∧
        (deps (real v)).getRanks = [⟨real (leftOf k v), 1⟩, ⟨real (rightOf k v), 2⟩] ∧
        longSlot k v 0 = 1 ∧ longSlot k v 1 = 0 ∧ longSlot k v 2 = 2 ∨
      0 < v ∧ kntreeParent 2 v ≠ leftOf k v ∧ kntreeParent 2 v ≠ rightOf k v ∧
        (deps (real v)).getRanks = [⟨real (kntreeParent 2 v), 1⟩, ⟨real (leftOf k v), 1⟩,
          ⟨real (rightOf k v), 1⟩] ∧
        longSlot k v 0 = 0 ∧ longSlot k v 1 = 1 ∧ longSlot k v 2 = 2 := by
  have hthree := h.three
  have hl := leftOf_lt (v := v) (by omega : 0 < k)
  have hr := rightOf_lt (v := v) (by omega : 0 < k)
  have hget := h.get_ring v hv
  rcases Nat.eq_zero_or_pos v with rfl | hpos
  · exact Or.inl ⟨rfl, hget, rfl, rfl⟩
  have hp := (kntreeParent_lt (by decide : 1 < 2) hpos).trans hv
  rw [if_neg hpos.ne', longGetPeers] at hget
  simp only [h.real_inj hp hl, h.real_inj hp hr] at hget
  have hslot (e : ℕ) (hnot : ¬(kntreeParent 2 v ≠ leftOf k v ∧ kntreeParent 2 v = rightOf k v)) :
      longSlot k v e = e := by
    rw [longSlot, if_neg hpos.ne', if_neg fun hh => hnot hh.2]
  by_cases hleft : kntreeParent 2 v = leftOf k v
  · rw [if_pos hleft] at hget
    exact Or.inr (Or.inl ⟨hpos, hleft, hget, hslot _ fun hh => hh.1 hleft,
      hslot _ fun hh => hh.1 hleft, hslot _ fun hh => hh.1 hleft⟩)
  by_cases hright : kntreeParent 2 v = rightOf k v
  · rw [if_neg hleft, if_pos hright] at hget
    have hslot' (e : ℕ) : longSlot k v e = if e = 0 then 1 else if e = 1 then 0 else e := by
      rw [longSlot, if_neg hpos.ne', if_pos ⟨hv, hleft, hright⟩]
    exact Or.inr (Or.inr (Or.inl ⟨hpos, hright, hget, hslot' 0, hslot' 1, hslot' 2⟩))
  · rw [if_neg hleft, if_neg hright] at hget
    exact Or.inr (Or.inr (Or.inr ⟨hpos, hleft, hright, hget, hslot _ fun hh => hright hh.2,
      hslot _ fun hh => hright hh.2, hslot _ fun hh => hright hh.2⟩))

/-- Entry `j` of rank `q` is the one for `peer`; it has `len` events from the slot `off` on. -/
structure Entry (dep : CommDep) (peer j len off : ℕ) : Prop where
  get : dep.getRanks[j]? = some ⟨peer, len⟩
  nth : CommDep.nthOf dep.getRanks peer 0 = some j
  offset : dep.offsetCommon j = off
  length : len = CommDep.events dep.getRanks peer

theorem entry_two {dep : CommDep} {x y : RankInfo} (hget : dep.getRanks = [x, y])
    (hne : x.peerId ≠ y.peerId) :
    Entry dep x.peerId 0 x.length 0 ∧ Entry dep y.peerId 1 y.length x.length := by
  refine ⟨⟨?_, ?_, ?_, ?_⟩, ?_, ?_, ?_, ?_⟩ <;>
    simp [hget, CommDep.nthOf_two, CommDep.offsetCommon, CommDep.events, hne, hne.symm]

theorem entry_three {dep : CommDep} {x y z : RankInfo} (hget : dep.getRanks = [x, y, z])
    (hxy : x.peerId ≠ y.peerId) (hxz : x.peerId ≠ z.peerId) (hyz : y.peerId ≠ z.peerId) :
    Entry dep x.peerId 0 x.length 0 ∧ Entry dep y.peerId 1 y.length x.length ∧
      Entry dep z.peerId 2 z.length (x.length + y.length) := by
  refine ⟨⟨?_, ?_, ?_, ?_⟩, ⟨?_, ?_, ?_, ?_⟩, ?_, ?_, ?_, ?_⟩ <;>
    simp [hget, CommDep.nthOf_three, CommDep.offsetCommon, CommDep.events, hxy, hxz, hyz, hxy.symm,
      hxz.symm, hyz.symm]

/-- The entries of the neighbours, and the slots of their last events. -/
theorem entry_ring (h : LongPlan more k real deps maps) (hv : v < k) :
    (∃ len off, Entry (deps (real v)) (real (leftOf k v))
      (longRingIdx (deps (real v)) (real (leftOf k v))) len off ∧
        off + (len - 1) = longSlot k v 1) ∧
    ∃ len off, Entry (deps (real v)) (real (rightOf k v))
      (longRingIdx (deps (real v)) (real (rightOf k v))) len off ∧
        off + (len - 1) = longSlot k v 2 := by
  have hthree := h.three
  have hl := leftOf_lt (v := v) (by omega : 0 < k)
  have hr := rightOf_lt (v := v) (by omega : 0 < k)
  have hlr : real (leftOf k v) ≠ real (rightOf k v) := fun heq =>
    leftOf_ne_rightOf hthree hv ((h.real_inj hl hr).mp heq)
  -- two entries: those of the neighbours
  have htwo (a b : ℕ) (hget : (deps (real v)).getRanks =
      [⟨real (leftOf k v), a⟩, ⟨real (rightOf k v), b⟩]) :
      Entry (deps (real v)) (real (leftOf k v))
          (longRingIdx (deps (real v)) (real (leftOf k v))) a 0 ∧
        Entry (deps (real v)) (real (rightOf k v))
          (longRingIdx (deps (real v)) (real (rightOf k v))) b a := by
    have hidx₁ : longRingIdx (deps (real v)) (real (leftOf k v)) = 0 := by
      simp [longRingIdx, CommDep.getPeer, hget, hlr]
    have hidx₂ : longRingIdx (deps (real v)) (real (rightOf k v)) = 1 := by
      simp [longRingIdx, CommDep.getPeer, hget]
    rw [hidx₁, hidx₂]
    exact entry_two hget hlr
  rcases h.getRanks_cases hv with ⟨-, hget, h₁, h₂⟩ | ⟨-, -, hget, -, h₁, h₂⟩ |
    ⟨-, -, hget, -, h₁, h₂⟩ | ⟨hpos, hpl, hpr, hget, -, h₁, h₂⟩
  · obtain ⟨hleft, hright⟩ := htwo _ _ hget
    exact ⟨⟨_, _, hleft, h₁.symm⟩, _, _, hright, h₂.symm⟩
  · obtain ⟨hleft, hright⟩ := htwo _ _ hget
    exact ⟨⟨_, _, hleft, h₁.symm⟩, _, _, hright, h₂.symm⟩
  · obtain ⟨hleft, hright⟩ := htwo _ _ hget
    exact ⟨⟨_, _, hleft, h₁.symm⟩, _, _, hright, h₂.symm⟩
  · have hp := (kntreeParent_lt (by decide : 1 < 2) hpos).trans hv
    have hidx₁ : longRingIdx (deps (real v)) (real (leftOf k v)) = 1 := by
      simp [longRingIdx, CommDep.getPeer, hget, hlr]
    have hidx₂ : longRingIdx (deps (real v)) (real (rightOf k v)) = 2 := by
      simp [longRingIdx, CommDep.getPeer, hget]
    obtain ⟨-, hleft, hright⟩ := entry_three hget
      (fun heq => hpl ((h.real_inj hp hl).mp heq)) (fun heq => hpr ((h.real_inj hp hr).mp heq)) hlr
    rw [hidx₁, hidx₂]
    exact ⟨⟨_, _, hleft, h₁.symm⟩, _, _, hright, h₂.symm⟩

/-- The entry of the parent, and the slot of its first event. -/
theorem entry_parent (h : LongPlan more k real deps maps) (hv : v < k) (hpos : 0 < v) :
    ∃ len, Entry (deps (real v)) (real (kntreeParent 2 v))
      (longParentIdx (deps (real v)) (real (kntreeParent 2 v))) len (longSlot k v 0) := by
  have hthree := h.three
  have hl := leftOf_lt (v := v) (by omega : 0 < k)
  have hr := rightOf_lt (v := v) (by omega : 0 < k)
  have hlr : real (leftOf k v) ≠ real (rightOf k v) := fun heq =>
    leftOf_ne_rightOf hthree hv ((h.real_inj hl hr).mp heq)
  have hidx {x : RankInfo} {l : List RankInfo} (hget : (deps (real v)).getRanks = x :: l)
    (peer : ℕ) :
      longParentIdx (deps (real v)) peer = if x.peerId = peer then 0 else 1 := by
    simp [longParentIdx, CommDep.getPeer, hget]
  rcases h.getRanks_cases hv with ⟨rfl, -⟩ | ⟨-, hp, hget, h₀, -⟩ | ⟨-, hp, hget, h₀, -⟩ |
    ⟨-, hpl, hpr, hget, h₀, -⟩
  · exact absurd hpos (lt_irrefl 0)
  · rw [hp, h₀, hidx hget, if_pos rfl]
    exact ⟨_, (entry_two hget hlr).1⟩
  · rw [hp, h₀, hidx hget, if_neg hlr]
    exact ⟨_, (entry_two hget hlr).2⟩
  · have hp := (kntreeParent_lt (by decide : 1 < 2) hpos).trans hv
    rw [h₀, hidx hget, if_pos rfl]
    exact ⟨_, (entry_three hget (fun heq => hpl ((h.real_inj hp hl).mp heq))
      (fun heq => hpr ((h.real_inj hp hr).mp heq)) hlr).1⟩

/-- The entry of the rank that is served first. -/
theorem entry_more (h : LongPlan more k real deps maps) (hmore : more = true) :
    Entry (deps (real k)) (real 0) 0 1 0 := by
  have hget := h.get_more hmore
  refine ⟨?_, ?_, rfl, ?_⟩
  · rw [hget]
    rfl
  · simp [CommDep.nthOf, hget]
  · simp [CommDep.events, hget]

/-- The event of a put, by the entry of the peer. -/
theorem putEvent_eq {me i peer len' j len off eid : ℕ}
    (hnodup : ((deps me).putRanks.map (·.peerId)).Nodup)
    (hput : (deps me).putRanks[i]? = some ⟨peer, len'⟩) (hentry : Entry (deps peer) me j len off) :
    putEvent deps CommDep.offsetCommon me i eid = some (off + eid) := by
  have hpeer : (deps me).putPeer i = peer := by
    rw [CommDep.putPeer, List.getD_eq_getElem?_getD, hput]
    rfl
  have hcount : ((deps me).putRanks.take i).countP (fun info => info.peerId = peer) = 0 := by
    refine List.countP_eq_zero.mpr fun x hx heq => ?_
    obtain ⟨i', hi', hx'⟩ := List.mem_take_iff_getElem.mp hx
    have hi'' := (List.getElem?_eq_some_iff.mp hput).1
    have hlt : i' < i := by omega
    have heq' : ((deps me).putRanks.map (·.peerId))[i']? =
        ((deps me).putRanks.map (·.peerId))[i]? := by
      rw [List.getElem?_map, List.getElem?_map, hput, List.getElem?_eq_getElem (by omega), hx',
        Option.map_some, of_decide_eq_true heq]
      rfl
    have hinj := (List.getElem?_inj (by rw [List.length_map]; omega) hnodup).mp heq'
    omega
  rw [putEvent, CommDep.matched, hpeer, hcount, hentry.nth, Option.map_some, hentry.offset]

theorem events_longGetPeers {L R q : ℕ} : ∀ {parent : Option ℕ},
    CommDep.events (longGetPeers L R parent) q =
      (if L = q then 1 else 0) + (if R = q then 1 else 0) + if parent = some q then 1 else 0
  | none => by
    rw [longGetPeers, CommDep.events]
    by_cases hL : L = q <;> by_cases hR : R = q <;> simp [hL, hR]
  | some p => by
    rw [longGetPeers]
    simp only [Option.some.injEq]
    split_ifs <;> simp_all [CommDep.events]

theorem children_lt {c : ℕ} (hc : c ∈ kntreeChildren k 2 v) : c < k := (mem_kntreeRest.mp hc).1

/-- What the entries of a rank that it puts to are. -/
theorem built (h : LongPlan more k real deps maps) (hv : v < k) :
    PutPeers.Built (longFirst more k real v) ((kntreeChildren k 2 v).map real) (real (leftOf k v))
      (real (rightOf k v)) ⟨(deps (real v)).putRanks, maps (real v)⟩ := by
  have hthree := h.three
  have hne {w : ℕ} (hw : w < k) (hmem : real w ∈ (longFirst more k real v).map (·.peerId)) :
      False := by
    rw [longFirst] at hmem
    split_ifs at hmem with hmore
    · have hk : k < scatterRanks more k := by
        rw [scatterRanks, if_pos hmore.1]
        exact k.lt_succ_self
      have := h.inj w (hw.trans_le le_scatterRanks) k hk (List.mem_singleton.mp hmem)
      omega
    · exact List.not_mem_nil hmem
  rw [h.put_ring v hv]
  refine PutPeers.built (List.nodup_append.mpr ⟨?_, ?_, ?_⟩) (hne (leftOf_lt (by omega)))
    (hne (rightOf_lt (by omega)))
  · rw [longFirst]
    split_ifs <;> simp
  · refine (nodup_kntreeChildren (by decide)).map_on fun a ha b hb heq => ?_
    exact (h.real_inj (children_lt ha) (children_lt hb)).mp heq
  · rintro a ha b hb rfl
    obtain ⟨c, hc, rfl⟩ := List.mem_map.mp hb
    exact hne (children_lt hc) ha

theorem put_nodup (h : LongPlan more k real deps maps) (hv : v < k) :
    ((deps (real v)).putRanks.map (·.peerId)).Nodup := (h.built hv).nodup

theorem real_ite (h : LongPlan more k real deps maps) (hv : v < scatterRanks more k)
    (hw : w < scatterRanks more k) :
    (if real v = real w then 1 else 0) = if v = w then 1 else 0 :=
  if_congr ⟨h.inj v hv w hw, fun heq => heq ▸ rfl⟩ rfl rfl

theorem lt_ranks (hv : v < k) : v < scatterRanks more k := hv.trans_le le_scatterRanks

theorem eq_of_not_lt (hv : v < scatterRanks more k) (hvk : ¬v < k) : more = true ∧ v = k := by
  rcases ranks_cases more k with ⟨hr, -⟩ | ⟨hr, hm⟩
  · omega
  · exact ⟨hm, by omega⟩

/-- The events that a rank on the ring allots for others. -/
theorem events_get (h : LongPlan more k real deps maps) (hw : w < k)
    (hv : v < scatterRanks more k) : CommDep.events (deps (real w)).getRanks (real v) =
      (if leftOf k w = v then 1 else 0) + (if rightOf k w = v then 1 else 0) +
        if 0 < w ∧ kntreeParent 2 w = v then 1 else 0 := by
  have hthree := h.three
  have hparent : (if (if w = 0 then none else some (real (kntreeParent 2 w))) = some (real v)
      then 1 else 0) = if 0 < w ∧ kntreeParent 2 w = v then 1 else 0 := by
    rcases Nat.eq_zero_or_pos w with rfl | hpos
    · rw [if_pos rfl, if_neg (by simp), if_neg fun hh => lt_irrefl 0 hh.1]
    · have hp := (kntreeParent_lt (by decide : 1 < 2) hpos).trans hw
      rw [if_neg hpos.ne', if_congr (Option.some_inj (a := real _)) rfl rfl,
        h.real_ite (lt_ranks hp) hv]
      exact if_congr (and_iff_right hpos).symm rfl rfl
  rw [h.get_ring w hw, events_longGetPeers, h.real_ite (lt_ranks (leftOf_lt (by omega))) hv,
    h.real_ite (lt_ranks (rightOf_lt (by omega))) hv, hparent]

/-- The events that others are to allot for it. -/
theorem events_put (h : LongPlan more k real deps maps) (hv : v < k)
    (hw : w < scatterRanks more k) : CommDep.events (deps (real v)).putRanks (real w) =
      (if more = true ∧ v = 0 ∧ w = k then 1 else 0) +
        (if 0 < w ∧ w < k ∧ v = kntreeParent 2 w then 1 else 0) +
        (if leftOf k v = w then 1 else 0) + if rightOf k v = w then 1 else 0 := by
  have hthree := h.three
  have hput := (h.built hv).events (real w)
  have hcount : ((kntreeChildren k 2 v).map real).count (real w) =
      if 0 < w ∧ w < k ∧ v = kntreeParent 2 w then 1 else 0 := by
    have hnodup := (List.nodup_append.mp ((h.built hv).nodup.sublist
      (h.built hv).starts_with.sublist)).2.1
    rw [hnodup.count]
    refine if_congr ((⟨fun hmem => ?_, List.mem_map_of_mem⟩ : _ ↔ w ∈ kntreeChildren k 2 v).trans
      (mem_kntreeChildren (by decide))) rfl rfl
    obtain ⟨c, hc, hcw⟩ := List.mem_map.mp hmem
    rwa [← h.inj c (lt_ranks (children_lt hc)) w hw hcw]
  have hfirst : CommDep.events (longFirst more k real v) (real w) =
      if more = true ∧ v = 0 ∧ w = k then 1 else 0 := by
    rw [longFirst]
    by_cases hmore : more = true ∧ v = 0
    · have hk : k < scatterRanks more k := by
        rw [scatterRanks, if_pos hmore.1]
        exact k.lt_succ_self
      rw [if_pos hmore, CommDep.events]
      by_cases hwk : w = k
      · rw [if_pos ⟨hmore.1, hmore.2, hwk⟩, hwk]
        simp
      · have hne : real k ≠ real w := fun hkw => hwk (h.inj k hk w hw hkw).symm
        rw [if_neg fun hh => hwk hh.2.2]
        simp [hne]
    · rw [if_neg hmore, if_neg fun hh => hmore ⟨hh.1, hh.2.1⟩]
      rfl
  dsimp only at hput
  rw [hput, hfirst, hcount, h.real_ite (lt_ranks (leftOf_lt (by omega))) hw,
    h.real_ite (lt_ranks (rightOf_lt (by omega))) hw]

/-- Both sides of a pair of ranks allot the same number of events. -/
theorem events_eq (h : LongPlan more k real deps maps) (hv : v < scatterRanks more k)
    (hw : w < scatterRanks more k) : CommDep.events (deps (real w)).getRanks (real v) =
      CommDep.events (deps (real v)).putRanks (real w) := by
  have hthree := h.three
  have hleft {a : ℕ} := leftOf_lt (v := a) (by omega : 0 < k)
  have hright {a : ℕ} := rightOf_lt (v := a) (by omega : 0 < k)
  by_cases hwk : w < k
  · rw [h.events_get hwk hv]
    by_cases hvk : v < k
    · have hnot : ¬(more = true ∧ v = 0 ∧ w = k) := fun hh => hwk.ne hh.2.2
      have hchild : (if 0 < w ∧ w < k ∧ v = kntreeParent 2 w then 1 else 0) =
          if 0 < w ∧ kntreeParent 2 w = v then 1 else 0 :=
        if_congr ⟨fun hh => ⟨hh.1, hh.2.2.symm⟩, fun hh => ⟨hh.1, hwk, hh.2.symm⟩⟩ rfl rfl
      rw [h.events_put hvk hw, if_neg hnot, hchild, if_congr (rightOf_eq_iff hvk hwk) rfl rfl,
        if_congr (rightOf_eq_iff hwk hvk) rfl rfl]
      omega
    · -- the rank that is served first
      obtain ⟨hmore, rfl⟩ := eq_of_not_lt hv hvk
      have hparent : ¬(0 < w ∧ kntreeParent 2 w = v) := fun hh =>
        ((kntreeParent_lt (by decide : 1 < 2) hh.1).trans hwk).ne hh.2
      rw [h.put_more hmore, if_neg hleft.ne, if_neg hright.ne, if_neg hparent]
      rfl
  · obtain ⟨hmore, rfl⟩ := eq_of_not_lt hw hwk
    have hget : CommDep.events (deps (real w)).getRanks (real v) =
        if real 0 = real v then 1 else 0 := by
      rw [h.get_more hmore]
      by_cases h0 : real 0 = real v <;> simp [CommDep.events, h0]
    rw [hget, h.real_ite (lt_ranks (by omega)) hv]
    by_cases hvk : v < w
    · have hchild : ¬(0 < w ∧ w < w ∧ v = kntreeParent 2 w) := fun hh => hwk hh.2.1
      rw [h.events_put hvk hw, if_neg hchild, if_neg hleft.ne, if_neg hright.ne]
      exact if_congr ⟨fun hh => ⟨hmore, hh.symm, rfl⟩, fun hh => hh.2.1.symm⟩ rfl rfl
    · obtain ⟨-, rfl⟩ := eq_of_not_lt hv hvk
      rw [h.put_more hmore, if_neg (by omega)]
      rfl

end LongPlan

/-! ### The requests as steps on numbered ranks -/

/-- The elements of block `b`. -/
def longCount (args : BcastArgs) (k b : ℕ) : ℕ :=
  if b < k - 1 then args.count / k else args.count / k + args.count % k

/-- The bytes of block `b`. -/
def longBlock (args : BcastArgs) (k b : ℕ) : List Addr :=
  bytes .recv (b * (args.count / k) * args.dtExtent : ℕ) (longCount args k b * args.dtExtent)

/-- Where the blocks of the numbered ranks are. -/
noncomputable def longPlacement (args : BcastArgs) (k : ℕ) (num real : ℕ → ℕ) :
  Placement ℕ Addr where
  num := num
  rank := real
  slot := longSlot k
  cells _ := longBlock args k

namespace LongPlan

variable {more : Bool} {k : ℕ} {real num : ℕ → ℕ} {deps : ℕ → CommDep} {maps : ℕ → List (ℕ × ℕ)}
  {args : BcastArgs} {v w t i c : ℕ}

theorem waitReq_parent (h : LongPlan more k real deps maps) (hv : v < k) (hpos : 0 < v) :
    longWaitReq .scatter 0 (deps (real v))
      (longParentIdx (deps (real v)) (real (kntreeParent 2 v))) =
      (.scatter, (longPlacement args k num real).task v (.wait 0)) := by
  obtain ⟨len, hentry⟩ := h.entry_parent hv hpos
  rw [longWaitReq, waitEvent, hentry.offset]
  rfl

theorem putPeer_of_get {dep : CommDep} {info : RankInfo} (h : dep.putRanks[i]? = some info) :
    dep.putPeer i = info.peerId ∧ dep.putLength i = info.length := by
  rw [CommDep.putPeer, CommDep.putLength, List.getD_eq_getElem?_getD, h]
  exact ⟨rfl, rfl⟩

/-- The entry of child `i`. -/
theorem put_child (h : LongPlan more k real deps maps) (hv : v < k)
    (hc : (kntreeChildren k 2 v)[i]? = some c) :
    (deps (real v)).putRanks[(longFirst more k real v).length + i]? =
      some ⟨real c, CommDep.events (deps (real v)).putRanks (real c)⟩ := by
  have hbuilt := h.built hv
  refine PutPeers.length_eq_events (h.put_nodup hv) ?_
  have hi := (List.getElem?_eq_some_iff.mp hc).1
  obtain ⟨l, hl⟩ := hbuilt.starts_with
  change (PutPeers.ids ⟨(deps (real v)).putRanks, maps (real v)⟩)[_]? = _
  rw [← hl, List.getElem?_append_left (by simp [hi]), List.getElem?_append_right (by simp)]
  simp [hc]

/-- The entry of the rank that is served first. -/
theorem put_first (h : LongPlan more k real deps maps) (hmore : more = true) :
    (deps (real 0)).putRanks[0]? =
      some ⟨real k, CommDep.events (deps (real 0)).putRanks (real k)⟩ := by
  have hthree := h.three
  have hpos : 0 < k := by omega
  obtain ⟨l, hl⟩ := (h.built hpos).starts_with
  refine PutPeers.length_eq_events (h.put_nodup hpos) ?_
  change (PutPeers.ids ⟨(deps (real 0)).putRanks, maps (real 0)⟩)[_]? = _
  rw [← hl, longFirst, if_pos ⟨hmore, rfl⟩]
  rfl

/-- Block for block, the whole buffer. -/
theorem flatMap_longBlock (hk : 0 < k) : (List.range k).flatMap (longBlock args k) =
    bytes .recv 0 (args.count * args.dtExtent) := by
  have hbefore : ∀ {m : ℕ}, m ≤ k - 1 → (List.range m).flatMap (longBlock args k) =
      bytes .recv 0 (m * (args.count / k) * args.dtExtent) := by
    intro m
    induction m with
    | zero => simp [bytes]
    | succ m ih =>
      intro hm
      rw [List.range_succ, List.flatMap_append, ih (by omega), List.flatMap_singleton, longBlock,
        longCount, if_pos (by omega), Nat.succ_mul, Nat.add_mul, ← bytes_append, zero_add]
  have hcount := Nat.div_add_mod args.count k
  obtain ⟨m, rfl⟩ : ∃ m, k = m + 1 := ⟨k - 1, by omega⟩
  have hall : args.count = m * (args.count / (m + 1)) +
      (args.count / (m + 1) + args.count % (m + 1)) := by
    rw [← add_assoc, ← Nat.succ_mul]
    exact hcount.symm
  rw [List.range_succ, List.flatMap_append, hbefore (by omega), List.flatMap_singleton, longBlock,
    longCount, if_neg (by omega)]
  conv_rhs => rw [hall, Nat.add_mul, ← bytes_append, zero_add]

/-- The put of the whole buffer. -/
theorem firstPutReq_eq (h : LongPlan more k real deps maps) (hmore : more = true)
    (hdt : args.dtExtent = args.dtSize) :
    ((.first, .put ((deps (real 0)).putPeer 0) (putEvent deps CommDep.offsetCommon (real 0) 0 0)
      (bytes .recv 0 (args.count * args.dtSize)) (bytes .recv 0 (args.count * args.dtSize))) :
        LongPhase × StreamTask Addr) =
      (.first, (longPlacement args k num real).task 0
        (.put k (some 0) (List.range k) (List.range k))) := by
  have hthree := h.three
  have hput := h.put_first hmore
  rw [putEvent_eq (h.put_nodup (by omega)) hput (h.entry_more hmore), (putPeer_of_get hput).1,
    ← hdt,
    ← flatMap_longBlock (by omega : 0 < k), Placement.task]
  simp only [Option.map_some, longPlacement, longSlot_last (by omega : 0 < k)]

variable (num args) in
/-- The requests for a child are its puts. -/
theorem bntreePutReq_eq (h : LongPlan more k real deps maps) (hv : v < k)
    (hc : (kntreeChildren k 2 v)[i]? = some c) :
    longBntreePutReq args k deps (real v) ((longFirst more k real v).length + i) c
      (scatterEnd k c - c) =
      (childPuts k c).map fun x => (.scatter, (longPlacement args k num real).task v x) := by
  have hput := h.put_child hv hc
  obtain ⟨hcpos, hck, hparent⟩ := (mem_kntreeChildren (by decide : 1 < 2)).mp
    (List.mem_of_getElem? hc)
  obtain ⟨len, hentry⟩ := h.entry_parent hck hcpos
  rw [← hparent] at hentry
  have hlt := lt_scatterEnd hck
  rw [longBntreePutReq, childPuts, scatterBlocks, List.range'_eq_map_range, List.map_map,
    List.map_map]
  refine List.map_congr_left fun b hb => ?_
  have hb := List.mem_range.mp hb
  have hevent : (if b = scatterEnd k c - c - 1 then some (longSlot k c 0) else none) =
      (if c + b + 1 = scatterEnd k c then some 0 else none).map (longSlot k c) := by
    by_cases hlast : b = scatterEnd k c - c - 1
    · rw [if_pos hlast, if_pos (by omega), Option.map_some]
    · rw [if_neg hlast, if_neg (by omega), Option.map_none]
  rw [putEvent_eq (h.put_nodup hv) hput hentry, (putPeer_of_get hput).1, Nat.add_zero, hevent]
  simp only [Function.comp_apply, Placement.task, longPlacement, List.flatMap_singleton, longBlock,
    longCount]

/-- The index of a neighbour on the ring, and the event that a put to it raises. -/
theorem put_ring_event (h : LongPlan more k real deps maps) (hv : v < k) (hw : w < k)
    (hi : (maps (real v)).lookup (real w) = some i) {j len off : ℕ}
    (hentry : Entry (deps (real w)) (real v) j len off) :
    (deps (real v)).putPeer i = real w ∧
      putEvent deps CommDep.offsetCommon (real v) i ((deps (real v)).putLength i - 1) =
        some (off + (len - 1)) := by
  have hput := PutPeers.length_eq_events (h.put_nodup hv) ((h.built hv).found _ _ hi)
  obtain ⟨hpeer, hlen⟩ := putPeer_of_get hput
  refine ⟨hpeer, ?_⟩
  rw [putEvent_eq (h.put_nodup hv) hput hentry, hlen,
    ← h.events_eq (lt_ranks hv) (lt_ranks hw), ← hentry.length]

theorem rollPeer_lt (h : LongPlan more k real deps maps) : rollPeer k v t < k := by
  have hthree := h.three
  rw [rollPeer]
  split_ifs
  · exact leftOf_lt (by omega)
  · exact rightOf_lt (by omega)

theorem lookup_rollPeer (h : LongPlan more k real deps maps) (hv : v < k) :
    ∃ i, (maps (real v)).lookup (real (rollPeer k v t)) = some i := by
  rw [rollPeer]
  split_ifs
  · exact Option.isSome_iff_exists.mp (h.built hv).left_found
  · exact Option.isSome_iff_exists.mp (h.built hv).right_found

/-- The slot of the wait of a step. -/
theorem wait_rollPeer (h : LongPlan more k real deps maps) (hv : v < k) :
    let j := longRingIdx (deps (real v)) (real (rollPeer k v t))
    waitEvent (deps (real v)) CommDep.offsetCommon j ((deps (real v)).getLength j - 1) =
      longSlot k v (if (v + t) % 2 = 1 then 1 else 2) := by
  obtain ⟨⟨lenl, offl, hleft, hslotl⟩, lenr, offr, hright, hslotr⟩ := h.entry_ring hv
  dsimp only
  rw [rollPeer, waitEvent]
  split_ifs
  · rw [← hslotl, hleft.offset, CommDep.getLength, List.getD_eq_getElem?_getD, hleft.get]
    rfl
  · rw [← hslotr, hright.offset, CommDep.getLength, List.getD_eq_getElem?_getD, hright.get]
    rfl

/-- The slot of the put of a step. -/
theorem put_rollPeer (h : LongPlan more k real deps maps) (hv : v < k)
    (hi : (maps (real v)).lookup (real (rollPeer k v t)) = some i) :
    (deps (real v)).putPeer i = real (rollPeer k v t) ∧
      putEvent deps CommDep.offsetCommon (real v) i ((deps (real v)).putLength i - 1) =
        some (longSlot k (rollPeer k v t) (if (v + t) % 2 = 1 then 2 else 1)) := by
  have hpeer := h.rollPeer_lt (v := v) (t := t)
  obtain ⟨⟨lenl, offl, hleft, hslotl⟩, lenr, offr, hright, hslotr⟩ := h.entry_ring hpeer
  by_cases hpar : (v + t) % 2 = 1
  · have hback : rightOf k (rollPeer k v t) = v := by
      rw [rollPeer, if_pos hpar]
      exact rightOf_leftOf hv
    rw [hback] at hright
    rw [if_pos hpar, ← hslotr]
    exact h.put_ring_event hv hpeer hi hright
  · have hback : leftOf k (rollPeer k v t) = v := by
      rw [rollPeer, if_neg hpar]
      exact leftOf_rightOf hv
    rw [hback] at hleft
    rw [if_neg hpar, ← hslotl]
    exact h.put_ring_event hv hpeer hi hleft

/-- A loop over the indices of a list. -/
theorem flatMap_range_length {α β : Type} {g : α → List β} : ∀ {l : List α} {f : ℕ → List β},
    (∀ i a, l[i]? = some a → f i = g a) → (List.range l.length).flatMap f = l.flatMap g
  | [], _, _ => rfl
  | a :: l, f, h => by
    rw [List.length_cons, List.range_succ_eq_map, List.flatMap_cons, List.flatMap_map,
      h 0 a rfl, List.flatMap_cons]
    congr 1
    exact flatMap_range_length fun i b hb => h (i + 1) b hb

/-- A loop that never fails. -/
theorem mapM_range_eq {α : Type} {f : ℕ → Option (List α)} {g : ℕ → List α} {m : ℕ}
    (h : ∀ t < m, f t = some (g t)) :
    ((List.range m).mapM f).map List.flatten = some ((List.range m).flatMap g) := by
  have hall : ∀ {l : List ℕ}, (∀ t ∈ l, t < m) → l.mapM f = some (l.map g) := by
    intro l hl
    induction l with
    | nil => rfl
    | cons t l ih =>
      rw [List.mapM_cons, h t (hl t List.mem_cons_self),
        ih fun t' ht' => hl t' (List.mem_cons_of_mem _ ht')]
      rfl
  rw [hall fun t ht => List.mem_range.mp ht, Option.map_some, List.flatMap_def]

/-- Round `t` of the loop over the ring is a step. -/
theorem allgatherStep_eq (h : LongPlan more k real deps maps) (hdt : args.dtExtent = args.dtSize)
    (hv : v < k) {iter : RingIter} (hiter : iter.left ≠ iter.right) {peerVrank : ℕ → ℕ}
    (hvrank : peerVrank (real (rollPeer k v t)) = rollPeer k v t) :
    longAllgatherStep args k deps (maps (real v)) (real v) v { iter with idx := t }
      (real (rollPeer k v t)) peerVrank =
      some ((rollLabeled k (fun _ => true) (fun _ _ => LongPhase.ring) (fun _ _ => .ring) v t).map
        (Prod.map id ((longPlacement args k num real).task v))) := by
  have hthree := h.three
  obtain ⟨i, hi⟩ := h.lookup_rollPeer (t := t) hv
  obtain ⟨hpeer, hevent⟩ := h.put_rollPeer hv hi
  have hsend : (if (if (v + t) % 2 ≠ 0 then iter.left else iter.right) = iter.right
      then (v + k - t / 2) % k else (v + t / 2 + k) % k) = rollSend k v t := by
    rw [rollSend]
    by_cases hpar : (v + t) % 2 = 1
    · have hne : (v + t) % 2 ≠ 0 := by omega
      simp only [if_pos hne, if_neg hiter, if_pos hpar, Nat.add_mod_right]
    · have hne : ¬(v + t) % 2 ≠ 0 := by omega
      simp only [if_neg hne, if_true, if_neg hpar]
  have hblock : rollSend k v t < k := by
    rw [rollSend]
    split_ifs <;> exact Nat.mod_lt _ (by omega)
  have hcount : (if rollSend k v t = k - 1 then args.count % k + args.count / k
      else args.count / k) = longCount args k (rollSend k v t) := by
    rw [longCount]
    split_ifs <;> omega
  have hwait := h.wait_rollPeer (t := t) hv
  dsimp only at hwait
  simp only [longAllgatherStep, hi, Option.bind_eq_bind, Option.bind_some, longRollingPutReq,
    longWaitReq, hwait, hpeer, hvrank]
  rw [hsend, hcount, hevent, ← hdt]
  simp only [rollLabeled, rollPut, rollWait, if_true, List.map_singleton, gt_iff_lt]
  split_ifs <;> simp [Placement.task, longPlacement, longBlock]

end LongPlan

end Kucg.Stars
