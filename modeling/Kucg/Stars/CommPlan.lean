import Kucg.Lib.OneSided

/-! The communication plan of an offloaded collective: whom a rank puts to, whom it gets from, and
    which events its peers raise.

    A rank allots events for the peers that it gets from, one after the other, and sends each of
    them the address of its receive buffer and the events allotted. A rank receives these from the
    peers that it puts to. Messages between two ranks come in the order in which they are sent, so
    that the entries for one peer are matched one by one (`CommDep.matched`). -/

namespace Kucg.Stars

open Kucg.Lib

/-- The buffers of a rank. -/
inductive Buffer where
  | send
  | recv
  | staging
  deriving DecidableEq, Repr

/-- A byte of a buffer. -/
abbrev Addr := Buffer × ℤ

/-- `len` bytes from an offset on. -/
def bytes (buf : Buffer) (off : ℤ) (len : ℕ) : List Addr :=
  (List.range len).map fun i : ℕ => (buf, off + i)

/-- `stars_rank_info_t`: the peer and the number of events for it. -/
structure RankInfo where
  peerId : ℕ
  length : ℕ
  deriving DecidableEq, Inhabited, Repr

/-- `stars_comm_dep_t`. -/
structure CommDep where
  getRanks : List RankInfo
  putRanks : List RankInfo
  deriving DecidableEq, Repr

namespace CommDep

/-- `peer_id` of `get_ranks[idx]`. -/
def getPeer (dep : CommDep) (idx : ℕ) : ℕ := (dep.getRanks.getD idx default).peerId

/-- `peer_id` of `put_ranks[idx]`. -/
def putPeer (dep : CommDep) (idx : ℕ) : ℕ := (dep.putRanks.getD idx default).peerId

/-- `offset` of `get_ranks[idx]` as `ucg_planc_stars_algo_alloc_event_common` sets it. -/
def offsetCommon (dep : CommDep) (idx : ℕ) : ℕ := ((dep.getRanks.take idx).map (·.length)).sum

/-- `offset` of `get_ranks[idx]` as `ucg_planc_stars_algo_alloc_event_shared` sets it. -/
def offsetShared (stride idx : ℕ) : ℕ := idx % stride

/-- The index of the `k`-th entry for a peer. -/
def nthOf (ranks : List RankInfo) (peer k : ℕ) : Option ℕ :=
  ((List.range ranks.length).filter fun i => (ranks.getD i default).peerId = peer)[k]?

/-- `ucg_planc_stars_exch_addr_msg`: the entry of `get_ranks` at the peer whose events
    `put_ranks[idx]` of rank `me` receives. -/
def matched (deps : ℕ → CommDep) (me idx : ℕ) : Option ℕ :=
  let peer := (deps me).putPeer idx
  nthOf (deps peer).getRanks me
    (((deps me).putRanks.take idx).countP fun info => info.peerId = peer)

end CommDep

/-- `scp_event` of a put request that `ucg_planc_stars_fill_ofd_put_req_elem` fills for
    `put_ranks[idx]`: a slot of the event table of the peer. -/
def putEvent (deps : ℕ → CommDep) (offset : CommDep → ℕ → ℕ) (me idx eidIdx : ℕ) : Option ℕ :=
  (CommDep.matched deps me idx).map fun j => offset (deps ((deps me).putPeer idx)) j + eidIdx

/-- `scp_event` of a wait request that `ucg_planc_stars_fill_ofd_wait_req_elem` fills for
    `get_ranks[idx]`: a slot of the own event table. -/
def waitEvent (dep : CommDep) (offset : CommDep → ℕ → ℕ) (idx eidIdx : ℕ) : ℕ :=
  offset dep idx + eidIdx

namespace CommDep

variable {x y z : RankInfo} {peer : ℕ}

theorem nthOf_two : nthOf [x, y] peer 0 =
    if x.peerId = peer then some 0 else if y.peerId = peer then some 1 else none := by
  have hrange : List.range ([x, y] : List RankInfo).length = [0, 1] := rfl
  rw [nthOf, hrange]
  split_ifs with h₀ h₁ <;> simp [List.filter_cons, *]

theorem nthOf_three : nthOf [x, y, z] peer 0 =
    if x.peerId = peer then some 0 else if y.peerId = peer then some 1
    else if z.peerId = peer then some 2 else none := by
  have hrange : List.range ([x, y, z] : List RankInfo).length = [0, 1, 2] := rfl
  rw [nthOf, hrange]
  split_ifs with h₀ h₁ h₂ <;> simp [List.filter_cons, *]

end CommDep

section Bytes

variable {buf buf' : Buffer} {off off' : ℤ} {len len' : ℕ}

@[simp] theorem length_bytes : (bytes buf off len).length = len := by simp [bytes]

theorem bytes_append {buf : Buffer} {off : ℤ} {len len' : ℕ} :
    bytes buf off len ++ bytes buf (off + len) len' = bytes buf off (len + len') := by
  rw [bytes, bytes, bytes, List.range_add, List.map_append, List.map_map]
  congr 1
  refine List.map_congr_left fun i _ => ?_
  rw [Function.comp_apply, Nat.cast_add, add_assoc]

theorem mem_bytes {c : Addr} : c ∈ bytes buf off len ↔ c.1 = buf ∧ off ≤ c.2 ∧ c.2 < off + len := by
  obtain ⟨b, x⟩ := c
  simp only [bytes, List.mem_map, List.mem_range, Prod.mk.injEq]
  constructor
  · rintro ⟨i, hi, rfl, rfl⟩
    exact ⟨rfl, by omega, by omega⟩
  · rintro ⟨rfl, h₁, h₂⟩
    exact ⟨(x - off).toNat, by omega, rfl, by omega⟩

theorem map_bytes {β : Type} {f : Addr → β} :
    (bytes buf off len).map f = (List.range len).map fun i : ℕ => f (buf, off + i) := by
  simp [bytes, Function.comp_def]

end Bytes

end Kucg.Stars
