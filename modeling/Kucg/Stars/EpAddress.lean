import Kucg.Stars.AddressUnpack

/-! The packed address of an endpoint (`scp_address.c`), and its round trip.

    The packer writes an address for each lane whose interface connects to endpoints, with its
    length in front; the unpacker looks for one in each lane but the shared-memory lane. Nothing in
    the buffer says which lanes have an address, so the two go through the buffer in step if and
    only if the shared-memory lane is the one lane without. A length may be 63, but the buffer that
    is exchanged has room for addresses of four bytes (`epRoundTrips_iff`). -/

namespace Kucg.Stars.Address

/-! ### Packing -/

/-- `SCP_MAX_LANE`. -/
def scpMaxLane : ℕ := 9

/-- `sizeof(scp_ep_unpacked_t)`. -/
def epHeadSize : ℕ := 16

/-- `sizeof(scp_address_entry_ep_addr_t)`. -/
def epEntrySize : ℕ := 16

/-- `SCT_EP_ADDR_MAX_SIZE`. -/
def sctEpAddrMaxSize : ℕ := 4

/-- `SCP_EP_PACK_SIZE`. -/
def scpEpPackSize : ℕ := epHeadSize + (epEntrySize + 1 + sctEpAddrMaxSize) * scpMaxLane

/-- A lane of an endpoint: the index of its interface, the capabilities of this interface, and the
address that the endpoint of the lane tells. -/
structure EpLane where
  rscIndex : ℕ
  capFlags : ℕ
  addr : List ℕ

/-- The interface of the lane connects to endpoints. -/
def EpLane.toEp (lane : EpLane) : Bool := lane.capFlags &&& connectToEp != 0

/-- What `scp_ep_t` has for the packer. -/
structure Ep where
  lanes : List EpLane
  sdmaEpIdx : ℕ
  guid : ℕ

/-- A packed address: `scp_ep_unpacked_t` with the `rsc_index` of its entries, and what is written
behind the entries. -/
structure EpPacked where
  numEpAddrs : ℕ
  sdmaEpIdx : ℕ
  guid : ℕ
  rscIndexes : List ℕ
  cells : List Cell

/-- The loop of `scp_ep_address_pack`, with the assertion of `scp_address_pack_length`. -/
def packEpAddrs : List EpLane → List Cell → Option (List Cell)
  | [], buf => some buf
  | lane :: lanes, buf =>
    if !lane.toEp then packEpAddrs lanes buf
    else if flagLenMask < lane.addr.length then none
    else packEpAddrs lanes (buf ++ some lane.addr.length :: lane.addr.map some)

/-- `scp_ep_address_pack`. -/
def scpEpAddressPack (ep : Ep) : Option EpPacked :=
  (packEpAddrs ep.lanes []).map fun cells =>
    ⟨ep.lanes.length, ep.sdmaEpIdx, ep.guid, ep.lanes.map (·.rscIndex), cells⟩

/-- The offset of the addresses. -/
def epOffset (num : ℕ) : ℕ := epHeadSize + num * epEntrySize

/-- The buffer as it is exchanged. -/
def EpPacked.mem (p : EpPacked) : Memory where
  size := scpEpPackSize
  cell o := if epOffset p.numEpAddrs ≤ o then (p.cells[o - epOffset p.numEpAddrs]?).join else none

/-! ### Unpacking -/

/-- An unpacked address; the pointers to the addresses are offsets in the buffer, or null. -/
structure EpUnpacked where
  numEpAddrs : ℕ
  sdmaEpIdx : ℕ
  guid : ℕ
  rscIndexes : List ℕ
  addrs : List (Option ℕ)
  mem : Memory

/-- The loop of `scp_ep_address_unpack` from lane `epIdx` on; `none` when a byte is read that is
outside of the buffer or not known. -/
def unpackEpAddrs (m : Memory) (sdmaEpIdx : ℕ) : ℕ → ℕ → ℕ → Option (List (Option ℕ))
  | _, 0, _ => some []
  | epIdx, num + 1, ptr =>
    if epIdx = sdmaEpIdx then (unpackEpAddrs m sdmaEpIdx (epIdx + 1) num ptr).map (none :: ·)
    else do
      let byte ← m.read ptr
      let addrs ← unpackEpAddrs m sdmaEpIdx (epIdx + 1) num (ptr + 1 + (byte &&& flagLenMask))
      some (some (ptr + 1) :: addrs)

/-- `scp_ep_address_unpack`. The inner `none` is `UCG_ERR_INVALID_ADDR`. -/
def scpEpAddressUnpack (p : EpPacked) : Option (Option EpUnpacked) :=
  if p.numEpAddrs = 0 ∨ scpMaxLane < p.numEpAddrs then some none
  else (unpackEpAddrs p.mem p.sdmaEpIdx 0 p.numEpAddrs (epOffset p.numEpAddrs)).map fun addrs =>
    some ⟨p.numEpAddrs, p.sdmaEpIdx, p.guid, p.rscIndexes, addrs, p.mem⟩

/-! ### The bytes of the lanes -/

/-- What is written for a lane. -/
def EpLane.cells (lane : EpLane) : List Cell :=
  if lane.toEp then some lane.addr.length :: lane.addr.map some else []

/-- The lengths are those that the packer accepts. -/
def Ep.Accepted (ep : Ep) : Prop :=
  ∀ lane ∈ ep.lanes, lane.toEp = true → lane.addr.length ≤ flagLenMask

theorem packEpAddrs_eq : ∀ {lanes : List EpLane} {buf : List Cell},
    (∀ lane ∈ lanes, lane.toEp = true → lane.addr.length ≤ flagLenMask) →
    packEpAddrs lanes buf = some (buf ++ lanes.flatMap EpLane.cells)
  | [], buf, _ => by simp [packEpAddrs]
  | lane :: lanes, buf, h => by
    have ih {buf : List Cell} : packEpAddrs lanes buf = some (buf ++ lanes.flatMap EpLane.cells) :=
      packEpAddrs_eq fun l hl => h l (List.mem_cons_of_mem _ hl)
    rw [packEpAddrs, List.flatMap_cons, EpLane.cells]
    by_cases hep : lane.toEp = true
    · have hlen := h lane List.mem_cons_self hep
      rw [if_neg (by simp [hep]), if_neg (by omega), ih, if_pos hep, List.append_assoc]
    · rw [if_pos (by simpa using hep), ih, if_neg hep, List.nil_append]

/-- What the packer writes, as far as it fits. -/
theorem scpEpAddressPack_eq {ep : Ep} (h : ep.Accepted) : scpEpAddressPack ep =
    some ⟨ep.lanes.length, ep.sdmaEpIdx, ep.guid, ep.lanes.map (·.rscIndex),
      ep.lanes.flatMap EpLane.cells⟩ := by
  rw [scpEpAddressPack, packEpAddrs_eq h]
  rfl

/-- Bytes that fit are in the buffer. -/
theorem EpPacked.streamAt {p : EpPacked}
    (h : epOffset p.numEpAddrs + p.cells.length ≤ scpEpPackSize) :
    StreamAt p.mem (epOffset p.numEpAddrs) p.cells := by
  intro k c hk
  obtain ⟨hlt, -⟩ := List.getElem?_eq_some_iff.mp hk
  refine ⟨?_, ?_⟩
  · rw [EpPacked.mem]
    dsimp only
    omega
  · rw [EpPacked.mem]
    dsimp only
    rw [if_pos (by omega), Nat.add_sub_cancel_left, hk]
    rfl

/-! ### The two walks -/

/-- The address of a lane was found: at a place where its bytes are, or none at all if it has
none. -/
def EpLane.Found (m : Memory) (lane : EpLane) (addr : Option ℕ) : Prop :=
  if lane.toEp then ∃ ptr, addr = some ptr ∧ StreamAt m ptr (lane.addr.map some) else addr = none

/-- The lanes from `epIdx` on with an address are those that the unpacker takes to have one. -/
def InStep (sdmaEpIdx : ℕ) : ℕ → List EpLane → Prop
  | _, [] => True
  | epIdx, lane :: lanes =>
    (lane.toEp = true ↔ epIdx ≠ sdmaEpIdx) ∧ InStep sdmaEpIdx (epIdx + 1) lanes

theorem unpackEpAddrs_found {m : Memory} {sdmaEpIdx : ℕ} : ∀ {lanes : List EpLane} {epIdx ptr : ℕ},
    (∀ lane ∈ lanes, lane.toEp = true → lane.addr.length ≤ flagLenMask) →
    InStep sdmaEpIdx epIdx lanes → StreamAt m ptr (lanes.flatMap EpLane.cells) →
    ∃ addrs, unpackEpAddrs m sdmaEpIdx epIdx lanes.length ptr = some addrs ∧
      List.Forall₂ (EpLane.Found m) lanes addrs
  | [], _, _, _, _, _ => ⟨[], rfl, .nil⟩
  | lane :: lanes, epIdx, ptr, hlen, ⟨hstep, hrest⟩, hstream => by
    have hlen' : ∀ l ∈ lanes, l.toEp = true → l.addr.length ≤ flagLenMask := fun l hl =>
      hlen l (List.mem_cons_of_mem _ hl)
    rw [List.flatMap_cons, streamAt_append] at hstream
    obtain ⟨hlane, hstream⟩ := hstream
    rw [EpLane.cells] at hlane hstream
    rw [List.length_cons, unpackEpAddrs]
    by_cases hep : lane.toEp = true
    · have hmask := ifaceByte_len lane.addr.length (hlen lane List.mem_cons_self hep) false
      rw [if_neg Bool.false_ne_true, Nat.or_zero] at hmask
      rw [if_pos hep] at hlane hstream
      rw [List.length_cons, List.length_map] at hstream
      rw [show ptr + (lane.addr.length + 1) = ptr + 1 + lane.addr.length by omega] at hstream
      obtain ⟨addrs, hunpack, hfound⟩ := unpackEpAddrs_found hlen' hrest hstream
      refine ⟨some (ptr + 1) :: addrs, ?_, .cons ?_ hfound⟩
      · rw [if_neg (hstep.mp hep), hlane.read]
        simp only [Option.bind_eq_bind, Option.bind_some, hmask, hunpack]
      · rw [EpLane.Found, if_pos hep]
        have hcells : StreamAt m ptr ([some lane.addr.length] ++ lane.addr.map some) := hlane
        exact ⟨ptr + 1, rfl, (streamAt_append.mp hcells).2⟩
    · rw [if_neg hep, List.length_nil, Nat.add_zero] at hstream
      obtain ⟨addrs, hunpack, hfound⟩ := unpackEpAddrs_found hlen' hrest hstream
      refine ⟨none :: addrs, ?_, .cons ?_ hfound⟩
      · rw [if_pos (not_not.mp fun h => hep (hstep.mpr h)), hunpack]
        rfl
      · rw [EpLane.Found, if_neg hep]

/-- The unpacker finds an address in each lane but the shared-memory lane, so that the lanes have to
be so. -/
theorem inStep_of_found {m : Memory} {sdmaEpIdx : ℕ} : ∀ {lanes : List EpLane} {epIdx ptr : ℕ}
    {addrs : List (Option ℕ)}, unpackEpAddrs m sdmaEpIdx epIdx lanes.length ptr = some addrs →
    List.Forall₂ (EpLane.Found m) lanes addrs → InStep sdmaEpIdx epIdx lanes
  | [], _, _, _, _, _ => trivial
  | lane :: lanes, epIdx, ptr, addrs, hunpack, hfound => by
    rw [List.length_cons, unpackEpAddrs] at hunpack
    split_ifs at hunpack with hsdma
    · obtain ⟨rest, hrest, rfl⟩ := Option.map_eq_some_iff.mp hunpack
      obtain ⟨hlane, hfound⟩ := List.forall₂_cons.mp hfound
      refine ⟨⟨fun hep => ?_, fun h => absurd hsdma h⟩, inStep_of_found hrest hfound⟩
      rw [EpLane.Found, if_pos hep] at hlane
      obtain ⟨p, hp, -⟩ := hlane
      cases hp
    · simp only [Option.bind_eq_bind, Option.bind_eq_some_iff, Option.some.injEq] at hunpack
      obtain ⟨byte, -, rest, hrest, rfl⟩ := hunpack
      obtain ⟨hlane, hfound⟩ := List.forall₂_cons.mp hfound
      refine ⟨⟨fun _ => hsdma, fun _ => ?_⟩, inStep_of_found hrest hfound⟩
      by_contra hep
      rw [EpLane.Found, if_neg hep] at hlane
      cases hlane

/-! ### The round trip -/

/-- The address of the endpoint is packed within the size that is exchanged, and what is unpacked
from it is what the endpoint has. -/
def EpRoundTrips (ep : Ep) : Prop :=
  ∃ p u, scpEpAddressPack ep = some p ∧ epOffset p.numEpAddrs + p.cells.length ≤ scpEpPackSize ∧
    scpEpAddressUnpack p = some (some u) ∧ u.numEpAddrs = ep.lanes.length ∧
    u.sdmaEpIdx = ep.sdmaEpIdx ∧ u.guid = ep.guid ∧ u.rscIndexes = ep.lanes.map (·.rscIndex) ∧
    List.Forall₂ (EpLane.Found u.mem) ep.lanes u.addrs

/-- The bytes that are written, header and entries included. -/
def Ep.packedSize (ep : Ep) : ℕ := epOffset ep.lanes.length + (ep.lanes.flatMap EpLane.cells).length

/-- The address of an endpoint comes back if and only if the shared-memory lane is the one lane
without an address, and all addresses together fit. -/
theorem epRoundTrips_iff {ep : Ep} (hpos : 0 < ep.lanes.length)
    (hmax : ep.lanes.length ≤ scpMaxLane) (haccept : ep.Accepted) :
    EpRoundTrips ep ↔ InStep ep.sdmaEpIdx 0 ep.lanes ∧ ep.packedSize ≤ scpEpPackSize := by
  have hnum : ¬(ep.lanes.length = 0 ∨ scpMaxLane < ep.lanes.length) := by omega
  constructor
  · rintro ⟨p, u, hpack, hfit, hunpack, -, -, -, -, hfound⟩
    rw [scpEpAddressPack_eq haccept] at hpack
    obtain rfl := Option.some.inj hpack
    rw [scpEpAddressUnpack, if_neg hnum] at hunpack
    obtain ⟨addrs, haddrs, heq⟩ := Option.map_eq_some_iff.mp hunpack
    obtain rfl := Option.some.inj heq
    exact ⟨inStep_of_found haddrs hfound, hfit⟩
  · rintro ⟨hstep, hfit⟩
    obtain ⟨addrs, hunpack, hfound⟩ := unpackEpAddrs_found haccept hstep
      (EpPacked.streamAt (p := ⟨ep.lanes.length, ep.sdmaEpIdx, ep.guid, ep.lanes.map (·.rscIndex),
        ep.lanes.flatMap EpLane.cells⟩) hfit)
    refine ⟨_, ⟨_, _, _, _, addrs, _⟩, scpEpAddressPack_eq haccept, hfit, ?_, rfl, rfl, rfl, rfl,
      hfound⟩
    rw [scpEpAddressUnpack, if_neg hnum, hunpack]
    rfl

/-- A lane of an interface for shared memory, which connects to interfaces. -/
def sdmaLane (rscIndex : ℕ) : EpLane := ⟨rscIndex, connectToIface, []⟩

/-- A lane of an interface that connects to endpoints. -/
def rcLane (rscIndex : ℕ) (addr : List ℕ) : EpLane := ⟨rscIndex, connectToEp, addr⟩

/-- Two lanes between nodes and the shared-memory lane between them. -/
theorem epRoundTrips_three :
    EpRoundTrips ⟨[rcLane 0 [1, 2, 3, 4], sdmaLane 1, rcLane 2 [5, 6, 7, 8]], 1, 77⟩ := by
  refine (epRoundTrips_iff (by decide) (by decide) ?_).mpr ?_
  · unfold Ep.Accepted
    decide
  · exact ⟨⟨by decide, by decide, by decide, trivial⟩, by decide⟩

/-- With two interfaces for shared memory the unpacker takes the first lane for one with an
address. -/
theorem not_epRoundTrips_two_sdma :
    ¬EpRoundTrips ⟨[sdmaLane 0, sdmaLane 1, rcLane 2 [5, 6, 7, 8]], 1, 77⟩ := by
  rintro ⟨p, u, hpack, -, hunpack, -, -, -, -, hfound⟩
  obtain rfl := Option.some.inj hpack
  rw [scpEpAddressUnpack, if_neg (by decide)] at hunpack
  obtain ⟨addrs, haddrs, heq⟩ := Option.map_eq_some_iff.mp hunpack
  obtain rfl := Option.some.inj heq
  have hstep : InStep 1 0 [sdmaLane 0, sdmaLane 1, rcLane 2 [5, 6, 7, 8]] :=
    inStep_of_found haddrs hfound
  exact absurd (hstep.1.mpr (by decide)) (by decide)

end Kucg.Stars.Address
