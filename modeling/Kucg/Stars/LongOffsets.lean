import Kucg.Core.MsgSize
import Kucg.Stars.BcastLong
import Kucg.Ucx.BcastLong

/-! Addresses of blocks in the long broadcasts.

    A block is addressed twice: when it is scattered, as a part of a message that may have more
    blocks, and when it is passed on. The products of a block's offset and the extent of the
    datatype are computed in integers of different widths. An address is a number modulo `2 ^ 64`,
    and the elements of a message are `extent` bytes apart, whatever its start is computed with. -/

namespace Kucg.Stars

open Kucg.Core Kucg.Algo Kucg.Ucx

/-- Conversion to `uint32_t`. -/
def u32 (x : ℤ) : ℤ := x % 2 ^ 32

/-! ### The code -/

/-- `send_offset` and `recv_offset` of `ucg_planc_ucx_bcast_long_allgatherv_op_progress` and of
    `ucg_planc_ucx_bcast_long_m_allgather_op_progress`, where `extent` is an `uint32_t`. -/
def longAllgatherOffset (quotient division : ℕ) (extent : ℤ) (block : ℕ) : ℤ :=
  if block < division then s64 (s64 (block * u32 (quotient + 1)) * u32 extent)
  else s64 (u32 (division + block * quotient) * u32 extent)

/-- The offset of the blocks from `vrank` on in a scatter that computes with `extent`. -/
def longScatterWith (quotient division : ℕ) (extent : ℤ) (vrank : ℕ) : ℤ :=
  if division ≤ vrank then s64 (s32 (division + vrank * quotient) * extent)
  else s64 (s64 (vrank * s32 (quotient + 1)) * extent)

/-- `send_offset` of `ucg_planc_ucx_bcast_long_scatterv_send` and `recv_offset` of
    `ucg_planc_ucx_bcast_long_scatterv_op_progress`, where `extent` is an `int64_t`. -/
def longScattervOffset (quotient division : ℕ) (extent : ℤ) (vrank : ℕ) : ℤ :=
  longScatterWith quotient division extent vrank

/-- `recv_offset` of `ucg_planc_ucx_bcast_long_m_scatter_op_recv` and `send_offset` of
    `ucg_planc_ucx_bcast_long_m_scatter_op_send`, where `extent` is an `uint32_t`. -/
def longMScatterOffset (quotient division : ℕ) (extent : ℤ) (vrank : ℕ) : ℤ :=
  longScatterWith quotient division (u32 extent) vrank

/-- `recv_blocks` of the scatters among `size` ranks. -/
def longRecvBlocks (size peerVrank v : ℕ) : ℕ :=
  let rightSibling := peerVrank + (v - peerVrank) * 2
  if rightSibling < size then min rightSibling size - v else size - v

/-- `send_offset` of `ucg_planc_stars_bcast_long_ofd_bntree_put_req`, an `uint32_t`. -/
def bntreeSendOffset (recvcount : ℕ) (extent : ℤ) (sendDispls : ℕ) : ℤ :=
  u32 (s64 (u32 (sendDispls * recvcount) * extent))

/-- `send_offset` of `ucg_planc_stars_bcast_long_ofd_rolling_put_req`, an `int64_t`. -/
def rollingSendOffset (recvcount : ℕ) (extent : ℤ) (blockIdx : ℕ) : ℤ :=
  s64 (u32 (blockIdx * recvcount) * extent)

/-! ### Both phases -/

/-- The two offsets are one address. -/
def SameAddr (a b : ℤ) : Prop := a ≡ b [ZMOD 2 ^ 64]

/-- A message of the scatter among `size` ranks that goes to rank `v` of the tree, and a block of
    it. -/
structure InMessage (size v b : ℕ) : Prop where
  pos : 0 < v
  lt : v < size
  ge : v ≤ b
  blocks : b < v + longRecvBlocks size (kntreeParent 2 v) v

/-- Every block of every message of the scatter among `size` ranks is where the allgather takes it
    from and puts it to. -/
def LongAgrees (scatterOffset : ℕ → ℕ → ℤ → ℕ → ℤ) (size count : ℕ) (extent : ℤ) : Prop :=
  let quotient := count / size
  let division := count % size
  ∀ v b, InMessage size v b → SameAddr
    (scatterOffset quotient division extent v +
      (blockOffset quotient division b - blockOffset quotient division v) * extent)
    (longAllgatherOffset quotient division extent b)

/-- Every block that the offloaded broadcast scatters is where it is passed on from. -/
def StarsLongAgrees (size count : ℕ) (extent : ℤ) : Prop :=
  ∀ b, 0 < b → b < size →
    bntreeSendOffset (count / size) extent b = rollingSendOffset (count / size) extent b

section Proofs

variable {size count quotient division v b : ℕ} {extent : ℤ}

theorem s64_modEq (x : ℤ) : s64 x ≡ x [ZMOD 2 ^ 64] := Int.bmod_emod

theorem u32_eq {x : ℤ} (h₁ : 0 ≤ x) (h₂ : x < 2 ^ 32) : u32 x = x := Int.emod_eq_of_lt h₁ h₂

/-- Offsets and lengths of blocks are `int32_t`. -/
structure SmallBlock (quotient division b : ℕ) : Prop where
  offset : blockOffset quotient division b < 2 ^ 31
  length : b < division → quotient + 1 < 2 ^ 31

/-- Blocks are within the buffer. -/
theorem smallBlock (hcount : count < 2 ^ 31) (hb : b < size) :
    SmallBlock (count / size) (count % size) b := by
  have hdiv := Nat.div_add_mod count size
  have hle : count / size * (b + 1) ≤ count / size * size := Nat.mul_le_mul_left _ hb
  rw [mul_comm] at hdiv
  generalize count / size = q at *
  generalize count % size = d at *
  rw [Nat.mul_succ] at hle
  constructor
  · rw [blockOffset, mul_comm, Nat.succ_mul, mul_comm b]
    split_ifs <;> omega
  · intro hlt
    have : q ≤ q * size := Nat.le_mul_of_pos_right _ (by omega)
    omega

/-- The address of a block in the allgather. -/
theorem allgatherOffset_modEq (extent : ℤ) (h : SmallBlock quotient division b) :
    longAllgatherOffset quotient division extent b ≡
      blockOffset quotient division b * u32 extent [ZMOD 2 ^ 64] := by
  obtain ⟨hoff, hlen⟩ := h
  rw [blockOffset] at hoff
  rw [longAllgatherOffset, blockOffset]
  split_ifs at hoff ⊢ with hlt
  · have hq := hlen hlt
    have hoff : (b * (quotient + 1) : ℤ) < 2 ^ 31 := by exact_mod_cast hoff
    have hpos : (0 : ℤ) ≤ b * (quotient + 1) := by positivity
    have hlong : s64 (b * (quotient + 1)) = b * (quotient + 1) := s64_eq (by omega) (by omega)
    rw [u32_eq (by omega) (by omega), hlong]
    push_cast
    exact s64_modEq _
  · have hoff : (division + b * quotient : ℤ) < 2 ^ 31 := by exact_mod_cast hoff
    rw [u32_eq (by positivity) (by omega)]
    push_cast
    exact s64_modEq _

/-- The address of the first block of a message of the scatter. -/
theorem scatterWith_modEq (extent : ℤ) (h : SmallBlock quotient division v) :
    longScatterWith quotient division extent v ≡
      blockOffset quotient division v * extent [ZMOD 2 ^ 64] := by
  obtain ⟨hoff, hlen⟩ := h
  rw [blockOffset] at hoff
  rw [longScatterWith, blockOffset]
  rcases lt_or_ge v division with hlt | hge
  · rw [if_pos hlt] at hoff ⊢
    rw [if_neg (not_le.mpr hlt)]
    have hq := hlen hlt
    have hoff : (v * (quotient + 1) : ℤ) < 2 ^ 31 := by exact_mod_cast hoff
    have hpos : (0 : ℤ) ≤ v * (quotient + 1) := by positivity
    have hlong : s64 (v * (quotient + 1)) = v * (quotient + 1) := s64_eq (by omega) (by omega)
    rw [s32_eq (by omega) (by omega), hlong]
    push_cast
    exact s64_modEq _
  · rw [if_neg (not_lt.mpr hge)] at hoff ⊢
    rw [if_pos hge]
    have hoff : (division + v * quotient : ℤ) < 2 ^ 31 := by exact_mod_cast hoff
    have hpos : (0 : ℤ) ≤ division + v * quotient := by positivity
    rw [s32_eq (by omega) (by omega)]
    push_cast
    exact s64_modEq _

/-- Computing with the low half of the extent makes no difference exactly if the high half drops
    out. -/
theorem mul_u32_modEq_iff {a : ℤ} :
    a * extent ≡ a * u32 extent [ZMOD 2 ^ 64] ↔ 2 ^ 32 ∣ a * (extent / 2 ^ 32) := by
  have hsplit : a * u32 extent - a * extent = -(2 ^ 32 * (a * (extent / 2 ^ 32))) := by
    have := Int.emod_add_mul_ediv extent (2 ^ 32)
    rw [u32]
    linear_combination a * this
  rw [Int.modEq_iff_dvd, hsplit, dvd_neg, show (2 : ℤ) ^ 64 = 2 ^ 32 * 2 ^ 32 by norm_num]
  exact mul_dvd_mul_iff_left (by norm_num)

theorem InMessage.block_lt (h : InMessage size v b) : b < size := by
  obtain ⟨hpos, hlt, -, hblocks⟩ := h
  have hparent := kntreeParent_lt (by decide : 1 < 2) hpos
  simp only [longRecvBlocks] at hblocks
  split_ifs at hblocks <;> omega

/-- A rank gets its own block in the message to it. -/
theorem inMessage_own (hpos : 0 < b) (hlt : b < size) : InMessage size b b := by
  refine ⟨hpos, hlt, le_rfl, ?_⟩
  have hparent := kntreeParent_lt (by decide : 1 < 2) hpos
  simp only [longRecvBlocks]
  split_ifs <;> omega

theorem longAgrees_iff (hcount : count < 2 ^ 31) : LongAgrees longScattervOffset size count extent ↔
    ∀ b, 0 < b → b < size →
      2 ^ 32 ∣ (blockOffset (count / size) (count % size) b : ℤ) * (extent / 2 ^ 32) := by
  have hblock (v b) (h : InMessage size v b) : SameAddr
      (longScattervOffset (count / size) (count % size) extent v +
        (blockOffset (count / size) (count % size) b -
          blockOffset (count / size) (count % size) v) * extent)
      (longAllgatherOffset (count / size) (count % size) extent b) ↔
        2 ^ 32 ∣ (blockOffset (count / size) (count % size) b : ℤ) * (extent / 2 ^ 32) := by
    rw [← mul_u32_modEq_iff]
    have hstart := (scatterWith_modEq extent (smallBlock hcount h.lt)).add_right
      ((blockOffset (count / size) (count % size) b -
          blockOffset (count / size) (count % size) v : ℤ) * extent)
    rw [← add_mul, add_sub_cancel] at hstart
    have hgather := allgatherOffset_modEq extent (smallBlock hcount h.block_lt)
    exact ⟨fun heq => hstart.symm.trans (heq.trans hgather),
      fun heq => hstart.trans (heq.trans hgather.symm)⟩
  constructor
  · intro h b hpos hlt
    have hmsg := inMessage_own hpos hlt
    exact (hblock b b hmsg).mp (h b b hmsg)
  · intro h v b hmsg
    exact (hblock v b hmsg).mpr (h b (hmsg.pos.trans_le hmsg.ge) hmsg.block_lt)

theorem longMAgrees_iff (hcount : count < 2 ^ 31) :
    LongAgrees longMScatterOffset size count extent ↔ ∀ v b, InMessage size v b →
      2 ^ 32 ∣ (blockOffset (count / size) (count % size) b -
        blockOffset (count / size) (count % size) v : ℤ) * (extent / 2 ^ 32) := by
  refine forall_congr' fun v => forall_congr' fun b => imp_congr_right fun h => ?_
  rw [← mul_u32_modEq_iff]
  generalize hgap : (blockOffset (count / size) (count % size) b -
    blockOffset (count / size) (count % size) v : ℤ) = gap
  have hoff : (blockOffset (count / size) (count % size) b : ℤ) =
      blockOffset (count / size) (count % size) v + gap := by omega
  have hstart := (scatterWith_modEq (u32 extent) (smallBlock hcount h.lt)).add_right (gap * extent)
  have hgather := allgatherOffset_modEq extent (smallBlock hcount h.block_lt)
  rw [hoff, add_mul] at hgather
  constructor
  · intro heq
    exact Int.ModEq.add_left_cancel' _ (hstart.symm.trans (heq.trans hgather))
  · intro heq
    exact hstart.trans ((heq.add_left _).trans hgather.symm)

theorem u32_eq_self_iff {x : ℤ} : u32 x = x ↔ 0 ≤ x ∧ x < 2 ^ 32 := by
  constructor
  · intro h
    rw [← h]
    exact ⟨Int.emod_nonneg _ (by norm_num), Int.emod_lt_of_pos _ (by norm_num)⟩
  · exact fun h => u32_eq h.1 h.2

theorem starsLongAgrees_iff (hcount : count < 2 ^ 31) : StarsLongAgrees size count extent ↔
    ∀ b, 0 < b → b < size → 0 ≤ s64 (b * (count / size : ℕ) * extent) ∧
      s64 (b * (count / size : ℕ) * extent) < 2 ^ 32 := by
  refine forall_congr' fun b => imp_congr_right fun _ => imp_congr_right fun hb => ?_
  have hle : b * (count / size) ≤ count :=
    (Nat.mul_le_mul_right _ hb.le).trans (Nat.mul_div_le count size)
  have hu : u32 (b * (count / size : ℕ)) = b * (count / size : ℕ) := by
    rw [← Nat.cast_mul]
    exact u32_eq (by positivity) (by omega)
  rw [bntreeSendOffset, rollingSendOffset, hu, u32_eq_self_iff]

end Proofs

/-- When the two phases of the long broadcast, of the modified one and of the offloaded one address
    all blocks alike: always for an `extent` that is an `uint32_t`, and for buffers of less than
    `2 ^ 32` bytes, and otherwise only if what is cut off drops out. -/
theorem longOffsets_iff (n count : ℕ) (extent : ℤ) (hcount : count < 2 ^ 31) :
    (LongAgrees longScattervOffset n count extent ↔ ∀ b, 0 < b → b < n →
      2 ^ 32 ∣ (blockOffset (count / n) (count % n) b : ℤ) * (extent / 2 ^ 32)) ∧
    (LongAgrees longMScatterOffset (n - 1) count extent ↔ ∀ v b, InMessage (n - 1) v b →
      2 ^ 32 ∣ (blockOffset (count / (n - 1)) (count % (n - 1)) b -
        blockOffset (count / (n - 1)) (count % (n - 1)) v : ℤ) * (extent / 2 ^ 32)) ∧
    (StarsLongAgrees n count extent ↔ ∀ b, 0 < b → b < n →
      0 ≤ s64 (b * (count / n : ℕ) * extent) ∧ s64 (b * (count / n : ℕ) * extent) < 2 ^ 32) :=
  ⟨longAgrees_iff hcount, longMAgrees_iff hcount, starsLongAgrees_iff hcount⟩

/-- Five ranks and elements of eight bytes. -/
theorem longOffsets_iff_five : LongAgrees longScattervOffset 5 10 8 ∧
    LongAgrees longMScatterOffset 4 10 8 ∧ StarsLongAgrees 5 10 8 := by
  obtain ⟨hlong, hlongM, hstars⟩ := longOffsets_iff 5 10 8 (by norm_num)
  refine ⟨hlong.mpr fun b _ _ => ?_, hlongM.mpr fun v b _ => ?_, hstars.mpr fun b _ hb => ?_⟩
  · simp
  · simp
  · interval_cases b <;> decide

/-- With a negative extent, or four blocks of `2 ^ 28` such elements, blocks are taken from where
    they have not been put. -/
theorem longOffsets_not : ¬LongAgrees longScattervOffset 5 10 (-8) ∧
    ¬LongAgrees longMScatterOffset 4 10 (-8) ∧ ¬StarsLongAgrees 4 (2 ^ 30) 8 := by
  refine ⟨fun h => ?_, fun h => ?_, fun h => ?_⟩
  · have hdvd := (longAgrees_iff (by norm_num)).mp h 1 (by decide) (by decide)
    revert hdvd
    decide
  · have hmsg : InMessage 4 2 3 := by
      refine ⟨by decide, by decide, by decide, ?_⟩
      have hparent : 0 = kntreeParent 2 2 :=
        (kntreeChild_iff (by decide) (by decide)).mp ⟨1, 1, by decide, by decide, by decide, rfl⟩
      rw [← hparent]
      decide
    have hdvd := (longMAgrees_iff (by norm_num)).mp h 2 3 hmsg
    revert hdvd
    decide
  · have h3 := (starsLongAgrees_iff (by norm_num)).mp h 3 (by decide) (by decide)
    revert h3
    decide

end Kucg.Stars
