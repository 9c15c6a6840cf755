import Kucg.Core.Status
import Mathlib.Tactic

/-! Copies between datatypes: `ucg_dt_memcpy` of `ucg_dt.c`.

    A buffer of a generic type is read and written through its user's convertor only, which knows it
    as a stream of packed bytes; a buffer of a contiguous type is that stream. So a buffer is given
    here by its stream. A convertor may process fewer bytes than it is offered.

    The loop between two generic types packs a fragment, unpacks it and goes on to the next one,
    whether or not all of it has been unpacked. What the unpacking leaves is lost, and the law of
    copies holds exactly if it never leaves anything that there is room for (`dtMemcpy_iff`). -/

namespace Kucg.Core

/-- `ucg_dt_t`: the packed size, and the flag `UCG_DT_FLAG_IS_CONTIGUOUS`. -/
structure Datatype where
  size : ℕ
  contiguous : Bool

/-- The packing or the unpacking half of a `ucg_dt_convertor_t`. A call is given an offset in the
    stream and a number of bytes, and returns a status and the number of bytes it has processed. -/
structure Convertor where
  S : Type
  start : S
  step : S → ℕ → ℕ → Status × S × ℕ

/-- The convertor does what it is asked for in a stream of `total` bytes, at least in part. -/
structure Convertor.Correct (conv : Convertor) (total : ℕ) : Prop where
  status : ∀ s offset length, (conv.step s offset length).1 = .ok
  le_length : ∀ s offset length, (conv.step s offset length).2.2 ≤ length
  le_rest : ∀ s offset length, (conv.step s offset length).2.2 ≤ total - offset
  pos : ∀ s offset length, 0 < length → offset < total → 0 < (conv.step s offset length).2.2

/-- A buffer of `count` elements with its datatype. Offsets in its stream are of type `uint64_t`. -/
structure DtBuffer where
  dt : Datatype
  count : ℕ
  conv : Convertor
  lt : count * dt.size < 2 ^ 64

/-- The length of the stream. -/
def DtBuffer.len (b : DtBuffer) : ℕ := b.count * b.dt.size

/-- The convertor of the buffer, where it is used, is correct. -/
def DtBuffer.Correct (b : DtBuffer) : Prop := b.dt.contiguous = false → b.conv.Correct b.len

/-- What a copy asks for: the fragment buffer, and the states of its convertors. -/
structure DtEnv where
  buf : Bool
  packState : Bool
  unpackState : Bool

section Functions

variable {β : Type}

/-- `UCG_DT_STATE_ACTION`, without the bytes: the status and how many of them are processed. -/
def DtBuffer.stateAction (b : DtBuffer) (s : b.conv.S) (offset wantLen : ℕ) :
    Status × b.conv.S × ℕ :=
  if wantLen = 0 then (.ok, s, 0)
  else if b.dt.contiguous then
    if b.len ≤ offset then (.ok, s, 0) else (.ok, s, min (b.len - offset) wantLen)
  else b.conv.step s offset wantLen

/-- Write `len` bytes at an offset. -/
def copyBytes (dst : ℕ → β) (offset : ℕ) (src : ℕ → β) (len : ℕ) : ℕ → β := fun i =>
  if offset ≤ i ∧ i < offset + len then src (i - offset) else dst i

/-- The status of a copy of all that there is room for. -/
def fitStatus (src dst : DtBuffer) : Status := if src.len ≤ dst.len then .ok else .errTruncate

/-- The loop of `ucg_dt_memcpy_pack` and `ucg_dt_memcpy_unpack`: the stream of `b` is processed up
    to the offset `total`. The fuel bounds the number of iterations. -/
def dtCopyLoop (b : DtBuffer) (total : ℕ) (src : ℕ → β) :
    ℕ → b.conv.S → ℕ → (ℕ → β) → Option (Status × (ℕ → β))
  | 0, _, _, _ => none
  | fuel + 1, s, offset, dst =>
    let (status, s, len) := b.stateAction s offset (total - offset)
    let dst := copyBytes dst offset (fun j => src (offset + j)) len
    if status ≠ .ok then some (status, dst)
    else if len = 0 then some (.ok, dst)
    else dtCopyLoop b total src fuel s (offset + len) dst

/-- The status of a copy, from that of its loop. -/
def finishStatus (src dst : DtBuffer) (res : Status × (ℕ → β)) : Status × (ℕ → β) :=
  (if res.1 = .ok then fitStatus src dst else res.1, res.2)

/-- `ucg_dt_memcpy_contiguous`. -/
def dtMemcpyContiguous (src dst : DtBuffer) (x y : ℕ → β) : Status × (ℕ → β) :=
  if src.len ≤ dst.len then (.ok, copyBytes y 0 x src.len)
  else (.errTruncate, copyBytes y 0 x dst.len)

/-- `ucg_dt_memcpy_pack`. -/
def dtMemcpyPack (env : DtEnv) (src dst : DtBuffer) (fuel : ℕ) (x y : ℕ → β) :
    Option (Status × (ℕ → β)) :=
  if ¬env.packState then some (.errNoResource, y)
  else (dtCopyLoop src dst.len x fuel src.conv.start 0 y).map (finishStatus src dst)

/-- `ucg_dt_memcpy_unpack`. -/
def dtMemcpyUnpack (env : DtEnv) (src dst : DtBuffer) (fuel : ℕ) (x y : ℕ → β) :
    Option (Status × (ℕ → β)) :=
  if ¬env.unpackState then some (.errNoResource, y)
  else (dtCopyLoop dst src.len x fuel dst.conv.start 0 y).map (finishStatus src dst)

/-- `buf_len` of `ucg_dt_memcpy_generic`. -/
def genericBufLen : ℕ := 16384

/-- The loop of `ucg_dt_memcpy_generic`. -/
def dtGenericLoop (src dst : DtBuffer) (x : ℕ → β) :
    ℕ → src.conv.S → dst.conv.S → ℕ → ℕ → (ℕ → β) → Option (Status × (ℕ → β))
  | 0, _, _, _, _, _ => none
  | fuel + 1, packState, unpackState, packOffset, unpackOffset, y =>
    let (status, packState, packed) := src.stateAction packState packOffset genericBufLen
    let buf := fun j => x (packOffset + j)
    if status ≠ .ok then some (status, y)
    else if packed = 0 then some (.ok, y)
    else
      let (status, unpackState, unpacked) := dst.stateAction unpackState unpackOffset packed
      let y := copyBytes y unpackOffset buf unpacked
      if status ≠ .ok then some (status, y)
      else if unpacked = 0 then some (.ok, y)
      else dtGenericLoop src dst x fuel packState unpackState (packOffset + packed)
        (unpackOffset + unpacked) y

/-- `ucg_dt_memcpy_generic`. -/
def dtMemcpyGeneric (env : DtEnv) (src dst : DtBuffer) (fuel : ℕ) (x y : ℕ → β) :
    Option (Status × (ℕ → β)) :=
  if ¬env.buf then some (.errNoMemory, y)
  else if ¬env.packState then some (.errNoResource, y)
  else if ¬env.unpackState then some (.errNoResource, y)
  else (dtGenericLoop src dst x fuel src.conv.start dst.conv.start 0 0 y).map (finishStatus src dst)

/-- `ucg_dt_memcpy`, on the streams `x` of the source and `y` of the destination. -/
def dtMemcpy (env : DtEnv) (src dst : DtBuffer) (fuel : ℕ) (x y : ℕ → β) :
    Option (Status × (ℕ → β)) :=
  if dst.count = 0 ∨ dst.dt.size = 0 then
    some (if src.count = 0 ∨ src.dt.size = 0 then .ok else .errTruncate, y)
  else if src.dt.contiguous ∧ dst.dt.contiguous then some (dtMemcpyContiguous src dst x y)
  else if ¬src.dt.contiguous ∧ dst.dt.contiguous then dtMemcpyPack env src dst fuel x y
  else if src.dt.contiguous ∧ ¬dst.dt.contiguous then dtMemcpyUnpack env src dst fuel x y
  else dtMemcpyGeneric env src dst fuel x y

end Functions

/-! ### The law of copies -/

section Law

variable {β : Type}

/-- The first `n` bytes are those of `x`, the others those of `y`. -/
def spliced (x y : ℕ → β) (n : ℕ) : ℕ → β := fun i => if i < n then x i else y i

/-- The copy ends. It has written what the destination has room for of the source, and tells whether
    that is all of it. -/
def CopyLaw (β : Type) (env : DtEnv) (src dst : DtBuffer) : Prop :=
  ∀ x y : ℕ → β, ∃ bound, ∀ fuel ≥ bound,
    dtMemcpy env src dst fuel x y = some (fitStatus src dst, spliced x y (min src.len dst.len))

/-- The copy gets what it asks for. -/
structure DtEnv.Grants (env : DtEnv) (src dst : DtBuffer) : Prop where
  buf : src.dt.contiguous = false → dst.dt.contiguous = false → env.buf = true
  packState : src.dt.contiguous = false → env.packState = true
  unpackState : dst.dt.contiguous = false → env.unpackState = true

/-- The states of the two convertors, and the offset that both have come to, as long as every
    fragment is unpacked in full. -/
inductive Fed (src dst : DtBuffer) : src.conv.S → dst.conv.S → ℕ → Prop
  | start : Fed src dst src.conv.start dst.conv.start 0
  | next {s : src.conv.S} {t : dst.conv.S} {offset packed : ℕ} (h : Fed src dst s t offset)
      (hpacked : (src.conv.step s offset genericBufLen).2.2 = packed) (hpos : 0 < packed)
      (hfull : (dst.conv.step t offset packed).2.2 = packed) :
      Fed src dst (src.conv.step s offset genericBufLen).2.1 (dst.conv.step t offset packed).2.1
        (offset + packed)

/-- Of every fragment that it is offered, the unpacking convertor takes all that there is room
    for. -/
def Lossless (src dst : DtBuffer) : Prop :=
  ∀ s t offset, Fed src dst s t offset → offset < dst.len →
    let packed := (src.conv.step s offset genericBufLen).2.2
    (dst.conv.step t offset packed).2.2 = min packed (dst.len - offset)

end Law

/-! ### Loops -/

section Loops

variable {β : Type} {src dst : DtBuffer} {x y : ℕ → β}

@[simp] theorem spliced_zero : spliced x y 0 = y := by
  funext i
  simp [spliced]

theorem copyBytes_spliced {offset len : ℕ} :
    copyBytes (spliced x y offset) offset (fun j => x (offset + j)) len =
      spliced x y (offset + len) := by
  funext i
  simp only [copyBytes, spliced]
  split_ifs with h₁ h₂ h₂ h₃ h₃
  · rw [Nat.add_sub_cancel' h₁.1]
  · omega
  · rfl
  · omega
  · omega
  · rfl

@[simp] theorem copyBytes_none {offset : ℕ} : copyBytes y offset x 0 = y := by
  funext i
  rw [copyBytes, if_neg (by omega)]

theorem copyBytes_zero_offset {len : ℕ} : copyBytes y 0 x len = spliced x y len := by
  have h : copyBytes (spliced x y 0) 0 (fun j => x (0 + j)) len = _ := copyBytes_spliced
  simpa using h

/-- What an action processes. -/
structure Moves (b : DtBuffer) (offset wantLen : ℕ) (res : Status × b.conv.S × ℕ) : Prop where
  status : res.1 = .ok
  le_want : res.2.2 ≤ wantLen
  le_rest : res.2.2 ≤ b.len - offset
  pos : 0 < wantLen → offset < b.len → 0 < res.2.2

theorem stateAction_moves {b : DtBuffer} (hb : b.Correct) (s : b.conv.S) (offset wantLen : ℕ) :
    Moves b offset wantLen (b.stateAction s offset wantLen) := by
  rw [DtBuffer.stateAction]
  split_ifs with h₀ hcontig hend
  · exact ⟨rfl, Nat.zero_le _, Nat.zero_le _, fun h _ => absurd h₀ h.ne'⟩
  · exact ⟨rfl, Nat.zero_le _, Nat.zero_le _, fun _ h => absurd hend h.not_ge⟩
  · refine ⟨rfl, Nat.min_le_right .., Nat.min_le_left .., fun hpos hlt => ?_⟩
    dsimp only
    omega
  · have h := hb (by simpa using hcontig)
    exact ⟨h.status .., h.le_length .., h.le_rest .., h.pos s offset wantLen⟩

theorem stateAction_generic {b : DtBuffer} (hb : b.dt.contiguous = false) {s : b.conv.S}
    {offset wantLen : ℕ} (hpos : 0 < wantLen) :
    b.stateAction s offset wantLen = b.conv.step s offset wantLen := by
  rw [DtBuffer.stateAction, if_neg hpos.ne', if_neg (by simp [hb])]

/-- The loop between a generic and a contiguous type copies up to the end of the shorter stream. -/
theorem dtCopyLoop_eq {b : DtBuffer} (hb : b.Correct) {total : ℕ} : ∀ {fuel : ℕ} {s : b.conv.S}
    {offset : ℕ}, offset ≤ min total b.len → min total b.len - offset < fuel →
      dtCopyLoop b total x fuel s offset (spliced x y offset) =
        some (.ok, spliced x y (min total b.len))
  | 0, _, _, _, hfuel => absurd hfuel (Nat.not_lt_zero _)
  | fuel + 1, s, offset, hle, hfuel => by
    have hmoves := stateAction_moves hb s offset (total - offset)
    rw [dtCopyLoop]
    generalize b.stateAction s offset (total - offset) = res at hmoves
    obtain ⟨status, s', len⟩ := res
    obtain ⟨hst, hwant, hrest, hpos⟩ := hmoves
    dsimp only at hst hwant hrest hpos ⊢
    rw [hst, if_neg (by simp), copyBytes_spliced]
    split_ifs with hlen
    · -- nothing has been processed, so one of the streams is at its end
      have hend : offset = min total b.len := by
        by_contra hne
        have := hpos (by omega) (by omega)
        omega
      rw [hlen, Nat.add_zero, ← hend]
    · exact dtCopyLoop_eq hb (by omega) (by omega)

section Generic

variable (hsrc : src.dt.contiguous = false) (hdst : dst.dt.contiguous = false)
  (hpack : src.conv.Correct src.len) (hunpack : dst.conv.Correct dst.len)

include hsrc hdst hpack hunpack

/-- One iteration. -/
theorem dtGenericLoop_succ {fuel : ℕ} {s : src.conv.S} {t : dst.conv.S}
    {packOffset unpackOffset : ℕ} :
    dtGenericLoop src dst x (fuel + 1) s t packOffset unpackOffset y =
      let packed := (src.conv.step s packOffset genericBufLen).2.2
      let unpacked := (dst.conv.step t unpackOffset packed).2.2
      let y' := copyBytes y unpackOffset (fun j => x (packOffset + j)) unpacked
      if packed = 0 then some (.ok, y)
      else if unpacked = 0 then some (.ok, y')
      else dtGenericLoop src dst x fuel (src.conv.step s packOffset genericBufLen).2.1
        (dst.conv.step t unpackOffset packed).2.1 (packOffset + packed) (unpackOffset + unpacked)
        y' := by
  rw [dtGenericLoop, stateAction_generic hsrc (by decide)]
  have hst := hpack.status s packOffset genericBufLen
  generalize src.conv.step s packOffset genericBufLen = res at hst ⊢
  obtain ⟨status, s', packed⟩ := res
  dsimp only at hst ⊢
  rw [hst, if_neg (by simp)]
  by_cases hzero : packed = 0
  · rw [if_pos hzero, if_pos hzero]
  · rw [if_neg hzero, if_neg hzero]
    rw [stateAction_generic hdst (Nat.pos_of_ne_zero hzero)]
    have hst := hunpack.status t unpackOffset packed
    generalize dst.conv.step t unpackOffset packed = res at hst ⊢
    obtain ⟨status, t', unpacked⟩ := res
    dsimp only at hst ⊢
    rw [hst, if_neg (by simp)]

/-- As long as fragments are unpacked in full, the copy is in order. -/
theorem dtGenericLoop_fed {s : src.conv.S} {t : dst.conv.S} {offset : ℕ}
    (h : Fed src dst s t offset) : ∃ steps, ∀ fuel,
      dtGenericLoop src dst x (fuel + steps) src.conv.start dst.conv.start 0 0 y =
        dtGenericLoop src dst x fuel s t offset offset (spliced x y offset) := by
  induction h with
  | start => exact ⟨0, fun fuel => by rw [spliced_zero, Nat.add_zero]⟩
  | @next s t offset packed h hpacked hpos hfull ih =>
    obtain ⟨steps, hsteps⟩ := ih
    refine ⟨steps + 1, fun fuel => ?_⟩
    rw [show fuel + (steps + 1) = fuel + 1 + steps by omega, hsteps,
      dtGenericLoop_succ hsrc hdst hpack hunpack]
    dsimp only
    rw [hpacked, hfull, if_neg hpos.ne', if_neg hpos.ne', copyBytes_spliced]

/-- A loop that loses nothing copies up to the end of the shorter stream. -/
theorem dtGenericLoop_eq (hloss : Lossless src dst) : ∀ {fuel : ℕ} {s : src.conv.S}
    {t : dst.conv.S} {offset : ℕ}, Fed src dst s t offset → offset ≤ min src.len dst.len →
      src.len - offset < fuel →
      dtGenericLoop src dst x fuel s t offset offset (spliced x y offset) =
        some (.ok, spliced x y (min src.len dst.len))
  | 0, _, _, _, _, _, hfuel => absurd hfuel (Nat.not_lt_zero _)
  | fuel + 1, s, t, offset, hfed, hle, hfuel => by
    rw [dtGenericLoop_succ hsrc hdst hpack hunpack]
    have hrest := hpack.le_rest s offset genericBufLen
    have hpos := hpack.pos s offset genericBufLen (by decide)
    have htake := hloss s t offset hfed
    have hroom := hunpack.le_rest t offset (src.conv.step s offset genericBufLen).2.2
    have hnext := hfed.next (rfl : (src.conv.step s offset genericBufLen).2.2 = _)
    generalize hp : (src.conv.step s offset genericBufLen).2.2 = packed at *
    generalize hu : (dst.conv.step t offset packed).2.2 = unpacked at *
    dsimp only at htake ⊢
    rw [copyBytes_spliced]
    split_ifs with hzero hnone
    · -- the source is at its end
      have : offset = min src.len dst.len := by
        by_contra hne
        have := hpos (by omega)
        omega
      rw [← this]
    · -- the destination is full
      have : offset = min src.len dst.len := by
        by_contra hne
        have := htake (by omega)
        omega
      rw [hnone, Nat.add_zero, ← this]
    · have hlt : offset < dst.len := by omega
      have htake := htake hlt
      rw [hu] at htake ⊢
      by_cases hfull : unpacked = packed
      · rw [hfull]
        rw [hfull] at hnext
        exact dtGenericLoop_eq hloss (hnext (by omega) rfl) (by omega) (by omega)
      · -- the fragment fills the destination; what is packed next is not unpacked
        obtain ⟨fuel, rfl⟩ : ∃ f, fuel = f + 1 := ⟨fuel - 1, by omega⟩
        have hend : min src.len dst.len = offset + unpacked := by omega
        have hnomore (t' : dst.conv.S) (len : ℕ) :
            (dst.conv.step t' (offset + unpacked) len).2.2 = 0 := by
          have := hunpack.le_rest t' (offset + unpacked) len
          omega
        rw [dtGenericLoop_succ hsrc hdst hpack hunpack]
        dsimp only
        rw [hnomore, if_pos rfl, hend]
        split_ifs
        · rfl
        · rw [copyBytes_none]

/-- A byte that the rest of the source agrees with stays as it is. -/
theorem dtGenericLoop_same {c : β} {P : ℕ} : ∀ {fuel : ℕ} {s : src.conv.S} {t : dst.conv.S}
    {packOffset unpackOffset : ℕ} {y : ℕ → β} {res : Status × (ℕ → β)},
    (∀ j, packOffset ≤ j → x j = c) → y P = c →
      dtGenericLoop src dst x fuel s t packOffset unpackOffset y = some res → res.2 P = c
  | 0, _, _, _, _, _, _, _, _, h => by cases h
  | fuel + 1, s, t, packOffset, unpackOffset, y, res, hx, hy, h => by
    have hcopy (len : ℕ) :
        copyBytes y unpackOffset (fun j => x (packOffset + j)) len P = c := by
      rw [copyBytes]
      split_ifs
      · exact hx _ (Nat.le_add_right ..)
      · exact hy
    rw [dtGenericLoop_succ hsrc hdst hpack hunpack] at h
    dsimp only at h
    split_ifs at h
    · obtain rfl := Option.some.inj h
      exact hy
    · obtain rfl := Option.some.inj h
      exact hcopy _
    · exact dtGenericLoop_same (fun j hj => hx j (by omega)) (hcopy _) h

/-- What a convertor leaves of a fragment although there is room for it is lost. -/
theorem lossless_of_copies [Nontrivial β]
    (h : ∀ x y : ℕ → β, ∃ bound, ∀ fuel ≥ bound,
      (dtGenericLoop src dst x fuel src.conv.start dst.conv.start 0 0 y).map Prod.snd =
        some (spliced x y (min src.len dst.len))) : Lossless src dst := by
  intro s t offset hfed hlt packed
  by_contra hne
  have hrest : packed ≤ src.len - offset := hpack.le_rest s offset genericBufLen
  have hle := hunpack.le_length t offset packed
  have hroom := hunpack.le_rest t offset packed
  have hpos := hunpack.pos t offset packed
  obtain ⟨a, b, hab⟩ := exists_pair_ne β
  -- the first byte that is left is the only one of its kind
  generalize hu : (dst.conv.step t offset packed).2.2 = unpacked at hne hle hroom hpos
  obtain ⟨bound, hbound⟩ := h (fun i => if i = offset + unpacked then b else a) fun _ => a
  obtain ⟨steps, hsteps⟩ := dtGenericLoop_fed hsrc hdst hpack hunpack
    (x := fun i => if i = offset + unpacked then b else a) (y := fun _ => a) hfed
  have hres := hbound (bound + 1 + steps) (by omega)
  rw [hsteps, dtGenericLoop_succ hsrc hdst hpack hunpack] at hres
  dsimp only at hres
  change (if packed = 0 then _ else _ : Option _).map _ = _ at hres
  have hpacked : packed ≠ 0 := by omega
  rw [if_neg hpacked, copyBytes_spliced] at hres
  have hunpacked : (dst.conv.step t offset packed).2.2 ≠ 0 := by
    rw [hu]
    exact (hpos (by omega) hlt).ne'
  rw [if_neg hunpacked, hu] at hres
  obtain ⟨res, hloop, hmem⟩ := Option.map_eq_some_iff.mp hres
  have hstay := dtGenericLoop_same hsrc hdst hpack hunpack (P := offset + unpacked) (c := a)
    (fun j hj => if_neg (by omega)) (by simp [spliced]) hloop
  rw [hmem, spliced, if_pos (by omega), if_pos rfl] at hstay
  exact hab hstay.symm

end Generic

end Loops

/-! ### When the law holds -/

section Main

variable {β : Type} {env : DtEnv} {src dst : DtBuffer} {x y : ℕ → β}

theorem len_eq_zero {b : DtBuffer} : b.len = 0 ↔ b.count = 0 ∨ b.dt.size = 0 := Nat.mul_eq_zero

/-- The early return. -/
theorem dtMemcpy_empty {fuel : ℕ} (h : dst.len = 0) : dtMemcpy env src dst fuel x y =
    some (fitStatus src dst, spliced x y (min src.len dst.len)) := by
  have hsrc : src.len ≤ 0 ↔ src.count = 0 ∨ src.dt.size = 0 := Nat.le_zero.trans len_eq_zero
  rw [dtMemcpy, if_pos (len_eq_zero.mp h), h, Nat.min_zero, spliced_zero, fitStatus, h]
  simp only [hsrc]

theorem dtMemcpyContiguous_eq : dtMemcpyContiguous src dst x y =
    (fitStatus src dst, spliced x y (min src.len dst.len)) := by
  rw [dtMemcpyContiguous, fitStatus, copyBytes_zero_offset, copyBytes_zero_offset]
  split_ifs with h
  · rw [Nat.min_eq_left h]
  · rw [Nat.min_eq_right (by omega)]

theorem finishStatus_ok : finishStatus src dst (.ok, x) = (fitStatus src dst, x) := rfl

theorem fitStatus_ne {status : Status} (hok : status ≠ .ok) (htrunc : status ≠ .errTruncate) :
    status ≠ fitStatus src dst := by
  rw [fitStatus]
  split_ifs
  · exact hok
  · exact htrunc

/-- The loop of a pack or an unpack, from its start. -/
theorem dtCopyLoop_start {b : DtBuffer} (hb : b.Correct) {total fuel : ℕ}
    (hfuel : min total b.len < fuel) : dtCopyLoop b total x fuel b.conv.start 0 y =
      some (.ok, spliced x y (min total b.len)) := by
  have h := dtCopyLoop_eq hb (x := x) (y := y) (s := b.conv.start)
    (Nat.zero_le _) (by omega : min total b.len - 0 < fuel)
  rwa [spliced_zero] at h

/-- A copy that does not get what it asks for returns an error of its own. -/
theorem grants_of_law (hlen : dst.len ≠ 0) {fuel : ℕ} {y' : ℕ → β}
    (h : dtMemcpy env src dst fuel x y = some (fitStatus src dst, y')) : env.Grants src dst := by
  have hne {status : Status} (hok : status ≠ .ok) (htrunc : status ≠ .errTruncate) :
      some (status, y) ≠ some (fitStatus src dst, y') := fun h =>
    fitStatus_ne hok htrunc (congrArg Prod.fst (Option.some.inj h))
  have hmem : some (Status.errNoMemory, y) ≠ _ := hne (by decide) (by decide)
  have hres : some (Status.errNoResource, y) ≠ _ := hne (by decide) (by decide)
  rw [dtMemcpy, if_neg fun h' => hlen (len_eq_zero.mpr h')] at h
  refine ⟨fun hs hd => ?_, fun hs => ?_, fun hd => ?_⟩
  · by_contra hbuf
    simp only [hs, hd, dtMemcpyGeneric, hbuf] at h
    exact hmem (by simpa using h)
  · by_contra hpack
    cases hd : dst.dt.contiguous with
    | true =>
      simp only [hs, hd, dtMemcpyPack, hpack] at h
      exact hres (by simpa using h)
    | false =>
      simp only [hs, hd, dtMemcpyGeneric, hpack] at h
      cases hbuf : env.buf with
      | true => exact hres (by simpa [hbuf] using h)
      | false => exact hmem (by simpa [hbuf] using h)
  · by_contra hunpack
    cases hs : src.dt.contiguous with
    | true =>
      simp only [hs, hd, dtMemcpyUnpack, hunpack] at h
      exact hres (by simpa using h)
    | false =>
      simp only [hs, hd, dtMemcpyGeneric, hunpack] at h
      cases hbuf : env.buf with
      | true => exact hres (by simpa [hbuf] using h)
      | false => exact hmem (by simpa [hbuf] using h)

/-- The copy between two generic types, when it gets what it asks for. -/
theorem dtMemcpy_generic (hlen : dst.len ≠ 0) (hs : src.dt.contiguous = false)
    (hd : dst.dt.contiguous = false) (hgrants : env.Grants src dst) {fuel : ℕ} :
    dtMemcpy env src dst fuel x y = (dtGenericLoop src dst x fuel src.conv.start dst.conv.start
      0 0 y).map (finishStatus src dst) := by
  rw [dtMemcpy, if_neg fun h => hlen (len_eq_zero.mpr h)]
  simp [hs, hd, dtMemcpyGeneric, hgrants.buf hs hd, hgrants.packState hs, hgrants.unpackState hd]

/-- The law of copies holds exactly if the copy gets what it asks for, or there is nothing to write
    to, and, between two generic types, the unpacking convertor never leaves anything of a fragment
    that there is room for. -/
theorem dtMemcpy_iff [Nontrivial β] (env : DtEnv) (src dst : DtBuffer) (hsrc : src.Correct)
    (hdst : dst.Correct) : CopyLaw β env src dst ↔ (dst.len = 0 ∨ env.Grants src dst) ∧
      (src.dt.contiguous = false → dst.dt.contiguous = false → Lossless src dst) := by
  by_cases hlen : dst.len = 0
  · refine iff_of_true (fun x y => ⟨0, fun fuel _ => dtMemcpy_empty hlen⟩) ⟨Or.inl hlen, ?_⟩
    intro _ _ s t offset _ hlt
    exact absurd hlt (by rw [hlen]; exact Nat.not_lt_zero _)
  constructor
  · intro h
    obtain ⟨a, -⟩ := exists_pair_ne β
    have hgrants : env.Grants src dst := by
      obtain ⟨bound, hbound⟩ := h (fun _ => a) fun _ => a
      exact grants_of_law hlen (hbound bound le_rfl)
    refine ⟨Or.inr hgrants, fun hs hd => ?_⟩
    refine lossless_of_copies hs hd (hsrc hs) (hdst hd) (β := β) fun x y => ?_
    obtain ⟨bound, hbound⟩ := h x y
    refine ⟨bound, fun fuel hfuel => ?_⟩
    have hres := hbound fuel hfuel
    rw [dtMemcpy_generic hlen hs hd hgrants] at hres
    have hsnd := congrArg (Option.map Prod.snd) hres
    rwa [Option.map_map] at hsnd
  · rintro ⟨hgrants, hloss⟩ x y
    replace hgrants := hgrants.resolve_left hlen
    refine ⟨src.len + dst.len + 1, fun fuel hfuel => ?_⟩
    cases hs : src.dt.contiguous with
    | true =>
      rw [dtMemcpy, if_neg fun h => hlen (len_eq_zero.mpr h), hs]
      cases hd : dst.dt.contiguous with
      | true => simp [dtMemcpyContiguous_eq]
      | false =>
        simp only [dtMemcpyUnpack, hgrants.unpackState hd]
        rw [dtCopyLoop_start hdst (by omega)]
        simp [finishStatus_ok]
    | false =>
      cases hd : dst.dt.contiguous with
      | true =>
        rw [dtMemcpy, if_neg fun h => hlen (len_eq_zero.mpr h), hs, hd]
        simp only [dtMemcpyPack, hgrants.packState hs]
        rw [dtCopyLoop_start hsrc (by omega)]
        simp [finishStatus_ok, Nat.min_comm]
      | false =>
        have hloop := dtGenericLoop_eq hs hd (hsrc hs) (hdst hd) (x := x) (y := y) (hloss hs hd)
          .start (Nat.zero_le _) (by omega : src.len - 0 < fuel)
        rw [spliced_zero] at hloop
        rw [dtMemcpy_generic hlen hs hd hgrants, hloop]
        rfl

end Main

/-! Two bytes between generic types, with a convertor that packs all it can and one that unpacks one
    byte at a time or all. -/

/-- Up to `most` bytes in a call, of a stream of `total`. -/
def Convertor.upTo (total most : ℕ) : Convertor :=
  ⟨Unit, (), fun _ offset length => (.ok, (), min most (min length (total - offset)))⟩

theorem Convertor.upTo_correct {total most : ℕ} (h : 0 < most) :
    (Convertor.upTo total most).Correct total where
  status _ _ _ := rfl
  le_length _ _ _ := (Nat.min_le_right ..).trans (Nat.min_le_left ..)
  le_rest _ _ _ := (Nat.min_le_right ..).trans (Nat.min_le_right ..)
  pos _ offset length hlen hlt := by
    simp only [Convertor.upTo]
    omega

def twoBytes (most : ℕ) : DtBuffer := ⟨⟨2, false⟩, 1, .upTo 2 most, by decide⟩

theorem twoBytes_correct {most : ℕ} (h : 0 < most) : (twoBytes most).Correct :=
  fun _ => Convertor.upTo_correct h

theorem dtMemcpy_iff_two : CopyLaw UInt8 ⟨true, true, true⟩ (twoBytes 8) (twoBytes 8) := by
  have : Nontrivial UInt8 := ⟨0, 1, by decide⟩
  refine (dtMemcpy_iff ⟨true, true, true⟩ (twoBytes 8) (twoBytes 8) (twoBytes_correct (by decide))
    (twoBytes_correct (by decide))).mpr ⟨Or.inr ⟨fun _ _ => rfl, fun _ => rfl, fun _ => rfl⟩, ?_⟩
  intro _ _ s t offset _ _
  simp only [twoBytes, Convertor.upTo, DtBuffer.len]
  omega

/-- One byte at a time, the second byte is lost. -/
theorem dtMemcpy_not_law : ¬CopyLaw UInt8 ⟨true, true, true⟩ (twoBytes 8) (twoBytes 1) := by
  intro h
  obtain ⟨bound, hbound⟩ := h (fun i => if i = 1 then 1 else 0) fun _ => 0
  have hres := congrArg (Option.map fun res => res.2 1) (hbound (bound + 3) (Nat.le_add_right ..))
  have hrun : (dtMemcpy ⟨true, true, true⟩ (twoBytes 8) (twoBytes 1) (bound + 3)
      (fun i => if i = 1 then (1 : UInt8) else 0) fun _ => 0).map (fun res => res.2 1) = some 0 :=
    rfl
  have hlaw : (spliced (fun i => if i = 1 then (1 : UInt8) else 0) (fun _ => 0)
    (min (twoBytes 8).len (twoBytes 1).len)) 1 = 1 := by decide
  have hone : some (0 : UInt8) = some 1 := hrun.symm.trans (hres.trans (congrArg some hlaw))
  exact absurd hone (by decide)

end Kucg.Core
