import Mathlib.Tactic

/-! The memory keys that a process tells its peers (`scp_mm.c`).

    The packer writes, for each memory domain, the size of its key and the key; the unpacker finds
    the peer's keys by these sizes, but reads each of them with the component of its own memory
    domain of that number. `unpack_pack_iff` says when it gets the keys that were packed. -/

namespace Kucg.Stars

namespace MemoryKeys

/-- The components, by their names. -/
inductive Component where
  | sdma
  | rcAcc
  deriving DecidableEq

/-- What `scp_md_mkey_pack` reads of `uct_md_attr_t`. -/
structure MdAttr where
  flagAlloc : Bool
  flagReg : Bool
  rkeyPackedSize : ℕ

/-- `sct_sdma_ofd_md_query` and `sct_ib_md_query`. -/
def mdAttr : Component → MdAttr
  | .sdma => ⟨true, true, 0⟩
  | .rcAcc => ⟨false, true, 8⟩

/-- `key_packed_size`. -/
def keyPackedSize (md : Component) : ℕ :=
  if (mdAttr md).flagAlloc || (mdAttr md).flagReg then (mdAttr md).rkeyPackedSize else 0

/-- `SCP_MM_PACK_SIZE`, for `SCP_MAX_LANE` keys. -/
def scpMmPackSize : ℕ := 4 + 1 + 9 * (2 + 8)

/-! ### The packer -/

/-- The `n` lowest bytes of a number, lowest first. -/
def bytesOf : ℕ → ℕ → List ℕ
  | 0, _ => []
  | n + 1, x => x % 256 :: bytesOf n (x / 256)

/-- `sct_md_mkey_pack`. -/
def sctMdMkeyPack (rkey : BitVec 32) : Component → List ℕ
  | .sdma => []
  | .rcAcc => bytesOf 8 rkey.toNat

/-- The loop of `scp_md_mkey_pack` over the memory domains; `rkeys` are the keys of the memory that
was registered with each of them. -/
def packLoop (rkeys : ℕ → BitVec 32) : ℕ → List Component → List ℕ
  | _, [] => []
  | mdIdx, md :: mds =>
    bytesOf 2 (keyPackedSize md) ++
      (if keyPackedSize md = 0 then [] else sctMdMkeyPack (rkeys mdIdx) md) ++
        packLoop rkeys (mdIdx + 1) mds

/-- `scp_md_mkey_pack`: the bytes that are written; `none` if they are more than the buffer has. -/
def scpMdMkeyPack (tlMds : List Component) (rkeys : ℕ → BitVec 32) : Option (List ℕ) :=
  let body := packLoop rkeys 0 tlMds
  let packedSize := 4 + 1 + body.length
  if scpMmPackSize < packedSize then none
  else some (bytesOf 4 packedSize ++ (tlMds.length % 256 :: body))

/-! ### The unpacker -/

/-- `sct_rkey_unpack`. -/
def sctRkeyUnpack (ptr : List ℕ) : Component → ℕ
  | .sdma => 0xdeadbeef
  | .rcAcc => Nat.ofDigits 256 (ptr.take 8)

/-- The loop of `scp_md_mkey_unpack`: the entries of the bundle, zero where there is no key, and
what is left of the buffer. It reads a memory domain behind the last one: `none`. -/
def unpackLoop (tlMds : List Component) : ℕ → ℕ → List ℕ → Option (List ℕ × List ℕ)
  | 0, _, ptr => some ([], ptr)
  | numMds + 1, mdIdx, ptr =>
    let keyPackedSize := Nat.ofDigits 256 (ptr.take 2)
    let ptr := ptr.drop 2
    if keyPackedSize = 0 then
      (unpackLoop tlMds numMds (mdIdx + 1) ptr).map fun (rkeys, ptr) => (0 :: rkeys, ptr)
    else
      (tlMds[mdIdx]?).bind fun cmpt =>
        (unpackLoop tlMds numMds (mdIdx + 1) (ptr.drop keyPackedSize)).map fun (rkeys, rest) =>
          (sctRkeyUnpack ptr cmpt :: rkeys, rest)

/-- `scp_md_mkey_unpack`: the bundle and the size of what was read; `none` is an error, or a read
behind an array. -/
def scpMdMkeyUnpack (tlMds : List Component) (packed : List ℕ) : Option (List ℕ × ℕ) :=
  let numMds := packed.getD 4 0
  if numMds = 0 then none
  else (unpackLoop tlMds numMds 0 (packed.drop 5)).map fun (rkeys, ptr) =>
    (rkeys, packed.length - ptr.length)

/-! ### What is packed and what is read -/

/-- The bundle that is right: the key of each memory domain that has one. -/
def packedKeys (rkeys : ℕ → BitVec 32) : ℕ → List Component → List ℕ
  | _, [] => []
  | mdIdx, md :: mds =>
    (if keyPackedSize md = 0 then 0 else (rkeys mdIdx).toNat) :: packedKeys rkeys (mdIdx + 1) mds

/-- The size of a packed address. -/
def packedSize (tlMds : List Component) : ℕ := 5 + (tlMds.map fun md => 2 + keyPackedSize md).sum

/-- Where the peer has a memory domain with a key, there is one of the same component. -/
def Agree (tlMds : List Component) (mdIdx : ℕ) (peerMds : List Component) : Prop :=
  ∀ k, peerMds[k]? = some .rcAcc → tlMds[mdIdx + k]? = some .rcAcc

@[simp] theorem length_bytesOf : ∀ n x : ℕ, (bytesOf n x).length = n
  | 0, _ => rfl
  | n + 1, x => by rw [bytesOf, List.length_cons, length_bytesOf]

theorem ofDigits_bytesOf : ∀ {n x : ℕ}, x < 256 ^ n → Nat.ofDigits 256 (bytesOf n x) = x
  | 0, x, h => by
    rw [pow_zero] at h
    rw [bytesOf, Nat.ofDigits_nil]
    omega
  | n + 1, x, h => by
    rw [pow_succ] at h
    rw [bytesOf, Nat.ofDigits_cons, ofDigits_bytesOf (by omega)]
    exact Nat.mod_add_div x 256

section Loops

variable {rkeys : ℕ → BitVec 32} {tlMds : List Component}

theorem length_packLoop : ∀ {mdIdx : ℕ} {mds : List Component},
    (packLoop rkeys mdIdx mds).length = (mds.map fun md => 2 + keyPackedSize md).sum
  | _, [] => rfl
  | mdIdx, md :: mds => by
    rw [packLoop, List.length_append, List.length_append, length_packLoop, length_bytesOf,
      List.map_cons, List.sum_cons]
    cases md <;> simp [keyPackedSize, mdAttr, sctMdMkeyPack]

theorem agree_cons {mdIdx : ℕ} {md : Component} {mds : List Component} :
    Agree tlMds mdIdx (md :: mds) ↔
      (md = .rcAcc → tlMds[mdIdx]? = some .rcAcc) ∧ Agree tlMds (mdIdx + 1) mds := by
  constructor
  · intro h
    refine ⟨fun hmd => h 0 (by rw [hmd]; rfl), fun k hk => ?_⟩
    have := h (k + 1) hk
    rwa [← Nat.add_assoc, Nat.add_right_comm] at this
  · rintro ⟨hmd, hmds⟩ k hk
    cases k with
    | zero => exact hmd (Option.some.inj hk)
    | succ k =>
      have := hmds k hk
      rwa [Nat.add_right_comm, Nat.add_assoc] at this

/-- A memory domain without a key is passed over. -/
theorem unpackLoop_sdma {rest : List ℕ} {mdIdx : ℕ} {mds : List Component} :
    unpackLoop tlMds (mds.length + 1) mdIdx (packLoop rkeys mdIdx (.sdma :: mds) ++ rest) =
      (unpackLoop tlMds mds.length (mdIdx + 1) (packLoop rkeys (mdIdx + 1) mds ++ rest)).map
        fun (rkeys, ptr) => (0 :: rkeys, ptr) := rfl

/-- A key is read with the component of this side. -/
theorem unpackLoop_rcAcc {rest : List ℕ} {mdIdx : ℕ} {mds : List Component} :
    unpackLoop tlMds (mds.length + 1) mdIdx (packLoop rkeys mdIdx (.rcAcc :: mds) ++ rest) =
      (tlMds[mdIdx]?).bind fun cmpt =>
        (unpackLoop tlMds mds.length (mdIdx + 1) (packLoop rkeys (mdIdx + 1) mds ++ rest)).map
          fun (keys, ptr) => ((match cmpt with
            | .sdma => 0xdeadbeef
            | .rcAcc => (rkeys mdIdx).toNat) :: keys, ptr) := by
  have hkey : (rkeys mdIdx).toNat < 256 ^ 8 := lt_trans (rkeys mdIdx).isLt (by norm_num)
  have htake (l : List ℕ) : (bytesOf 8 (rkeys mdIdx).toNat ++ l).take 8 =
      bytesOf 8 (rkeys mdIdx).toNat := List.take_left' (length_bytesOf 8 _)
  have hdrop (l : List ℕ) : (bytesOf 8 (rkeys mdIdx).toNat ++ l).drop 8 = l :=
    List.drop_left' (length_bytesOf 8 _)
  have hpack : packLoop rkeys mdIdx (.rcAcc :: mds) ++ rest = 8 :: 0 ::
      (bytesOf 8 (rkeys mdIdx).toNat ++ (packLoop rkeys (mdIdx + 1) mds ++ rest)) := by
    rw [packLoop, List.append_assoc, List.append_assoc]
    rfl
  have hsize : Nat.ofDigits 256 [8, 0] = 8 := rfl
  rw [hpack, unpackLoop]
  simp only [List.take_succ_cons, List.take_zero, List.drop_succ_cons, List.drop_zero, hsize,
    OfNat.ofNat_ne_zero, if_false, hdrop]
  refine congrArg (Option.bind (tlMds[mdIdx]?)) (funext fun cmpt => ?_)
  cases cmpt with
  | sdma => rfl
  | rcAcc => simp only [sctRkeyUnpack, htake, ofDigits_bytesOf hkey]

/-- Where the components agree, the loop reads what was packed, and no more. -/
theorem unpackLoop_of_agree {rest : List ℕ} : ∀ {mdIdx : ℕ} {mds : List Component},
    Agree tlMds mdIdx mds →
      unpackLoop tlMds mds.length mdIdx (packLoop rkeys mdIdx mds ++ rest) =
        some (packedKeys rkeys mdIdx mds, rest)
  | _, [], _ => rfl
  | mdIdx, .sdma :: mds, h => by
    rw [agree_cons] at h
    rw [List.length_cons, unpackLoop_sdma, unpackLoop_of_agree h.2]
    rfl
  | mdIdx, .rcAcc :: mds, h => by
    rw [agree_cons] at h
    rw [List.length_cons, unpackLoop_rcAcc, unpackLoop_of_agree h.2, h.1 rfl]
    rfl

/-- With keys that are zero, nothing else is read as them. -/
theorem agree_of_unpackLoop {rest ptr : List ℕ} : ∀ {mdIdx : ℕ} {mds : List Component},
    unpackLoop tlMds mds.length mdIdx (packLoop (fun _ => 0) mdIdx mds ++ rest) =
        some (packedKeys (fun _ => 0) mdIdx mds, ptr) →
      Agree tlMds mdIdx mds
  | _, [], _ => fun k hk => by simp at hk
  | mdIdx, .sdma :: mds, h => by
    rw [List.length_cons, unpackLoop_sdma, Option.map_eq_some_iff] at h
    obtain ⟨⟨keys, ptr'⟩, hrest, heq⟩ := h
    simp only [packedKeys, Prod.mk.injEq, List.cons.injEq] at heq
    obtain ⟨⟨-, rfl⟩, rfl⟩ := heq
    exact agree_cons.mpr ⟨by simp, agree_of_unpackLoop hrest⟩
  | mdIdx, .rcAcc :: mds, h => by
    rw [List.length_cons, unpackLoop_rcAcc, Option.bind_eq_some_iff] at h
    obtain ⟨cmpt, hcmpt, h⟩ := h
    rw [Option.map_eq_some_iff] at h
    obtain ⟨⟨keys, ptr'⟩, hrest, heq⟩ := h
    simp only [packedKeys, Prod.mk.injEq, List.cons.injEq] at heq
    obtain ⟨⟨hkey, rfl⟩, rfl⟩ := heq
    refine agree_cons.mpr ⟨fun _ => ?_, agree_of_unpackLoop hrest⟩
    cases cmpt with
    | sdma => exact absurd hkey (by decide)
    | rcAcc => exact hcmpt

end Loops

/-- Whatever the keys are, the bundle that is unpacked has, index by index, those that were packed,
exactly if the buffer has room for them, there is a memory domain at all, and the memory domains
with a key are of the same components on both sides. -/
theorem unpack_pack_iff (tlMds peerMds : List Component) :
    (∀ rkeys, (scpMdMkeyPack peerMds rkeys).bind (scpMdMkeyUnpack tlMds) =
        some (packedKeys rkeys 0 peerMds, packedSize peerMds)) ↔
      packedSize peerMds ≤ scpMmPackSize ∧ peerMds ≠ [] ∧ Agree tlMds 0 peerMds := by
  have hlen (rkeys : ℕ → BitVec 32) : 4 + 1 + (packLoop rkeys 0 peerMds).length =
      packedSize peerMds := by
    rw [length_packLoop]
    rfl
  by_cases hfits : packedSize peerMds ≤ scpMmPackSize
  swap
  · refine ⟨fun h => ?_, fun h => absurd h.1 hfits⟩
    have := h fun _ => 0
    rw [scpMdMkeyPack, hlen, if_pos (not_le.mp hfits)] at this
    cases this
  have hmds : peerMds.length < 256 := by
    have hle : (peerMds.map fun _ => 2).sum ≤ (peerMds.map fun md => 2 + keyPackedSize md).sum :=
      List.sum_le_sum fun md _ => Nat.le_add_right 2 _
    rw [List.map_const', List.sum_replicate, smul_eq_mul] at hle
    rw [packedSize, scpMmPackSize] at hfits
    omega
  have hunpack (rkeys : ℕ → BitVec 32) :
      (scpMdMkeyPack peerMds rkeys).bind (scpMdMkeyUnpack tlMds) =
        if peerMds = [] then none
        else (unpackLoop tlMds peerMds.length 0 (packLoop rkeys 0 peerMds ++ [])).map
          fun (keys, ptr) => (keys, packedSize peerMds - ptr.length) := by
    have hnum : ∀ body : List ℕ, (bytesOf 4 (packedSize peerMds) ++ body).getD 4 0 =
        body.getD 0 0 := fun body => rfl
    have hdrop : ∀ body : List ℕ, (bytesOf 4 (packedSize peerMds) ++ body).drop 5 =
        body.drop 1 := fun body => rfl
    have htotal : (bytesOf 4 (packedSize peerMds) ++
        peerMds.length :: packLoop rkeys 0 peerMds).length = packedSize peerMds := by
      rw [List.length_append, length_bytesOf, List.length_cons, ← hlen rkeys]
      omega
    rw [scpMdMkeyPack, hlen, if_neg (not_lt.mpr hfits), Nat.mod_eq_of_lt hmds, Option.bind_some,
      scpMdMkeyUnpack, hnum, hdrop, htotal, List.append_nil]
    simp only [List.getD_cons_zero, List.length_eq_zero_iff, List.drop_succ_cons, List.drop_zero]
  simp only [hunpack]
  constructor
  · intro h
    have hne : peerMds ≠ [] := fun hnil => by
      have := h fun _ => 0
      rw [if_pos hnil] at this
      cases this
    have hzero := h fun _ => 0
    rw [if_neg hne, Option.map_eq_some_iff] at hzero
    obtain ⟨⟨keys, ptr⟩, hloop, heq⟩ := hzero
    obtain rfl := (Prod.mk.inj heq).1
    exact ⟨hfits, hne, agree_of_unpackLoop hloop⟩
  · rintro ⟨-, hne, hagree⟩ rkeys
    rw [if_neg hne, unpackLoop_of_agree hagree]
    rfl

end MemoryKeys

end Kucg.Stars
