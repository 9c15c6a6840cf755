import Kucg.Lib.BubbleSort

/-! Selecting interfaces and putting their memory domains in order (`scp_worker.c`).

    The interfaces are sorted by latency, those that are kept by subnet, and then the array of
    memory domains is filled anew: first the domain of each interface, in the order of the
    interfaces, then the domains that no interface has. Which have been written is kept in a map of
    32 bits. A domain of two interfaces is written twice, and a domain whose bit the map has not got
    is written again at the end, so that in either case one too many is written behind the array;
    otherwise all interfaces keep their domains (`selectsIfaces_iff`). -/

namespace Kucg.Stars

open Kucg.Lib

namespace SelectIfaces

/-- `scp_worker_iface_t`: its resource, and its latency for one byte. -/
structure Iface where
  rscIndex : ℕ
  latency : ℚ
  deriving DecidableEq

/-- `scp_context_t`: the memory domains, the index of the domain of each resource, the map of the
resources in use, and the configured number of rails. -/
structure Context (Md : Type) where
  tlMds : List Md
  mdIndex : ℕ → ℕ
  tlBitmap : BitVec 64
  multirails : ℕ

/-- `UCS_BIT`; a shift by 64 or more is undefined. -/
def ucsBit (i : ℕ) : Option (BitVec 64) := if i < 64 then some (BitVec.twoPow 64 i) else none

variable {Md : Type} [Inhabited Md]

/-! ### Filling the memory domains -/

/-- The variables of `scp_worker_refill_mds`. -/
structure Filling (Md : Type) where
  tempMds : List Md
  newMdIdx : ℕ
  mdIndex : ℕ → ℕ
  mdsMap : BitVec 32

/-- A domain is written to `temp_mds[new_md_idx++]`; behind the array nothing may be written. -/
def Filling.put (f : Filling Md) (md : Md) : Option (Filling Md) :=
  if f.newMdIdx < f.tempMds.length then
    some { f with tempMds := f.tempMds.set f.newMdIdx md, newMdIdx := f.newMdIdx + 1 }
  else none

/-- The loop over the interfaces. -/
def fillIface (mds : List Md) (f : Filling Md) (iface : Iface) : Option (Filling Md) := do
  let mdIdx := f.mdIndex iface.rscIndex
  let md ← mds[mdIdx]?
  let next ← f.put md
  let bit ← ucsBit mdIdx
  some { next with
    mdIndex := Function.update f.mdIndex iface.rscIndex f.newMdIdx
    mdsMap := f.mdsMap ||| bit.setWidth 32 }

/-- The loop over the domains, for those that no interface has. -/
def fillUnused (mds : List Md) (f : Filling Md) (idx : ℕ) : Option (Filling Md) := do
  let bit ← ucsBit idx
  if f.mdsMap.setWidth 64 &&& bit ≠ 0 then some f
  else
    let md ← mds[idx]?
    f.put md

/-- `scp_worker_refill_mds`, if there is memory for `temp_mds`. -/
def scpWorkerRefillMds (context : Context Md) (ifaces : List Iface) : Option (Context Md) := do
  let mds := context.tlMds
  let f ← ifaces.foldlM (fillIface mds)
    ⟨List.replicate mds.length default, 0, context.mdIndex, 0⟩
  let f ← (List.range mds.length).foldlM (fillUnused mds) f
  some { context with tlMds := f.tempMds, mdIndex := f.mdIndex }

/-! ### Selecting -/

/-- `scp_worker_cmp_iface`. -/
def scpWorkerCmpIface (left right : Iface) : Bool := !decide (left.latency ≤ right.latency)

/-- `scp_worker_cmp_md_subnet`. -/
def scpWorkerCmpMdSubnet (subnetId : Md → ℕ) (context : Context Md) (left right : Iface) : Bool :=
  decide (subnetId (context.tlMds.getD (context.mdIndex left.rscIndex) default) >
    subnetId (context.tlMds.getD (context.mdIndex right.rscIndex) default))

/-- The bit of an interface that is closed is cleared. -/
def clearBit (tlBitmap : BitVec 64) (iface : Iface) : Option (BitVec 64) :=
  (ucsBit iface.rscIndex).map fun bit => tlBitmap &&& ~~~bit

/-- `scp_worker_select_ifaces`: the context and the interfaces that are kept. -/
def scpWorkerSelectIfaces (subnetId : Md → ℕ) (context : Context Md) (ifaces : List Iface) :
    Option (Context Md × List Iface) := do
  let byLatency := bubbleSort scpWorkerCmpIface ifaces.length ifaces
  let ifaceNum := if context.multirails ≤ ifaces.length then context.multirails else ifaces.length
  let bySubnet := bubbleSort (scpWorkerCmpMdSubnet subnetId context) ifaceNum byLatency
  let context ← scpWorkerRefillMds context bySubnet
  let tlBitmap ← (bySubnet.drop ifaceNum).foldlM clearBit context.tlBitmap
  some ({ context with tlBitmap := tlBitmap }, bySubnet.take ifaceNum)

/-! ### Bits -/

theorem ucsBit_eq_some {i : ℕ} {bit : BitVec 64} (h : ucsBit i = some bit) :
    i < 64 ∧ bit = BitVec.twoPow 64 i := by
  rw [ucsBit] at h
  split_ifs at h with hlt
  exact ⟨hlt, (Option.some.inj h).symm⟩

theorem ucsBit_of_lt {i : ℕ} (h : i < 64) : ucsBit i = some (BitVec.twoPow 64 i) := if_pos h

/-- The test of a bit of the map. -/
theorem and_ucsBit_ne_zero (map : BitVec 32) {i : ℕ} (h : i < 64) :
    map.setWidth 64 &&& BitVec.twoPow 64 i ≠ 0 ↔ map.getLsbD i = true := by
  rw [BitVec.and_twoPow, BitVec.getLsbD_setWidth, decide_eq_true h, Bool.true_and]
  split_ifs with hbit
  · refine ⟨fun _ => hbit, fun _ hzero => ?_⟩
    have := congrArg (BitVec.getLsbD · i) hzero
    simp [h] at this
  · simpa using hbit

/-- A bit that is set. -/
theorem getLsbD_or_ucsBit (map : BitVec 32) {i k : ℕ} (hi : i < 64) :
    (map ||| (BitVec.twoPow 64 i).setWidth 32).getLsbD k = true ↔
      map.getLsbD k = true ∨ (k < 32 ∧ i = k) := by
  rw [BitVec.getLsbD_or, BitVec.getLsbD_setWidth, BitVec.getLsbD_twoPow]
  simp only [Bool.or_eq_true, Bool.and_eq_true, decide_eq_true_eq, hi, true_and]

/-! ### The loops -/

/-- These domains have been written. -/
structure Filled (mds written : List Md) (f : Filling Md) : Prop where
  newMdIdx : f.newMdIdx = written.length
  length_le : written.length ≤ mds.length
  tempMds : f.tempMds = written ++ List.replicate (mds.length - written.length) default

theorem Filled.length_tempMds {mds written : List Md} {f : Filling Md} (h : Filled mds written f) :
    f.tempMds.length = mds.length := by
  have := h.length_le
  rw [h.tempMds, List.length_append, List.length_replicate]
  omega

theorem Filled.put {mds written : List Md} {f g : Filling Md} {md : Md}
    (h : Filled mds written f) (hput : f.put md = some g) :
    Filled mds (written ++ [md]) g ∧ g.mdIndex = f.mdIndex ∧ g.mdsMap = f.mdsMap := by
  rw [Filling.put, h.length_tempMds, h.newMdIdx] at hput
  split_ifs at hput with hlt
  obtain rfl := Option.some.inj hput
  obtain ⟨k, hk⟩ : ∃ k, mds.length - written.length = k + 1 := ⟨_, (Nat.succ_pred (by omega)).symm⟩
  refine ⟨⟨by simp, by simpa using hlt, ?_⟩, rfl, rfl⟩
  dsimp only
  rw [h.tempMds, hk, List.replicate_succ, List.set_append_right _ _ le_rfl, Nat.sub_self,
    List.set_cons_zero, List.length_append, List.append_cons]
  congr 2
  simp only [List.length_cons, List.length_nil]
  omega

theorem Filled.exists_put {mds written : List Md} {f : Filling Md} (h : Filled mds written f)
    (hlt : written.length < mds.length) (md : Md) : ∃ g, f.put md = some g := by
  rw [Filling.put, h.length_tempMds, h.newMdIdx, if_pos hlt]
  exact ⟨_, rfl⟩

section Loops

variable {mds : List Md}

/-- What one interface adds. -/
theorem fillIface_cases {written : List Md} {f g : Filling Md} {iface : Iface}
    (h : Filled mds written f) (hg : fillIface mds f iface = some g) :
    f.mdIndex iface.rscIndex < 64 ∧
      Filled mds (written ++ [mds.getD (f.mdIndex iface.rscIndex) default]) g ∧
      g.mdIndex = Function.update f.mdIndex iface.rscIndex written.length ∧
      ∀ k, g.mdsMap.getLsbD k = true ↔
        f.mdsMap.getLsbD k = true ∨ (k < 32 ∧ f.mdIndex iface.rscIndex = k) := by
  simp only [fillIface, Option.bind_eq_bind, Option.bind_eq_some_iff, Option.some.injEq] at hg
  obtain ⟨md, hmd, next, hnext, bit, hbit, rfl⟩ := hg
  obtain ⟨hlt, rfl⟩ := ucsBit_eq_some hbit
  obtain ⟨hfilled, -, -⟩ := h.put hnext
  refine ⟨hlt, ?_, by rw [h.newMdIdx], fun k => getLsbD_or_ucsBit _ hlt⟩
  rw [List.getD_eq_getElem?_getD, hmd]
  exact ⟨hfilled.newMdIdx, hfilled.length_le, hfilled.tempMds⟩

theorem exists_fillIface {written : List Md} {f : Filling Md} {iface : Iface}
    (h : Filled mds written f) (hroom : written.length < mds.length)
    (hlt : f.mdIndex iface.rscIndex < mds.length) (hbit : f.mdIndex iface.rscIndex < 64) :
    ∃ g, fillIface mds f iface = some g := by
  obtain ⟨next, hnext⟩ := h.exists_put hroom (mds[f.mdIndex iface.rscIndex])
  refine ⟨{ next with
    mdIndex := Function.update f.mdIndex iface.rscIndex f.newMdIdx
    mdsMap := f.mdsMap ||| (BitVec.twoPow 64 (f.mdIndex iface.rscIndex)).setWidth 32 }, ?_⟩
  simp only [fillIface, List.getElem?_eq_getElem hlt, Option.bind_eq_bind, Option.bind_some, hnext,
    ucsBit_of_lt hbit]

/-- What all interfaces add: their domains in their order, with the indices to match. -/
theorem fillIfaces_cases : ∀ {ifaces : List Iface} {written : List Md} {f g : Filling Md},
    (ifaces.map (·.rscIndex)).Nodup → Filled mds written f →
    ifaces.foldlM (fillIface mds) f = some g →
    Filled mds (written ++ ifaces.map fun i => mds.getD (f.mdIndex i.rscIndex) default) g ∧
      (∀ k, g.mdsMap.getLsbD k = true ↔ f.mdsMap.getLsbD k = true ∨
        (k < 32 ∧ ∃ iface ∈ ifaces, f.mdIndex iface.rscIndex = k)) ∧
      (∀ i iface, ifaces[i]? = some iface → g.mdIndex iface.rscIndex = written.length + i) ∧
      ∀ r, r ∉ ifaces.map (·.rscIndex) → g.mdIndex r = f.mdIndex r
  | [], written, f, g, _, h, hg => by
    obtain rfl : f = g := by simpa using hg
    exact ⟨by simpa using h, by simp, by simp, fun _ _ => rfl⟩
  | iface :: ifaces, written, f, g, hnodup, h, hg => by
    rw [List.foldlM_cons, Option.bind_eq_bind, Option.bind_eq_some_iff] at hg
    obtain ⟨next, hnext, hg⟩ := hg
    obtain ⟨hhead, hnodup⟩ := List.nodup_cons.mp (List.map_cons ▸ hnodup)
    obtain ⟨-, hfilled, hindex, hmap⟩ := fillIface_cases h hnext
    obtain ⟨ih, ihmap, ihindex, ihrest⟩ := fillIfaces_cases hnodup hfilled hg
    have hother : ∀ i ∈ ifaces, next.mdIndex i.rscIndex = f.mdIndex i.rscIndex := by
      intro i hi
      rw [hindex, Function.update_of_ne]
      rintro heq
      exact hhead (heq ▸ List.mem_map_of_mem hi)
    refine ⟨?_, fun k => ?_, ?_, fun r hr => ?_⟩
    · have hsame : ifaces.map (fun i => mds.getD (next.mdIndex i.rscIndex) default) =
          ifaces.map fun i => mds.getD (f.mdIndex i.rscIndex) default :=
        List.map_congr_left fun i hi => by rw [hother i hi]
      rw [List.map_cons, List.append_cons, ← hsame]
      exact ih
    · rw [ihmap, hmap, List.exists_mem_cons_iff]
      constructor
      · rintro ((hf | ⟨hk, heq⟩) | ⟨hk, i, hi, heq⟩)
        · exact Or.inl hf
        · exact Or.inr ⟨hk, Or.inl heq⟩
        · exact Or.inr ⟨hk, Or.inr ⟨i, hi, hother i hi ▸ heq⟩⟩
      · rintro (hf | ⟨hk, heq | ⟨i, hi, heq⟩⟩)
        · exact Or.inl (Or.inl hf)
        · exact Or.inl (Or.inr ⟨hk, heq⟩)
        · exact Or.inr ⟨hk, i, hi, (hother i hi).symm ▸ heq⟩
    · intro i iface' hi
      cases i with
      | zero =>
        obtain rfl : iface = iface' := by simpa using hi
        rw [ihrest _ hhead, hindex, Function.update_self, Nat.add_zero]
      | succ i =>
        rw [ihindex i iface' (by simpa using hi), List.length_append, List.length_singleton]
        omega
    · rw [List.map_cons, List.mem_cons, not_or] at hr
      rw [ihrest r hr.2, hindex, Function.update_of_ne hr.1]

theorem exists_fillIfaces : ∀ {ifaces : List Iface} {written : List Md} {f : Filling Md},
    (ifaces.map (·.rscIndex)).Nodup → Filled mds written f →
    written.length + ifaces.length ≤ mds.length →
    (∀ iface ∈ ifaces, f.mdIndex iface.rscIndex < mds.length ∧ f.mdIndex iface.rscIndex < 64) →
    ∃ g, ifaces.foldlM (fillIface mds) f = some g
  | [], _, f, _, _, _, _ => ⟨f, rfl⟩
  | iface :: ifaces, written, f, hnodup, h, hroom, hindex => by
    obtain ⟨hhead, hnodup⟩ := List.nodup_cons.mp (List.map_cons ▸ hnodup)
    rw [List.length_cons] at hroom
    obtain ⟨hlt, hbit⟩ := hindex iface List.mem_cons_self
    obtain ⟨next, hnext⟩ := exists_fillIface h (by omega) hlt hbit
    obtain ⟨-, hfilled, hupdate, -⟩ := fillIface_cases h hnext
    obtain ⟨g, hg⟩ := exists_fillIfaces hnodup hfilled (by simp; omega) (by
      intro i hi
      rw [hupdate, Function.update_of_ne]
      · exact hindex i (List.mem_cons_of_mem _ hi)
      · rintro heq
        exact hhead (heq ▸ List.mem_map_of_mem hi))
    refine ⟨g, ?_⟩
    rw [List.foldlM_cons, hnext]
    exact hg

/-- What the loop over all domains adds: those whose bit is not set. -/
theorem fillUnused_cases : ∀ {idxs : List ℕ} {written : List Md} {f g : Filling Md},
    Filled mds written f → idxs.foldlM (fillUnused mds) f = some g →
    (∀ idx ∈ idxs, idx < 64) ∧ g.mdIndex = f.mdIndex ∧
      Filled mds (written ++ (idxs.filter fun idx => !f.mdsMap.getLsbD idx).map
        fun idx => mds.getD idx default) g
  | [], written, f, g, h, hg => by
    obtain rfl : f = g := by simpa using hg
    exact ⟨by simp, rfl, by simpa using h⟩
  | idx :: idxs, written, f, g, h, hg => by
    rw [List.foldlM_cons, Option.bind_eq_bind, Option.bind_eq_some_iff] at hg
    obtain ⟨next, hnext, hg⟩ := hg
    simp only [fillUnused, Option.bind_eq_bind, Option.bind_eq_some_iff] at hnext
    obtain ⟨bit, hbit, hnext⟩ := hnext
    obtain ⟨hlt, rfl⟩ := ucsBit_eq_some hbit
    by_cases hset : f.mdsMap.getLsbD idx = true
    · rw [if_pos ((and_ucsBit_ne_zero _ hlt).mpr hset)] at hnext
      obtain rfl := Option.some.inj hnext
      obtain ⟨ihlt, ihindex, ih⟩ := fillUnused_cases h hg
      refine ⟨List.forall_mem_cons.mpr ⟨hlt, ihlt⟩, ihindex, ?_⟩
      rw [List.filter_cons_of_neg (by simp [hset])]
      exact ih
    · rw [if_neg (mt (and_ucsBit_ne_zero _ hlt).mp hset), Option.bind_eq_some_iff] at hnext
      obtain ⟨md, hmd, hput⟩ := hnext
      obtain ⟨hfilled, hindex, hmap⟩ := h.put hput
      obtain ⟨ihlt, ihindex, ih⟩ := fillUnused_cases hfilled hg
      refine ⟨List.forall_mem_cons.mpr ⟨hlt, ihlt⟩, ihindex.trans hindex, ?_⟩
      rw [List.filter_cons_of_pos (by simpa using hset), List.map_cons, List.append_cons,
        List.getD_eq_getElem?_getD, hmd]
      rwa [hmap] at ih

theorem exists_fillUnused : ∀ (idxs : List ℕ) {written : List Md} {f : Filling Md},
    Filled mds written f → (∀ idx ∈ idxs, idx < 64 ∧ idx < mds.length) →
    written.length + (idxs.filter fun idx => !f.mdsMap.getLsbD idx).length ≤ mds.length →
    ∃ g, idxs.foldlM (fillUnused mds) f = some g
  | [], _, f, _, _, _ => ⟨f, rfl⟩
  | idx :: idxs, written, f, h, hlt, hroom => by
    obtain ⟨⟨hbit, hmd⟩, hrest⟩ := List.forall_mem_cons.mp hlt
    by_cases hset : f.mdsMap.getLsbD idx = true
    · rw [List.filter_cons_of_neg (by simp [hset])] at hroom
      obtain ⟨g, hg⟩ := exists_fillUnused idxs h hrest hroom
      refine ⟨g, ?_⟩
      rw [List.foldlM_cons, fillUnused, ucsBit_of_lt hbit]
      simp only [Option.bind_eq_bind, Option.bind_some,
        if_pos ((and_ucsBit_ne_zero _ hbit).mpr hset), hg]
    · rw [List.filter_cons_of_pos (by simpa using hset), List.length_cons] at hroom
      obtain ⟨next, hnext⟩ := h.exists_put (by omega) mds[idx]
      obtain ⟨hfilled, -, hmap⟩ := h.put hnext
      obtain ⟨g, hg⟩ := exists_fillUnused idxs hfilled hrest (by
        rw [hmap, List.length_append, List.length_singleton]
        omega)
      refine ⟨g, ?_⟩
      rw [List.foldlM_cons, fillUnused, ucsBit_of_lt hbit]
      simp only [Option.bind_eq_bind, Option.bind_some,
        if_neg (mt (and_ucsBit_ne_zero _ hbit).mp hset), List.getElem?_eq_getElem hmd, hnext, hg]

end Loops

/-! ### The domains in their new order -/

/-- The interfaces of a worker, in any order: resources of their own that the map says, with a
memory domain each. -/
structure WellFormed (context : Context Md) (ifaces : List Iface) : Prop where
  nodup : (ifaces.map (·.rscIndex)).Nodup
  rsc_lt : ∀ iface ∈ ifaces, iface.rscIndex < 64
  bitmap : ∀ r < 64, context.tlBitmap.getLsbD r = true ↔ r ∈ ifaces.map (·.rscIndex)
  md_lt : ∀ iface ∈ ifaces, context.mdIndex iface.rscIndex < context.tlMds.length

/-- The domains of the interfaces. -/
def domains (context : Context Md) (ifaces : List Iface) : List ℕ :=
  ifaces.map fun iface => context.mdIndex iface.rscIndex

/-- No two interfaces share a domain, the domains of the interfaces have a bit in a map of 32 bits,
and all domains have one in a map of 64. -/
structure OwnDomains (context : Context Md) (ifaces : List Iface) : Prop where
  nodup : (domains context ifaces).Nodup
  lt : ∀ d ∈ domains context ifaces, d < 32
  length_le : context.tlMds.length ≤ 64

omit [Inhabited Md] in
theorem WellFormed.perm {context : Context Md} {ifaces ifaces' : List Iface}
    (h : WellFormed context ifaces) (hperm : ifaces'.Perm ifaces) : WellFormed context ifaces' where
  nodup := (hperm.map _).nodup_iff.mpr h.nodup
  rsc_lt iface hi := h.rsc_lt iface (hperm.subset hi)
  bitmap r hr := (h.bitmap r hr).trans (hperm.map _).mem_iff.symm
  md_lt iface hi := h.md_lt iface (hperm.subset hi)

omit [Inhabited Md] in
theorem ownDomains_perm {context : Context Md} {ifaces ifaces' : List Iface}
    (hperm : ifaces'.Perm ifaces) : OwnDomains context ifaces' ↔ OwnDomains context ifaces := by
  have hd : (domains context ifaces').Perm (domains context ifaces) := hperm.map _
  exact ⟨fun h => ⟨hd.nodup_iff.mp h.nodup, fun d hi => h.lt d (hd.symm.subset hi), h.length_le⟩,
    fun h => ⟨hd.nodup_iff.mpr h.nodup, fun d hi => h.lt d (hd.subset hi), h.length_le⟩⟩

section Refill

variable {context : Context Md} {ifaces : List Iface}

/-- Nothing has been written. -/
theorem filled_nil (mds : List Md) (index : ℕ → ℕ) :
    Filled mds [] ⟨List.replicate mds.length default, 0, index, 0⟩ :=
  ⟨rfl, Nat.zero_le _, rfl⟩

/-- The domains that the map knows of after the first loop. -/
def known (context : Context Md) (ifaces : List Iface) (k : ℕ) : Bool :=
  decide (k < 32 ∧ k ∈ domains context ifaces)

/-- The domains in the order in which they are written. -/
def writtenMds (context : Context Md) (ifaces : List Iface) : List Md :=
  (domains context ifaces ++
    (List.range context.tlMds.length).filter fun k => !known context ifaces k).map
      fun k => context.tlMds.getD k default

/-- What the domains and their indices are after the array has been filled. -/
theorem refill_cases {context' : Context Md} (h : WellFormed context ifaces)
    (hrefill : scpWorkerRefillMds context ifaces = some context') :
    context.tlMds.length ≤ 64 ∧
      (writtenMds context ifaces).length ≤ context.tlMds.length ∧
      context'.tlMds = writtenMds context ifaces ++
        List.replicate (context.tlMds.length - (writtenMds context ifaces).length) default ∧
      context'.tlBitmap = context.tlBitmap ∧
      ∀ i iface, ifaces[i]? = some iface → context'.mdIndex iface.rscIndex = i := by
  simp only [scpWorkerRefillMds, Option.bind_eq_bind, Option.bind_eq_some_iff,
    Option.some.injEq] at hrefill
  obtain ⟨f, hf, g, hg, rfl⟩ := hrefill
  obtain ⟨hfilled, hmap, hindex, -⟩ := fillIfaces_cases h.nodup (filled_nil _ _) hf
  obtain ⟨hlt, hsame, hrest⟩ := fillUnused_cases hfilled hg
  have hknown : (fun k => !f.mdsMap.getLsbD k) = fun k => !known context ifaces k := by
    funext k
    congr 1
    rw [known, Bool.eq_iff_iff, hmap, decide_eq_true_eq, domains, List.mem_map]
    simp
  rw [hknown, List.nil_append] at hrest
  have hwritten : writtenMds context ifaces = ifaces.map (fun i =>
      context.tlMds.getD (context.mdIndex i.rscIndex) default) ++
        ((List.range context.tlMds.length).filter fun k => !known context ifaces k).map
          fun k => context.tlMds.getD k default := by
    rw [writtenMds, List.map_append, domains, List.map_map]
    rfl
  rw [← hwritten] at hrest
  refine ⟨?_, hrest.length_le, hrest.tempMds, rfl, fun i iface hi => ?_⟩
  · by_contra hgt
    exact lt_irrefl 64 (hlt 64 (List.mem_range.mpr (by omega)))
  · dsimp only
    rw [hsame, hindex i iface hi, List.length_nil, Nat.zero_add]

theorem exists_refill (h : WellFormed context ifaces) (hmds : context.tlMds.length ≤ 64)
    (hroom : (writtenMds context ifaces).length ≤ context.tlMds.length) :
    ∃ context', scpWorkerRefillMds context ifaces = some context' := by
  rw [writtenMds, List.length_map, List.length_append, domains, List.length_map] at hroom
  obtain ⟨f, hf⟩ := exists_fillIfaces h.nodup (filled_nil context.tlMds context.mdIndex)
    (by rw [List.length_nil]; omega) fun iface hi => ⟨h.md_lt iface hi, by
      have := h.md_lt iface hi
      dsimp only
      omega⟩
  obtain ⟨hfilled, hmap, -, -⟩ := fillIfaces_cases h.nodup (filled_nil _ _) hf
  have hknown : (fun k => !f.mdsMap.getLsbD k) = fun k => !known context ifaces k := by
    funext k
    congr 1
    rw [known, Bool.eq_iff_iff, hmap, decide_eq_true_eq, domains, List.mem_map]
    simp
  obtain ⟨g, hg⟩ := exists_fillUnused (List.range context.tlMds.length) hfilled
    (fun idx hidx => by
      have := List.mem_range.mp hidx
      omega)
    (by rwa [hknown, List.length_append, List.length_nil, Nat.zero_add, List.length_map])
  refine ⟨{ context with tlMds := g.tempMds, mdIndex := g.mdIndex }, ?_⟩
  simp only [scpWorkerRefillMds, Option.bind_eq_bind, hf, Option.bind_some, hg]

omit [Inhabited Md] in
/-- The domains that are known, and those that are not. -/
theorem length_filter_known (context : Context Md) (ifaces : List Iface) :
    ((List.range context.tlMds.length).filter (known context ifaces)).length +
      ((List.range context.tlMds.length).filter fun k => !known context ifaces k).length =
        context.tlMds.length := by
  have h := List.length_eq_length_filter_add (l := List.range context.tlMds.length)
    (known context ifaces)
  rw [List.length_range] at h
  exact h.symm

omit [Inhabited Md] in
/-- The domains that are known are some of those of the interfaces, each once. -/
theorem known_subperm (context : Context Md) (ifaces : List Iface) :
    ((List.range context.tlMds.length).filter (known context ifaces)).Subperm
      ((domains context ifaces).filter (· < 32)) := by
  refine List.Nodup.subperm (List.Nodup.filter _ List.nodup_range) ?_
  intro k hk
  have hknown := of_decide_eq_true (List.mem_filter.mp hk).2
  exact List.mem_filter.mpr ⟨hknown.2, decide_eq_true hknown.1⟩

/-- All domains fit into the array if and only if the interfaces have domains of their own with a
bit in the map. -/
theorem length_writtenMds_le_iff (h : WellFormed context ifaces) :
    (writtenMds context ifaces).length ≤ context.tlMds.length ↔
      (domains context ifaces).Nodup ∧ ∀ d ∈ domains context ifaces, d < 32 := by
  have hsplit := length_filter_known context ifaces
  have hsub := known_subperm context ifaces
  have hle : ((domains context ifaces).filter (· < 32)).length ≤ (domains context ifaces).length :=
    List.length_filter_le ..
  rw [writtenMds, List.length_map, List.length_append]
  constructor
  · intro hroom
    have hall : (domains context ifaces).filter (· < 32) = domains context ifaces :=
      List.filter_sublist.eq_of_length (le_antisymm hle (by
        have := hsub.length_le
        omega))
    rw [hall] at hsub
    have hperm := hsub.perm_of_length_le (by omega)
    refine ⟨hperm.nodup_iff.mp (List.Nodup.filter _ List.nodup_range), fun d hd => ?_⟩
    exact of_decide_eq_true (List.filter_eq_self.mp hall d hd)
  · rintro ⟨hnodup, hlt⟩
    have hback : (domains context ifaces).Subperm
        ((List.range context.tlMds.length).filter (known context ifaces)) := by
      refine hnodup.subperm fun d hd => ?_
      obtain ⟨iface, hi, rfl⟩ := List.mem_map.mp hd
      exact List.mem_filter.mpr ⟨List.mem_range.mpr (h.md_lt iface hi),
        decide_eq_true ⟨hlt _ hd, hd⟩⟩
    have := hback.length_le
    omega

/-- Then they are the old ones in another order. -/
theorem writtenMds_perm (h : WellFormed context ifaces) (hown : OwnDomains context ifaces) :
    (writtenMds context ifaces).Perm context.tlMds := by
  have hknown : (domains context ifaces).Perm
      ((List.range context.tlMds.length).filter (known context ifaces)) := by
    refine (List.perm_ext_iff_of_nodup hown.nodup (List.Nodup.filter _ List.nodup_range)).mpr ?_
    intro d
    rw [List.mem_filter, List.mem_range, known, decide_eq_true_eq]
    constructor
    · intro hd
      obtain ⟨iface, hi, rfl⟩ := List.mem_map.mp hd
      exact ⟨h.md_lt iface hi, hown.lt _ hd, hd⟩
    · rintro ⟨-, -, hd⟩
      exact hd
  have hall : (domains context ifaces ++ (List.range context.tlMds.length).filter fun k =>
      !known context ifaces k).Perm (List.range context.tlMds.length) :=
    (hknown.append_right _).trans (List.filter_append_perm _ _)
  have hget : (List.range context.tlMds.length).map (fun k => context.tlMds.getD k default) =
      context.tlMds := by
    refine List.ext_getElem (by simp) fun i hi hi' => ?_
    rw [List.getElem_map, List.getElem_range, List.getD_eq_getElem?_getD,
      List.getElem?_eq_getElem hi', Option.getD_some]
  exact (hall.map _).trans (.of_eq hget)

/-- The interface at `i` has the domain that is written there. -/
theorem writtenMds_getElem {i : ℕ} {iface : Iface} (hi : ifaces[i]? = some iface) :
    (writtenMds context ifaces)[i]? =
      some (context.tlMds.getD (context.mdIndex iface.rscIndex) default) := by
  have hlt := (List.getElem?_eq_some_iff.mp hi).1
  rw [writtenMds, List.getElem?_map, List.getElem?_append_left (by rw [domains]; simpa using hlt),
    domains, List.getElem?_map, hi]
  rfl

end Refill

/-! ### The selection -/

/-- The interfaces are permuted and the first ones kept, the array of domains is permuted, each
interface that is kept has its domain, and the map has the resources of these interfaces. -/
structure Selects (context : Context Md) (ifaces : List Iface) (context' : Context Md)
    (kept : List Iface) : Prop where
  perm : ∃ closed, (kept ++ closed).Perm ifaces
  length : kept.length = min context.multirails ifaces.length
  mds : context'.tlMds.Perm context.tlMds
  same : ∀ iface ∈ kept, ∃ md, context'.tlMds[context'.mdIndex iface.rscIndex]? = some md ∧
    context.tlMds[context.mdIndex iface.rscIndex]? = some md
  bitmap : ∀ r < 64, context'.tlBitmap.getLsbD r = true ↔ r ∈ kept.map (·.rscIndex)

/-- The bits of the interfaces that are closed. -/
theorem foldlM_clearBit : ∀ (closed : List Iface) (tlBitmap : BitVec 64),
    (∀ iface ∈ closed, iface.rscIndex < 64) →
    ∃ bits, closed.foldlM clearBit tlBitmap = some bits ∧ ∀ r < 64, bits.getLsbD r = true ↔
      tlBitmap.getLsbD r = true ∧ r ∉ closed.map (·.rscIndex)
  | [], tlBitmap, _ => ⟨tlBitmap, rfl, by simp⟩
  | iface :: closed, tlBitmap, h => by
    obtain ⟨hlt, hrest⟩ := List.forall_mem_cons.mp h
    obtain ⟨bits, hbits, hiff⟩ :=
      foldlM_clearBit closed (tlBitmap &&& ~~~BitVec.twoPow 64 iface.rscIndex) hrest
    refine ⟨bits, ?_, fun r hr => ?_⟩
    · rw [List.foldlM_cons, clearBit, ucsBit_of_lt hlt]
      exact hbits
    · rw [hiff r hr, BitVec.getLsbD_and, BitVec.getLsbD_not, BitVec.getLsbD_twoPow, List.map_cons,
        List.mem_cons]
      simp only [hr, hlt, decide_true, Bool.true_and, Bool.and_eq_true, Bool.not_eq_true',
        decide_eq_false_iff_not, not_or]
      tauto

variable {context : Context Md} {ifaces : List Iface} {subnetId : Md → ℕ}

/-- The interfaces are selected, with their domains and their bits, if and only if no two of them
share a domain and the domains have their bits in the maps. -/
theorem selectsIfaces_iff (h : WellFormed context ifaces) :
    (∃ context' kept, scpWorkerSelectIfaces subnetId context ifaces = some (context', kept) ∧
      Selects context ifaces context' kept) ↔ OwnDomains context ifaces := by
  have hnum : (if context.multirails ≤ ifaces.length then context.multirails else ifaces.length) =
      min context.multirails ifaces.length := by
    rw [Nat.min_def]
  simp only [scpWorkerSelectIfaces, hnum, Option.bind_eq_bind]
  generalize hsorted : bubbleSort (scpWorkerCmpMdSubnet subnetId context)
    (min context.multirails ifaces.length)
    (bubbleSort scpWorkerCmpIface ifaces.length ifaces) = sorted
  have hperm : sorted.Perm ifaces :=
    hsorted ▸ (bubbleSort_perm _ _ _).trans (bubbleSort_perm _ _ _)
  have hwell := h.perm hperm
  rw [← ownDomains_perm hperm]
  constructor
  · rintro ⟨context', kept, hselect, -⟩
    simp only [Option.bind_eq_some_iff] at hselect
    obtain ⟨refilled, hrefill, -⟩ := hselect
    obtain ⟨hmds, hlen, -⟩ := refill_cases hwell hrefill
    obtain ⟨hnodup, hlt⟩ := (length_writtenMds_le_iff hwell).mp hlen
    exact ⟨hnodup, hlt, hmds⟩
  · intro hown
    obtain ⟨refilled, hrefill⟩ := exists_refill hwell hown.length_le
      ((length_writtenMds_le_iff hwell).mpr ⟨hown.nodup, hown.lt⟩)
    obtain ⟨-, -, hmds, hbits, hindex⟩ := refill_cases hwell hrefill
    have hwritten := writtenMds_perm hwell hown
    rw [hwritten.length_eq, Nat.sub_self, List.replicate_zero, List.append_nil] at hmds
    obtain ⟨bits, hclear, hiff⟩ := foldlM_clearBit
      (sorted.drop (min context.multirails ifaces.length)) refilled.tlBitmap
      fun iface hi => hwell.rsc_lt iface (List.mem_of_mem_drop hi)
    refine ⟨{ refilled with tlBitmap := bits }, _, by rw [hrefill, Option.bind_some, hclear]; rfl,
      ⟨_, (List.Perm.of_eq (List.take_append_drop _ _)).trans hperm⟩, ?_, ?_, ?_, ?_⟩
    · rw [List.length_take, hperm.length_eq]
      omega
    · exact hmds ▸ hwritten
    · intro iface hi
      obtain ⟨i, hi⟩ := List.getElem?_of_mem (List.mem_of_mem_take hi)
      have hlt := hwell.md_lt iface (List.mem_of_getElem? hi)
      refine ⟨context.tlMds[context.mdIndex iface.rscIndex], ?_, List.getElem?_eq_getElem hlt⟩
      dsimp only
      rw [hindex i iface hi, hmds, writtenMds_getElem hi, List.getD_eq_getElem?_getD,
        List.getElem?_eq_getElem hlt, Option.getD_some]
    · intro r hr
      have hsplit : sorted.map (·.rscIndex) =
          (sorted.take (min context.multirails ifaces.length)).map (·.rscIndex) ++
            (sorted.drop (min context.multirails ifaces.length)).map (·.rscIndex) := by
        rw [← List.map_append, List.take_append_drop]
      have hnodup := hwell.nodup
      rw [hsplit, List.nodup_append] at hnodup
      rw [hiff r hr, hbits, hwell.bitmap r hr, hsplit, List.mem_append]
      constructor
      · rintro ⟨hkept | hclosed, hnot⟩
        · exact hkept
        · exact absurd hclosed hnot
      · exact fun hkept => ⟨Or.inl hkept, fun hclosed => hnodup.2.2 r hkept r hclosed rfl⟩

/-- Three interfaces, the slowest first, of which two are kept. -/
theorem selects_two_of_three : ∃ context' kept,
    scpWorkerSelectIfaces id ⟨[70, 60, 50, 40], fun r => 3 - r, 0b111, 2⟩
      [⟨0, 3⟩, ⟨1, 2⟩, ⟨2, 1⟩] = some (context', kept) ∧
    Selects ⟨[70, 60, 50, 40], fun r => 3 - r, 0b111, 2⟩ [⟨0, 3⟩, ⟨1, 2⟩, ⟨2, 1⟩] context' kept :=
  (selectsIfaces_iff ⟨by decide, by decide, by decide, by decide⟩).mpr
    ⟨by decide, by decide, by decide⟩

/-- Two interfaces of one domain: it is written twice. -/
theorem not_selects_shared : ¬∃ context' kept,
    scpWorkerSelectIfaces id ⟨[70], fun _ => 0, 0b11, 2⟩ [⟨0, 1⟩, ⟨1, 2⟩] = some (context', kept) ∧
      Selects ⟨[70], fun _ => 0, 0b11, 2⟩ [⟨0, 1⟩, ⟨1, 2⟩] context' kept := by
  have hnone : scpWorkerSelectIfaces id ⟨[70], fun _ => 0, 0b11, 2⟩ [⟨0, 1⟩, ⟨1, 2⟩] = none := by
    rfl
  rintro ⟨context', kept, hselect, -⟩
  rw [hnone] at hselect
  cases hselect

end SelectIfaces

end Kucg.Stars
