import Kucg.Core.MsgSize
import Kucg.Lib.Hypercube
import Kucg.Lib.Numbered
import Kucg.Ucx.AllreduceRd
import Kucg.Ucx.Bcast
import Kucg.Ucx.ReduceKntree
import Mathlib.Order.CompletePartialOrder

/-! The k-nomial reduce of all ranks, and the memory that it receives into.

    The messages go up the tree of the iterators, so the root gets the product over the tree, which
    is that of all contributions. The cells of a staging area are distinct as long as its slots are:
    `reduceSlotsOk_iff` says which layouts of a datatype the slots have room for. The addresses are
    not shifted by the lower bound of the data, so there is room only if it is 0. -/

namespace Kucg.Ucx

open Kucg.Core Kucg.Lib Kucg.Algo

variable {B β : Type}

/-! ### The slots of the staging area -/

section Staging

/-- What `ucg_dt_t` says about the layout of a datatype: elements are `extent` bytes apart, and the
    bytes of an element are the `trueExtent` ones from `trueLb` on. -/
structure DtLayout where
  trueLb : ℤ
  trueExtent : ℤ
  extent : ℤ

/-- The bytes of `count` elements at `p`. -/
def DtLayout.bytes (dt : DtLayout) (count : ℕ) (p : ℤ) : Set ℤ :=
  {b | ∃ i : ℕ, i < count ∧ ∃ j : ℤ, 0 ≤ j ∧ j < dt.trueExtent ∧
    b = p + dt.trueLb + i * dt.extent + j}

/-- How many bytes `count` elements take up, before it is stored. -/
def DtLayout.length (dt : DtLayout) (count : ℕ) : ℤ := dt.trueExtent + dt.extent * (count - 1)

variable (dt : DtLayout) (count requestsCount : ℕ)

/-- `data_size`. -/
def reduceDataSize : ℤ := s64 (dt.length count)

/-- The argument of the `ucg_malloc` for the staging area in
    `ucg_planc_ucx_reduce_kntree_op_init`. -/
def reduceStagingSize : ℤ := s64 (reduceDataSize dt count * requestsCount)

/-- `idx * data_size` in `ucg_planc_ucx_reduce_kntree_op_recv_and_reduce`, an `uint64_t`. -/
def reduceSlotOffset (idx : ℕ) : ℤ := idx * reduceDataSize dt count % 2 ^ 64

/-- The staging area, if it is granted, contains what is received into its slots, and the slots do
    not overlap. No area has a size that is negative as an `int64_t`. -/
def ReduceSlotsOk : Prop :=
  0 ≤ reduceStagingSize dt count requestsCount →
    (∀ idx < requestsCount, ∀ b ∈ dt.bytes count (reduceSlotOffset dt count idx),
      0 ≤ b ∧ b < reduceStagingSize dt count requestsCount) ∧
    ∀ i < requestsCount, ∀ j < requestsCount, i ≠ j →
      Disjoint (dt.bytes count (reduceSlotOffset dt count i))
        (dt.bytes count (reduceSlotOffset dt count j))

/-- The data start at the lower bound and do not go backwards, and the size of the staging area does
    not overflow. -/
structure ReduceFits : Prop where
  trueLb : dt.trueLb = 0
  forward : 0 ≤ dt.extent * (count - 1)
  size : dt.length count * requestsCount < 2 ^ 63

variable {dt count requestsCount}

/-- The bytes of elements that do not go backwards are in one piece of memory. -/
theorem bytes_subset (htrue : dt.trueLb = 0) (hforward : 0 ≤ dt.extent * (count - 1)) {p b : ℤ}
    (hb : b ∈ dt.bytes count p) : p ≤ b ∧ b < p + dt.length count := by
  obtain ⟨i, hi, j, hj₀, hj, rfl⟩ := hb
  have hmul : 0 ≤ i * dt.extent ∧ i * dt.extent ≤ dt.extent * (count - 1) := by
    rcases Nat.eq_zero_or_pos i with rfl | hpos
    · simpa using hforward
    · have hc : (0 : ℤ) < count - 1 := by omega
      have he : 0 ≤ dt.extent := nonneg_of_mul_nonneg_left hforward hc
      have hle : (i : ℤ) ≤ count - 1 := by omega
      constructor
      · positivity
      · calc i * dt.extent ≤ (count - 1) * dt.extent := mul_le_mul_of_nonneg_right hle he
          _ = dt.extent * (count - 1) := mul_comm ..
  rw [htrue, DtLayout.length]
  constructor <;> omega

theorem slotOffset_eq {D : ℤ} (hD : reduceDataSize dt count = D) (hpos : 0 ≤ D) {idx : ℕ}
    (hlt : D * idx < 2 ^ 63) : reduceSlotOffset dt count idx = idx * D := by
  rw [reduceSlotOffset, hD]
  refine Int.emod_eq_of_lt (by positivity) ?_
  rw [mul_comm]
  omega

/-- The condition is enough. -/
theorem ReduceFits.slotsOk (h : ReduceFits dt count requestsCount) (hte : 0 < dt.trueExtent) :
    ReduceSlotsOk dt count requestsCount := by
  rcases Nat.eq_zero_or_pos requestsCount with rfl | hk
  · exact fun _ =>
      ⟨fun _ hi => absurd hi (Nat.not_lt_zero _), fun _ hi => absurd hi (Nat.not_lt_zero _)⟩
  have hpos : 0 < dt.length count := by
    rw [DtLayout.length]
    have := h.forward
    omega
  have hbound {i : ℕ} (hi : i ≤ requestsCount) :
      dt.length count * i ≤ dt.length count * requestsCount :=
    mul_le_mul_of_nonneg_left (by exact_mod_cast hi) hpos.le
  have hone := hbound (i := 1) hk
  have hsize := h.size
  have hD : reduceDataSize dt count = dt.length count := by
    rw [reduceDataSize, s64_eq] <;> push_cast at hone <;> omega
  have hstage : reduceStagingSize dt count requestsCount = dt.length count * requestsCount := by
    rw [reduceStagingSize, hD, s64_eq _ hsize]
    have : 0 ≤ dt.length count * requestsCount := by positivity
    omega
  have hoff {i : ℕ} (hi : i < requestsCount) : reduceSlotOffset dt count i = i * dt.length count :=
    slotOffset_eq hD hpos.le ((hbound hi.le).trans_lt hsize)
  have hnext {i j : ℕ} (hij : i < j) :
    i * dt.length count + dt.length count ≤ j * dt.length count := by
    have : ((i + 1 : ℕ) : ℤ) * dt.length count ≤ j * dt.length count :=
      mul_le_mul_of_nonneg_right (by exact_mod_cast hij) hpos.le
    push_cast at this
    linarith
  refine fun _ => ⟨fun i hi b hb => ?_, fun i hi j hj hij => ?_⟩
  · rw [hoff hi] at hb
    obtain ⟨h₁, h₂⟩ := bytes_subset h.trueLb h.forward hb
    have hend := hnext hi
    have : 0 ≤ i * dt.length count := by positivity
    rw [hstage, mul_comm]
    omega
  · rw [hoff hi, hoff hj, Set.disjoint_left]
    intro b hb hb'
    obtain ⟨h₁, h₂⟩ := bytes_subset h.trueLb h.forward hb
    obtain ⟨h₃, h₄⟩ := bytes_subset h.trueLb h.forward hb'
    rcases Nat.lt_or_gt_of_ne hij with hlt | hlt
    · have := hnext hlt
      omega
    · have := hnext hlt
      omega

/-- Multiples of a positive number below some bound, up to the first one that is not. -/
theorem exists_crossing {D L : ℤ} {k : ℕ} (hL : 0 < L) (h : L ≤ D * k) :
    ∃ i < k, D * i < L ∧ L ≤ D * (i + 1) := by
  induction k with
  | zero =>
    rw [Nat.cast_zero, mul_zero] at h
    omega
  | succ k ih =>
    rcases lt_or_ge (D * k) L with hlt | hge
    · exact ⟨k, Nat.lt_succ_self k, hlt, by exact_mod_cast h⟩
    · obtain ⟨i, hi, hrest⟩ := ih hge
      exact ⟨i, hi.trans (Nat.lt_succ_self k), hrest⟩

/-- The condition is needed, where anything is received. -/
theorem fits_of_slotsOk (h : ReduceSlotsOk dt count requestsCount)
    (hgrant : 0 ≤ reduceStagingSize dt count requestsCount) (hte : 0 < dt.trueExtent)
    (hcount : 0 < count) (hk : 0 < requestsCount) : ReduceFits dt count requestsCount := by
  obtain ⟨hin, -⟩ := h hgrant
  have hmax : reduceStagingSize dt count requestsCount < 2 ^ 63 := (s64_range _).2
  -- the first and the last byte of the first and the last element of a slot
  have hfirst {i : ℕ} (hi : i < requestsCount) (j : ℤ) (hj₀ : 0 ≤ j) (hj : j < dt.trueExtent) :=
    hin i hi _ ⟨0, hcount, j, hj₀, hj, rfl⟩
  have hlast {i : ℕ} (hi : i < requestsCount) (j : ℤ) (hj₀ : 0 ≤ j) (hj : j < dt.trueExtent) :=
    hin i hi _ ⟨count - 1, by omega, j, hj₀, hj, rfl⟩
  have hcast : ((count - 1 : ℕ) : ℤ) * dt.extent = dt.extent * (count - 1) := by
    rw [Nat.cast_sub hcount, mul_comm, Nat.cast_one]
  simp only [hcast, Nat.cast_zero, zero_mul, add_zero] at hfirst hlast
  have hlen : dt.length count = dt.trueExtent + dt.extent * (count - 1) := rfl
  generalize hE : dt.extent * (count - 1) = E at hlast hlen
  have hzero : reduceSlotOffset dt count 0 = 0 := by simp [reduceSlotOffset]
  have h₁ := hfirst hk 0 le_rfl hte
  have h₂ := hlast hk 0 le_rfl hte
  have h₃ := hlast hk (dt.trueExtent - 1) (by omega) (by omega)
  rw [hzero] at h₁ h₂ h₃
  have hD : reduceDataSize dt count = dt.length count := s64_eq (by omega) (by omega)
  -- a length of nothing or less leaves no room for the second slot
  have hpos : 0 < dt.length count := by
    by_contra hneg
    obtain rfl | hk₂ : requestsCount = 1 ∨ 1 < requestsCount := by omega
    · have hsize : reduceStagingSize dt count 1 = dt.length count := by
        rw [reduceStagingSize, hD, Nat.cast_one, mul_one, s64_eq (by omega) (by omega)]
      omega
    · have hoff : reduceSlotOffset dt count 1 = dt.length count % 2 ^ 64 := by
        rw [reduceSlotOffset, hD, Nat.cast_one, one_mul]
      have h₄ := hfirst hk₂ 0 le_rfl hte
      have h₅ := hlast hk₂ 0 le_rfl hte
      rw [hoff] at h₄ h₅
      rcases eq_or_ne (dt.length count) 0 with hnil | hnil
      · have hsize : reduceStagingSize dt count requestsCount = 0 := by
          rw [reduceStagingSize, hD, hnil, zero_mul]
          rfl
        omega
      · have hmod : dt.length count % 2 ^ 64 = dt.length count + 2 ^ 64 := by
          rw [← Int.add_emod_right, Int.emod_eq_of_lt (by omega) (by omega)]
        omega
  have hoff {i : ℕ} (hi : dt.length count * i < 2 ^ 63) :
      reduceSlotOffset dt count i = dt.length count * i := by
    rw [slotOffset_eq hD hpos.le hi, mul_comm]
  -- a slot that crosses the greatest size is not in the area
  have hfit : dt.length count * requestsCount < 2 ^ 63 := by
    by_contra hover
    obtain ⟨i, hi, hlt, hge⟩ := exists_crossing (by norm_num) (not_lt.mp hover)
    have h₄ := hlast hi (dt.trueExtent - 1) (by omega) (by omega)
    rw [hoff hlt] at h₄
    rw [mul_add, mul_one] at hge
    omega
  have hsize : reduceStagingSize dt count requestsCount = dt.length count * requestsCount := by
    have : 0 ≤ dt.length count * requestsCount := by positivity
    rw [reduceStagingSize, hD, s64_eq (by omega) hfit]
  -- the end of the last slot is that of the area
  obtain ⟨k, rfl⟩ : ∃ k, requestsCount = k + 1 := ⟨requestsCount - 1, by omega⟩
  have hend : dt.length count * (k + 1 : ℕ) = dt.length count * k + dt.length count := by
    rw [Nat.cast_succ, mul_add, mul_one]
  have h₄ := hfirst (Nat.lt_succ_self k) (dt.trueExtent - 1) (by omega) (by omega)
  have h₅ := hlast (Nat.lt_succ_self k) (dt.trueExtent - 1) (by omega) (by omega)
  rw [hoff (by omega), hsize, hend] at h₄ h₅
  exact ⟨by omega, by omega, hfit⟩

variable (dt count requestsCount) in
/-- The slots are sound exactly if nothing is received, nothing is allocated, or the layout fits. -/
theorem reduceSlotsOk_iff : ReduceSlotsOk dt count requestsCount ↔
    requestsCount = 0 ∨ count = 0 ∨ dt.trueExtent ≤ 0 ∨
      reduceStagingSize dt count requestsCount < 0 ∨ ReduceFits dt count requestsCount := by
  constructor
  · intro h
    by_contra hne
    simp only [not_or, not_le, not_lt] at hne
    obtain ⟨hk, hcount, hte, hgrant, hfits⟩ := hne
    exact hfits (fits_of_slotsOk h hgrant hte (by omega) (by omega))
  · have hnone (hempty : count = 0 ∨ dt.trueExtent ≤ 0) (p : ℤ) : dt.bytes count p = ∅ := by
      refine Set.eq_empty_of_forall_notMem fun b hb => ?_
      obtain ⟨i, hi, j, hj₀, hj, -⟩ := hb
      omega
    have hok (hempty : count = 0 ∨ dt.trueExtent ≤ 0) : ReduceSlotsOk dt count requestsCount := by
      refine fun _ => ⟨fun idx _ b hb => ?_, fun i _ j _ _ => ?_⟩
      · rw [hnone hempty] at hb
        exact absurd hb (Set.notMem_empty b)
      · rw [hnone hempty]
        exact Set.empty_disjoint _
    rintro (rfl | hcount | hte | hneg | hfits)
    · exact fun _ => ⟨fun _ hi => absurd hi (Nat.not_lt_zero _),
        fun _ hi => absurd hi (Nat.not_lt_zero _)⟩
    · exact hok (Or.inl hcount)
    · exact hok (Or.inr hte)
    · exact fun hgrant => absurd hneg hgrant.not_gt
    · rcases lt_or_ge 0 dt.trueExtent with hte | hte
      · exact hfits.slotsOk hte
      · exact hok (Or.inr hte)

end Staging

/-! ### All ranks -/

section Group

variable [CommSemigroup β]

theorem reduceKntreeCount_eq : ∀ (fuel : ℕ) {cs : List ℕ} {iter : KntreeIter} (requestsCount : ℕ),
    iter.Yields cs → cs.length ≤ fuel →
      (reduceKntreeCount fuel iter requestsCount).2 = requestsCount + cs.length ∧
      (reduceKntreeCount fuel iter requestsCount).1.toKntreeBase = iter.toKntreeBase
  | 0, cs, _, _, _, hlen => by
    obtain rfl := List.eq_nil_of_length_eq_zero (Nat.le_zero.mp hlen)
    exact ⟨rfl, rfl⟩
  | fuel + 1, [], iter, _, h, _ => by
    have hnone : iter.child = none := h
    rw [reduceKntreeCount, hnone]
    exact ⟨rfl, rfl⟩
  | fuel + 1, c :: cs, iter, requestsCount, h, hlen => by
    rw [reduceKntreeCount, h.1]
    obtain ⟨hcount, hbase⟩ := reduceKntreeCount_eq fuel (requestsCount + 1) h.2
      (Nat.le_of_succ_le_succ hlen)
    exact ⟨by rw [hcount, List.length_cons]; omega, hbase.trans (KntreeIter.childInc_base _)⟩

/-- The children of rank `r`, counted from the root, in the order of the iterator. -/
noncomputable def reduceChildren (size degree v : ℕ) : List ℕ :=
  KntreeIter.childrenOf size (KntreeIter.initDegree size degree) v false

/-- The parent. -/
noncomputable def reduceParent (size degree v : ℕ) : ℕ :=
  kntreeParent (KntreeIter.initDegree size degree) v

theorem rankTree_reduce {size degree : ℕ} (hsize : 2 ≤ size) :
    RankTree size (reduceParent size degree) (reduceChildren size degree) :=
  KntreeIter.rankTree_kntree (KntreeIter.one_lt_initDegree hsize)

/-- What rank number `v` sends to its parent, from the contributions `y` by number. -/
noncomputable def reduceValue (size degree : ℕ) (y : ℕ → ℕ → β) (v : ℕ) : ℕ → β :=
  treeValue size (reduceParent size degree) y v

/-- The messages of rank `r` of a group. -/
noncomputable def reduceKntreeTrace (size degree root count : ℕ) (x : ℕ → ℕ → β) :
    ℕ → List (Event β) :=
  numberedTrace size (fromRoot size root) (toRank size root)
    (upTrace size (reduceParent size degree) (reduceChildren size degree) fun v =>
      (vec count (reduceValue size degree (fun v => x (toRank size root v)) v), ∅))

theorem paced_reduceKntreeTrace {size degree root count : ℕ} {x : ℕ → ℕ → β} (hsize : 2 ≤ size)
    (hroot : root < size) : Paced size (reduceKntreeTrace size degree root count x) :=
  (paced_upTrace _ (rankTree_reduce hsize)).numbered (numbering_fromRoot hroot)
    fun _ e he => upTrace_peer (rankTree_reduce hsize) e he

theorem reduceKntreeTrace_peer {size degree root count : ℕ} {x : ℕ → ℕ → β} (hsize : 2 ≤ size)
    (hroot : root < size) {r : ℕ} :
    ∀ e ∈ reduceKntreeTrace size degree root count x r, e.peer < size :=
  numberedTrace_peer (numbering_fromRoot hroot)
    fun _ e he => upTrace_peer (rankTree_reduce hsize) e he

theorem requestsCount_eq {vgroup : VGroup} {args : ReduceArgs B} {degree : ℕ} {staging : Cell B}
    (hsize : 2 ≤ vgroup.size) : (reduceKntreeOpNew vgroup args degree staging).requestsCount =
      (reduceChildren vgroup.size degree
        (fromRoot vgroup.size args.root vgroup.myrank)).length := by
  have hd : 1 < KntreeIter.initDegree vgroup.size degree := KntreeIter.one_lt_initDegree hsize
  have hyields := KntreeIter.init_yields args.root vgroup.myrank false hd (by omega)
  have hlen := KntreeIter.length_childrenOf_le vgroup.size false
    ((vgroup.myrank + vgroup.size - args.root) % vgroup.size)
    (by omega : 0 < KntreeIter.initDegree vgroup.size degree)
  have hcount := (reduceKntreeCount_eq vgroup.size 0 hyields
    (by rwa [List.length_map])).1
  exact hcount.trans (by rw [List.length_map, Nat.zero_add]; rfl)

theorem requestsCount_le (vgroup : VGroup) (args : ReduceArgs B) (degree : ℕ) (staging : Cell B)
    (hsize : 2 ≤ vgroup.size) :
    (reduceKntreeOpNew vgroup args degree staging).requestsCount ≤ vgroup.size := by
  rw [requestsCount_eq hsize]
  have hd : 1 < KntreeIter.initDegree vgroup.size degree := KntreeIter.one_lt_initDegree hsize
  exact KntreeIter.length_childrenOf_le _ _ _ (by omega)

variable [DecidableEq B]

/-- The operation obeys its trace. -/
theorem reduceKntree_obeys (vgroup : VGroup) (args : ReduceArgs B) (degree : ℕ) (staging : Cell B)
    (x : ℕ → ℕ → β) (hsize : 2 ≤ vgroup.size) (hr : vgroup.myrank < vgroup.size)
    (hroot : args.root < vgroup.size)
    (hap : Apart args.recvbuf args.count staging
      ((reduceKntreeOpNew vgroup args degree staging).requestsCount * args.count))
    (id : ℕ) {m : Cell B → β} {k : Set ℕ} (hx : args.Brings m (x vgroup.myrank)) :
    ∃ inv, Obeys (reduceKntreeFuncs (· * ·)) ReduceKntreeOp.status id
      (reduceKntreeOpNew vgroup args degree staging) inv
      (fun m _ => Holds m args.recvbuf args.count (reduceValue vgroup.size degree
        (fun v => x (toRank vgroup.size args.root v))
          (fromRoot vgroup.size args.root vgroup.myrank)))
      ⟨m, [], (reduceKntreeTrace vgroup.size degree args.root args.count x vgroup.myrank).map
        (Event.mapPeer vgroup.rankMap), k⟩ := by
  have hd : 1 < KntreeIter.initDegree vgroup.size degree := KntreeIter.one_lt_initDegree hsize
  have hpos : 0 < vgroup.size := by omega
  have htree : RankTree vgroup.size (reduceParent vgroup.size degree) _ := rankTree_reduce hsize
  have hv : fromRoot vgroup.size args.root vgroup.myrank < vgroup.size := fromRoot_lt hroot
  have hown : toRank vgroup.size args.root (fromRoot vgroup.size args.root vgroup.myrank) =
      vgroup.myrank := (toRank_eq_iff hroot hr hv).mpr rfl
  generalize hnum : fromRoot vgroup.size args.root vgroup.myrank = v at hv hown
  set y : ℕ → ℕ → β := fun v => x (toRank vgroup.size args.root v) with hy
  -- the iterator, before and after the children are counted
  have hbase := KntreeIter.init_base args.root vgroup.myrank false hd hpos
  have hyields := KntreeIter.init_yields args.root vgroup.myrank false hd hpos
  have hlen : (reduceChildren vgroup.size degree v).length ≤ vgroup.size :=
    KntreeIter.length_childrenOf_le _ _ _ (by omega)
  change KntreeIter.toKntreeBase _ = KntreeIter.baseOf _ _ _
    (fromRoot vgroup.size args.root vgroup.myrank) _ at hbase
  change KntreeIter.Yields _ ((KntreeIter.childrenOf _ _
    (fromRoot vgroup.size args.root vgroup.myrank) _).map _) at hyields
  rw [hnum] at hbase hyields
  obtain ⟨hcount, hcbase⟩ := reduceKntreeCount_eq vgroup.size 0 hyields
    (by rw [List.length_map]; exact hlen)
  let kids : List (ℕ × (ℕ → β)) := (reduceChildren vgroup.size degree v).map fun c =>
    (toRank vgroup.size args.root c, reduceValue vgroup.size degree y c)
  let up : Option ℕ := if v = 0 then none
    else some (toRank vgroup.size args.root (reduceParent vgroup.size degree v))
  have hkids : kids.length = (reduceChildren vgroup.size degree v).length := List.length_map ..
  have hkeeps : ReduceKeeps vgroup args staging kids up
      (reduceKntreeOpNew vgroup args degree staging) := by
    refine ⟨rfl, rfl, rfl, ?_, ?_⟩
    · rw [hkids]
      exact hcount.trans (by rw [List.length_map, Nat.zero_add]; rfl)
    · exact congrArg KntreeBase.parent (hcbase.trans hbase)
  have hreset := KntreeIter.reset_yields hd (hcbase.trans hbase)
  have hval : (reduceValue vgroup.size degree y v : WithOne (ℕ → β)) =
      y v * (kids.map fun kid => ((kid.2 : ℕ → β) : WithOne (ℕ → β))).prod := by
    rw [reduceValue, treeValue_eq htree hv, List.map_map]
    rfl
  have htrace : reduceKntreeTrace vgroup.size degree args.root args.count x vgroup.myrank =
      reduceTrace args.count kids up (reduceValue vgroup.size degree y v) := by
    rw [reduceKntreeTrace, numberedTrace, if_pos hr, hnum, upTrace, if_pos hv, reduceTrace,
      List.map_append, List.map_map, List.map_map]
    congr 1
    by_cases hzero : v = 0 <;> simp [up, hzero, Event.mapPeer, hy]
  rw [htrace]
  rw [hkeeps.count_eq] at hap
  refine ⟨_, reduceKntree_obeys_of hap hval hkeeps ?_ ?_ id ?_⟩
  · have hfst : kids.map Prod.fst = (reduceChildren vgroup.size degree v).map
        fun c => (c + args.root) % vgroup.size := by
      rw [List.map_map]
      rfl
    rw [hfst]
    exact hreset
  · rw [hkids]
    exact hlen.trans_eq (congrArg KntreeBase.size (hcbase.trans hbase)).symm
  · rw [hy]
    dsimp only
    rwa [hown]

omit [DecidableEq B] in
theorem coe_prodFrom (x : ℕ → β) : ∀ k,
    ((prodFrom x 0 k : β) : WithOne β) = ∏ u ∈ Finset.range (k + 1), (x u : WithOne β)
  | 0 => by rw [prodFrom, Finset.prod_range_one]
  | k + 1 => by
    rw [prodFrom, WithOne.coe_mul, coe_prodFrom x k, Finset.prod_range_succ _ (k + 1),
      Nat.zero_add]

omit [DecidableEq B] in
/-- The root has the contributions of all ranks. -/
theorem reduceValue_root {n degree root : ℕ} (hn : 2 ≤ n) (hroot : root < n) (x : ℕ → ℕ → β) :
    reduceValue n degree (fun v => x (toRank n root v)) 0 = prodFrom x 0 (n - 1) := by
  refine WithOne.coe_inj.mp ?_
  rw [reduceValue, treeValue_zero (rankTree_reduce hn) (by omega), coe_prodFrom,
    Nat.sub_add_cancel (by omega)]
  have hnum := numbering_fromRoot hroot
  refine Finset.prod_nbij' (toRank n root) (fromRoot n root) ?_ ?_ ?_ ?_ fun _ _ => rfl
  · intro v hv
    exact Finset.mem_range.mpr (hnum.rank_lt v (Finset.mem_range.mp hv))
  · intro r hr
    exact Finset.mem_range.mpr (hnum.num_lt r (Finset.mem_range.mp hr))
  · intro v hv
    have hv := Finset.mem_range.mp hv
    exact ((hnum.rank_eq_iff _ (hnum.rank_lt v hv) v hv).mp rfl).symm
  · intro r hr
    have hr := Finset.mem_range.mp hr
    exact (hnum.rank_eq_iff r hr _ (hnum.num_lt r hr)).mpr rfl

/-- The request of rank `r` of a group of `n` ranks. -/
def reduceKntreeProc (n degree : ℕ) (args : ℕ → ReduceArgs B) (staging : ℕ → Cell B) (id r : ℕ) :
    Proc (Cell B) β (ReduceKntreeOp B) :=
  opProc (reduceKntreeFuncs (· * ·)) ReduceKntreeOp.status
    (reduceKntreeOpNew ⟨n, r, fun q => q⟩ (args r) degree (staging r)) id

/-- A call of all ranks: the same root and count, a staging area for the children of each, and the
    contributions `x`. -/
structure ReduceCall (n degree root count : ℕ) (args : ℕ → ReduceArgs B) (staging : ℕ → Cell B)
    (x : ℕ → ℕ → β) (m : ℕ → Cell B → β) : Prop where
  root_eq : ∀ r < n, (args r).root = root
  count_eq : ∀ r < n, (args r).count = count
  apart : ∀ r < n, Apart (args r).recvbuf count (staging r)
    ((reduceKntreeOpNew ⟨n, r, fun q => q⟩ (args r) degree (staging r)).requestsCount * count)
  brings : ∀ r < n, (args r).Brings (m r) (x r)

/-- In every run a rank that has finished has succeeded, and the root then has the combination of
    all contributions; and from every state of a run all ranks come to their end. -/
def ReduceRight (n degree root count : ℕ) (args : ℕ → ReduceArgs B) (staging : ℕ → Cell B)
    (x : ℕ → ℕ → β) (m : ℕ → Cell B → β) (id : ℕ) : Prop :=
  ∀ acts N, (Net.init m).run n (reduceKntreeProc n degree args staging id) acts = some N →
    (∀ r < n, ∀ op, N.FinishedIn r op → op.status = .ok ∧ (r = root →
      Holds (N.node r).mem (args r).recvbuf count fun j => prodFrom (fun q => x q j) 0 (n - 1))) ∧
    ∃ acts' N', N.run n (reduceKntreeProc n degree args staging id) acts' = some N' ∧
      ∀ r < n, ∃ op, N'.FinishedIn r op

theorem reduceKntree_right {n degree root count : ℕ} (hn : 2 ≤ n) (hroot : root < n)
    {args : ℕ → ReduceArgs B} {staging : ℕ → Cell B} {x : ℕ → ℕ → β} {m : ℕ → Cell B → β}
    (hcall : ReduceCall n degree root count args staging x m) (id : ℕ) :
    ReduceRight n degree root count args staging x m id := by
  intro acts N hrun
  let y : ℕ → ℕ → β := fun v => x (toRank n root v)
  have hmeets (r) (hr : r < n) : (reduceKntreeProc n degree args staging id r).Meets
      (fun op m _ => op.status = .ok ∧ Holds m (args r).recvbuf count
        (reduceValue n degree y (fromRoot n root r)))
      ⟨m r, [], reduceKntreeTrace n degree root count x r, {r}⟩ := by
    obtain ⟨inv, hobeys⟩ :=
      reduceKntree_obeys ⟨n, r, fun q => q⟩ (args r) degree (staging r) x hn hr
      (by rw [hcall.root_eq r hr]; exact hroot)
      (by rw [hcall.count_eq r hr]; exact hcall.apart r hr) id (k := {r}) (hcall.brings r hr)
    rw [map_mapPeer_id, hcall.count_eq r hr, hcall.root_eq r hr] at hobeys
    exact hobeys.meets
  have hpaced : Paced n (reduceKntreeTrace n degree root count x) :=
    paced_reduceKntreeTrace hn hroot
  refine ⟨fun r hr op hfin => ?_, ?_⟩
  · obtain ⟨know, ⟨hok, hres⟩, -⟩ := finished_ok hpaced.matched hmeets hrun hfin
    refine ⟨hok, fun hroot' j hj => ?_⟩
    rw [(fromRoot_eq_zero_iff hroot hr).mpr hroot', reduceValue_root hn hroot] at hres
    rw [hres j hj, prodFrom_apply]
  · choose! G hG using fun r => (reduceKntree_lively ((· * ·) : β → β → β)
      (reduceKntreeOpNew ⟨n, r, fun q => q⟩ (args r) degree (staging r)) id).proc
    exact finished_live hpaced (fun r hr => if_neg (by omega)) hmeets (fun r _ => hG r) hrun

/-- The reduce is right, and receives into sound slots, exactly if at every rank nothing is
    received, nothing is allocated, or the layout of the datatype fits the staging area. -/
theorem reduceKntree_iff (n degree root count : ℕ) (hn : 2 ≤ n) (hroot : root < n)
    (args : ℕ → ReduceArgs B) (staging : ℕ → Cell B) (x : ℕ → ℕ → β) (m : ℕ → Cell B → β)
    (hcall : ReduceCall n degree root count args staging x m) (id : ℕ) (dt : DtLayout) :
    (ReduceRight n degree root count args staging x m id ∧ ∀ r < n, ReduceSlotsOk dt count
      (reduceKntreeOpNew ⟨n, r, fun q => q⟩ (args r) degree (staging r)).requestsCount) ↔
    ∀ r < n, let requestsCount :=
        (reduceKntreeOpNew ⟨n, r, fun q => q⟩ (args r) degree (staging r)).requestsCount
      requestsCount = 0 ∨ count = 0 ∨ dt.trueExtent ≤ 0 ∨
        reduceStagingSize dt count requestsCount < 0 ∨ ReduceFits dt count requestsCount := by
  have hslots (r) := reduceSlotsOk_iff dt count (
    (reduceKntreeOpNew ⟨n, r, fun q => q⟩ (args r) degree (staging r)).requestsCount)
  constructor
  · rintro ⟨-, hall⟩ r hr
    exact (hslots r).mp (hall r hr)
  · intro hall
    exact ⟨reduceKntree_right hn hroot hcall id, fun r hr => (hslots r).mpr (hall r hr)⟩

end Group

/-! Two ranks reduce one number each, in place. -/

/-- The buffers are the receive buffer and the staging area. -/
def twoReduceArgs (_ : ℕ) : ReduceArgs Bool := ⟨none, (false, 0), 1, 0⟩

theorem twoReduceCall : ReduceCall 2 2 0 1 twoReduceArgs (fun _ => (true, 0)) (fun r _ => r + 2)
    fun r _ => r + 2 where
  root_eq _ _ := rfl
  count_eq _ _ := rfl
  apart _ _ := Or.inl (by simp [twoReduceArgs])
  brings _ _ := ⟨fun _ _ => rfl, by simp [twoReduceArgs]⟩

theorem reduceKntree_iff_two : ReduceRight 2 2 0 1 twoReduceArgs (fun _ => (true, 0))
      (fun r _ => r + 2) (fun r _ => r + 2) 7 ∧ ∀ r < 2, ReduceSlotsOk ⟨0, 8, 8⟩ 1
      (reduceKntreeOpNew ⟨2, r, fun q => q⟩ (twoReduceArgs r) 2 (true, 0)).requestsCount := by
  refine (reduceKntree_iff 2 2 0 1 le_rfl (by decide) twoReduceArgs (fun _ => (true, 0))
    (fun r _ => r + 2) (fun r _ => r + 2) twoReduceCall 7 ⟨0, 8, 8⟩).mpr fun r _ => ?_
  have hle := requestsCount_le ⟨2, r, fun q => q⟩ (twoReduceArgs r) 2 (true, 0) le_rfl
  refine Or.inr (Or.inr (Or.inr (Or.inr ⟨rfl, by simp, ?_⟩)))
  have hlen : (⟨0, 8, 8⟩ : DtLayout).length 1 = 8 := rfl
  rw [hlen]
  dsimp only at hle
  omega

/-- Four bytes behind the lower bound, the slot of the root does not lie in its staging area. -/
theorem reduceKntree_not_sound : ¬(ReduceRight 2 2 0 1 twoReduceArgs (fun _ => (true, 0))
      (fun r _ => r + 2) (fun r _ => r + 2) 7 ∧ ∀ r < 2, ReduceSlotsOk ⟨4, 8, 16⟩ 1
      (reduceKntreeOpNew ⟨2, r, fun q => q⟩ (twoReduceArgs r) 2 (true, 0)).requestsCount) := by
  rintro ⟨-, hall⟩
  have hle := requestsCount_le ⟨2, 0, fun q => q⟩ (twoReduceArgs 0) 2 (true, 0) le_rfl
  have hpos : 0 < (reduceKntreeOpNew ⟨2, 0, fun q => q⟩ (twoReduceArgs 0) 2
      (true, 0)).requestsCount := by
    rw [requestsCount_eq le_rfl]
    have htree : RankTree 2 (reduceParent 2 2) (reduceChildren 2 2) := rankTree_reduce le_rfl
    have hparent := htree.parent_lt 1 (by decide) (by decide)
    exact List.length_pos_of_mem ((htree.mem 0 1).mpr ⟨by decide, by decide, by omega⟩)
  have hok := hall 0 (by decide)
  generalize (reduceKntreeOpNew ⟨2, 0, fun q => q⟩ (twoReduceArgs 0) 2
    (true, 0)).requestsCount = k at hle hpos hok
  dsimp only at hle
  have hsize : reduceStagingSize ⟨4, 8, 16⟩ 1 k = 8 * k := by
    have hdata : reduceDataSize ⟨4, 8, 16⟩ 1 = 8 := by decide
    rw [reduceStagingSize, hdata, s64_eq (by omega) (by omega)]
  rcases (reduceSlotsOk_iff _ _ _).mp hok with h | h | h | h | h
  · omega
  · cases h
  · cases h
  · omega
  · cases h.trueLb


end Kucg.Ucx
