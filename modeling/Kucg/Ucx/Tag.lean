import Kucg.Core.ReqId
import Kucg.Core.TopoRuns
import Kucg.Ucx.Trigger

/-! The tags of messages, from `ucg_planc_ucx_make_tag` in `planc_ucx_p2p.c`.

    A tag has the id of the request, the rank of the sender in its group and the id of the group, in
    bits of their own. The sender writes its own rank; the receiver evaluates the rank map of the
    group that the operation runs on. Two ranks that run the same operation build the same tag if
    they have the same id for it. -/

namespace Kucg.Ucx

open Kucg.Core

/-- A `uint64_t`, shifted to the left. -/
def u64Shl (x s : ℕ) : UInt64 := UInt64.ofNat x <<< UInt64.ofNat s

/-- `UCG_P2P_SEQ_BITS`. -/
def p2pSeqBits : ℕ := 24

/-- `UCG_P2P_RANK_BITS`. -/
def p2pRankBits : ℕ := 20

/-- `UCG_P2P_FLAG_BITS`. -/
def p2pFlagBits : ℕ := 2

/-- `UCG_P2P_GROUP_BITS`. -/
def p2pGroupBits : ℕ := 18

/-- `UCG_P2P_SEQ_BITS_OFFSET`. -/
def p2pSeqBitsOffset : ℕ := p2pRankBits + p2pFlagBits + p2pGroupBits

/-- `UCG_P2P_FLAG_BITS_OFFSET`. -/
def p2pFlagBitsOffset : ℕ := p2pGroupBits

/-- `ucg_planc_ucx_make_tag`, with the flag `UCG_P2P_FLAG_ONE`. -/
def makeTag (tag rank groupId : ℕ) : UInt64 :=
  u64Shl tag p2pSeqBitsOffset ||| u64Shl rank p2pRankBits ||| u64Shl 1 p2pFlagBitsOffset |||
    u64Shl groupId 0

/-- `ucg_vgroup_t`, with the id of its group and the rank of the process in it. -/
structure TagVgroup where
  rankMap : RankMap
  myrank : Option ℕ
  groupId : ℕ
  groupRank : ℕ

/-- The tag in `ucg_planc_ucx_p2p_isend`. -/
def isendTag (id : ℕ) (vgroup : TagVgroup) : UInt64 := makeTag id vgroup.groupRank vgroup.groupId

/-- The tag in `ucg_planc_ucx_p2p_irecv` for a message from `vrank`, if that is a rank. -/
def irecvTag (id : ℕ) (vgroup : TagVgroup) (vrank : ℕ) : Option UInt64 :=
  (vgroup.rankMap.eval vrank).map fun senderGroupRank => makeTag id senderGroupRank vgroup.groupId

/-! ### Tags -/

section Tags

variable {x s id rank groupId id' rank' groupId' : ℕ}

theorem toNat_u64Shl (hs : s < 64) (hx : x * 2 ^ s < 2 ^ 64) : (u64Shl x s).toNat = x <<< s := by
  have hle : x ≤ x * 2 ^ s := Nat.le_mul_of_pos_right x (by positivity)
  have hx' : (UInt64.ofNat x).toNat = x :=
    UInt64.toNat_ofNat_of_lt' (by rw [UInt64.size]; omega)
  have hs' : (UInt64.ofNat s).toNat = s :=
    UInt64.toNat_ofNat_of_lt' (by rw [UInt64.size]; omega)
  rw [u64Shl, UInt64.toNat_shiftLeft, hx', hs', Nat.mod_eq_of_lt hs, Nat.shiftLeft_eq]
  exact Nat.mod_eq_of_lt hx

/-- The fields of a tag do not overlap. -/
theorem toNat_makeTag (hid : id < 2 ^ 24) (hrank : rank < 2 ^ 20) (hgroup : groupId < 2 ^ 18) :
    (makeTag id rank groupId).toNat = id * 2 ^ 40 + rank * 2 ^ 20 + 2 ^ 18 + groupId := by
  have hflag : 1 <<< 18 ||| groupId <<< 0 = 2 ^ 18 + groupId := by
    rw [Nat.shiftLeft_zero, ← Nat.shiftLeft_add_eq_or_of_lt hgroup, Nat.shiftLeft_eq, Nat.one_mul]
  have hrank' : rank <<< 20 ||| (2 ^ 18 + groupId) = rank * 2 ^ 20 + (2 ^ 18 + groupId) := by
    rw [← Nat.shiftLeft_add_eq_or_of_lt (by omega), Nat.shiftLeft_eq]
  have hseq : id <<< 40 ||| (rank * 2 ^ 20 + (2 ^ 18 + groupId)) =
      id * 2 ^ 40 + (rank * 2 ^ 20 + (2 ^ 18 + groupId)) := by
    rw [← Nat.shiftLeft_add_eq_or_of_lt (by omega), Nat.shiftLeft_eq]
  rw [makeTag, show p2pSeqBitsOffset = 40 from rfl, p2pFlagBitsOffset, p2pRankBits, p2pGroupBits,
    UInt64.toNat_or, UInt64.toNat_or, UInt64.toNat_or, toNat_u64Shl (by omega) (by omega),
    toNat_u64Shl (by omega) (by omega), toNat_u64Shl (by omega) (by omega),
    toNat_u64Shl (by omega) (by omega), Nat.or_assoc, Nat.or_assoc, hflag, hrank', hseq]
  omega

theorem makeTag_inj (hid : id < 2 ^ 24) (hrank : rank < 2 ^ 20) (hgroup : groupId < 2 ^ 18)
    (hid' : id' < 2 ^ 24) (hrank' : rank' < 2 ^ 20) (hgroup' : groupId' < 2 ^ 18)
    (h : makeTag id rank groupId = makeTag id' rank' groupId') :
    id = id' ∧ rank = rank' ∧ groupId = groupId' := by
  have heq := congrArg UInt64.toNat h
  rw [toNat_makeTag hid hrank hgroup, toNat_makeTag hid' hrank' hgroup'] at heq
  omega

end Tags

/-! ### Groups -/

/-- The virtual group of rank `r` of group `groupId` has these members, by their ranks in the
    group. -/
structure TagVgroup.Of (groupId : ℕ) (members : List ℕ) (r : ℕ) (vgroup : TagVgroup) : Prop where
  groupId_eq : vgroup.groupId = groupId
  groupRank : vgroup.groupRank = r
  rankMap : ∀ i, vgroup.rankMap.eval i = members[i]?
  myrank : ∀ v, vgroup.myrank = some v → members[v]? = some r

section Groups

variable {groupId r s : ℕ} {members : List ℕ} {vgroup vgroup' : TagVgroup}

/-- The receiver builds the tag of the sender. -/
theorem irecvTag_eq {id v : ℕ} (h : vgroup.Of groupId members s) (h' : vgroup'.Of groupId members r)
    (hv : vgroup.myrank = some v) : irecvTag id vgroup' v = some (isendTag id vgroup) := by
  rw [irecvTag, h'.rankMap, h.myrank v hv, Option.map_some, isendTag, h.groupRank, h.groupId_eq,
    h'.groupId_eq]

/-- A group with all its ranks. -/
theorem vgroupOf_group {size : ℕ} (hr : r < size) :
    TagVgroup.Of groupId (List.range size) r ⟨⟨.full, size⟩, some r, groupId, r⟩ where
  groupId_eq := rfl
  groupRank := rfl
  rankMap i := by
    rw [RankMap.eval]
    split_ifs with h
    · exact (List.getElem?_range h).symm
    · exact (List.getElem?_eq_none (by simpa using h)).symm
  myrank v hv := by
    obtain rfl := Option.some.inj hv
    exact List.getElem?_range hr

/-- An enabled group of a topology. -/
theorem vgroupOf_topo {group : TopoGroup} (h : group.Lists members r)
    (hen : group.state = .enable) :
    TagVgroup.Of groupId members r ⟨group.rankMap, group.myrank, groupId, r⟩ where
  groupId_eq := rfl
  groupRank := rfl
  rankMap := h.rankMap hen
  myrank v hv := by
    obtain rfl := Option.some.inj ((h.myrank hen).symm.trans hv)
    have hmem := ((h.enable_iff).mp hen).1
    rw [List.getElem?_eq_getElem (List.idxOf_lt_length_iff.mpr hmem), List.getElem_idxOf]

end Groups

/-! ### Every run -/

section Runs

variable {E S : Type}

/-- The starts of requests of group `g` at a member that has made these calls. -/
def startsOf (f : PlanFuncs E S) (g : ℕ) (calls : List (ReqCall E S)) : List (StartCall S) :=
  startCalls f g Context.init calls

/-- What the ids and the tags of a group of `n` ranks are to do: the `k`-th start gets the same id
    at all members; all ids are between the base and the end; two requests in progress at a member
    have the same id only if `reqIdPeriod` allocations lie between the starts that gave it to them;
    tags of different messages are different; and the receiver of a message looks for the tag that
    its sender puts on it. -/
structure IdentityMeets (n g : ℕ) (f : ℕ → PlanFuncs E S) (calls : ℕ → List (ReqCall E S)) :
    Prop where
  agree : ∀ p < n, ∀ q < n, Paired (fun s s' => s.id = s'.id) (startsOf (f p) g (calls p))
    (startsOf (f q) g (calls q))
  between : ∀ p < n, ∀ s ∈ startsOf (f p) g (calls p), ∀ id, s.id = some id →
    groupBaseReqId < id ∧ id < groupEndReqId
  far : ∀ p < n, ∀ r r' req req', r ≠ r' → (Context.init.run (f p) (calls p)).reqs r = some req →
    (Context.init.run (f p) (calls p)).reqs r' = some req' → req.status = .inprogress →
    req'.status = .inprogress → req.group = g → req'.group = g → req.id = req'.id →
    ∃ j j', StartedAt (startsOf (f p) g (calls p)) r req.id j ∧
      StartedAt (startsOf (f p) g (calls p)) r' req'.id j' ∧
      (j + reqIdPeriod ≤ j' ∨ j' + reqIdPeriod ≤ j)
  tags : ∀ id id' rank rank' groupId groupId', id < groupEndReqId → id' < groupEndReqId →
    rank < 2 ^ p2pRankBits → rank' < 2 ^ p2pRankBits → groupId < 2 ^ p2pGroupBits →
    groupId' < 2 ^ p2pGroupBits → (id, rank, groupId) ≠ (id', rank', groupId') →
    makeTag id rank groupId ≠ makeTag id' rank' groupId'
  sender : ∀ members, ∀ p < n, ∀ q < n, ∀ vgroup vgroup', TagVgroup.Of g members p vgroup →
    TagVgroup.Of g members q vgroup' → Paired (fun s s' => ∀ id id' v, s.id = some id →
      s'.id = some id' → vgroup.myrank = some v →
        irecvTag id' vgroup' v = some (isendTag id vgroup))
      (startsOf (f p) g (calls p)) (startsOf (f q) g (calls q))

/-- The ids and tags are right if and only if the members refuse the same starts. -/
theorem identity_iff (n g : ℕ) (f : ℕ → PlanFuncs E S) (calls : ℕ → List (ReqCall E S))
    (hlawful : ∀ p < n, (f p).Lawful) (hgroup : ∀ p < n, (f p).KeepsGroup) :
    IdentityMeets n g f calls ↔ ∀ p < n, ∀ q < n, Paired (fun s s' => s.ready = s'.ready)
      (startsOf (f p) g (calls p)) (startsOf (f q) g (calls q)) := by
  have hcount (p) : Counted groupBaseReqId (startsOf (f p) g (calls p)) :=
    counted_startCalls (calls p) Context.init
  refine ⟨fun h p hp q hq => (paired_id_iff (hcount p) (hcount q)).mp (h.agree p hp q hq),
    fun h => ?_⟩
  have hagree (p) (hp : p < n) (q) (hq : q < n) :=
    (paired_id_iff (hcount p) (hcount q)).mpr (h p hp q hq)
  refine ⟨hagree, fun p _ s hs id hid => id_between (hcount p) hs hid, ?_, ?_, ?_⟩
  · intro p hp r r' req req' hne hr hr' hst hst' hg hg' hid
    have hinit : StartedAll g (Context.init : Context S) [] := fun _ _ h => absurd h (by
      simp [Context.init])
    have hall := run_startedAll (hlawful p hp) (hgroup p hp) (calls p) hinit
    obtain ⟨j, hj⟩ := hall r req hr hst hg
    obtain ⟨j', hj'⟩ := hall r' req' hr' hst' hg'
    rw [List.nil_append] at hj hj'
    exact ⟨j, j', hj, hj', startedAt_far (hcount p) hj (hid ▸ hj') hne⟩
  · intro id id' rank rank' groupId groupId' hid hid' hrank hrank' hgroup hgroup' hne heq
    have hend : groupEndReqId < 2 ^ 24 := by decide
    obtain ⟨rfl, rfl, rfl⟩ := makeTag_inj (hid.trans hend) hrank hgroup (hid'.trans hend) hrank'
      hgroup' heq
    exact hne rfl
  · intro members p hp q hq vgroup vgroup' hv hv' k s s' hs hs' id id' v hid hid' hmy
    obtain rfl : id = id' :=
      Option.some.inj (hid.symm.trans ((hagree p hp q hq k s s' hs hs').trans hid'))
    exact irecvTag_eq hv hv' hmy

end Runs

/-! Two members start a request three times in all: one, the same one again, and another one. At the
    second member the first start ends with an I/O error, so that the second one is refused. -/

/-- The operations of the UCX plans stay in their groups. -/
theorem ucxFuncs_keepsGroup : ucxFuncs.KeepsGroup where
  progress_group e op := by
    unfold ucxFuncs
    dsimp only
    split <;> rfl
  trigger_group e op := by
    unfold ucxFuncs
    dsimp only
    split <;> rfl

/-- The next pass after the start ends with `progress`. -/
def passEnds (progress : Status) : UcxIn := ⟨⟨.ok, .inprogress⟩, ⟨.ok, progress⟩⟩

/-- The calls of a member whose first operation ends with `progress`. -/
def memberCalls (progress : Status) : List (ReqCall UcxIn UcxState) :=
  [.init 0 (.leaf ⟨.allgathervRing, true, 4⟩) 0, .init 0 (.leaf ⟨.allgathervRing, true, 4⟩) 1,
    .start (passEnds progress) 0, .progress fun _ => passEnds progress, .start (passEnds .ok) 0,
    .start (passEnds .ok) 1]

theorem identity_refused :
    (startsOf ucxFuncs 0 (memberCalls .ok)).map StartCall.id =
      [some (groupBaseReqId + 1), some (groupBaseReqId + 2), some (groupBaseReqId + 3)] ∧
    (startsOf ucxFuncs 0 (memberCalls .errIoError)).map StartCall.id =
      [some (groupBaseReqId + 1), none, some (groupBaseReqId + 2)] ∧
    ¬IdentityMeets 2 0 (fun _ => ucxFuncs)
      fun p => memberCalls (if p = 0 then .ok else .errIoError) := by
  refine ⟨rfl, rfl, fun h => ?_⟩
  have hids := h.agree 0 (by decide) 1 (by decide) 2 _ _ rfl rfl
  revert hids
  decide

/-- Both operations end without an error. -/
theorem identity_iff_pair : IdentityMeets 2 0 (fun _ => ucxFuncs) fun _ => memberCalls .ok := by
  refine (identity_iff 2 0 (fun _ => ucxFuncs) (fun _ => memberCalls .ok)
    (fun _ _ => ucxFuncs_lawful) fun _ _ => ucxFuncs_keepsGroup).mpr ?_
  intro p _ q _ k s s' hs hs'
  exact congrArg StartCall.ready (Option.some.inj (hs.symm.trans hs'))

end Kucg.Ucx
