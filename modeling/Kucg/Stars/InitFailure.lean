import Kucg.Lib.Acquire
import Kucg.Stars.SubmitWork

/-! A stars operation whose initialisation fails.

    An operation takes its object from a pool, allots its lists of ranks and the descriptors of the
    peers' buffers, connects, registers its buffers, allots events and exchanges addresses. Each of
    these steps can fail. The steps undo a part of what they have done; the prepare function gives
    the object back to its pool and releases nothing else.

    So all is released if and only if the failure comes before anything else is held, or in the
    part of the plan that releases its lists (`Shape.CleanAt`, `sat_prepare`). -/

namespace Kucg.Stars

open Kucg.Lib Kucg.Lib.Acquire

namespace OpInit

/-- What an operation holds. `offset` is an event offset that is written into a list of ranks. -/
inductive Resource where
  | op
  | getRanks
  | putRanks
  | offset (idx : ℕ)
  | rbufDesc (idx : ℕ)
  | lrbufDesc
  | lsbufDesc
  | registration (recv : Bool) (md : ℕ)
  | event (elem lane : ℕ)
  deriving DecidableEq

/-- What can fail. `pre` are the calls of an algorithm in front of its lists of ranks. -/
inductive Call where
  | mpoolGet
  | opConstruct
  | opInit
  | pre (k : ℕ)
  | getRanks
  | putRanks
  | epCreate (peer : ℕ)
  | putEpToPool (peer : ℕ)
  | rbufDesc (idx : ℕ)
  | epPack (get : Bool) (idx : ℕ)
  | epSend (get : Bool) (idx : ℕ)
  | epRecv (get : Bool) (idx : ℕ)
  | epWait
  | epConnect (peer : ℕ)
  | lrbufDesc
  | lsbufDesc
  | memh (recv : Bool)
  | memReg (recv : Bool) (md : ℕ)
  | mkeyPack (md : ℕ)
  | eventElems
  | eventAlloc (elem lane : ℕ)
  | addrRecv (idx : ℕ)
  | addrSend (idx : ℕ)
  | addrWait
  | mkeyUnpack (idx : ℕ)
  deriving DecidableEq

/-- What the context of the operation has: memory domains and the endpoints to the peers. -/
structure Env where
  numMds : ℕ
  packs : ℕ → Bool
  cached : ℕ → Bool
  connected : ℕ → Bool
  lanes : ℕ → ℕ

/-- The order in which an algorithm initialises the entries of its lists. -/
inductive Order where
  | getFirst
  | putFirst
  | alternating

/-- The peers in that order. -/
def Order.peers (order : Order) (dep : CommDep) : List ℕ :=
  let get := dep.getRanks.map (·.peerId)
  let put := dep.putRanks.map (·.peerId)
  match order with
  | .getFirst => get ++ put
  | .putFirst => put ++ get
  | .alternating => (put.zip get).flatMap fun pair => [pair.1, pair.2]

/-- In what the initialisations of the algorithms differ: the lists, the calls in front of them,
whether there is nothing to do, the order of the entries, whether a failing plan releases its lists,
and the buffers that an algorithm registers. -/
structure Shape where
  dep : CommDep
  preCalls : ℕ := 0
  isEmpty : Bool := false
  order : Order := .getFirst
  freesLists : Bool := true
  eidSharedStride : Option ℕ := none
  rbuf : Bool := true
  sbuf : Bool := false

/-- A part of the initialisation. -/
abbrev Init := Acquire Call Resource Unit

section Code

variable (env : Env) (fails : Call → Bool) (s : Shape)

/-- A call that acquires a resource. -/
def acquire (c : Call) (r : Resource) : Init := do
  call fails c
  take r

/-- `ucg_planc_stars_rank_dep_alloc`. -/
def rankDepAlloc (dep : CommDep) : Init := do
  skipIf (dep.getRanks = []) (acquire fails .getRanks .getRanks)
  skipIf (dep.putRanks = [])
    (onFail (acquire fails .putRanks .putRanks) (skipIf (dep.getRanks = []) (give .getRanks)))

/-- `ucg_planc_stars_rank_dep_init`; the endpoints stay in the pool of the context. -/
def rankDepInit (peer : ℕ) : Init :=
  skipIf (env.cached peer) do
    call fails (.epCreate peer)
    call fails (.putEpToPool peer)

/-- `err_free_memory` of the plans that have it. -/
def freeLists (dep : CommDep) : Init := do
  skipIf (dep.getRanks = []) (give .getRanks)
  skipIf (dep.putRanks = []) (give .putRanks)

/-- `offload_plan`. -/
def offloadPlan : Init := do
  rankDepAlloc fails s.dep
  onFail (each (s.order.peers s.dep) (rankDepInit env fails))
    (skipIf (s.freesLists = false) (freeLists s.dep))

/-- `ucg_planc_stars_create_rbuf_desc`. -/
def createRbufDesc (dep : CommDep) : Init :=
  each (List.range dep.putRanks.length) fun idx => acquire fails (.rbufDesc idx) (.rbufDesc idx)

/-- `ucg_planc_stars_exch_ep_addr`. -/
def exchEpAddr (get : Bool) (ranks : List RankInfo) : Init :=
  each ranks.zipIdx fun entry =>
    skipIf (env.connected entry.1.peerId) do
      call fails (.epPack get entry.2)
      call fails (.epSend get entry.2)
      call fails (.epRecv get entry.2)

/-- `ucg_planc_stars_channel_connect`. Without messages there is nothing to wait for. -/
def channelConnect (dep : CommDep) : Init := do
  exchEpAddr env fails true dep.getRanks
  exchEpAddr env fails false dep.putRanks
  skipIf ((dep.getRanks ++ dep.putRanks).all (env.connected ·.peerId)) (call fails .epWait)
  each (dep.getRanks ++ dep.putRanks) fun info =>
    skipIf (env.connected info.peerId) (call fails (.epConnect info.peerId))

/-- `ucg_planc_stars_algo_prepare_plan`. -/
def preparePlan : Init := do
  offloadPlan env fails s
  createRbufDesc fails s.dep
  channelConnect env fails s.dep

/-- `scp_mem_reg`: when it fails it frees the array of the handles, and no registration. -/
def scpMemReg (recv : Bool) : Init := do
  call fails (.memh recv)
  each (List.range env.numMds) fun md =>
    acquire fails (.memReg recv md) (.registration recv md)

/-- `scp_md_mkey_pack`. -/
def scpMdMkeyPack : Init :=
  each ((List.range env.numMds).filter env.packs) fun md => call fails (.mkeyPack md)

/-- `scp_ep_alloc_event`: an event for each connected lane, an error if there is none. -/
def scpEpAllocEvent (elem peer : ℕ) : Init :=
  if env.lanes peer = 0 then call (fun _ => true) (.eventAlloc elem 0)
  else
    each (List.range (env.lanes peer)) fun lane =>
      acquire fails (.eventAlloc elem lane) (.event elem lane)

/-- `ucg_planc_stars_algo_alloc_event_common`. -/
def allocEventCommon (dep : CommDep) : Init := do
  call fails .eventElems
  each dep.getRanks.zipIdx fun entry => do
    take (.offset entry.2)
    each (List.range entry.1.length) fun elem =>
      scpEpAllocEvent env fails (dep.offsetCommon entry.2 + elem) entry.1.peerId

/-- `ucg_planc_stars_algo_alloc_event_shared`: the events are those of the first entry, which is
not there without a peer. -/
def allocEventShared (stride : ℕ) (dep : CommDep) : Init := do
  call fails .eventElems
  each (List.range stride) fun elem =>
    match dep.getRanks with
    | [] => crash
    | info :: _ => scpEpAllocEvent env fails elem info.peerId
  each (List.range dep.getRanks.length) fun idx => take (.offset idx)

/-- The events of a receive buffer. -/
def allocEvents : Init :=
  match s.eidSharedStride with
  | none => allocEventCommon env fails s.dep
  | some stride => allocEventShared env fails stride s.dep

/-- `ucg_planc_stars_rbuf_init`: `free_memh` frees the array of the handles, and no registration;
events that are already allotted stay as well. -/
def rbufInit : Init := do
  acquire fails .lrbufDesc .lrbufDesc
  onFail
    (do
      scpMemReg env fails true
      scpMdMkeyPack env fails
      allocEvents env fails s)
    (give .lrbufDesc)

/-- `ucg_planc_stars_sbuf_init`. -/
def sbufInit : Init := do
  acquire fails .lsbufDesc .lsbufDesc
  onFail (scpMemReg env fails false) (give .lsbufDesc)

/-- `ucg_planc_stars_exch_addr_msg`. -/
def exchAddrMsg (dep : CommDep) : Init := do
  each (List.range dep.putRanks.length) fun idx => call fails (.addrRecv idx)
  each (List.range dep.getRanks.length) fun idx => call fails (.addrSend idx)
  skipIf (dep.getRanks = [] ∧ dep.putRanks = []) (call fails .addrWait)

/-- `ucg_planc_stars_mkey_unpack`. -/
def mkeyUnpack (dep : CommDep) : Init :=
  each (List.range dep.putRanks.length) fun idx => call fails (.mkeyUnpack idx)

/-- `ucg_planc_stars_algo_exch_buf_addr`. -/
def exchBufAddr : Init := do
  skipIf (s.rbuf = false) (rbufInit env fails s)
  skipIf (s.sbuf = false) (sbufInit env fails)
  exchAddrMsg fails s.dep
  mkeyUnpack fails s.dep

/-- `init` of an algorithm: when it fails, it writes the status of the operation. -/
def init : Init :=
  onFail
    (do
      each (List.range s.preCalls) fun k => call fails (.pre k)
      skipIf s.isEmpty do
        preparePlan env fails s
        exchBufAddr env fails s)
    (touch .op)

/-- `UCG_STARS_ALGO_PRE_DEFINE`: when something fails, the object goes back to its pool. -/
def prepare : Init := do
  acquire fails .mpoolGet .op
  onFail
    (do
      call fails .opConstruct
      call fails .opInit
      init env fails s)
    (give .op)

end Code

/-! ### Where a failure leaves nothing behind -/

/-- The calls behind the lists of ranks. -/
def Call.Late : Call → Prop
  | .mpoolGet | .opConstruct | .opInit | .pre _ | .getRanks | .putRanks | .epCreate _
  | .putEpToPool _ => False
  | _ => True

/-- The operation has no peers. -/
def Shape.NoPeers (s : Shape) : Prop := s.dep.getRanks = [] ∧ s.dep.putRanks = []

/-- Where a failure leaves nothing behind: in front of the lists of ranks, in the entries of a plan
that releases its lists, and up to the first registration if there are no lists. -/
def Shape.CleanAt (env : Env) (s : Shape) : Call → Prop
  | .mpoolGet | .opConstruct | .opInit | .pre _ | .getRanks | .putRanks => True
  | .epCreate _ | .putEpToPool _ => s.freesLists
  | .lrbufDesc | .memh true | .memReg true 0 => s.NoPeers
  | .eventElems => s.NoPeers ∧ env.numMds = 0
  | .lsbufDesc | .memh false | .memReg false 0 => s.NoPeers ∧ s.rbuf = false
  | _ => False

theorem Shape.not_cleanAt {env : Env} {s : Shape} {c : Call} (hpeers : ¬s.NoPeers)
    (hlate : c.Late) : ¬s.CleanAt env c := by
  intro h
  unfold CleanAt at h
  split at h <;> first | exact hpeers h | exact hpeers h.1 | exact hlate | exact h

/-! ### Steps that release nothing of what was held before -/

/-- The step keeps what is held, and fails at calls of one kind only. -/
def Keeps (kind : Call → Prop) (rs : List Resource) (m : Init) : Prop :=
  ∀ l : Holdings Resource, l.Has rs →
    Sat m l (fun _ l => l.Has rs) fun c l => kind c ∧ l.Has rs

section Keeps

variable {kind : Call → Prop} {rs : List Resource} {m : Init} {env : Env} {fails : Call → Bool}

theorem keeps_pure : Keeps kind rs (pure ()) := fun _ h => sat_pure h

theorem keeps_crash : Keeps kind rs crash := fun _ _ => sat_crash

theorem keeps_call {c : Call} (hc : kind c) : Keeps kind rs (call fails c) := fun _ h =>
  sat_call h fun _ => ⟨hc, h⟩

theorem keeps_take {r : Resource} : Keeps kind rs (take r) := fun _ h =>
  sat_take ((h.take r).mono fun _ hx => List.mem_cons_of_mem _ hx)

theorem Keeps.bind {f : Unit → Init} (h : Keeps kind rs m) (hf : ∀ u, Keeps kind rs (f u)) :
    Keeps kind rs (m >>= f) := fun l hl => (h l hl).bind fun u l' hl' => hf u l' hl'

theorem keeps_acquire {c : Call} {r : Resource} (hc : kind c) :
    Keeps kind rs (acquire fails c r) := (keeps_call hc).bind fun _ => keeps_take

theorem keeps_each {β : Type} {xs : List β} {f : β → Init} (hf : ∀ x ∈ xs, Keeps kind rs (f x)) :
    Keeps kind rs (each xs f) := fun _ h => sat_each (·.Has rs) (fun x hx l hl => hf x hx l hl) h

theorem keeps_skipIf {p : Prop} [Decidable p] (h : Keeps kind rs m) :
    Keeps kind rs (skipIf p m) := fun l hl => sat_skipIf (fun _ => hl) fun _ => h l hl

/-- What a step acquires for itself it may release again. -/
theorem keeps_acquire_onFail {c : Call} {r : Resource} (hc : kind c) (hr : r ∉ rs)
    (h : Keeps kind (r :: rs) m) :
    Keeps kind rs (acquire fails c r >>= fun _ => onFail m (give r)) := by
  intro l hl
  refine Sat.bind (P := fun _ l => l.Has (r :: rs)) ?_ fun _ l' hl' => ?_
  · exact Sat.bind (P := fun _ l => l.Has rs) (sat_call hl fun _ => ⟨hc, hl⟩) fun _ l' hl' =>
      sat_take (hl'.take r)
  · refine Sat.onFail _ ((h l' hl').imp (fun _ _ hd => ?_) fun _ _ => id) ?_
    · exact hd.mono fun _ hx => List.mem_cons_of_mem _ hx
    · exact fun c' l'' hf => ⟨hf.1, hf.2.give hr⟩

theorem keeps_scpMemReg {recv : Bool} (h : kind (.memh recv)) (h' : ∀ md, kind (.memReg recv md)) :
    Keeps kind rs (scpMemReg env fails recv) :=
  (keeps_call h).bind fun _ => keeps_each fun md _ => keeps_acquire (h' md)

theorem keeps_scpMdMkeyPack (h : ∀ md, kind (.mkeyPack md)) :
    Keeps kind rs (scpMdMkeyPack env fails) := keeps_each fun md _ => keeps_call (h md)

theorem keeps_scpEpAllocEvent {elem peer : ℕ} (h : ∀ e lane, kind (.eventAlloc e lane)) :
    Keeps kind rs (scpEpAllocEvent env fails elem peer) := by
  unfold scpEpAllocEvent
  split_ifs
  · exact keeps_call (h elem 0)
  · exact keeps_each fun lane _ => keeps_acquire (h elem lane)

theorem keeps_allocEventCommon {dep : CommDep} (h : kind .eventElems)
    (h' : ∀ e lane, kind (.eventAlloc e lane)) :
    Keeps kind rs (allocEventCommon env fails dep) :=
  (keeps_call h).bind fun _ => keeps_each fun _ _ => keeps_take.bind fun _ =>
    keeps_each fun _ _ => keeps_scpEpAllocEvent h'

theorem keeps_allocEventShared {stride : ℕ} {dep : CommDep} (h : kind .eventElems)
    (h' : ∀ e lane, kind (.eventAlloc e lane)) :
    Keeps kind rs (allocEventShared env fails stride dep) := by
  refine (keeps_call h).bind fun _ => Keeps.bind (keeps_each fun elem _ => ?_) fun _ =>
    keeps_each fun _ _ => keeps_take
  cases dep.getRanks with
  | nil => exact keeps_crash
  | cons info _ => exact keeps_scpEpAllocEvent h'

theorem keeps_rbufInit {s : Shape} (hr : Resource.lrbufDesc ∉ rs) (h : kind .lrbufDesc)
    (h₁ : kind (.memh true)) (h₂ : ∀ md, kind (.memReg true md)) (h₃ : ∀ md, kind (.mkeyPack md))
    (h₄ : kind .eventElems) (h₅ : ∀ e lane, kind (.eventAlloc e lane)) :
    Keeps kind rs (rbufInit env fails s) := by
  refine keeps_acquire_onFail h hr ((keeps_scpMemReg h₁ h₂).bind fun _ =>
    (keeps_scpMdMkeyPack h₃).bind fun _ => ?_)
  unfold allocEvents
  cases s.eidSharedStride with
  | none => exact keeps_allocEventCommon h₄ h₅
  | some stride => exact keeps_allocEventShared h₄ h₅

theorem keeps_sbufInit (hr : Resource.lsbufDesc ∉ rs) (h : kind .lsbufDesc)
    (h₁ : kind (.memh false)) (h₂ : ∀ md, kind (.memReg false md)) :
    Keeps kind rs (sbufInit env fails) :=
  keeps_acquire_onFail h hr (keeps_scpMemReg h₁ h₂)

theorem keeps_createRbufDesc {dep : CommDep} :
    Keeps Call.Late rs (createRbufDesc fails dep) :=
  keeps_each fun _ _ => keeps_acquire trivial

theorem keeps_exchEpAddr {get : Bool} {ranks : List RankInfo} :
    Keeps Call.Late rs (exchEpAddr env fails get ranks) :=
  keeps_each fun _ _ => keeps_skipIf
    ((keeps_call trivial).bind fun _ => (keeps_call trivial).bind fun _ => keeps_call trivial)

theorem keeps_channelConnect {dep : CommDep} :
    Keeps Call.Late rs (channelConnect env fails dep) :=
  keeps_exchEpAddr.bind fun _ => keeps_exchEpAddr.bind fun _ =>
    (keeps_skipIf (keeps_call trivial)).bind fun _ =>
      keeps_each fun _ _ => keeps_skipIf (keeps_call trivial)

theorem keeps_exchAddrMsg {dep : CommDep} : Keeps Call.Late rs (exchAddrMsg fails dep) :=
  (keeps_each fun _ _ => keeps_call trivial).bind fun _ =>
    (keeps_each fun _ _ => keeps_call trivial).bind fun _ => keeps_skipIf (keeps_call trivial)

theorem keeps_mkeyUnpack {dep : CommDep} : Keeps Call.Late rs (mkeyUnpack fails dep) :=
  keeps_each fun _ _ => keeps_call trivial

theorem keeps_exchBufAddr {s : Shape} (hr : Resource.lrbufDesc ∉ rs)
    (hs : Resource.lsbufDesc ∉ rs) : Keeps Call.Late rs (exchBufAddr env fails s) := by
  refine (keeps_skipIf ?_).bind fun _ => (keeps_skipIf ?_).bind fun _ =>
    keeps_exchAddrMsg.bind fun _ => keeps_mkeyUnpack
  · exact keeps_rbufInit hr trivial trivial (fun _ => trivial) (fun _ => trivial) trivial
      fun _ _ => trivial
  · exact keeps_sbufInit hs trivial trivial fun _ => trivial

end Keeps

/-! ### The books of a failed initialisation -/

/-- The books when the operation alone is held. -/
def opOnly : Holdings Resource := ⟨[.op], false⟩

/-- A failure leaves the operation alone, or something else as well, as the call says. -/
def Fate (env : Env) (s : Shape) (c : Call) (l : Holdings Resource) : Prop :=
  (s.CleanAt env c ∧ l = opOnly) ∨ (¬s.CleanAt env c ∧ ∃ r, r ≠ .op ∧ l.Has [r, .op])

variable {env : Env} {fails : Call → Bool} {s : Shape}

/-- The books when the lists of ranks are held as well. -/
def withLists (dep : CommDep) : Holdings Resource :=
  ⟨(if dep.putRanks = [] then [] else [.putRanks]) ++
    (if dep.getRanks = [] then [] else [.getRanks]) ++ [.op], false⟩

theorem sat_acquire {c : Call} {r : Resource} {l : Holdings Resource}
    {P : Unit → Holdings Resource → Prop} {E : Call → Holdings Resource → Prop}
    (hP : P () ⟨r :: l.held, l.misused⟩) (hE : E c l) : Sat (acquire fails c r) l P E :=
  Sat.bind (P := fun _ l' => l' = l) (sat_call rfl fun _ => hE) fun _ l' hl => by
    rw [hl]
    exact sat_take hP

/-- The lists of ranks are allotted, or none of them is. -/
theorem sat_rankDepAlloc {dep : CommDep} : Sat (rankDepAlloc fails dep) opOnly
    (fun _ l => l = withLists dep)
    (fun c l => (c = .getRanks ∨ c = .putRanks) ∧ l = opOnly) := by
  refine Sat.bind
    (P := fun _ l => l = ⟨(if dep.getRanks = [] then [] else [.getRanks]) ++ [.op], false⟩)
    ?_ fun _ l hl => ?_
  · refine sat_skipIf (fun hget => ?_) fun hget => ?_
    · simp [hget, opOnly]
    · exact sat_acquire (by simp [hget, opOnly]) ⟨.inl rfl, rfl⟩
  · subst hl
    refine sat_skipIf (fun hput => ?_) fun hput => ?_
    · simp [withLists, hput]
    · refine Sat.onFail (fun c l => c = .putRanks ∧
        l = ⟨(if dep.getRanks = [] then [] else [.getRanks]) ++ [.op], false⟩)
        (sat_acquire (by simp [withLists, hput]) ⟨rfl, rfl⟩) ?_
      -- the list of get ranks is released, if there is one
      rintro c l ⟨rfl, rfl⟩
      refine ⟨.inr rfl, ?_⟩
      by_cases hget : dep.getRanks = []
      · rw [hget]
        rfl
      · unfold skipIf
        rw [if_neg hget, if_neg hget]
        rfl

/-- Releasing the lists leaves the operation. -/
theorem freeLists_withLists (dep : CommDep) : (freeLists dep (withLists dep)).2 = opOnly := by
  unfold freeLists withLists
  by_cases hget : dep.getRanks = [] <;> by_cases hput : dep.putRanks = []
  all_goals
    simp only [skipIf, if_pos, if_neg, hget, hput, not_false_iff]
    rfl

/-- With peers there is a list to hold. -/
theorem withLists_has (h : ¬s.NoPeers) :
    ∃ r, (r = .getRanks ∨ r = .putRanks) ∧ (withLists s.dep).Has [r, .op] := by
  by_cases hget : s.dep.getRanks = []
  · have hput : s.dep.putRanks ≠ [] := fun hput => h ⟨hget, hput⟩
    exact ⟨.putRanks, .inr rfl, rfl, by simp [withLists, hput]⟩
  · exact ⟨.getRanks, .inl rfl, rfl, by simp [withLists, hget]⟩

theorem withLists_noPeers (h : s.NoPeers) : withLists s.dep = opOnly := by
  simp [withLists, opOnly, h.1, h.2]

theorem Order.peers_noPeers {order : Order} (h : s.NoPeers) : order.peers s.dep = [] := by
  cases order <;> simp [peers, h.1, h.2]

theorem Fate.late {c : Call} {l : Holdings Resource} {r : Resource} (hpeers : ¬s.NoPeers)
    (hlate : c.Late) (hr : r ≠ .op) (h : l.Has [r, .op]) : Fate env s c l :=
  .inr ⟨s.not_cleanAt hpeers hlate, r, hr, h⟩

theorem sat_rankDepInit {peer : ℕ} {l : Holdings Resource} : Sat (rankDepInit env fails peer) l
    (fun _ l' => l' = l) (fun c l' => (c = .epCreate peer ∨ c = .putEpToPool peer) ∧ l' = l) := by
  refine sat_skipIf (fun _ => rfl) fun _ => ?_
  refine Sat.bind (P := fun _ l' => l' = l) (sat_call rfl fun _ => ⟨.inl rfl, rfl⟩) ?_
  rintro _ _ rfl
  exact sat_call rfl fun _ => ⟨.inr rfl, rfl⟩

/-- The plan: the lists stay when an entry cannot be initialised, unless the plan releases them. -/
theorem sat_offloadPlan :
    Sat (offloadPlan env fails s) opOnly (fun _ l => l = withLists s.dep) (Fate env s) := by
  refine Sat.bind (sat_rankDepAlloc.imp (fun _ _ hl => hl) ?_) fun _ l hl => ?_
  · rintro c l ⟨rfl | rfl, rfl⟩ <;> exact .inl ⟨trivial, rfl⟩
  subst hl
  refine Sat.onFail (fun c l => l = withLists s.dep ∧ ¬s.NoPeers ∧
    ∃ peer, c = .epCreate peer ∨ c = .putEpToPool peer) ?_ ?_
  · refine sat_each (fun l => l = withLists s.dep) (fun peer hpeer l hl => ?_) rfl
    refine sat_rankDepInit.imp (fun _ _ h => h.trans hl) fun c l' h => ?_
    refine ⟨h.2.trans hl, fun hno => ?_, peer, h.1⟩
    rw [Order.peers_noPeers hno] at hpeer
    exact List.not_mem_nil hpeer
  · rintro c l ⟨rfl, hpeers, peer, hc⟩
    have hclean : s.CleanAt env c ↔ s.freesLists = true := by rcases hc with rfl | rfl <;> rfl
    cases hfree : s.freesLists with
    | true => exact .inl ⟨hclean.mpr hfree, by simpa [skipIf] using freeLists_withLists s.dep⟩
    | false =>
      obtain ⟨r, hr, hhas⟩ := withLists_has hpeers
      refine .inr ⟨by simp [hclean, hfree], r, by rcases hr with rfl | rfl <;> simp, hhas⟩

/-- Behind the plan an operation with peers never gets rid of its lists. -/
theorem sat_exchange_of_peers (hpeers : ¬s.NoPeers) :
    Sat (preparePlan env fails s >>= fun _ => exchBufAddr env fails s) opOnly
      (fun _ l => l.Has [.op]) (Fate env s) := by
  obtain ⟨r, hr, hhas⟩ := withLists_has hpeers
  have hlist : r ≠ .op ∧ r ≠ .lrbufDesc ∧ r ≠ .lsbufDesc := by rcases hr with rfl | rfl <;> simp
  have hfate : ∀ (c : Call) (l : Holdings Resource), c.Late ∧ l.Has [r, .op] → Fate env s c l :=
    fun c l h => Fate.late hpeers h.1 hlist.1 h.2
  refine Sat.bind (P := fun _ l => l.Has [r, .op]) ?_ fun _ l hl => ?_
  · refine Sat.bind sat_offloadPlan fun _ l hl => ?_
    rw [hl]
    have hkeeps : Keeps Call.Late [r, .op]
        (createRbufDesc fails s.dep >>= fun _ => channelConnect env fails s.dep) :=
      keeps_createRbufDesc.bind fun _ => keeps_channelConnect
    exact (hkeeps _ hhas).imp (fun _ _ => id) hfate
  · have hkeeps : Keeps Call.Late [r, .op] (exchBufAddr env fails s) :=
      keeps_exchBufAddr (by simp [hlist.2.1.symm]) (by simp [hlist.2.2.symm])
    exact (hkeeps l hl).imp (fun _ _ h => h.mono (by simp)) hfate

/-! ### Without peers -/

theorem createRbufDesc_noPeers (h : s.NoPeers) (l : Holdings Resource) :
    createRbufDesc fails s.dep l = (.done (), l) := by
  unfold createRbufDesc
  rw [h.2]
  rfl

theorem channelConnect_noPeers (h : s.NoPeers) (l : Holdings Resource) :
    channelConnect env fails s.dep l = (.done (), l) := by
  unfold channelConnect
  rw [h.1, h.2]
  rfl

theorem exchAddrMsg_noPeers (h : s.NoPeers) (l : Holdings Resource) :
    exchAddrMsg fails s.dep l = (.done (), l) := by
  unfold exchAddrMsg
  rw [h.1, h.2]
  rfl

theorem mkeyUnpack_noPeers (h : s.NoPeers) (l : Holdings Resource) :
    mkeyUnpack fails s.dep l = (.done (), l) := by
  unfold mkeyUnpack
  rw [h.2]
  rfl

/-- The first memory domain is registered, unless there is none. -/
theorem sat_scpMemReg {recv : Bool} {l : Holdings Resource} {rs : List Resource} (h : l.Has rs) :
    Sat (scpMemReg env fails recv) l
      (fun _ l' => (env.numMds = 0 ∧ l' = l) ∨
        (env.numMds ≠ 0 ∧ l'.Has (.registration recv 0 :: rs)))
      fun c l' => ((c = .memh recv ∨ c = .memReg recv 0) ∧ l' = l) ∨
        ((∃ md, c = .memReg recv (md + 1)) ∧ l'.Has (.registration recv 0 :: rs)) := by
  unfold scpMemReg
  refine Sat.bind (P := fun _ l' => l' = l) (sat_call rfl fun _ => .inl ⟨.inl rfl, rfl⟩) ?_
  rintro _ _ rfl
  cases hn : env.numMds with
  | zero => exact .inl ⟨rfl, rfl⟩
  | succ n =>
    rw [List.range_succ_eq_map]
    refine Sat.bind (sat_acquire (P := fun _ l' => l'.Has (.registration recv 0 :: rs)) (h.take _)
      (.inl ⟨.inr rfl, rfl⟩)) fun _ l' hl' => ?_
    have hkeeps : Keeps (fun c => ∃ md, c = .memReg recv (md + 1)) (.registration recv 0 :: rs)
        (each ((List.range n).map Nat.succ) fun md =>
          acquire fails (.memReg recv md) (.registration recv md)) := by
      refine keeps_each fun md hmd => ?_
      obtain ⟨i, -, rfl⟩ := List.mem_map.mp hmd
      exact keeps_acquire ⟨i, rfl⟩
    exact (hkeeps l' hl').imp (fun _ _ hhas => .inr ⟨by simp, hhas⟩) fun c l'' hc => .inr hc

/-- A buffer with its descriptor: what fails before the first registration leaves the operation. -/
theorem sat_buffer {c : Call} {r : Resource} (recv : Bool) {m : Init} (hc : s.CleanAt env c)
    (hop : r ≠ .op) (hreg : r ≠ .registration recv 0)
    (hm : Sat m ⟨[r, .op], false⟩ (fun _ l => l.Has [r, .op])
      fun c l => (s.CleanAt env c ∧ l = ⟨[r, .op], false⟩) ∨
        (¬s.CleanAt env c ∧ l.Has [r, .registration recv 0, .op])) :
    Sat (acquire fails c r >>= fun _ => onFail m (give r)) opOnly (fun _ l => l.Has [r, .op])
      (Fate env s) := by
  refine Sat.bind (sat_acquire (P := fun _ l => l = ⟨[r, .op], false⟩) rfl (.inl ⟨hc, rfl⟩)) ?_
  rintro _ _ rfl
  refine Sat.onFail _ hm ?_
  rintro c l (⟨hclean, rfl⟩ | ⟨hclean, h⟩)
  · exact .inl ⟨hclean, by simp [give, opOnly]⟩
  · refine .inr ⟨hclean, .registration recv 0, by simp, h.give ?_⟩
    simp [hop, hreg]

/-- The books when a descriptor is held besides the operation. -/
theorem has_desc {r : Resource} : Holdings.Has ⟨[r, .op], false⟩ [r, .op] := ⟨rfl, by simp⟩

theorem has_swap {l : Holdings Resource} {r₁ r₂ r₃ : Resource} (h : l.Has [r₁, r₂, r₃]) :
    l.Has [r₂, r₁, r₃] := h.mono fun _ hx => by simp only [List.mem_cons] at hx ⊢; tauto

theorem has_tail {l : Holdings Resource} {r : Resource} {rs : List Resource} (h : l.Has (r :: rs)) :
    l.Has rs := h.mono fun _ hx => List.mem_cons_of_mem _ hx

/-- Without memory domains there are no keys. -/
theorem scpMdMkeyPack_noMds (h : env.numMds = 0) (l : Holdings Resource) :
    scpMdMkeyPack env fails l = (.done (), l) := by
  unfold scpMdMkeyPack
  rw [h]
  rfl

/-- Without peers there are no events. -/
theorem sat_allocEvents_noPeers (h : s.NoPeers) {l : Holdings Resource} :
    Sat (allocEvents env fails s) l (fun _ l' => l' = l) fun c l' => c = .eventElems ∧ l' = l := by
  unfold allocEvents
  cases s.eidSharedStride with
  | none =>
    unfold allocEventCommon
    rw [h.1]
    exact Sat.bind (P := fun _ l' => l' = l) (sat_call rfl fun _ => ⟨rfl, rfl⟩) fun _ _ hl => hl
  | some stride =>
    unfold allocEventShared
    rw [h.1]
    refine Sat.bind (P := fun _ l' => l' = l) (sat_call rfl fun _ => ⟨rfl, rfl⟩) fun _ _ hl => ?_
    exact Sat.bind (sat_each (fun l' => l' = l) (fun _ _ _ _ => sat_crash) hl)
      fun _ _ hl => hl

theorem sat_rbufInit_noPeers (h : s.NoPeers) :
    Sat (rbufInit env fails s) opOnly (fun _ l => l.Has [.lrbufDesc, .op]) (Fate env s) := by
  refine sat_buffer (c := .lrbufDesc) (r := .lrbufDesc) true h (by simp) (by simp) ?_
  refine Sat.bind ((sat_scpMemReg has_desc).imp (fun _ _ => id) ?_) fun _ l hl => ?_
  · rintro c l (⟨rfl | rfl, rfl⟩ | ⟨⟨md, rfl⟩, hhas⟩)
    · exact .inl ⟨h, rfl⟩
    · exact .inl ⟨h, rfl⟩
    · exact .inr ⟨id, has_swap hhas⟩
  rcases hl with ⟨hmds, rfl⟩ | ⟨hmds, hhas⟩
  · refine Sat.bind (P := fun _ l => l = ⟨[.lrbufDesc, .op], false⟩)
      (by simp [Sat, scpMdMkeyPack_noMds hmds]) ?_
    rintro _ _ rfl
    refine (sat_allocEvents_noPeers h).imp (fun _ _ hl => hl ▸ has_desc) ?_
    rintro c l ⟨rfl, rfl⟩
    exact .inl ⟨⟨h, hmds⟩, rfl⟩
  · have hkeeps : Keeps (fun c => ¬s.CleanAt env c) [.lrbufDesc, .registration true 0, .op]
        (scpMdMkeyPack env fails) := keeps_scpMdMkeyPack fun _ => id
    refine Sat.bind ((hkeeps l (has_swap hhas)).imp (fun _ _ => id) fun _ _ => .inr)
      fun _ l hl => ?_
    refine (sat_allocEvents_noPeers h).imp (fun _ _ hl' => hl' ▸ hl.mono (by simp)) ?_
    rintro c l' ⟨rfl, rfl⟩
    exact .inr ⟨fun hclean => hmds hclean.2, hl⟩

theorem sat_sbufInit_noPeers (h : s.NoPeers) (hr : s.rbuf = false) :
    Sat (sbufInit env fails) opOnly (fun _ l => l.Has [.op]) (Fate env s) := by
  refine (sat_buffer (c := .lsbufDesc) (r := .lsbufDesc) false ⟨h, hr⟩ (by simp)
    (by simp) ?_).imp (fun _ _ => has_tail) fun _ _ => id
  refine (sat_scpMemReg has_desc).imp (fun _ _ hl => ?_) ?_
  · rcases hl with ⟨-, rfl⟩ | ⟨-, hhas⟩
    · exact has_desc
    · exact has_tail hhas
  · rintro c l (⟨rfl | rfl, rfl⟩ | ⟨⟨md, rfl⟩, hhas⟩)
    · exact .inl ⟨⟨h, hr⟩, rfl⟩
    · exact .inl ⟨⟨h, hr⟩, rfl⟩
    · exact .inr ⟨id, has_swap hhas⟩

theorem sat_exchBufAddr_noPeers (h : s.NoPeers) :
    Sat (exchBufAddr env fails s) opOnly (fun _ l => l.Has [.op]) (Fate env s) := by
  unfold exchBufAddr
  refine Sat.bind (P := fun _ l => (s.rbuf = false ∧ l = opOnly) ∨
    (s.rbuf = true ∧ l.Has [.lrbufDesc, .op])) ?_ fun _ l hl => ?_
  · refine sat_skipIf (fun hr => .inl ⟨hr, rfl⟩) fun hr => ?_
    exact (sat_rbufInit_noPeers h).imp (fun _ _ hl => .inr ⟨by simpa using hr, hl⟩) fun _ _ => id
  refine Sat.bind (P := fun _ l => l.Has [.op]) ?_ fun _ l' hl' => ?_
  · rcases hl with ⟨hr, rfl⟩ | ⟨hr, hl⟩
    · exact sat_skipIf (fun _ => ⟨rfl, by simp [opOnly]⟩) fun _ => sat_sbufInit_noPeers h hr
    · -- the descriptor of the receive buffer stays when the send buffer fails
      have hrbuf : ¬(s.NoPeers ∧ s.rbuf = false) := fun hc => by simp [hr] at hc
      have hkeeps : Keeps (fun c => ¬s.CleanAt env c) [.lrbufDesc, .op] (sbufInit env fails) := by
        refine keeps_sbufInit (by simp) hrbuf hrbuf fun md => ?_
        cases md with
        | zero => exact hrbuf
        | succ md => exact id
      refine sat_skipIf (fun _ => has_tail hl) fun _ => ?_
      exact (hkeeps l hl).imp (fun _ _ => has_tail) fun c l hc => .inr ⟨hc.1, _, by simp, hc.2⟩
  · exact Sat.bind (P := fun _ l => l.Has [.op]) (by simpa [Sat, exchAddrMsg_noPeers h] using hl')
      fun _ l hl => by simpa [Sat, mkeyUnpack_noPeers h] using hl

/-! ### The whole initialisation -/

/-- When `init` fails, the operation is held, and nothing else if and only if the failure leaves
nothing behind. -/
theorem sat_init : Sat (init env fails s) opOnly (fun _ l => l.Has [.op]) (Fate env s) := by
  refine Sat.onFail (Fate env s) ?_ fun c l h => ?_
  · refine Sat.bind (P := fun _ l => l = opOnly) ?_ fun _ l hl => ?_
    · refine sat_each (fun l => l = opOnly) (fun k _ l hl => ?_) rfl
      subst hl
      exact sat_call rfl fun _ => .inl ⟨trivial, rfl⟩
    subst hl
    refine sat_skipIf (fun _ => ⟨rfl, by simp [opOnly]⟩) fun _ => ?_
    by_cases hpeers : s.NoPeers
    · refine Sat.bind (P := fun _ l => l = opOnly) ?_ ?_
      · refine Sat.bind sat_offloadPlan fun _ l hl => ?_
        rw [hl, withLists_noPeers hpeers]
        exact Sat.bind (P := fun _ l => l = opOnly) (by simp [Sat, createRbufDesc_noPeers hpeers])
          fun _ l hl => by simpa [Sat, channelConnect_noPeers hpeers] using hl
      · rintro _ _ rfl
        exact sat_exchBufAddr_noPeers hpeers
    · exact sat_exchange_of_peers hpeers
  · rcases h with ⟨hclean, rfl⟩ | ⟨hclean, r, hr, hhas⟩
    · exact .inl ⟨hclean, rfl⟩
    · rw [hhas.touch (by simp)]
      exact .inr ⟨hclean, r, hr, hhas⟩

/-- When the initialisation of an operation fails, everything is released, each resource once, if
and only if the failure leaves nothing behind. -/
theorem sat_prepare : Sat (prepare env fails s) Holdings.empty (fun _ l => l.Has [.op])
    fun c l => l.Clean ↔ s.CleanAt env c := by
  refine Sat.bind (sat_acquire (P := fun _ l => l = opOnly) rfl ⟨fun _ => trivial, fun _ => rfl⟩) ?_
  rintro _ _ rfl
  refine Sat.onFail (Fate env s) ?_ ?_
  · refine Sat.bind (P := fun _ l => l = opOnly) (sat_call rfl fun _ => .inl ⟨trivial, rfl⟩) ?_
    rintro _ _ rfl
    refine Sat.bind (P := fun _ l => l = opOnly) (sat_call rfl fun _ => .inl ⟨trivial, rfl⟩) ?_
    rintro _ _ rfl
    exact sat_init
  · rintro c l (⟨hclean, rfl⟩ | ⟨hclean, r, hr, hhas⟩)
    · exact ⟨fun _ => hclean, fun _ => rfl⟩
    · refine ⟨fun h => ?_, fun h => absurd h hclean⟩
      have hswap : l.Has [.op, r] := hhas.mono (by simp)
      have hheld := (hswap.give (C := Call) (by simpa using hr.symm)).held r (by simp)
      rw [h] at hheld
      exact absurd hheld List.not_mem_nil

end OpInit

end Kucg.Stars
