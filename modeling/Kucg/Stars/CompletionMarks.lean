import Mathlib.Data.List.Nodup
import Mathlib.Tactic
import Kucg.Stars.OfdRequest

/-! The completion marks of an offloaded request (`scp_submit_ofd_req`).

    A first pass notes for each lane the number of the last request that goes through it; a second
    pass marks the tasks of the requests with that number. The numbers have 8 bits, and lanes of
    different endpoints with the same number share their note, whatever their interfaces are; SDMA
    makes up to two tasks of a put, and marks the notification only. `marksOk_iff` says when
    each interface has its one mark on its last task, so that the result tells when all of them are
    done. -/

namespace Kucg.Stars

open Kucg.Core

namespace CompletionMarks

/-- A request goes through a lane: the number of the request, the lane, how many tasks it makes that
cannot be marked, and whether it makes one behind them that can. -/
structure LaneUse where
  number : ℕ
  src : ℕ
  plain : ℕ
  markable : Bool
  deriving DecidableEq

/-- The tasks, by their mark. -/
def LaneUse.flags (u : LaneUse) (marked : Bool) : List Bool :=
  List.replicate u.plain false ++ if u.markable then [marked] else []

/-- How the request with this number uses an interface. -/
def elemUses (worker : Worker) (idx number : ℕ) (elem : OfdReqElem) : List LaneUse :=
  if elem.isPut then
    (putLanes elem.ep elem.llen elem.ep.lanes.localLanes 0).filterMap fun lane =>
      if elem.ep.iface lane.1 = idx then
        some ⟨number, lane.1, if worker.isSdma idx ∧ 0 < lane.2 then 1 else 0,
          !(worker.isSdma idx && elem.unnotify)⟩
      else none
  else
    (scpEpWaitNotify elem.ep.lanes).filterMap fun lane =>
      if elem.ep.iface lane.1 = idx then some ⟨number, lane.1, 0, true⟩ else none

/-- How requests numbered from `i` on use an interface. -/
def uses (worker : Worker) (idx : ℕ) : List OfdReqElem → ℕ → List LaneUse
  | [], _ => []
  | elem :: rest, i => elemUses worker idx i elem ++ uses worker idx rest (i + 1)

/-- The number of the last request that goes through a lane with this number, of any endpoint. -/
def lastNumber (src : ℕ) : List OfdReqElem → ℕ → Option ℕ
  | [], _ => none
  | elem :: rest, i =>
    (lastNumber src rest (i + 1)).or (if src ∈ scpPutWithNotify elem.ep.lanes then some i else none)

/-- The last byte of the number of the request is that of the last one through its lane. -/
def LastByte (reqs : List OfdReqElem) (u : LaneUse) : Prop :=
  ∃ k, lastNumber u.src reqs 0 = some k ∧ u.number % 2 ^ 8 = k % 2 ^ 8

/-- The tasks that a submit makes: the interface and the mark of each. -/
def submitTasks (worker : Worker) (req : OfdReq) : List (ℕ × Bool) :=
  let numbered := getReqFlags (req.queueHead.map fun elem =>
    if some elem.address = req.lastReqElem then
      { elem with flag := true } else elem) 0 req.flagArray
  numbered.1.flatMap (OfdReqElem.tasks worker numbered.2)

/-- The marks of the tasks of an interface. -/
def flagsOf (worker : Worker) (req : OfdReq) (idx : ℕ) : List Bool :=
  ((submitTasks worker req).filter fun task => task.1 = idx).map Prod.snd

/-- `cqe_cnt` of an interface. -/
def cqeCnt (worker : Worker) (req : OfdReq) (idx : ℕ) : ℕ :=
  ((submitTasks worker req).countP fun task => task.1 = idx ∧ task.2) % 2 ^ 16

/-- The last task is marked and no other one. -/
def Marked (flags : List Bool) : Prop := ∃ n, flags = List.replicate n false ++ [true]

/-- In each round of an operation with these requests, each interface with tasks has its mark, and
expects it; and the submit succeeds if its calls do, with a result that is `UCG_OK` if and only if
the interfaces with tasks have called back. -/
structure MarksOk (worker : Worker) (reports : Bool) (reqs : List OfdReqElem) : Prop where
  marks : ∀ op : StarsOp, op.Reachable worker reports (some reqs) → op.status = .ok →
    ∀ idx, flagsOf worker (op.pushed reqs).ofdReq idx ≠ [] →
      Marked (flagsOf worker (op.pushed reqs).ofdReq idx)
  expected : ∀ op : StarsOp, op.Reachable worker reports (some reqs) → op.status = .ok →
    ∀ idx, flagsOf worker (op.pushed reqs).ofdReq idx ≠ [] →
      0 < cqeCnt worker (op.pushed reqs).ofdReq idx ∧
      cqeCnt worker (op.pushed reqs).ofdReq idx =
        (flagsOf worker (op.pushed reqs).ofdReq idx).count true
  completes : ∀ op : StarsOp, op.Reachable worker reports (some reqs) → op.status = .ok →
    ∃ op', op.trigger worker reports (some reqs) SubmitEnv.success = some (op', .ok) ∧
      ∀ called, (op'.drained called).ofdReq.result = .ok ↔
        ∀ idx, flagsOf worker (op.pushed reqs).ofdReq idx ≠ [] → idx ∈ called

/-- The last request that makes tasks for the interface ends with one that can be marked, and has
the last byte of the last one through its lane, and no request before it makes a task that can be
marked and has. -/
def EndsMarked (reqs : List OfdReqElem) (us : List LaneUse) : Prop :=
  ∃ pre u post, us = pre ++ u :: post ∧ (u.markable = true ∧ LastByte reqs u) ∧
    (∀ v ∈ pre, ¬(v.markable = true ∧ LastByte reqs v)) ∧
    ∀ v ∈ post, v.plain = 0 ∧ v.markable = false

/-- Some interface has tasks, and each one that has ends with its mark, and has a number of tasks
that 16 bits do not count as none. -/
structure MarksFit (worker : Worker) (reqs : List OfdReqElem) : Prop where
  busy : ∃ idx, roundTasks worker reqs idx ≠ 0
  marked : ∀ idx, roundTasks worker reqs idx ≠ 0 → EndsMarked reqs (uses worker idx reqs 0)
  counted : ∀ idx, roundTasks worker reqs idx ≠ 0 → roundTasks worker reqs idx % 2 ^ 16 ≠ 0

/-! ### Marks -/

section Marks

theorem not_marked_nil : ¬Marked [] := by
  rintro ⟨n, h⟩
  exact absurd h.symm (by simp)

theorem marked_false_cons {flags : List Bool} : Marked (false :: flags) ↔ Marked flags := by
  constructor
  · rintro ⟨_ | n, h⟩
    · simp at h
    · exact ⟨n, by simpa [List.replicate_succ] using h⟩
  · rintro ⟨n, rfl⟩
    exact ⟨n + 1, by simp [List.replicate_succ]⟩

theorem marked_true_cons {flags : List Bool} : Marked (true :: flags) ↔ flags = [] := by
  constructor
  · rintro ⟨_ | n, h⟩
    · simpa using h
    · simp [List.replicate_succ] at h
  · rintro rfl
    exact ⟨0, rfl⟩

theorem marked_replicate_append (n : ℕ) {flags : List Bool} :
    Marked (List.replicate n false ++ flags) ↔ Marked flags := by
  induction n with
  | zero => simp
  | succ n ih => rw [List.replicate_succ, List.cons_append, marked_false_cons, ih]

/-- Without a mark, there are only unmarked tasks. -/
theorem flags_false (u : LaneUse) : ∃ n, u.flags false = List.replicate n false := by
  rcases hm : u.markable with _ | _
  · exact ⟨u.plain, by simp [LaneUse.flags, hm]⟩
  · exact ⟨u.plain + 1, by simp [LaneUse.flags, hm, List.replicate_succ']⟩

theorem flags_eq_nil_iff {u : LaneUse} {marked : Bool} :
    u.flags marked = [] ↔ u.plain = 0 ∧ u.markable = false := by
  rw [LaneUse.flags, List.append_eq_nil_iff, List.replicate_eq_nil_iff]
  cases u.markable <;> simp

/-- The tasks of an interface end with their only mark exactly when one of its uses carries a mark,
none before it does, and none behind it makes a task. -/
theorem marked_flatMap_iff (marked : LaneUse → Bool) : ∀ us : List LaneUse,
    Marked (us.flatMap fun u => u.flags (marked u)) ↔
      ∃ pre u post, us = pre ++ u :: post ∧ (u.markable = true ∧ marked u = true) ∧
        (∀ v ∈ pre, ¬(v.markable = true ∧ marked v = true)) ∧
        ∀ v ∈ post, v.plain = 0 ∧ v.markable = false
  | [] => by simp [not_marked_nil]
  | v :: rest => by
    rw [List.flatMap_cons]
    by_cases hv : v.markable = true ∧ marked v = true
    · -- the mark is here, and nothing may follow
      have hflags : v.flags (marked v) = List.replicate v.plain false ++ [true] := by
        simp [LaneUse.flags, hv.1, hv.2]
      rw [hflags, List.append_assoc, marked_replicate_append, List.singleton_append,
        marked_true_cons, List.flatMap_eq_nil_iff]
      constructor
      · exact fun h => ⟨[], v, rest, rfl, hv, by simp, fun w hw => flags_eq_nil_iff.mp (h w hw)⟩
      · rintro ⟨_ | ⟨w, pre⟩, u, post, heq, -, hpre, hpost⟩
        · obtain ⟨rfl, rfl⟩ := List.cons.inj heq
          exact fun w hw => flags_eq_nil_iff.mpr (hpost w hw)
        · obtain ⟨rfl, -⟩ := List.cons.inj heq
          exact absurd hv (hpre v List.mem_cons_self)
    · have hflags : ∃ n, v.flags (marked v) = List.replicate n false := by
        rcases hm : v.markable with _ | _
        · exact ⟨v.plain, by simp [LaneUse.flags, hm]⟩
        · have hfalse : marked v = false := by
            rw [← Bool.not_eq_true]
            exact fun h => hv ⟨hm, h⟩
          rw [hfalse]
          exact flags_false v
      obtain ⟨n, hflags⟩ := hflags
      rw [hflags, marked_replicate_append, marked_flatMap_iff marked rest]
      constructor
      · rintro ⟨pre, u, post, rfl, hu, hpre, hpost⟩
        exact ⟨v :: pre, u, post, rfl, hu, List.forall_mem_cons.mpr ⟨hv, hpre⟩, hpost⟩
      · rintro ⟨_ | ⟨w, pre⟩, u, post, heq, hu, hpre, hpost⟩
        · obtain ⟨rfl, rfl⟩ := List.cons.inj heq
          exact absurd hu hv
        · obtain ⟨rfl, rfl⟩ := List.cons.inj heq
          exact ⟨pre, u, post, rfl, hu, (List.forall_mem_cons.mp hpre).2, hpost⟩

theorem Marked.count {flags : List Bool} (h : Marked flags) : flags.count true = 1 := by
  obtain ⟨n, rfl⟩ := h
  simp [List.count_append, List.count_replicate]

end Marks

/-! ### The tasks of a round -/

section Tasks

variable {worker : Worker} {reqs : List OfdReqElem} {idx src : ℕ}

/-- The requests with their numbers. -/
def numbered : List OfdReqElem → ℕ → List OfdReqElem
  | [], _ => []
  | elem :: rest, i => { elem with idx := i % 2 ^ 8 } :: numbered rest (i + 1)

theorem getReqFlags_fst : ∀ (reqs : List OfdReqElem) (i : ℕ) (flagArray : ℕ → ℕ),
    (getReqFlags reqs i flagArray).1 = numbered reqs i
  | [], _, _ => rfl
  | elem :: rest, i, flagArray => by
    rw [getReqFlags, numbered]
    exact congrArg _ (getReqFlags_fst rest (i + 1) _)

theorem foldl_update : ∀ (lanes : List ℕ) (value : ℕ) (flagArray : ℕ → ℕ),
    lanes.foldl (fun flagArray src => Function.update flagArray src value) flagArray src =
      if src ∈ lanes then value else flagArray src
  | [], _, _ => by simp
  | lane :: lanes, value, flagArray => by
    rw [List.foldl_cons, foldl_update lanes]
    by_cases hmem : src ∈ lanes
    · simp [hmem]
    · by_cases hlane : src = lane
      · simp [hlane]
      · simp [hmem, hlane]

/-- After the first pass, a lane has the number of the last request through it. -/
theorem getReqFlags_snd : ∀ (reqs : List OfdReqElem) (i : ℕ) (flagArray : ℕ → ℕ),
    (getReqFlags reqs i flagArray).2 src =
      ((lastNumber src reqs i).map fun k => k % 2 ^ 8).getD (flagArray src)
  | [], _, _ => rfl
  | elem :: rest, i, flagArray => by
    rw [getReqFlags, lastNumber]
    dsimp only
    rw [getReqFlags_snd rest, foldl_update]
    cases lastNumber src rest (i + 1) with
    | some k => simp
    | none => split_ifs <;> simp

theorem putLanes_src (ep : Endpoint) (llen : ℕ) : ∀ (lanes : List ℕ) (offset : ℕ),
    ∀ lane ∈ putLanes ep llen lanes offset, lane.1 ∈ lanes ∧
      ep.lanes.remoteLanes lane.1 < scpMaxLane
  | [], _ => by simp [putLanes]
  | src :: rest, offset => by
    intro lane hlane
    rw [putLanes] at hlane
    by_cases hmax : ep.lanes.remoteLanes src ≥ scpMaxLane
    · rw [if_pos hmax] at hlane
      obtain ⟨hmem, hlt⟩ := putLanes_src ep llen rest offset lane hlane
      exact ⟨List.mem_cons_of_mem _ hmem, hlt⟩
    · rw [if_neg hmax] at hlane
      rcases List.mem_cons.mp hlane with rfl | hlane
      · exact ⟨List.mem_cons_self, not_le.mp hmax⟩
      · obtain ⟨hmem, hlt⟩ := putLanes_src ep llen rest _ lane hlane
        exact ⟨List.mem_cons_of_mem _ hmem, hlt⟩

theorem mem_putWithNotify {lanes : ScpLanes} (hsrc : src ∈ lanes.localLanes)
    (hlt : lanes.remoteLanes src < scpMaxLane) : src ∈ scpPutWithNotify lanes :=
  List.mem_filterMap.mpr ⟨src, hsrc, if_neg (not_le.mpr hlt)⟩

theorem waitNotify_src {lanes : ScpLanes} {lane : ℕ × ℕ} (h : lane ∈ scpEpWaitNotify lanes) :
    lane.1 ∈ scpPutWithNotify lanes := by
  obtain ⟨s, hs, hlane⟩ := List.mem_filterMap.mp h
  split_ifs at hlane with hmax
  obtain rfl := Option.some.inj hlane
  exact mem_putWithNotify hs (not_le.mp hmax)

/-- A request uses an interface through its connected lanes. -/
theorem elemUses_src {number : ℕ} {elem : OfdReqElem} {u : LaneUse}
    (h : u ∈ elemUses worker idx number elem) :
    u.src ∈ scpPutWithNotify elem.ep.lanes ∧ elem.ep.iface u.src = idx := by
  rw [elemUses] at h
  split_ifs at h
  · obtain ⟨lane, hlane, hu⟩ := List.mem_filterMap.mp h
    by_cases hidx : elem.ep.iface lane.1 = idx
    · rw [if_pos hidx] at hu
      obtain rfl := Option.some.inj hu
      obtain ⟨hmem, hlt⟩ := putLanes_src _ _ _ _ lane hlane
      exact ⟨mem_putWithNotify hmem hlt, hidx⟩
    · rw [if_neg hidx] at hu
      exact absurd hu (by simp)
  · obtain ⟨lane, hlane, hu⟩ := List.mem_filterMap.mp h
    split_ifs at hu with hidx
    obtain rfl := Option.some.inj hu
    exact ⟨waitNotify_src hlane, hidx⟩

theorem exists_elem_of_uses : ∀ {reqs : List OfdReqElem} {i : ℕ} {u : LaneUse},
    u ∈ uses worker idx reqs i → ∃ elem ∈ reqs,
      u.src ∈ scpPutWithNotify elem.ep.lanes ∧ elem.ep.iface u.src = idx
  | elem :: rest, i, u, h => by
    rcases List.mem_append.mp h with h | h
    · exact ⟨elem, List.mem_cons_self, elemUses_src h⟩
    · obtain ⟨e, he, hu⟩ := exists_elem_of_uses h
      exact ⟨e, List.mem_cons_of_mem _ he, hu⟩

theorem lastNumber_uses : ∀ {reqs : List OfdReqElem} {i : ℕ} {u : LaneUse},
    u ∈ uses worker idx reqs i → ∃ k, lastNumber u.src reqs i = some k
  | elem :: rest, i, u, h => by
    rw [lastNumber]
    rcases List.mem_append.mp h with h | h
    · rw [if_pos (elemUses_src h).1]
      cases lastNumber u.src rest (i + 1) with
      | some k => exact ⟨k, rfl⟩
      | none => exact ⟨i, rfl⟩
    · obtain ⟨k, hk⟩ := lastNumber_uses h
      exact ⟨k, by rw [hk]; rfl⟩

/-- The marks of the tasks of lanes, those of an interface. -/
theorem filter_laneTasks {β : Type} (iface : β → ℕ) (flags : β → List Bool) (use : β → LaneUse)
    (marked : LaneUse → Bool) : ∀ lanes : List β,
    (∀ lane ∈ lanes, iface lane = idx → flags lane = (use lane).flags (marked (use lane))) →
    (((lanes.flatMap fun lane => (flags lane).map fun flag => (iface lane, flag)).filter
      fun task => task.1 = idx).map Prod.snd) =
      (lanes.filterMap fun lane => if iface lane = idx then some (use lane) else none).flatMap
        fun u => u.flags (marked u)
  | [], _ => rfl
  | lane :: lanes, h => by
    obtain ⟨hlane, hrest⟩ := List.forall_mem_cons.mp h
    have ih := filter_laneTasks iface flags use marked lanes hrest
    rw [List.flatMap_cons, List.filter_append, List.map_append, ih]
    by_cases hidx : iface lane = idx
    · have hall : ((flags lane).map fun flag => (iface lane, flag)).filter
          (fun task => task.1 = idx) = (flags lane).map fun flag => (iface lane, flag) :=
        List.filter_eq_self.mpr fun task htask => by
          obtain ⟨flag, -, rfl⟩ := List.mem_map.mp htask
          simpa using hidx
      simp only [hall, List.filterMap_cons, if_pos hidx, List.flatMap_cons, ← hlane hidx,
        List.map_map, Function.comp_def, List.map_id']
    · have hnone : ((flags lane).map fun flag => (iface lane, flag)).filter
          (fun task => task.1 = idx) = [] :=
        List.filter_eq_nil_iff.mpr fun task htask => by
          obtain ⟨flag, -, rfl⟩ := List.mem_map.mp htask
          simpa using hidx
      simp only [hnone, List.filterMap_cons, if_neg hidx, List.map_nil, List.nil_append]

theorem flags_put {isSdma unnotify marked : Bool} {length number : ℕ} :
    sctEpPutWithNotify isSdma length unnotify marked =
      LaneUse.flags ⟨number, src, if isSdma ∧ 0 < length then 1 else 0, !(isSdma && unnotify)⟩
        marked := by
  rcases isSdma with _ | _
  · rfl
  · by_cases hlen : 0 < length
    · cases unnotify <;> simp [sctEpPutWithNotify, LaneUse.flags, hlen]
    · cases unnotify <;> simp [sctEpPutWithNotify, LaneUse.flags, hlen]

/-- The marks of one request. -/
theorem filter_elemTasks (flagArray : ℕ → ℕ) (number : ℕ) (elem : OfdReqElem) :
    (((OfdReqElem.tasks worker flagArray { elem with idx := number % 2 ^ 8 }).filter
      fun task => task.1 = idx).map Prod.snd) =
      (elemUses worker idx number elem).flatMap fun u =>
        u.flags (flagArray u.src = u.number % 2 ^ 8) := by
  rw [OfdReqElem.tasks, elemUses]
  by_cases hput : elem.isPut = true
  · simp only [if_pos hput]
    refine filter_laneTasks (fun lane : ℕ × ℕ => elem.ep.iface lane.1) _ _
      (fun u => decide (flagArray u.src = u.number % 2 ^ 8)) _ fun lane _ hidx => ?_
    rw [hidx]
    exact flags_put
  · simp only [if_neg hput]
    have hsingle : (scpEpWaitNotify elem.ep.lanes).map (fun lane =>
          (elem.ep.iface lane.1, decide (flagArray lane.1 = number % 2 ^ 8))) =
        (scpEpWaitNotify elem.ep.lanes).flatMap fun lane =>
          [decide (flagArray lane.1 = number % 2 ^ 8)].map fun flag =>
            (elem.ep.iface lane.1, flag) := by
      simp only [List.map_cons, List.map_nil]
      exact List.map_eq_flatMap
    rw [hsingle]
    exact filter_laneTasks (fun lane : ℕ × ℕ => elem.ep.iface lane.1) _
      (fun lane => ⟨number, lane.1, 0, true⟩)
      (fun u => decide (flagArray u.src = u.number % 2 ^ 8)) _ fun lane _ _ => rfl

theorem filter_numberedTasks (flagArray : ℕ → ℕ) : ∀ (reqs : List OfdReqElem) (i : ℕ),
    ((((numbered reqs i).flatMap (OfdReqElem.tasks worker flagArray)).filter
      fun task => task.1 = idx).map Prod.snd) =
      (uses worker idx reqs i).flatMap fun u => u.flags (flagArray u.src = u.number % 2 ^ 8)
  | [], _ => rfl
  | elem :: rest, i => by
    rw [numbered, List.flatMap_cons, List.filter_append, List.map_append, uses, List.flatMap_append,
      filter_numberedTasks flagArray rest, filter_elemTasks]

end Tasks

/-! ### The marks of a round -/

section Round

variable {worker : Worker} {reports : Bool} {reqs : List OfdReqElem} {op op' : StarsOp} {idx : ℕ}

/-- The requests of a round as they are queued: with addresses, and the last one flagged. -/
def queued (k : ℕ) (last : Option ℕ) (reqs : List OfdReqElem) : List OfdReqElem :=
  (addressed k reqs).map fun elem =>
    if some elem.address = last then { elem with flag := true } else elem

theorem queued_cons (k : ℕ) (last : Option ℕ) (elem : OfdReqElem) (rest : List OfdReqElem) :
    ∃ address flag, queued k last (elem :: rest) =
      { elem with address := address, flag := flag } :: queued (k + 1) last rest := by
  rw [queued, addressed, List.map_cons]
  by_cases h : some k = last
  · exact ⟨k, true, by rw [if_pos h]; rfl⟩
  · exact ⟨k, elem.flag, by rw [if_neg h]; rfl⟩

/-- Queueing leaves the uses of the interfaces as they are. -/
theorem uses_queued (last : Option ℕ) : ∀ (k i : ℕ) (reqs : List OfdReqElem),
    uses worker idx (queued k last reqs) i = uses worker idx reqs i
  | _, _, [] => rfl
  | k, i, elem :: rest => by
    obtain ⟨address, flag, hq⟩ := queued_cons k last elem rest
    rw [hq, uses, uses, uses_queued last]
    rfl

theorem lastNumber_queued {src : ℕ} (last : Option ℕ) : ∀ (k i : ℕ) (reqs : List OfdReqElem),
    lastNumber src (queued k last reqs) i = lastNumber src reqs i
  | _, _, [] => rfl
  | k, i, elem :: rest => by
    obtain ⟨address, flag, hq⟩ := queued_cons k last elem rest
    rw [hq, lastNumber, lastNumber, lastNumber_queued last]

variable (worker reqs idx) in
/-- The marks of a round: a use carries its mark if it has the last byte of the last request through
its lane. -/
theorem flagsOf_pushed (hok : op.Ok) (hidle : op.status = .ok) : ∃ marked : LaneUse → Bool,
    (∀ u ∈ uses worker idx reqs 0, marked u = true ↔ LastByte reqs u) ∧
      flagsOf worker (op.pushed reqs).ofdReq idx =
        (uses worker idx reqs 0).flatMap fun u => u.flags (marked u) := by
  have hqueue : (op.pushed reqs).ofdReq.queueHead = addressed op.taken reqs := by
    rw [pushed_ofdReq, (hok.idle hidle).1]
    rfl
  rw [flagsOf, submitTasks, hqueue]
  change ∃ marked : LaneUse → Bool, _ ∧ (((getReqFlags (queued op.taken _ reqs) 0 _).1.flatMap
    (OfdReqElem.tasks worker (getReqFlags (queued op.taken _ reqs) 0 _).2)).filter _).map _ = _
  rw [getReqFlags_fst, filter_numberedTasks, uses_queued]
  refine ⟨_, fun u hu => ?_, rfl⟩
  obtain ⟨k, hk⟩ := lastNumber_uses hu
  rw [decide_eq_true_eq, getReqFlags_snd, lastNumber_queued, hk, LastByte, hk]
  simp [eq_comm]

/-- The tasks of an interface, counted. -/
theorem countP_submitTasks (req : OfdReq) : ((submitTasks worker req).countP
    fun task => task.1 = idx) = roundTasks worker req.queueHead idx := by
  rw [submitTasks, countP_roundTasks, roundTasks_getReqFlags, roundTasks, roundTasks, List.map_map]
  congr 1
  refine List.map_congr_left fun elem _ => ?_
  rw [Function.comp_apply]
  split_ifs <;> rfl

theorem length_flagsOf (req : OfdReq) : (flagsOf worker req idx).length =
    roundTasks worker req.queueHead idx := by
  rw [flagsOf, List.length_map, ← List.countP_eq_length_filter, countP_submitTasks]

variable (worker reqs idx) in
/-- An interface has tasks when its requests make some. -/
theorem flagsOf_ne_nil_iff (hok : op.Ok) (hidle : op.status = .ok) :
    flagsOf worker (op.pushed reqs).ofdReq idx ≠ [] ↔ roundTasks worker reqs idx ≠ 0 := by
  rw [ne_eq, ← List.length_eq_zero_iff, length_flagsOf, pushed_ofdReq, (hok.idle hidle).1]
  dsimp only [scpInitOfdReq]
  rw [List.nil_append, roundTasks_addressed]

theorem marked_flagsOf_iff (hok : op.Ok) (hidle : op.status = .ok) :
    Marked (flagsOf worker (op.pushed reqs).ofdReq idx) ↔
      EndsMarked reqs (uses worker idx reqs 0) := by
  obtain ⟨marked, hmarked, heq⟩ := flagsOf_pushed worker reqs idx hok hidle
  rw [heq, marked_flatMap_iff, EndsMarked]
  constructor
  · rintro ⟨pre, u, post, hus, ⟨hmark, hu⟩, hpre, hpost⟩
    rw [hus] at hmarked
    refine ⟨pre, u, post, hus, ⟨hmark, (hmarked u (by simp)).mp hu⟩, fun v hv hbad => ?_, hpost⟩
    exact hpre v hv ⟨hbad.1, (hmarked v (by simp [hv])).mpr hbad.2⟩
  · rintro ⟨pre, u, post, hus, ⟨hmark, hu⟩, hpre, hpost⟩
    rw [hus] at hmarked
    refine ⟨pre, u, post, hus, ⟨hmark, (hmarked u (by simp)).mpr hu⟩, fun v hv hbad => ?_, hpost⟩
    exact hpre v hv ⟨hbad.1, (hmarked v (by simp [hv])).mp hbad.2⟩

/-- With its mark on the last task, an interface expects one completion. -/
theorem cqeCnt_of_marked {req : OfdReq} (h : Marked (flagsOf worker req idx)) :
    cqeCnt worker req idx = 1 ∧ (flagsOf worker req idx).count true = 1 := by
  have hcount := h.count
  refine ⟨?_, hcount⟩
  have heq : (submitTasks worker req).countP (fun task => task.1 = idx ∧ task.2) =
      (flagsOf worker req idx).count true := by
    rw [flagsOf, List.count, List.countP_map, List.countP_filter]
    refine List.countP_congr fun task _ => ?_
    simp [and_comm]
  rw [cqeCnt, heq, hcount]
  rfl

end Round

/-! ### The result -/

section Result

variable {worker : Worker} {reports : Bool} {reqs : List OfdReqElem} {op op' : StarsOp} {idx : ℕ}

/-- While interfaces call back, the result is `UCG_OK` as soon as all of them have. -/
theorem drained_result : ∀ {called : List ℕ} {op : StarsOp}, op.Ok → op.status = .inprogress →
    op.outstanding.Nodup → ((op.drained called).ofdReq.result = .ok ↔
      (∀ idx ∈ op.outstanding, idx ∈ called) ∧ 0 < op.ofdReq.submitElemCnt)
  | [], op, hok, hstatus, _ => by
    obtain ⟨-, -, -, hresult⟩ := hok.busy hstatus
    rw [StarsOp.drained, List.foldl_nil, hresult]
    by_cases h : op.outstanding = [] ∧ 0 < op.ofdReq.submitElemCnt
    · rw [if_pos h]
      simp [h.1, h.2]
    · rw [if_neg h]
      refine ⟨fun hne => absurd hne (by simp), fun hall => absurd ⟨?_, hall.2⟩ h⟩
      exact List.eq_nil_iff_forall_not_mem.mpr fun idx hidx => by simpa using hall.1 idx hidx
  | idx :: called, op, hok, hstatus, hnodup => by
    rw [StarsOp.drained, List.foldl_cons, ← StarsOp.drained]
    by_cases hmem : idx ∈ op.outstanding
    · have hcall : op.callback idx = { op with
          ofdReq := scpSubmitOfdHander op.ofdReq .ok
          outstanding := op.outstanding.erase idx } := if_pos hmem
      have hcnt : (op.callback idx).ofdReq.submitElemCnt = op.ofdReq.submitElemCnt := by
        rw [hcall, scpSubmitOfdHander, if_neg (by simp)]
      have hout : (op.callback idx).outstanding = op.outstanding.erase idx := by rw [hcall]
      rw [drained_result (hok.callback idx) (by rw [hcall]; exact hstatus)
        (by rw [hout]; exact hnodup.erase idx), hcnt, hout]
      refine and_congr_left fun _ => ⟨fun h i hi => ?_, fun h i hi => ?_⟩
      · by_cases hii : i = idx
        · exact List.mem_cons.mpr (.inl hii)
        · exact List.mem_cons_of_mem _ (h i ((List.mem_erase_of_ne hii).mpr hi))
      · obtain ⟨hne, hi⟩ := hnodup.mem_erase_iff.mp hi
        exact (List.mem_cons.mp (h i hi)).resolve_left hne
    · have hcall : op.callback idx = op := if_neg hmem
      rw [hcall, drained_result hok hstatus hnodup]
      refine and_congr_left fun _ => ⟨fun h i hi => List.mem_cons_of_mem _ (h i hi),
        fun h i hi => ?_⟩
      exact (List.mem_cons.mp (h i hi)).resolve_left fun hii => hmem (hii ▸ hi)

/-- If each interface with tasks expects a completion, the loop over the interfaces gets to its
end. -/
theorem submitIfaces_success (tasks : List (ℕ × Bool)) : ∀ idxs submitted : List ℕ,
    (∀ idx ∈ idxs, (tasks.countP fun task => task.1 = idx) % 2 ^ 16 ≠ 0 →
      (tasks.countP fun task => task.1 = idx ∧ task.2) % 2 ^ 16 ≠ 0) →
    (submitIfaces SubmitEnv.success tasks idxs submitted).2 = .ok
  | [], _, _ => rfl
  | idx :: rest, submitted, h => by
    obtain ⟨hidx, hrest⟩ := List.forall_mem_cons.mp h
    rw [submitIfaces]
    by_cases hzero : (tasks.countP fun task => task.1 = idx) % 2 ^ 16 = 0
    · rw [if_pos hzero]
      exact submitIfaces_success tasks rest _ hrest
    · rw [if_neg hzero, if_neg (hidx hzero), if_neg (by simp [SubmitEnv.success]),
        if_neg (by simp [SubmitEnv.success, Outcome.success])]
      exact submitIfaces_success tasks rest _ hrest

variable (reports) in
/-- Such a submit succeeds if its calls do. -/
theorem exists_trigger (hok : op.Ok) (hidle : op.status = .ok) (hreqs : reqs ≠ [])
    (h : ∀ idx, roundTasks worker reqs idx ≠ 0 →
      0 < cqeCnt worker (op.pushed reqs).ofdReq idx) :
    ∃ op', op.trigger worker reports (some reqs) SubmitEnv.success = some (op', .ok) := by
  have hlast : (op.pushed reqs).ofdReq.lastReqElem = some (op.taken + reqs.length - 1) := by
    rw [pushed_ofdReq]
    exact if_neg hreqs
  have hcount (idx : ℕ) : ((submitTasks worker (op.pushed reqs).ofdReq).countP
      fun task => task.1 = idx) = roundTasks worker reqs idx := by
    rw [countP_submitTasks, pushed_ofdReq, (hok.idle hidle).1]
    dsimp only [scpInitOfdReq]
    rw [List.nil_append, roundTasks_addressed]
  have hsub := submitIfaces_success (submitTasks worker (op.pushed reqs).ofdReq)
    (List.range worker.numIfaces) [] fun idx _ hne => by
      rw [hcount] at hne
      have hpos := h idx fun hzero => hne (by rw [hzero]; rfl)
      exact hpos.ne'
  rw [submitTasks, hlast] at hsub
  simp only [Option.some.injEq] at hsub
  rw [StarsOp.trigger]
  dsimp only
  rw [scpSubmitOfdReq, hlast, Option.map_some]
  dsimp only
  rw [if_neg (by simp [SubmitEnv.success, Outcome.success]), if_neg (by simp [putStatus_success]),
    hsub]
  exact ⟨_, rfl⟩

/-- The lanes of the requests belong to interfaces of the worker. -/
def OfWorker (worker : Worker) (reqs : List OfdReqElem) : Prop :=
  ∀ elem ∈ reqs, ∀ src ∈ scpPutWithNotify elem.ep.lanes, elem.ep.iface src < worker.numIfaces

instance : Decidable (OfWorker worker reqs) :=
  inferInstanceAs (Decidable (∀ elem ∈ reqs, ∀ src ∈ scpPutWithNotify elem.ep.lanes,
    elem.ep.iface src < worker.numIfaces))

theorem lt_of_roundTasks (hiface : OfWorker worker reqs) (h : roundTasks worker reqs idx ≠ 0) :
    idx < worker.numIfaces := by
  obtain ⟨marked, -, heq⟩ := flagsOf_pushed worker reqs idx StarsOp.Ok.init rfl
  have hne := (flagsOf_ne_nil_iff worker reqs idx StarsOp.Ok.init rfl).mpr h
  rw [heq, ne_eq, List.flatMap_eq_nil_iff, not_forall] at hne
  obtain ⟨u, hu⟩ := hne
  rw [Classical.not_imp] at hu
  obtain ⟨elem, helem, hsrc, hidx⟩ := exists_elem_of_uses hu.1
  exact hidx ▸ hiface elem helem u.src hsrc

theorem mem_busyIfaces_iff (hiface : OfWorker worker reqs) :
    idx ∈ busyIfaces worker reqs ↔ roundTasks worker reqs idx % 2 ^ 16 ≠ 0 := by
  rw [busyIfaces, List.mem_filter, List.mem_range, decide_eq_true_eq]
  refine ⟨And.right, fun h => ⟨lt_of_roundTasks hiface fun hzero => h ?_, h⟩⟩
  rw [hzero]
  rfl

/-- What the result tells after a submit that succeeds. -/
theorem result_iff (hok : op.Ok) (hidle : op.status = .ok) (hiface : OfWorker worker reqs)
    (h : op.trigger worker reports (some reqs) SubmitEnv.success = some (op', .ok))
    (called : List ℕ) : (op'.drained called).ofdReq.result = .ok ↔
      (∀ idx, roundTasks worker reqs idx % 2 ^ 16 ≠ 0 → idx ∈ called) ∧
        ∃ idx, roundTasks worker reqs idx % 2 ^ 16 ≠ 0 := by
  obtain ⟨-, hstatus, hout, -, -, hcnt, -⟩ := trigger_ok hok hidle h
  have hstep : op.step worker reports (some reqs) (.start SubmitEnv.success) = some op' := by
    rw [StarsOp.step, if_pos hidle, h]
    rfl
  have hok' : op'.Ok := hok.step hstep
  have hnodup : op'.outstanding.Nodup := by
    rw [hout]
    exact List.nodup_range.filter _
  rw [drained_result hok' hstatus hnodup, hcnt, hout]
  refine and_congr ?_ ?_
  · exact ⟨fun hall idx hidx => hall idx ((mem_busyIfaces_iff hiface).mpr hidx),
      fun hall idx hidx => hall idx ((mem_busyIfaces_iff hiface).mp hidx)⟩
  · rw [List.length_pos_iff_exists_mem]
    exact exists_congr fun idx => mem_busyIfaces_iff hiface

/-- In each round of an operation the marks are right exactly when some interface has tasks, and for
each one that has: the last request that makes tasks for it ends with one that can be marked, and
shares the last byte of its number with the last request through its lane; no request before it that
makes such a task does; and the number of tasks is not a multiple of 2^16. -/
theorem marksOk_iff (reports : Bool) (hreqs : reqs ≠ []) (hiface : OfWorker worker reqs) :
    MarksOk worker reports reqs ↔ MarksFit worker reqs := by
  constructor
  · intro h
    have hne (idx : ℕ) := flagsOf_ne_nil_iff worker reqs idx StarsOp.Ok.init rfl
    obtain ⟨op', htrigger, hresult⟩ := h.completes .init .init rfl
    have hiff := result_iff StarsOp.Ok.init rfl hiface htrigger
    simp only [hiff, hne] at hresult
    -- all interfaces with tasks call back
    obtain ⟨hall, idx₀, hbusy⟩ := (hresult (List.range worker.numIfaces)).mpr fun idx hidx =>
      List.mem_range.mpr (lt_of_roundTasks hiface hidx)
    refine ⟨⟨idx₀, fun hzero => hbusy (by rw [hzero]; rfl)⟩, fun idx hidx => ?_, fun idx hidx => ?_⟩
    · exact (marked_flagsOf_iff StarsOp.Ok.init rfl).mp (h.marks .init .init rfl idx
        ((hne idx).mpr hidx))
    · -- those that have been submitted call back
      have hmem := (hresult (busyIfaces worker reqs)).mp
        ⟨fun i hi => (mem_busyIfaces_iff hiface).mpr hi, idx₀, hbusy⟩ idx hidx
      exact (mem_busyIfaces_iff hiface).mp hmem
  · rintro ⟨⟨idx₀, hbusy⟩, hmarked, hcounted⟩
    have hmarks (op : StarsOp) (hreach : op.Reachable worker reports (some reqs))
        (hidle : op.status = .ok) (idx : ℕ)
        (hidx : flagsOf worker (op.pushed reqs).ofdReq idx ≠ []) :
        Marked (flagsOf worker (op.pushed reqs).ofdReq idx) :=
      (marked_flagsOf_iff hreach.ok hidle).mpr (hmarked idx
        ((flagsOf_ne_nil_iff _ _ _ hreach.ok hidle).mp hidx))
    refine ⟨hmarks, fun op hreach hidle idx hidx => ?_, fun op hreach hidle => ?_⟩
    · obtain ⟨hcqe, hcount⟩ := cqeCnt_of_marked (hmarks op hreach hidle idx hidx)
      rw [hcqe, hcount]
      exact ⟨Nat.one_pos, rfl⟩
    · obtain ⟨op', htrigger⟩ := exists_trigger reports hreach.ok hidle hreqs
        fun idx hidx => by
          rw [(cqeCnt_of_marked (hmarks op hreach hidle idx
            ((flagsOf_ne_nil_iff _ _ _ hreach.ok hidle).mpr hidx))).1]
          exact Nat.one_pos
      refine ⟨op', htrigger, fun called => ?_⟩
      rw [result_iff hreach.ok hidle hiface htrigger]
      simp only [flagsOf_ne_nil_iff _ _ _ hreach.ok hidle]
      constructor
      · exact fun hall idx hidx => hall.1 idx (hcounted idx hidx)
      · refine fun hall =>
          ⟨fun idx hidx => hall idx fun hzero => hidx ?_, idx₀, hcounted idx₀ hbusy⟩
        rw [hzero]
        rfl

end Result

/-- An endpoint with one lane, of the first interface. -/
def oneLane : Endpoint := ⟨[0], ⟨fun _ => 0, [0]⟩, fun llen _ => llen⟩

/-- A put of eight bytes through it. -/
def putThrough (unnotify : Bool) : OfdReqElem := ⟨0, true, oneLane, 8, unnotify, false, 0⟩

/-- Two puts through an SDMA lane, the last one with a notification. -/
theorem marksOk_two : MarksOk ⟨1, fun _ => true, by decide⟩ true
    [putThrough true, putThrough false] := by
  have hiface : OfWorker ⟨1, fun _ => true, by decide⟩ [putThrough true, putThrough false] := by
    decide
  refine (marksOk_iff true (by simp) hiface).mpr ⟨⟨0, by decide⟩, fun idx hidx => ?_,
    fun idx hidx => ?_⟩
  · obtain rfl := Nat.lt_one_iff.mp (lt_of_roundTasks hiface hidx)
    refine ⟨[⟨0, 0, 1, false⟩], ⟨1, 0, 1, true⟩, [], ?_, ⟨rfl, 1, rfl, rfl⟩, by simp, by simp⟩
    simp [uses, elemUses, putThrough, oneLane, putLanes, Endpoint.iface, scpMaxLane]
  · obtain rfl := Nat.lt_one_iff.mp (lt_of_roundTasks hiface hidx)
    decide

/-- Without one, there is no mark. -/
theorem not_marksOk_unnotified : ¬MarksOk ⟨1, fun _ => true, by decide⟩ true
    [putThrough false, putThrough true] := by
  intro h
  have hmarked := h.marks .init .init rfl 0 (by decide)
  have hcount := hmarked.count
  revert hcount
  decide

end CompletionMarks

end Kucg.Stars
