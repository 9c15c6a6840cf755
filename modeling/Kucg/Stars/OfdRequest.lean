import Kucg.Stars.Lanes

/-! The offloaded requests of `scp_rma.c`, and an operation that submits them again and again.

    A submit makes tasks for the interface of each connected lane of each request, and submits one
    request for each interface that has tasks. The operation is over when all of these have called
    back. Between two rounds nothing is left of the first one (`StarsOp.Ok`), so that a submit has
    work if and only if the round has requests and some interface has tasks (`submitsWork_iff`); the
    number of tasks is counted with 16 bits. -/

namespace Kucg.Stars

open Kucg.Core

/-! ### Requests -/

/-- `scp_ep_t` when it is connected. `portion llen src` is `llen * weights[src]`. -/
structure Endpoint where
  sctEpsRscIdx : List ℕ
  lanes : ScpLanes
  portion : ℕ → ℕ → ℕ

/-- `sct_eps_rsc_idx[src]`. -/
def Endpoint.iface (ep : Endpoint) (src : ℕ) : ℕ := ep.sctEpsRscIdx.getD src 0

/-- `scp_ofd_req_elem_t`: a put or a wait. Its address is its number among those of the
operation. -/
structure OfdReqElem where
  address : ℕ
  isPut : Bool
  ep : Endpoint
  llen : ℕ
  unnotify : Bool
  flag : Bool
  idx : ℕ

/-- `scp_ofd_req_t`. -/
structure OfdReq where
  queueHead : List OfdReqElem
  lastReqElem : Option ℕ
  result : Status
  submitElemCnt : ℕ
  finishElemCnt : ℕ
  flagArray : ℕ → ℕ

/-- `scp_init_ofd_req`. -/
def scpInitOfdReq : OfdReq := ⟨[], none, .ok, 0, 0, fun _ => 0⟩

/-- `scp_release_ofd_req`. -/
def scpReleaseOfdReq (req : OfdReq) : OfdReq :=
  if req.queueHead.isEmpty then req else scpInitOfdReq

/-- What `scp_submit_ofd_req` needs of a worker. -/
structure Worker where
  numIfaces : ℕ
  isSdma : ℕ → Bool
  num_lt : numIfaces < 2 ^ 8

/-- What a call returns that does not wait for anything. -/
abbrev Outcome := {status : Status // status ≠ .inprogress}

/-- `UCG_OK`. -/
def Outcome.success : Outcome := ⟨.ok, by decide⟩

/-- What the calls of a submit return: `scp_pre_ofd_req`, the put of a request through a lane, the
    allocation of the output of an interface and `sct_iface_submit_request`. -/
structure SubmitEnv where
  pre : Outcome
  put : ℕ → ℕ → Outcome
  cqeOutput : ℕ → Bool
  submit : ℕ → Outcome

/-- The tasks that `sct_ep_put_with_notify` pushes, by their flag. -/
def sctEpPutWithNotify (isSdma : Bool) (length : ℕ) (unnotify flag : Bool) : List Bool :=
  if isSdma then (if 0 < length then [false] else []) ++ (if unnotify then [] else [flag])
  else [flag]

/-- The loop of `scp_put_with_notify` over the lanes: those connected, with the length that goes
    through them. -/
def putLanes (ep : Endpoint) (llen : ℕ) : List ℕ → ℕ → List (ℕ × ℕ)
  | [], _ => []
  | src :: rest, offset =>
    if ep.lanes.remoteLanes src ≥ scpMaxLane then putLanes ep llen rest offset
    else
      let length := if rest = [] then (llen + 2 ^ 32 - offset) % 2 ^ 32 else ep.portion llen src
      (src, length) :: putLanes ep llen rest ((offset + length) % 2 ^ 32)

/-- The tasks of a request: the interface and the flag of each. -/
def OfdReqElem.tasks (worker : Worker) (flagArray : ℕ → ℕ) (elem : OfdReqElem) : List (ℕ × Bool) :=
  let flagOf (src : ℕ) : Bool := flagArray src = elem.idx
  if elem.isPut then
    (putLanes elem.ep elem.llen elem.ep.lanes.localLanes 0).flatMap fun lane =>
      (sctEpPutWithNotify (worker.isSdma (elem.ep.iface lane.1)) lane.2 elem.unnotify
        (flagOf lane.1)).map fun flag => (elem.ep.iface lane.1, flag)
  else (scpEpWaitNotify elem.ep.lanes).map fun lane => (elem.ep.iface lane.1, flagOf lane.1)

/-- What the loop over the queue returns when it reaches the end, or a put that fails. -/
def putStatus (env : SubmitEnv) : List OfdReqElem → ℕ → Status
  | [], _ => .ok
  | elem :: rest, i =>
    let lanes := if elem.isPut then putLanes elem.ep elem.llen elem.ep.lanes.localLanes 0 else []
    match lanes.find? fun lane => (env.put i lane.1).val ≠ .ok with
    | some lane => env.put i lane.1
    | none => putStatus env rest (i + 1)

/-- `scp_get_req_flag` for each request of the queue. -/
def getReqFlags : List OfdReqElem → ℕ → (ℕ → ℕ) → List OfdReqElem × (ℕ → ℕ)
  | [], _, flagArray => ([], flagArray)
  | elem :: rest, i, flagArray =>
    let flagArray := (scpPutWithNotify elem.ep.lanes).foldl
      (fun flagArray src => Function.update flagArray src (i % 2 ^ 8)) flagArray
    let (rest, flagArray) := getReqFlags rest (i + 1) flagArray
    ({ elem with idx := i % 2 ^ 8 } :: rest, flagArray)

/-- The loop of `scp_submit_ofd_req` over the interfaces: those whose request has been submitted. -/
def submitIfaces (env : SubmitEnv) (tasks : List (ℕ × Bool)) : List ℕ → List ℕ → List ℕ × Status
  | [], submitted => (submitted, .ok)
  | idx :: rest, submitted =>
    if (tasks.countP fun task => task.1 = idx) % 2 ^ 16 =
      0 then submitIfaces env tasks rest submitted
    else if (tasks.countP fun task => task.1 = idx ∧ task.2) % 2 ^ 16 = 0 then
      (submitted, .errInvalidParam)
    else if env.cqeOutput idx = false then (submitted, .errNoMemory)
    else if (env.submit idx).val ≠ .ok then (submitted, .errIoError)
    else submitIfaces env tasks rest (submitted ++ [idx])

/-- `scp_submit_ofd_req`: the request, the interfaces that requests have been submitted to, and the
    status. There is no result if the last request is `NULL`. -/
def scpSubmitOfdReq (worker : Worker) (env : SubmitEnv) (req : OfdReq) :
    Option (OfdReq × List ℕ × Status) :=
  req.lastReqElem.map fun last =>
    let queueHead := req.queueHead.map fun elem =>
      if elem.address = last then { elem with flag := true } else elem
    let req := { req with queueHead := queueHead }
    if env.pre.val ≠ .ok then (req, [], env.pre.val)
    else
      let (queueHead, flagArray) := getReqFlags queueHead 0 req.flagArray
      let req := { req with queueHead := queueHead, flagArray := flagArray }
      let status := putStatus env queueHead 0
      if status ≠ .ok then (req, [], status)
      else
        let (submitted, status) := submitIfaces env
          (queueHead.flatMap (OfdReqElem.tasks worker flagArray)) (List.range worker.numIfaces) []
        let req := { req with submitElemCnt := (req.submitElemCnt + submitted.length) % 2 ^ 8 }
        (if status = .ok then { req with result := .inprogress } else req, submitted, status)

/-- `scp_submit_ofd_hander`. -/
def scpSubmitOfdHander (req : OfdReq) (status : Status) : OfdReq :=
  if status ≠ .ok then { req with result := status }
  else
    let finishElemCnt := (req.finishElemCnt + 1) % 2 ^ 8
    { req with
      finishElemCnt := finishElemCnt
      result := if finishElemCnt ≥ req.submitElemCnt then .ok else req.result }

/-! ### An operation -/

/-- `ucg_planc_stars_op_t`, with the number of requests that it has taken from its pool and the
    interfaces that have a request of it. -/
structure StarsOp where
  status : Status
  ofdReq : OfdReq
  taken : ℕ
  outstanding : List ℕ

/-- `ucg_planc_stars_op_init`. -/
def StarsOp.init : StarsOp := ⟨.ok, scpInitOfdReq, 0, []⟩

/-- `ucg_planc_stars_op_push_ofd_req_elem` for a request from the pool. -/
def StarsOp.pushOfdReqElem (op : StarsOp) (elem : OfdReqElem) : StarsOp :=
  { op with
    ofdReq := { op.ofdReq with
      queueHead := op.ofdReq.queueHead ++ [{ elem with address := op.taken }]
      lastReqElem := some op.taken }
    taken := op.taken + 1 }

/-- The operation when `scp_submit_ofd_req` is reached. -/
def StarsOp.pushed (op : StarsOp) (elems : List OfdReqElem) : StarsOp :=
  elems.foldl StarsOp.pushOfdReqElem { op with status := .errIoError }

/-- `trigger` of an operation with these requests in each round, or none if it does not submit
    anything. When it fails, `UCG_ERR_IO_ERROR` stays as the status, unless it reports what the
    submit has returned. -/
def StarsOp.trigger (worker : Worker) (reports : Bool) (elems : Option (List OfdReqElem))
    (env : SubmitEnv) (op : StarsOp) : Option (StarsOp × Status) :=
  match elems with
  | none => some ({ op with status := .ok }, .ok)
  | some elems =>
    let op := op.pushed elems
    (scpSubmitOfdReq worker env op.ofdReq).map fun (req, submitted, status) =>
      ({ op with
          status := if status = .ok then .inprogress else if reports then status else .errIoError
          ofdReq := req
          outstanding := op.outstanding ++ submitted }, status)

/-- An interface is done with its request. -/
def StarsOp.callback (op : StarsOp) (idx : ℕ) : StarsOp :=
  if idx ∈ op.outstanding then
    { op with
      ofdReq := scpSubmitOfdHander op.ofdReq .ok
      outstanding := op.outstanding.erase idx }
  else op

/-- `ucg_planc_stars_algo_progress` after the callbacks of the interfaces; `worker` is what
    `scp_worker_progress` returns and `done` is what `cb` does. -/
def StarsOp.progress (worker done : Outcome) (op : StarsOp) : StarsOp :=
  if worker.val ≠ .ok then { op with status := worker }
  else if op.ofdReq.result = .ok then
    { op with status := done, ofdReq := scpReleaseOfdReq op.ofdReq }
  else { op with status := op.ofdReq.result }

/-- A step: the request is started (`ucg_request_start`) or tested (`ucg_request_test`), or an
    interface calls back. -/
inductive OpCall where
  | start (env : SubmitEnv)
  | test (worker done : Outcome)
  | callback (idx : ℕ)

/-- The operation after a step, if it gets there. -/
def StarsOp.step (worker : Worker) (reports : Bool) (elems : Option (List OfdReqElem))
    (op : StarsOp) : OpCall → Option StarsOp
  | .start env =>
    if op.status = .ok then (op.trigger worker reports elems env).map Prod.fst else some op
  | .test status done => some (if op.status = .inprogress then op.progress status done else op)
  | .callback idx => some (op.callback idx)

/-- The states of an operation in all runs. -/
inductive StarsOp.Reachable (worker : Worker) (reports : Bool)
    (elems : Option (List OfdReqElem)) : StarsOp → Prop
  | init : Reachable worker reports elems .init
  | step {op op' : StarsOp} (call : OpCall) : Reachable worker reports elems op →
      op.step worker reports elems call = some op' → Reachable worker reports elems op'

/-- The operation when all interfaces have called back. -/
def StarsOp.drained (op : StarsOp) (called : List ℕ) : StarsOp := called.foldl StarsOp.callback op

/-- A submit has work in every run: when it is reached, the queue holds the requests of this round
    and no others, and the last one is one of them; when it succeeds, an interface has a request;
    and the operation completes when the interfaces have called back, in any order. -/
structure SubmitsWork (worker : Worker) (reports : Bool)
    (elems : Option (List OfdReqElem)) : Prop where
  queued : ∀ reqs, elems = some reqs → ∀ op :
    StarsOp, op.Reachable worker reports elems → op.status = .ok →
    (op.pushed reqs).ofdReq.queueHead.map OfdReqElem.address = List.range' op.taken reqs.length ∧
    ∃ elem ∈ (op.pushed reqs).ofdReq.queueHead,
      (op.pushed reqs).ofdReq.queueHead.getLast? = some elem ∧
      (op.pushed reqs).ofdReq.lastReqElem = some elem.address
  outstanding : ∀ reqs, elems = some reqs → ∀ op : StarsOp, op.Reachable worker reports elems →
    op.status = .ok → ∀ env op', op.trigger worker reports elems env = some (op', .ok) →
      op'.outstanding ≠ []
  completes : ∀ op : StarsOp, op.Reachable worker reports elems → op.status = .inprogress →
    ∀ called, called.Perm op.outstanding →
      ((op.drained called).progress Outcome.success Outcome.success).status = .ok

/-! ### The tasks of a round -/

/-- The number of tasks of a request for an interface. -/
def OfdReqElem.taskCount (worker : Worker) (idx : ℕ) (elem : OfdReqElem) : ℕ :=
  if elem.isPut then
    ((putLanes elem.ep elem.llen elem.ep.lanes.localLanes 0).map fun lane =>
      if elem.ep.iface lane.1 = idx then
        (sctEpPutWithNotify (worker.isSdma idx) lane.2 elem.unnotify false).length
      else 0).sum
  else (scpEpWaitNotify elem.ep.lanes).countP fun lane => elem.ep.iface lane.1 = idx

/-- The number of tasks of the requests of a round for an interface. -/
def roundTasks (worker : Worker) (elems : List OfdReqElem) (idx : ℕ) : ℕ :=
  (elems.map (OfdReqElem.taskCount worker idx)).sum

section Tasks

variable {worker : Worker} {env : SubmitEnv} {idx : ℕ}

theorem length_sctEpPutWithNotify {isSdma unnotify : Bool} {length : ℕ} (flag flag' : Bool) :
    (sctEpPutWithNotify isSdma length unnotify flag).length =
      (sctEpPutWithNotify isSdma length unnotify flag').length := by
  rw [sctEpPutWithNotify, sctEpPutWithNotify]
  split_ifs <;> rfl

theorem countP_tasks (flagArray : ℕ → ℕ) (elem : OfdReqElem) :
    ((elem.tasks worker flagArray).countP fun task => task.1 = idx) =
      elem.taskCount worker idx := by
  rw [OfdReqElem.tasks, OfdReqElem.taskCount]
  split_ifs with hput
  · rw [List.countP_flatMap]
    congr 1
    refine List.map_congr_left fun lane _ => ?_
    rw [Function.comp_apply, List.countP_map]
    split_ifs with hidx
    · have hall : ∀ l : List Bool, l.countP ((fun task : ℕ × Bool => decide (task.1 = idx)) ∘
          fun flag => (elem.ep.iface lane.1, flag)) = l.length := fun l =>
        List.countP_eq_length.mpr fun flag _ => by simpa using hidx
      rw [hall, hidx]
      exact length_sctEpPutWithNotify _ _
    · refine List.countP_eq_zero.mpr fun flag _ => ?_
      simpa using hidx
  · rw [List.countP_map]
    rfl

/-- Numbering the requests leaves their tasks as they are. -/
theorem roundTasks_getReqFlags : ∀ (elems : List OfdReqElem) (i : ℕ) (flagArray : ℕ → ℕ),
    roundTasks worker (getReqFlags elems i flagArray).1 idx = roundTasks worker elems idx
  | [], _, _ => rfl
  | elem :: rest, i, flagArray => by
    rw [getReqFlags]
    dsimp only
    rw [roundTasks, List.map_cons, List.sum_cons, ← roundTasks, roundTasks_getReqFlags rest]
    rfl

theorem length_getReqFlags : ∀ (elems : List OfdReqElem) (i : ℕ) (flagArray : ℕ → ℕ),
    (getReqFlags elems i flagArray).1.length = elems.length
  | [], _, _ => rfl
  | elem :: rest, i, flagArray => by
    rw [getReqFlags]
    dsimp only
    rw [List.length_cons, length_getReqFlags rest, List.length_cons]

theorem countP_roundTasks (flagArray : ℕ → ℕ) (elems : List OfdReqElem) :
    ((elems.flatMap (OfdReqElem.tasks worker flagArray)).countP fun task => task.1 = idx) =
      roundTasks worker elems idx := by
  rw [List.countP_flatMap, roundTasks]
  congr 1
  exact List.map_congr_left fun elem _ => countP_tasks flagArray elem

/-- If the loop over the interfaces gets to its end, those with tasks have a request. -/
theorem submitIfaces_ok {tasks : List (ℕ × Bool)} : ∀ {idxs submitted submitted' : List ℕ},
    submitIfaces env tasks idxs submitted = (submitted', .ok) → submitted' = submitted ++
      idxs.filter fun idx => (tasks.countP fun task => task.1 = idx) % 2 ^ 16 ≠ 0
  | [], submitted, submitted', h => by
    obtain ⟨rfl, -⟩ := Prod.mk.inj h
    exact (List.append_nil _).symm
  | idx :: rest, submitted, submitted', h => by
    rw [submitIfaces] at h
    split_ifs at h with hzero hcqe hout hsubmit
    · rw [submitIfaces_ok h, List.filter_cons, if_neg (by simpa using hzero)]
    · cases (Prod.mk.inj h).2
    · cases (Prod.mk.inj h).2
    · cases (Prod.mk.inj h).2
    · rw [submitIfaces_ok h, List.filter_cons, if_pos (by simpa using hzero), List.append_assoc]
      rfl

theorem submitIfaces_of_no_tasks {tasks : List (ℕ × Bool)} : ∀ {idxs submitted : List ℕ},
    (∀ idx ∈ idxs, (tasks.countP fun task => task.1 = idx) % 2 ^ 16 = 0) →
      submitIfaces env tasks idxs submitted = (submitted, .ok)
  | [], _, _ => rfl
  | idx :: rest, submitted, h => by
    rw [submitIfaces, if_pos (h idx List.mem_cons_self)]
    exact submitIfaces_of_no_tasks fun idx hidx => h idx (List.mem_cons_of_mem _ hidx)

/-- Calls that all succeed. -/
def SubmitEnv.success : SubmitEnv :=
  ⟨.success, fun _ _ => .success, fun _ => true, fun _ => .success⟩

theorem putStatus_success : ∀ (elems : List OfdReqElem) (i : ℕ),
    putStatus SubmitEnv.success elems i = .ok
  | [], _ => rfl
  | elem :: rest, i => by
    have hnone (lanes : List (ℕ × ℕ)) :
        lanes.find? (fun lane => (SubmitEnv.success.put i lane.1).val ≠ .ok) = none :=
      List.find?_eq_none.mpr fun lane _ => by simp [SubmitEnv.success, Outcome.success]
    rw [putStatus, hnone]
    exact putStatus_success rest (i + 1)

end Tasks

/-! ### One submit -/

section Submit

variable {worker : Worker} {env : SubmitEnv} {req req' : OfdReq} {submitted : List ℕ}

/-- The interfaces with tasks, of those that a round has requests for. -/
def busyIfaces (worker : Worker) (elems : List OfdReqElem) : List ℕ :=
  (List.range worker.numIfaces).filter fun idx => roundTasks worker elems idx % 2 ^ 16 ≠ 0

/-- What a submit that succeeds does. -/
structure Submitted (worker : Worker) (req req' : OfdReq) (submitted : List ℕ) : Prop where
  submitted_eq : submitted = busyIfaces worker req.queueHead
  length : req'.queueHead.length = req.queueHead.length
  result : req'.result = .inprogress
  submitElemCnt : req'.submitElemCnt = (req.submitElemCnt + submitted.length) % 2 ^ 8
  finishElemCnt : req'.finishElemCnt = req.finishElemCnt

theorem roundTasks_flag {worker : Worker} {elems : List OfdReqElem} {last idx : ℕ} :
    roundTasks worker (elems.map fun elem =>
      if elem.address = last then { elem with flag := true } else elem) idx =
      roundTasks worker elems idx := by
  rw [roundTasks, roundTasks, List.map_map]
  congr 1
  refine List.map_congr_left fun elem _ => ?_
  rw [Function.comp_apply]
  split_ifs <;> rfl

theorem submit_ok (h : scpSubmitOfdReq worker env req = some (req', submitted, .ok)) :
    Submitted worker req req' submitted := by
  rw [scpSubmitOfdReq, Option.map_eq_some_iff] at h
  obtain ⟨last, -, h⟩ := h
  dsimp only at h
  split_ifs at h with hpre hput hstatus
  · exact absurd (Prod.mk.inj (Prod.mk.inj h).2).2 hpre
  · exact absurd (Prod.mk.inj (Prod.mk.inj h).2).2 hput
  · obtain ⟨rfl, hsub⟩ := Prod.mk.inj h
    have heq := submitIfaces_ok (Prod.ext (Prod.mk.inj hsub).1 (Prod.mk.inj hsub).2)
    refine ⟨?_, ?_, rfl, ?_, rfl⟩
    · rw [heq, List.nil_append, busyIfaces]
      refine List.filter_congr fun idx _ => ?_
      rw [countP_roundTasks, roundTasks_getReqFlags, roundTasks_flag]
    · rw [length_getReqFlags, List.length_map]
    · rw [← (Prod.mk.inj hsub).1]
  · exact absurd (Prod.mk.inj (Prod.mk.inj h).2).2 hstatus

theorem putStatus_ne_inprogress : ∀ (elems : List OfdReqElem) (i : ℕ),
    putStatus env elems i ≠ .inprogress
  | [], _ => by simp [putStatus]
  | elem :: rest, i => by
    rw [putStatus]
    split
    · exact (env.put i _).2
    · exact putStatus_ne_inprogress rest (i + 1)

theorem submitIfaces_ne_inprogress {tasks : List (ℕ × Bool)} : ∀ {idxs submitted : List ℕ},
    (submitIfaces env tasks idxs submitted).2 ≠ .inprogress
  | [], _ => by simp [submitIfaces]
  | idx :: rest, submitted => by
    rw [submitIfaces]
    split_ifs
    · exact submitIfaces_ne_inprogress
    · simp
    · simp
    · simp
    · exact submitIfaces_ne_inprogress

/-- A submit does not say that it is in progress. -/
theorem submit_ne_inprogress {status : Status}
    (h : scpSubmitOfdReq worker env req = some (req', submitted, status)) :
      status ≠ .inprogress := by
  rw [scpSubmitOfdReq, Option.map_eq_some_iff] at h
  obtain ⟨last, -, h⟩ := h
  dsimp only at h
  split_ifs at h
  · rw [← (Prod.mk.inj (Prod.mk.inj h).2).2]
    exact env.pre.2
  · rw [← (Prod.mk.inj (Prod.mk.inj h).2).2]
    exact putStatus_ne_inprogress _ _
  · rw [← (Prod.mk.inj (Prod.mk.inj h).2).2]
    exact submitIfaces_ne_inprogress
  · rw [← (Prod.mk.inj (Prod.mk.inj h).2).2]
    exact submitIfaces_ne_inprogress

/-- A submit without any tasks succeeds if the calls do. -/
theorem submit_success (hlast : req.lastReqElem ≠ none)
    (hbusy : busyIfaces worker req.queueHead = []) :
    ∃ res, scpSubmitOfdReq worker SubmitEnv.success req = some res ∧ res.2.2 = .ok := by
  obtain ⟨last, hlast⟩ := Option.ne_none_iff_exists'.mp hlast
  have hnone : ∀ flagArray, ∀ idx ∈ List.range worker.numIfaces,
      (((getReqFlags (req.queueHead.map fun elem =>
        if elem.address = last then { elem with flag := true } else elem) 0 req.flagArray).1.flatMap
        (OfdReqElem.tasks worker flagArray)).countP fun task => task.1 = idx) % 2 ^ 16 = 0 := by
    intro flagArray idx hidx
    rw [countP_roundTasks, roundTasks_getReqFlags, roundTasks_flag]
    by_contra hne
    have hmem : idx ∈ busyIfaces worker req.queueHead :=
      List.mem_filter.mpr ⟨hidx, decide_eq_true hne⟩
    rw [hbusy] at hmem
    exact absurd hmem List.not_mem_nil
  rw [scpSubmitOfdReq, hlast, Option.map_some]
  refine ⟨_, rfl, ?_⟩
  dsimp only
  rw [if_neg (by simp [SubmitEnv.success, Outcome.success]), if_neg (by simp [putStatus_success]),
    submitIfaces_of_no_tasks (hnone _)]

end Submit

/-! ### The queue of a round -/

section Queue

variable {op : StarsOp} {elems : List OfdReqElem}

/-- The requests with the addresses from `k` on. -/
def addressed : ℕ → List OfdReqElem → List OfdReqElem
  | _, [] => []
  | k, elem :: rest => { elem with address := k } :: addressed (k + 1) rest

theorem addresses_addressed : ∀ {k : ℕ} {elems : List OfdReqElem},
    (addressed k elems).map OfdReqElem.address = List.range' k elems.length
  | _, [] => rfl
  | k, elem :: rest => by
    rw [addressed, List.map_cons, addresses_addressed, List.length_cons, List.range'_succ]

theorem roundTasks_addressed {worker : Worker} {idx : ℕ} : ∀ {k : ℕ} {elems : List OfdReqElem},
    roundTasks worker (addressed k elems) idx = roundTasks worker elems idx
  | _, [] => rfl
  | k, elem :: rest => by
    rw [addressed, roundTasks, List.map_cons, List.sum_cons, ← roundTasks, roundTasks_addressed]
    rfl

theorem foldl_pushOfdReqElem : ∀ (elems : List OfdReqElem) (op : StarsOp),
    elems.foldl StarsOp.pushOfdReqElem op =
      { op with
        ofdReq := { op.ofdReq with
          queueHead := op.ofdReq.queueHead ++ addressed op.taken elems
          lastReqElem :=
            if elems = [] then op.ofdReq.lastReqElem else some (op.taken + elems.length - 1) }
        taken := op.taken + elems.length }
  | [], op => by simp [addressed]
  | elem :: rest, op => by
    rw [List.foldl_cons, foldl_pushOfdReqElem rest, StarsOp.pushOfdReqElem, addressed]
    dsimp only
    rw [List.append_assoc, List.singleton_append, if_neg (List.cons_ne_nil _ _), List.length_cons,
      show op.taken + 1 + rest.length = op.taken + (rest.length + 1) by omega]
    rcases rest with _ | ⟨elem', rest⟩
    · rfl
    · rw [if_neg (List.cons_ne_nil _ _)]

theorem pushed_ofdReq : (op.pushed elems).ofdReq =
    { op.ofdReq with
      queueHead := op.ofdReq.queueHead ++ addressed op.taken elems
      lastReqElem :=
        if elems = [] then op.ofdReq.lastReqElem else some (op.taken + elems.length - 1) } := by
  rw [StarsOp.pushed, foldl_pushOfdReqElem]

@[simp] theorem pushed_outstanding : (op.pushed elems).outstanding = op.outstanding := by
  rw [StarsOp.pushed, foldl_pushOfdReqElem]

theorem length_addressed {k : ℕ} : (addressed k elems).length = elems.length := by
  have h := congrArg List.length (@addresses_addressed k elems)
  rwa [List.length_map, List.length_range'] at h

/-- The last request has the last address. -/
theorem getLast?_addressed {k : ℕ} (h : elems ≠ []) : ∃ elem ∈ addressed k elems,
    (addressed k elems).getLast? = some elem ∧ elem.address = k + elems.length - 1 := by
  have hne : addressed k elems ≠ [] := fun hnil =>
    h (List.eq_nil_of_length_eq_zero (by rw [← length_addressed (k := k), hnil, List.length_nil]))
  refine ⟨(addressed k elems).getLast hne, List.getLast_mem hne, List.getLast?_eq_some_getLast hne,
    ?_⟩
  have hmap : ((addressed k elems).map OfdReqElem.address).getLast? =
      some ((addressed k elems).getLast hne).address := by
    rw [List.getLast?_map, List.getLast?_eq_some_getLast hne, Option.map_some]
  have hpos : elems.length ≠ 0 := fun hzero => h (List.eq_nil_of_length_eq_zero hzero)
  rw [addresses_addressed, List.getLast?_range', if_neg hpos, Option.some.injEq] at hmap
  omega

end Queue

/-! ### Runs -/

section Runs

variable {worker : Worker} {reports : Bool} {elems : Option (List OfdReqElem)} {op op' : StarsOp}

/-- An operation between two rounds has nothing left of the first one, and one that is in progress
    is done when as many interfaces have called back as have been counted. -/
structure StarsOp.Ok (op : StarsOp) : Prop where
  idle : op.status = .ok → op.ofdReq = scpInitOfdReq ∧ op.outstanding = []
  busy : op.status = .inprogress → op.ofdReq.queueHead ≠ [] ∧ op.ofdReq.submitElemCnt < 2 ^ 8 ∧
    op.ofdReq.finishElemCnt + op.outstanding.length = op.ofdReq.submitElemCnt ∧
    op.ofdReq.result =
      if op.outstanding = [] ∧ 0 < op.ofdReq.submitElemCnt then .ok else .inprogress

theorem length_busyIfaces : (busyIfaces worker op.ofdReq.queueHead).length < 2 ^ 8 :=
  (List.length_filter_le ..).trans_lt (by rw [List.length_range]; exact worker.num_lt)

/-- What a trigger that succeeds leaves. -/
theorem trigger_ok {reqs : List OfdReqElem} {env : SubmitEnv} (hok : op.Ok)
    (hstatus : op.status = .ok)
    (h : op.trigger worker reports (some reqs) env = some (op', .ok)) : reqs ≠ [] ∧
      op'.status = .inprogress ∧ op'.outstanding = busyIfaces worker reqs ∧
      op'.ofdReq.queueHead ≠ [] ∧ op'.ofdReq.result = .inprogress ∧
      op'.ofdReq.submitElemCnt = op'.outstanding.length ∧ op'.ofdReq.finishElemCnt = 0 := by
  obtain ⟨hidle, hout⟩ := hok.idle hstatus
  rw [StarsOp.trigger] at h
  dsimp only at h
  obtain ⟨⟨req', submitted, status⟩, hsubmit, hop⟩ := Option.map_eq_some_iff.mp h
  obtain ⟨rfl, rfl⟩ := Prod.mk.inj hop
  have hne : reqs ≠ [] := by
    rintro rfl
    rw [pushed_ofdReq, hidle, scpSubmitOfdReq, if_pos rfl, scpInitOfdReq] at hsubmit
    cases hsubmit
  obtain ⟨heq, hlen, hresult, hcnt, hfinish⟩ := submit_ok hsubmit
  rw [pushed_ofdReq, hidle] at heq hlen hcnt hfinish
  dsimp only [scpInitOfdReq] at heq hlen hcnt hfinish
  rw [List.nil_append] at heq hlen
  have hbusy : submitted = busyIfaces worker reqs := by
    rw [heq, busyIfaces, busyIfaces]
    exact List.filter_congr fun idx _ => by rw [roundTasks_addressed]
  rw [pushed_outstanding, hout, List.nil_append]
  refine ⟨hne, by simp, hbusy, ?_, hresult, ?_, hfinish⟩
  · intro hnil
    rw [hnil, length_addressed, List.length_nil] at hlen
    exact hne (List.eq_nil_of_length_eq_zero hlen.symm)
  · rw [hcnt, Nat.zero_add]
    refine Nat.mod_eq_of_lt ?_
    rw [hbusy]
    exact (List.length_filter_le ..).trans_lt (by rw [List.length_range]; exact worker.num_lt)

theorem StarsOp.Ok.init : StarsOp.init.Ok :=
  ⟨fun _ => ⟨rfl, rfl⟩, fun h => by cases h⟩

theorem StarsOp.Ok.callback (h : op.Ok) (idx : ℕ) : (op.callback idx).Ok := by
  rw [StarsOp.callback]
  split_ifs with hmem
  · have hpos : 0 < op.outstanding.length := List.length_pos_of_mem hmem
    refine ⟨fun hstatus => ?_, fun hstatus => ?_⟩
    · rw [(h.idle hstatus).2] at hpos
      exact absurd hpos (lt_irrefl 0)
    · obtain ⟨hqueue, hlt, hcnt, hresult⟩ := h.busy hstatus
      have hlen := List.length_erase_of_mem hmem
      have hfinish : (op.ofdReq.finishElemCnt + 1) % 2 ^ 8 = op.ofdReq.finishElemCnt + 1 :=
        Nat.mod_eq_of_lt (by omega)
      have hprog : op.ofdReq.result = .inprogress := by
        rw [hresult, if_neg]
        rintro ⟨hnil, -⟩
        rw [hnil] at hpos
        exact absurd hpos (lt_irrefl 0)
      rw [scpSubmitOfdHander, if_neg (by simp), hfinish, hprog]
      refine ⟨hqueue, hlt, by dsimp only; omega, if_congr ?_ rfl rfl⟩
      rw [← List.length_eq_zero_iff]
      dsimp only
      omega
  · exact h

theorem StarsOp.Ok.step (h : op.Ok) {call : OpCall}
    (hstep : op.step worker reports elems call = some op') : op'.Ok := by
  cases call with
  | callback idx =>
    obtain rfl := Option.some.inj hstep
    exact h.callback idx
  | test status done =>
    obtain rfl := Option.some.inj hstep
    by_cases hstatus : op.status = .inprogress
    · rw [if_pos hstatus]
      obtain ⟨hqueue, hlt, hcnt, hresult⟩ := h.busy hstatus
      rw [StarsOp.progress]
      split_ifs with hworker hdone
      · exact ⟨fun hok => absurd hok hworker, fun hprog => absurd hprog status.2⟩
      · refine ⟨fun _ => ⟨?_, ?_⟩, fun hprog => absurd hprog done.2⟩
        · exact if_neg (by simpa using hqueue)
        · rw [hresult] at hdone
          split_ifs at hdone with hout
          exact hout.1
      · have hprog : op.ofdReq.result = .inprogress := by
          rw [hresult] at hdone ⊢
          split_ifs at hdone ⊢ with hout
          · exact absurd rfl hdone
          · rfl
        rw [hprog, ← hstatus]
        exact h
    · rw [if_neg hstatus]
      exact h
  | start env =>
    rw [StarsOp.step] at hstep
    split_ifs at hstep with hstatus
    · obtain ⟨⟨op₁, status⟩, htrigger, rfl⟩ := Option.map_eq_some_iff.mp hstep
      rcases elems with _ | reqs
      · obtain ⟨rfl, -⟩ := Prod.mk.inj (Option.some.inj htrigger)
        exact ⟨fun _ => h.idle hstatus, fun hprog => by cases hprog⟩
      · rcases eq_or_ne status .ok with rfl | hne
        · obtain ⟨-, hprog, hout, hqueue, hresult, hcnt, hfinish⟩ := trigger_ok h hstatus htrigger
          refine ⟨fun hok => ?_, fun _ => ⟨hqueue, ?_, ?_, ?_⟩⟩
          · rw [hprog] at hok
            cases hok
          · rw [hcnt, hout]
            exact (List.length_filter_le ..).trans_lt
              (by rw [List.length_range]; exact worker.num_lt)
          · rw [hfinish, hcnt, Nat.zero_add]
          · rw [hresult, if_neg]
            rintro ⟨hnil, hpos⟩
            rw [hcnt, hnil] at hpos
            exact absurd hpos (lt_irrefl 0)
        · obtain ⟨⟨req', submitted, status⟩, hsubmit, hop⟩ := Option.map_eq_some_iff.mp htrigger
          obtain ⟨rfl, rfl⟩ := Prod.mk.inj hop
          have hprog := submit_ne_inprogress hsubmit
          refine ⟨fun hok => ?_, fun hbusy => ?_⟩
          · dsimp only at hok hne
            rw [if_neg hne] at hok
            split_ifs at hok
            exact absurd hok hne
          · dsimp only at hbusy hne
            rw [if_neg hne] at hbusy
            split_ifs at hbusy
            exact absurd hbusy hprog
    · obtain rfl := Option.some.inj hstep
      exact h

theorem StarsOp.Reachable.ok (h : op.Reachable worker reports elems) : op.Ok := by
  induction h with
  | init => exact .init
  | step call _ hstep ih => exact ih.step hstep

/-- When all interfaces have called back, the operation completes, unless none had a request. -/
theorem StarsOp.Ok.drained : ∀ {called : List ℕ} {op : StarsOp}, op.Ok → op.status = .inprogress →
    called.Perm op.outstanding → (op.drained called).Ok ∧ (op.drained called).status = .inprogress ∧
      (op.drained called).outstanding = [] ∧
      (op.drained called).ofdReq.submitElemCnt = op.ofdReq.submitElemCnt
  | [], op, hok, hstatus, hperm => ⟨hok, hstatus, List.nil_perm.mp hperm, rfl⟩
  | idx :: rest, op, hok, hstatus, hperm => by
    have hmem : idx ∈ op.outstanding := hperm.subset List.mem_cons_self
    have hcall : op.callback idx = { op with
        ofdReq := scpSubmitOfdHander op.ofdReq .ok
        outstanding := op.outstanding.erase idx } := if_pos hmem
    have hperm' : rest.Perm (op.callback idx).outstanding := by
      rw [hcall]
      exact List.cons_perm_iff_perm_erase.mp hperm |>.2
    have ih := (hok.callback idx).drained (by rw [hcall]; exact hstatus) hperm'
    have hcnt : (op.callback idx).ofdReq.submitElemCnt = op.ofdReq.submitElemCnt := by
      rw [hcall, scpSubmitOfdHander, if_neg (by simp)]
    rw [hcnt] at ih
    exact ih

/-- In progress, the operation has submitted as many requests as there are interfaces with tasks. -/
theorem StarsOp.Reachable.submitElemCnt (h : op.Reachable worker reports elems)
    (hstatus : op.status = .inprogress) : ∃ reqs, elems = some reqs ∧
      op.ofdReq.submitElemCnt = (busyIfaces worker reqs).length := by
  induction h with
  | init => cases hstatus
  | @step op op' call hreach hstep ih =>
    cases call with
    | callback idx =>
      obtain rfl := Option.some.inj hstep
      rw [StarsOp.callback] at hstatus ⊢
      split_ifs at hstatus ⊢
      · rw [scpSubmitOfdHander, if_neg (by simp)]
        exact ih hstatus
      · exact ih hstatus
    | test status done =>
      obtain rfl := Option.some.inj hstep
      by_cases hprog : op.status = .inprogress
      · rw [if_pos hprog, StarsOp.progress] at hstatus ⊢
        split_ifs at hstatus ⊢
        · exact absurd hstatus status.2
        · exact absurd hstatus done.2
        · exact ih hprog
      · rw [if_neg hprog] at hstatus
        exact absurd hstatus hprog
    | start env =>
      rw [StarsOp.step] at hstep
      split_ifs at hstep with hidle
      · obtain ⟨⟨op₁, status⟩, htrigger, rfl⟩ := Option.map_eq_some_iff.mp hstep
        rcases elems with _ | reqs
        · obtain ⟨rfl, -⟩ := Prod.mk.inj (Option.some.inj htrigger)
          cases hstatus
        have hok : status = .ok := by
          by_contra hne
          obtain ⟨⟨req', submitted, status'⟩, hsubmit, hop⟩ := Option.map_eq_some_iff.mp htrigger
          obtain ⟨rfl, rfl⟩ := Prod.mk.inj hop
          dsimp only at hstatus hne
          rw [if_neg hne] at hstatus
          split_ifs at hstatus
          exact submit_ne_inprogress hsubmit hstatus
        subst hok
        obtain ⟨-, -, hout, -, -, hcnt, -⟩ := trigger_ok hreach.ok hidle htrigger
        exact ⟨reqs, rfl, by rw [hcnt, hout]⟩
      · obtain rfl := Option.some.inj hstep
        exact ih hstatus

variable (worker reports elems) in
/-- A submit has work in every run if and only if each round has requests and, for some interface, a
    number of tasks that 16 bits do not count as none. -/
theorem submitsWork_iff : SubmitsWork worker reports elems ↔ ∀ reqs, elems = some reqs →
    reqs ≠ [] ∧ ∃ idx < worker.numIfaces, roundTasks worker reqs idx % 2 ^ 16 ≠ 0 := by
  have hbusy (reqs : List OfdReqElem) : busyIfaces worker reqs ≠ [] ↔
      ∃ idx < worker.numIfaces, roundTasks worker reqs idx % 2 ^ 16 ≠ 0 := by
    rw [ne_eq, List.eq_nil_iff_forall_not_mem, not_forall]
    simp only [not_not, busyIfaces, List.mem_filter, List.mem_range, decide_eq_true_eq]
  constructor
  · rintro h reqs rfl
    have hne : reqs ≠ [] := by
      rintro rfl
      obtain ⟨-, elem, hmem, -⟩ := h.queued [] rfl .init .init rfl
      exact absurd hmem List.not_mem_nil
    refine ⟨hne, (hbusy reqs).mp fun hnil => ?_⟩
    -- all calls succeed, and nothing has been submitted
    have hlast : (StarsOp.init.pushed reqs).ofdReq.lastReqElem ≠ none := by
      rw [pushed_ofdReq]
      dsimp only
      rw [if_neg hne]
      exact Option.some_ne_none _
    have hnone : busyIfaces worker (StarsOp.init.pushed reqs).ofdReq.queueHead = [] := by
      rw [pushed_ofdReq, ← hnil, busyIfaces, busyIfaces]
      refine List.filter_congr fun idx _ => ?_
      rw [← @roundTasks_addressed worker idx 0 reqs]
      rfl
    obtain ⟨⟨req', submitted, status⟩, hsubmit, rfl⟩ := submit_success hlast hnone
    have htrigger : StarsOp.init.trigger worker reports (some reqs) SubmitEnv.success = some
        ({ StarsOp.init.pushed reqs with
            status := .inprogress
            ofdReq := req'
            outstanding := (StarsOp.init.pushed reqs).outstanding ++ submitted }, .ok) := by
      rw [StarsOp.trigger]
      dsimp only
      rw [hsubmit]
      rfl
    have hout := h.outstanding reqs rfl .init .init rfl _ _ htrigger
    rw [(trigger_ok .init rfl htrigger).2.2.1] at hout
    exact hout hnil
  · intro h
    refine ⟨?_, ?_, ?_⟩
    · rintro reqs rfl op hreach hstatus
      have hne := (h reqs rfl).1
      obtain ⟨hidle, -⟩ := hreach.ok.idle hstatus
      obtain ⟨elem, hmem, hlast, haddress⟩ := getLast?_addressed (k := op.taken) hne
      rw [pushed_ofdReq, hidle]
      dsimp only [scpInitOfdReq]
      rw [List.nil_append, if_neg hne]
      exact ⟨addresses_addressed, elem, hmem, hlast, by rw [haddress]⟩
    · rintro reqs rfl op hreach hstatus env op' htrigger
      rw [(trigger_ok hreach.ok hstatus htrigger).2.2.1]
      exact (hbusy reqs).mpr (h reqs rfl).2
    · intro op hreach hstatus called hperm
      obtain ⟨hok, hprog, hout, hcnt⟩ := hreach.ok.drained hstatus hperm
      have hpos : 0 < op.ofdReq.submitElemCnt := by
        obtain ⟨reqs, hreqs, heq⟩ := hreach.submitElemCnt hstatus
        rw [heq]
        exact List.length_pos_iff.mpr ((hbusy reqs).mpr (h reqs hreqs).2)
      have hresult := (hok.busy hprog).2.2.2
      rw [if_pos ⟨hout, hcnt ▸ hpos⟩] at hresult
      rw [StarsOp.progress, if_neg (by simp [Outcome.success]), if_pos hresult]
      rfl

end Runs

end Kucg.Stars
