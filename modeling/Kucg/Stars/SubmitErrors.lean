import Kucg.Stars.CompletionMarks
import Kucg.Stars.NotifyProgress

/-! Submits and progress calls when the calls that they make fail (`scp_rma.c`,
    `sdma_offload_iface.c`, `rc_offload_iface.c`).

    A progress call that stops at an error leaves the busy flag of the interface set, so that the
    interface makes no progress any more. A submit that fails leaves the mutex free, but it takes
    nothing back: neither the requests that interfaces have got already, nor the elements of the
    queue. `clean_iff_fineRun` says that a run without such failures keeps everything clean, and
    that each of them does not. -/

namespace Kucg.Stars

open Kucg.Core CompletionMarks

namespace SubmitErrors

/-- What the calls of a submit return. When the device fails for an RC interface, the process ends
(`ucg_fatal`), and there is nothing that it returns. -/
structure Env (worker : Worker) extends SubmitEnv where
  rc : ∀ idx, worker.isSdma idx = false → (submit idx).val = .ok

/-- A request with elements. -/
structure QueuedReq extends OfdReq where
  queue_ne : queueHead ≠ []
  last_ne : lastReqElem ≠ none

/-- A worker: whether `submit_mutex` is held, and its interfaces. Each submit has a number, which is
what the interfaces have in their queues; the numbers that they have been given and those that they
have reported are recorded. -/
structure System where
  mutex : Bool
  ifaces : ℕ → SctIface ℕ
  reported : ℕ → List ℕ
  submitted : ℕ → List ℕ
  serial : ℕ

/-- Nothing has been submitted. -/
def System.init : System := ⟨false, fun _ => ⟨false, []⟩, fun _ => [], fun _ => [], 0⟩

/-- The interfaces are given their requests. -/
def System.push (sys : System) (cqeCnt : ℕ → ℕ) (idxs : List ℕ) : System where
  mutex := false
  ifaces := fun idx =>
    if idx ∈ idxs then
      { sys.ifaces idx with reqQueue := (sys.ifaces idx).reqQueue ++ [⟨cqeCnt idx, sys.serial⟩] }
    else sys.ifaces idx
  reported := sys.reported
  submitted := fun idx =>
    if idx ∈ idxs then sys.submitted idx ++ [sys.serial] else sys.submitted idx
  serial := sys.serial + 1

/-- `scp_submit_ofd_req`: it takes the mutex behind `scp_pre_ofd_req`, and releases it at both of
its other exits. It does not return when the mutex is held. -/
def submit (worker : Worker) (env : Env worker) (req : QueuedReq) (sys : System) :
    Option (System × OfdReq × Status) :=
  match scpSubmitOfdReq worker env.toSubmitEnv req.toOfdReq with
  | none => none
  | some (req', idxs, status) =>
    if env.pre.val ≠ .ok then some (sys, req', status)
    else if sys.mutex then none
    else some (sys.push (cqeCnt worker req.toOfdReq) idxs, req', status)

/-- `sct_iface_notify_progress` of an interface. -/
def progress (idx : ℕ) (replies : ℕ → CqeReply) (sys : System) : System × Status :=
  let res := notifyProgress replies (sys.ifaces idx)
  ({ sys with
    ifaces := Function.update sys.ifaces idx res.1
    reported := Function.update sys.reported idx (sys.reported idx ++ res.2.1) }, res.2.2)

/-- A call. -/
inductive Call (worker : Worker) where
  | submit (env : Env worker) (req : QueuedReq)
  | progress (idx : ℕ) (replies : ℕ → CqeReply)

/-- The mutex is free and no interface is busy; what an interface has been given it has reported
once, or it has it in its queue. -/
structure Clean (sys : System) : Prop where
  mutex : sys.mutex = false
  flags : ∀ idx, (sys.ifaces idx).waitFlag = false
  once : ∀ idx, (sys.submitted idx).Nodup ∧
    (sys.reported idx ++ (sys.ifaces idx).reqQueue.map SctReq.context).Perm (sys.submitted idx)

/-- No interface has a request of the submit with this number. -/
def NotHeld (number : ℕ) (sys : System) : Prop :=
  ∀ idx, number ∉ (sys.ifaces idx).reqQueue.map SctReq.context

/-- A request as a new submit expects it, without elements and counts of another one. -/
def IsFresh (req : OfdReq) : Prop :=
  req.queueHead = [] ∧ req.submitElemCnt = 0 ∧ req.finishElemCnt = 0

/-- A progress call reports each request whose completions are all there. -/
def Reports (idx : ℕ) (replies : ℕ → CqeReply) (sys : System) : Prop :=
  ∀ k r, (sys.ifaces idx).reqQueue[k]? = some r → (replies k).waited = r.cqeCnt →
    r.context ∈ (progress idx replies sys).1.reported idx

/-- Each call of a run returns and leaves everything clean, also one that fails: then no interface
has the request. If `strict`, the request is left as a new submit expects it. -/
def Keeps (worker : Worker) (strict : Bool) : System → List (Call worker) → Prop
  | _, [] => True
  | sys, .submit env req :: calls => ∃ sys' req' status,
      submit worker env req sys = some (sys', req', status) ∧ Clean sys' ∧
      (status ≠ .ok → NotHeld sys.serial sys' ∧ (strict = true → IsFresh req')) ∧
      Keeps worker strict sys' calls
  | sys, .progress idx replies :: calls => Clean (progress idx replies sys).1 ∧
      Reports idx replies sys ∧ Keeps worker strict (progress idx replies sys).1 calls

/-- The request of an interface can be submitted. -/
def ifaceOk (worker : Worker) (env : SubmitEnv) (req : OfdReq) (idx : ℕ) : Bool :=
  cqeCnt worker req idx ≠ 0 ∧ env.cqeOutput idx = true ∧ (env.submit idx).val = .ok

/-- All puts through all lanes succeed. -/
def PutsOk (env : SubmitEnv) (req : OfdReq) : Prop :=
  ∀ i elem, req.queueHead[i]? = some elem → elem.isPut = true →
    ∀ lane ∈ putLanes elem.ep elem.llen elem.ep.lanes.localLanes 0, (env.put i lane.1).val = .ok

/-- No call of the submit fails. -/
def SubmitOk (worker : Worker) (env : SubmitEnv) (req : OfdReq) : Prop :=
  env.pre.val = .ok ∧ PutsOk env req ∧
    ∀ idx ∈ busyIfaces worker req.queueHead, ifaceOk worker env req idx = true

/-- A call fails before any interface has its request. -/
def FailsEarly (worker : Worker) (env : SubmitEnv) (req : OfdReq) : Prop :=
  env.pre.val ≠ .ok ∨ ¬PutsOk env req ∨
    ∃ idx, (busyIfaces worker req.queueHead).head? = some idx ∧ ifaceOk worker env req idx = false

/-- No call fails, and the device has no error for a request in the queue; a submit may fail before
any interface has its request unless `strict`. -/
def Fine (worker : Worker) (strict : Bool) (sys : System) : Call worker → Prop
  | .submit env req => SubmitOk worker env.toSubmitEnv req.toOfdReq ∨
      strict = false ∧ FailsEarly worker env.toSubmitEnv req.toOfdReq
  | .progress idx replies =>
      ∀ k r, (sys.ifaces idx).reqQueue[k]? = some r → ¬(replies k).Bad r

/-- The system after a call. -/
def next (worker : Worker) (sys : System) : Call worker → Option System
  | .submit env req => (submit worker env req sys).map Prod.fst
  | .progress idx replies => some (progress idx replies sys).1

/-- Each call of the run is. -/
def FineRun (worker : Worker) (strict : Bool) : System → List (Call worker) → Prop
  | _, [] => True
  | sys, call :: calls => Fine worker strict sys call ∧
      ∀ sys', next worker sys call = some sys' → FineRun worker strict sys' calls

/-! ### One submit -/

section Submit

variable {worker : Worker} {env : SubmitEnv} {req req' : OfdReq}

variable (env) in
/-- The loop over the interfaces stops at the first one whose request cannot be submitted. -/
theorem submitIfaces_eq (tasks : List (ℕ × Bool)) (busy ok : ℕ → Bool)
    (hbusy : ∀ idx, busy idx = true ↔ (tasks.countP fun task => task.1 = idx) % 2 ^ 16 ≠ 0)
    (hok : ∀ idx, ok idx = true ↔ (tasks.countP fun task => task.1 = idx ∧ task.2) % 2 ^ 16 ≠ 0 ∧
      env.cqeOutput idx = true ∧ (env.submit idx).val = .ok) : ∀ idxs submitted : List ℕ,
    (submitIfaces env tasks idxs submitted).1 = submitted ++ (idxs.filter busy).takeWhile ok ∧
      ((submitIfaces env tasks idxs submitted).2 = .ok ↔ ∀ idx ∈ idxs.filter busy, ok idx = true)
  | [], submitted => by simp [submitIfaces]
  | idx :: rest, submitted => by
    rw [submitIfaces]
    by_cases hzero : (tasks.countP fun task => task.1 = idx) % 2 ^ 16 = 0
    · have hfilter : busy idx ≠ true := fun h => (hbusy idx).mp h hzero
      rw [if_pos hzero, List.filter_cons_of_neg hfilter]
      exact submitIfaces_eq tasks busy ok hbusy hok rest submitted
    · have hfilter : busy idx = true := (hbusy idx).mpr hzero
      rw [if_neg hzero, List.filter_cons_of_pos hfilter]
      by_cases hidx : ok idx = true
      · obtain ⟨hcqe, hout, hsub⟩ := (hok idx).mp hidx
        rw [if_neg hcqe, if_neg (by simp [hout]), if_neg (by simp [hsub]),
          List.takeWhile_cons_of_pos hidx]
        obtain ⟨hfst, hsnd⟩ := submitIfaces_eq tasks busy ok hbusy hok rest (submitted ++ [idx])
        rw [hfst, hsnd, List.append_assoc]
        exact ⟨rfl, by simp [hidx]⟩
      · -- the loop stops here
        rw [List.takeWhile_cons_of_neg hidx, List.append_nil]
        have hnot := mt (hok idx).mpr hidx
        have hall : ¬∀ i ∈ idx :: rest.filter busy, ok i = true := fun h =>
          hidx (h idx List.mem_cons_self)
        rw [iff_false_right hall]
        split_ifs with hcqe hout hsub
        · exact ⟨rfl, by simp⟩
        · exact ⟨rfl, by simp⟩
        · exact ⟨rfl, by simp⟩
        · exact absurd ⟨hcqe, by simpa using hout, by simpa using hsub⟩ hnot

variable (env) in
/-- The loop over the queue gets to its end when all puts succeed. -/
theorem putStatus_ok_iff : ∀ (elems : List OfdReqElem) (i : ℕ), putStatus env elems i = .ok ↔
    ∀ k elem, elems[k]? = some elem → elem.isPut = true →
      ∀ lane ∈ putLanes elem.ep elem.llen elem.ep.lanes.localLanes 0,
        (env.put (i + k) lane.1).val = .ok
  | [], _ => by simp [putStatus]
  | elem :: rest, i => by
    have ih := putStatus_ok_iff rest (i + 1)
    rw [putStatus]
    cases hfind : (if elem.isPut = true then
        putLanes elem.ep elem.llen elem.ep.lanes.localLanes 0 else []).find?
        fun lane => (env.put i lane.1).val ≠ .ok with
    | some lane =>
      -- a put fails
      have hbad := List.find?_some hfind
      have hmem := List.mem_of_find?_eq_some hfind
      simp only [ne_eq, decide_not, Bool.not_eq_true', decide_eq_false_iff_not] at hbad
      split_ifs at hmem with hput
      · refine ⟨fun h => absurd h hbad, fun h => absurd (h 0 elem rfl hput lane hmem) hbad⟩
      · simp at hmem
    | none =>
      simp only [ih]
      rw [List.find?_eq_none] at hfind
      constructor
      · rintro h (_ | k) e he hput lane hlane
        · obtain rfl := Option.some.inj he
          rw [if_pos hput] at hfind
          simpa using hfind lane hlane
        · have hk := h k e he hput lane hlane
          rwa [Nat.add_right_comm, Nat.add_assoc] at hk
      · intro h k e he hput lane hlane
        have hk := h (k + 1) e he hput lane hlane
        rwa [Nat.add_right_comm, Nat.add_assoc]

/-- The elements of the queue have their puts, numbered or not. -/
theorem putStatus_queued (last : ℕ) (flagArray : ℕ → ℕ) : ∀ (elems : List OfdReqElem) (i k : ℕ),
    putStatus env (getReqFlags (elems.map fun elem =>
      if elem.address = last then { elem with flag := true } else elem) k flagArray).1 i =
      putStatus env elems i
  | [], _, _ => rfl
  | elem :: rest, i, k => by
    have ih := putStatus_queued last flagArray rest (i + 1) (k + 1)
    rw [getReqFlags_fst] at ih ⊢
    rw [List.map_cons, numbered, putStatus, putStatus, ih]
    by_cases h : elem.address = last
    · simp only [if_pos h]
    · simp only [if_neg h]

variable (worker env) in
/-- What a submit does: it fails without giving a request to an interface, or it gives one to the
first interfaces with tasks, up to one whose request cannot be submitted. -/
theorem submit_cases (hqueue : req.queueHead ≠ []) (hlast : req.lastReqElem ≠ none) :
    ∃ req' : OfdReq, req'.queueHead ≠ [] ∧
      ((¬(env.pre.val = .ok ∧ PutsOk env req) ∧ ∃ status, status ≠ .ok ∧
          scpSubmitOfdReq worker env req = some (req', [], status)) ∨
        (env.pre.val = .ok ∧ PutsOk env req ∧ ∃ status, scpSubmitOfdReq worker env req =
            some (req', (busyIfaces worker req.queueHead).takeWhile (ifaceOk worker env req),
              status) ∧
          (status = .ok ↔ ∀ idx ∈ busyIfaces worker req.queueHead,
            ifaceOk worker env req idx = true))) := by
  obtain ⟨last, hlast⟩ := Option.ne_none_iff_exists'.mp hlast
  have hmap : (req.queueHead.map fun elem =>
      if elem.address = last then { elem with flag := true } else elem) ≠ [] := by
    simpa using hqueue
  have hput := putStatus_ok_iff env req.queueHead 0
  simp only [Nat.zero_add] at hput
  rw [← PutsOk, ← putStatus_queued last req.flagArray req.queueHead 0 0] at hput
  rw [scpSubmitOfdReq, hlast, Option.map_some]
  dsimp only
  by_cases hpre : env.pre.val = .ok
  · rw [if_neg (not_not.mpr hpre)]
    have hnumbered : (getReqFlags (req.queueHead.map fun elem =>
        if elem.address = last then { elem with flag := true } else elem) 0 req.flagArray).1 ≠
          [] := by
      intro hnil
      have hlen := congrArg List.length hnil
      rw [length_getReqFlags, List.length_nil] at hlen
      exact hmap (List.eq_nil_of_length_eq_zero hlen)
    by_cases hputs : PutsOk env req
    · rw [if_neg (not_not.mpr (hput.mpr hputs))]
      have htasks : submitTasks worker req = ((getReqFlags (req.queueHead.map fun elem =>
          if elem.address = last then { elem with flag := true } else elem) 0
            req.flagArray).1.flatMap (OfdReqElem.tasks worker (getReqFlags (req.queueHead.map
          fun elem => if elem.address = last then { elem with flag := true } else elem) 0
            req.flagArray).2)) := by
        simp only [submitTasks, hlast, Option.some.injEq]
      have hloop := submitIfaces_eq env (submitTasks worker req)
        (fun idx => roundTasks worker req.queueHead idx % 2 ^ 16 ≠ 0)
        (ifaceOk worker env req) (fun idx => by rw [countP_submitTasks, decide_eq_true_eq])
        (fun idx => by rw [ifaceOk, decide_eq_true_eq, cqeCnt]) (List.range worker.numIfaces) []
      rw [htasks, ← busyIfaces, List.nil_append] at hloop
      refine ⟨_, ?_, .inr ⟨hpre, hputs, _, congrArg some (Prod.ext rfl (Prod.ext hloop.1 rfl)),
        hloop.2⟩⟩
      split_ifs
      · exact hnumbered
      · exact hnumbered
    · rw [if_pos (mt hput.mp hputs)]
      exact ⟨_, hnumbered, .inl ⟨fun h => hputs h.2, _, mt hput.mp hputs, rfl⟩⟩
  · rw [if_pos hpre]
    exact ⟨_, hmap, .inl ⟨fun h => hpre h.1, _, hpre, rfl⟩⟩

end Submit

/-! ### Runs -/

section Runs

variable {worker : Worker} {strict : Bool} {sys : System}

/-- The system is clean, and the numbers given are those of earlier submits. -/
structure Inv (sys : System) : Prop where
  clean : Clean sys
  lt : ∀ idx, ∀ number ∈ sys.submitted idx, number < sys.serial

theorem inv_init : Inv .init where
  clean := ⟨rfl, fun _ => rfl, fun _ => ⟨List.nodup_nil, .nil⟩⟩
  lt _ number h := by simp [System.init] at h

/-- The next number is not in a queue. -/
theorem Inv.notHeld (h : Inv sys) : NotHeld sys.serial sys := by
  intro idx hmem
  have hsub := (h.clean.once idx).2.subset (List.mem_append_right _ hmem)
  exact absurd (h.lt idx _ hsub) (lt_irrefl _)

theorem Inv.push (h : Inv sys) (cqeCnt : ℕ → ℕ) (idxs : List ℕ) : Inv (sys.push cqeCnt idxs) := by
  refine ⟨⟨rfl, fun idx => ?_, fun idx => ?_⟩, fun idx number hnumber => ?_⟩
  · by_cases hmem : idx ∈ idxs <;> simp [System.push, hmem, h.clean.flags idx]
  · obtain ⟨hnodup, hperm⟩ := h.clean.once idx
    by_cases hmem : idx ∈ idxs
    · simp only [System.push, if_pos hmem, List.map_append, List.map_cons, List.map_nil]
      refine ⟨?_, ?_⟩
      · refine List.nodup_append.mpr ⟨hnodup, List.nodup_singleton _, ?_⟩
        rintro a ha b hb rfl
        rw [List.mem_singleton] at hb
        exact absurd (h.lt idx _ ha) (by omega)
      · rw [← List.append_assoc]
        exact hperm.append_right _
    · simp only [System.push, if_neg hmem]
      exact ⟨hnodup, hperm⟩
  · simp only [System.push] at hnumber ⊢
    split_ifs at hnumber with hmem
    · rcases List.mem_append.mp hnumber with hnumber | hnumber
      · exact (h.lt idx number hnumber).trans (Nat.lt_succ_self _)
      · rw [List.mem_singleton] at hnumber
        omega
    · exact (h.lt idx number hnumber).trans (Nat.lt_succ_self _)

/-- An interface holds the request of a submit exactly when it was given one. -/
theorem Inv.notHeld_push (h : Inv sys) (cqeCnt : ℕ → ℕ) {idxs : List ℕ} :
    NotHeld sys.serial (sys.push cqeCnt idxs) ↔ idxs = [] := by
  constructor
  · intro hheld
    refine List.eq_nil_iff_forall_not_mem.mpr fun idx hmem => hheld idx ?_
    simp [System.push, hmem]
  · rintro rfl
    exact h.notHeld

/-- What a submit does to a clean system: it succeeds when no call fails; otherwise the elements
stay in the queue, and an interface has the request unless the submit failed early. -/
theorem Inv.submit (h : Inv sys) (env : Env worker) (req : QueuedReq) :
    ∃ sys' req' status, SubmitErrors.submit worker env req sys = some (sys', req', status) ∧
      Inv sys' ∧
      ((SubmitOk worker env.toSubmitEnv req.toOfdReq ∧ status = .ok) ∨
        (¬SubmitOk worker env.toSubmitEnv req.toOfdReq ∧ status ≠ .ok ∧ ¬IsFresh req' ∧
          (NotHeld sys.serial sys' ↔ FailsEarly worker env.toSubmitEnv req.toOfdReq))) := by
  have hmutex := h.clean.mutex
  obtain ⟨req', hqueue, ⟨hfail, status, hst, heq⟩ | ⟨hpre, hputs, status, heq, hiff⟩⟩ :=
    submit_cases worker env.toSubmitEnv req.queue_ne req.last_ne
  · have hearly : FailsEarly worker env.toSubmitEnv req.toOfdReq := by
      by_cases hpre : env.pre.val = .ok
      · exact .inr (.inl fun hputs => hfail ⟨hpre, hputs⟩)
      · exact .inl hpre
    have hnot : ¬SubmitOk worker env.toSubmitEnv req.toOfdReq := fun hok => hfail ⟨hok.1, hok.2.1⟩
    by_cases hpre : env.pre.val = .ok
    · refine ⟨_, req', status, by
          simp only [SubmitErrors.submit, heq, hpre, ne_eq, not_true_eq_false, if_false, hmutex,
            Bool.false_eq_true]
          rfl, h.push _ _, .inr ⟨hnot, hst, fun hf => hqueue hf.1, ?_⟩⟩
      exact iff_of_true ((h.notHeld_push _).mpr rfl) hearly
    · refine ⟨sys, req', status, by simp only [SubmitErrors.submit, heq, if_pos hpre], h,
        .inr ⟨hnot, hst, fun hf => hqueue hf.1, ?_⟩⟩
      exact iff_of_true h.notHeld hearly
  · refine ⟨_, req', status, by
        simp only [SubmitErrors.submit, heq, hpre, ne_eq, not_true_eq_false, if_false, hmutex,
          Bool.false_eq_true]
        rfl, h.push _ _, ?_⟩
    by_cases hall : ∀ idx ∈ busyIfaces worker req.queueHead,
        ifaceOk worker env.toSubmitEnv req.toOfdReq idx = true
    · exact .inl ⟨⟨hpre, hputs, hall⟩, hiff.mpr hall⟩
    · refine .inr ⟨fun hok => hall hok.2.2, mt hiff.mp hall, fun hf => hqueue hf.1, ?_⟩
      rw [h.notHeld_push]
      -- some interface fails, and it is the first one or not
      rcases hbusy : busyIfaces worker req.queueHead with _ | ⟨idx, rest⟩
      · rw [hbusy] at hall
        exact absurd (fun _ hi => absurd hi List.not_mem_nil) hall
      · have hputs' : ¬¬PutsOk env.toSubmitEnv req.toOfdReq := not_not.mpr hputs
        have hearly : FailsEarly worker env.toSubmitEnv req.toOfdReq ↔
            ifaceOk worker env.toSubmitEnv req.toOfdReq idx = false := by
          simp [FailsEarly, hpre, hputs, hbusy]
        rw [hearly]
        cases hidx : ifaceOk worker env.toSubmitEnv req.toOfdReq idx with
        | true => simp [List.takeWhile_cons_of_pos hidx]
        | false => simp [hidx]

/-- A progress call keeps the system clean exactly when the device has no error. -/
theorem Inv.progress_iff (h : Inv sys) (idx : ℕ) (replies : ℕ → CqeReply) :
    ((∀ k r, (sys.ifaces idx).reqQueue[k]? = some r → ¬(replies k).Bad r) ∧
      Inv (progress idx replies sys).1 ∧ Reports idx replies sys) ∨
    (¬(∀ k r, (sys.ifaces idx).reqQueue[k]? = some r → ¬(replies k).Bad r) ∧
      ¬Clean (progress idx replies sys).1) := by
  have hfailed := notifyLoop_failed replies 0 (sys.ifaces idx).reqQueue
  have hperm := notifyLoop_perm replies 0 (sys.ifaces idx).reqQueue
  simp only [Nat.zero_add] at hfailed
  have hprogress : notifyProgress replies (sys.ifaces idx) =
      (⟨(notifyLoop replies 0 (sys.ifaces idx).reqQueue).failed,
          (notifyLoop replies 0 (sys.ifaces idx).reqQueue).reqQueue⟩,
        (notifyLoop replies 0 (sys.ifaces idx).reqQueue).reported,
        if (notifyLoop replies 0 (sys.ifaces idx).reqQueue).failed then .errIoError else .ok) :=
    if_neg (by simp [h.clean.flags idx])
  have hflag : ((progress idx replies sys).1.ifaces idx).waitFlag =
      (notifyLoop replies 0 (sys.ifaces idx).reqQueue).failed := by
    simp [progress, hprogress]
  by_cases hbad : ∃ k r, (sys.ifaces idx).reqQueue[k]? = some r ∧ (replies k).Bad r
  · right
    obtain ⟨k, r, hk, hr⟩ := hbad
    refine ⟨fun hall => hall k r hk hr, fun hclean => ?_⟩
    have hfalse := hclean.flags idx
    rw [hflag, hfailed.mpr ⟨k, r, hk, hr⟩] at hfalse
    exact absurd hfalse (by decide)
  · left
    have hok : (notifyLoop replies 0 (sys.ifaces idx).reqQueue).failed = false := by
      rw [← Bool.not_eq_true, hfailed]
      exact hbad
    refine ⟨fun k r hk hr => hbad ⟨k, r, hk, hr⟩, ⟨⟨h.clean.mutex, fun i => ?_, fun i => ?_⟩, h.lt⟩,
      fun k r hk hwaited => ?_⟩
    · by_cases hi : i = idx
      · subst hi
        rw [hflag, hok]
      · simp only [progress, Function.update_of_ne hi]
        exact h.clean.flags i
    · by_cases hi : i = idx
      · subst hi
        obtain ⟨hnodup, hp⟩ := h.clean.once i
        refine ⟨hnodup, ?_⟩
        simp only [progress, hprogress, Function.update_self, List.append_assoc]
        exact (hperm.append_left _).trans hp
      · simp only [progress, Function.update_of_ne hi]
        exact h.clean.once i
    · simp only [progress, hprogress, Function.update_self]
      exact List.mem_append_right _ (mem_reported hok hk (by rwa [Nat.zero_add]))

theorem keeps_of_inv : ∀ {sys : System} (calls : List (Call worker)), Inv sys →
    (Keeps worker strict sys calls ↔ FineRun worker strict sys calls)
  | _, [], _ => Iff.rfl
  | sys, .progress idx replies :: calls, h => by
    simp only [Keeps, FineRun, next, Option.some.injEq, forall_eq']
    rcases h.progress_iff idx replies with ⟨hfine, hinv, hreports⟩ | ⟨hfine, hbad⟩
    · rw [keeps_of_inv calls hinv]
      exact ⟨fun hk => ⟨hfine, hk.2.2⟩, fun hr => ⟨hinv.clean, hreports, hr.2⟩⟩
    · exact ⟨fun hk => absurd hk.1 hbad, fun hr => absurd hr.1 hfine⟩
  | sys, .submit env req :: calls, h => by
    obtain ⟨sys', req', status, heq, hinv, hcase⟩ := h.submit env req
    have hnext : next worker sys (.submit env req) = some sys' := by
      simp only [next, heq, Option.map_some]
    have ih := keeps_of_inv calls hinv
    rw [FineRun, hnext]
    simp only [Keeps, heq, Option.some.injEq, Prod.mk.injEq, forall_eq', Fine]
    rw [← ih]
    constructor
    · rintro ⟨_, _, _, ⟨rfl, rfl, rfl⟩, -, hfail, hkeeps⟩
      refine ⟨?_, hkeeps⟩
      rcases hcase with ⟨hok, -⟩ | ⟨-, hst, hfresh, hheld⟩
      · exact .inl hok
      · right
        obtain ⟨hnot, hstrict⟩ := hfail hst
        refine ⟨?_, hheld.mp hnot⟩
        rw [← Bool.not_eq_true]
        exact fun hs => hfresh (hstrict hs)
    · rintro ⟨hfine, hkeeps⟩
      refine ⟨_, _, _, ⟨rfl, rfl, rfl⟩, hinv.clean, fun hst => ?_, hkeeps⟩
      rcases hcase with ⟨-, hok⟩ | ⟨hnot, -, -, hheld⟩
      · exact absurd hok hst
      · obtain ⟨hs, hearly⟩ := hfine.resolve_left hnot
        exact ⟨hheld.mpr hearly, fun hs' => absurd hs' (by simp [hs])⟩

end Runs

/-- In a run, each call leaves the mutex free, no interface busy, each request reported once or
still queued, and what a failed submit leaves behind clean, exactly when no submit fails and no
progress call meets an error of the device. If the elements of a failed submit may stay in their
queue, a submit may fail before any interface has its request. -/
theorem clean_iff_fineRun (worker : Worker) (strict : Bool) (calls : List (Call worker)) :
    Keeps worker strict .init calls ↔ FineRun worker strict .init calls :=
  keeps_of_inv calls inv_init

/-- A wait through one lane. -/
def waitOne : QueuedReq where
  toOfdReq := ⟨[⟨0, false, oneLane, 0, false, false, 0⟩], some 0, .ok, 0, 0, fun _ => 0⟩
  queue_ne := by simp
  last_ne := by simp

/-- Calls that succeed. -/
def calm : Env ⟨1, fun _ => true, by decide⟩ := ⟨SubmitEnv.success, fun _ _ => rfl⟩

/-- The device has an error once, and the interface stays busy. -/
theorem not_keeps_progress : ¬Keeps ⟨1, fun _ => true, by decide⟩ true .init
    [.submit calm waitOne, .progress 0 fun _ => ⟨true, 0⟩] := by
  rintro ⟨sys, req, status, hsubmit, -, -, hclean, -⟩
  obtain ⟨rfl, -⟩ := Prod.mk.inj (Option.some.inj hsubmit)
  exact absurd (hclean.flags 0) (by decide)

end SubmitErrors

end Kucg.Stars
