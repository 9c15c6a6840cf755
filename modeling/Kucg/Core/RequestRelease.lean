import Kucg.Core.Request
import Kucg.Lib.Handles

/-! The memory of requests and the lock of their context.

    A request leads to the lock of its context through its group (`request->group->context`), at the
    entry of an API function and again at its exit. In between the request can be released: by
    `discard` in `ucg_request_cleanup`, and in the functions that complete a request by its
    callback, which may call `ucg_request_cleanup`. The functions here are those of `Request`, with
    the callback and with a log of what they do to requests and locks; where nothing is released
    they are the same (`callLogged_kept`). A released request leads to whatever its memory then
    holds. -/

namespace Kucg.Core
open Kucg.Handles

variable {E S : Type}

/-- The lock of the context, and what the memory of a released request leads to. -/
structure Locks where
  lock : ℕ
  stale : ℕ → ℕ

/-- An event of the API: locks by their address, requests by their handle. -/
abbrev ReqEvent := Handles.Event ℕ ℕ

/-- `request->group->context`, for its lock. -/
def Locks.of (locks : Locks) (ctx : Context S) (r : ℕ) : ℕ :=
  match ctx.reqs r with
  | some _ => locks.lock
  | none => locks.stale r

/-- `ucg_context_lock` on the context of a request. -/
def Locks.enter (locks : Locks) (ctx : Context S) (r : ℕ) : List ReqEvent :=
  [.access r, .enter (locks.of ctx r)]

/-- `ucg_context_unlock` on the context of a request. -/
def Locks.leave (locks : Locks) (ctx : Context S) (r : ℕ) : List ReqEvent :=
  [.access r, .leave (locks.of ctx r)]

/-- What a call leaves, returns and does. -/
structure Logged (S : Type) where
  ctx : Context S
  status : Status
  log : List ReqEvent

/-- `ucg_request_init`. -/
def initLogged (locks : Locks) (group : ℕ) (state : S) (r : ℕ) (ctx : Context S) : Logged S :=
  match ctx.reqs r with
  | some _ => ⟨ctx, .errInvalidParam, [.enter locks.lock, .leave locks.lock]⟩
  | none =>
    ⟨ctx.setReq r ⟨.ok, groupBaseReqId, group, state⟩, .ok,
      [.enter locks.lock, .acquire r, .access r, .leave locks.lock]⟩

/-- `ucg_request_cleanup`. `discard` gives the memory of the request back. -/
def cleanupLogged (locks : Locks) (r : ℕ) (ctx : Context S) : Logged S :=
  match ctx.reqs r with
  | none => ⟨ctx, .errInvalidParam, []⟩
  | some req =>
    let log := locks.enter ctx r ++ [.access r]
    if req.status = .inprogress then ⟨ctx, .inprogress, log ++ locks.leave ctx r⟩
    else
      let ctx := { ctx with reqs := Function.update ctx.reqs r none }
      ⟨ctx, .ok, log ++ [.access r, .release r] ++ locks.leave ctx r⟩

/-- `ucg_request_complete`. `cleans` says whether the callback of a request, if it has one, calls
    `ucg_request_cleanup` on it. -/
def completeLogged (locks : Locks) (cleans : ℕ → Bool) (r : ℕ) (op : PlanOp S) (ctx : Context S) :
    Context S × List ReqEvent :=
  let ctx := ctx.setReq r { op with id := groupBaseReqId }
  if cleans r then
    let out := cleanupLogged locks r ctx
    (out.ctx, .access r :: out.log)
  else (ctx, [.access r])

/-- `ucg_request_start`. -/
def startLogged (locks : Locks) (f : PlanFuncs E S) (e : E) (cleans : ℕ → Bool) (r : ℕ)
    (ctx : Context S) : Logged S :=
  match ctx.reqs r with
  | none => ⟨ctx, .errInvalidParam, []⟩
  | some req =>
    let log := locks.enter ctx r ++ [.access r]
    if req.status ≠ .ok then ⟨ctx, req.status, log ++ locks.leave ctx r ++ [.access r]⟩
    else
      let id := groupAllocReqId (ctx.uniqueReqId req.group)
      let ctx := { ctx with uniqueReqId := Function.update ctx.uniqueReqId req.group id }
      let (op, status) := f.trigger e { req with id := id }
      let log := log ++ [.access r]
      if status = .ok then
        if op.status = .inprogress then
          let ctx := { ctx.setReq r op with plist := ctx.plist ++ [r] }
          ⟨ctx, status, log ++ [.access r] ++ locks.leave ctx r⟩
        else
          let (ctx, completed) := completeLogged locks cleans r op ctx
          ⟨ctx, status, log ++ completed ++ locks.leave ctx r⟩
      else ⟨ctx.setReq r op, status, log ++ locks.leave (ctx.setReq r op) r⟩

/-- `ucg_request_test`. -/
def testLogged (locks : Locks) (f : PlanFuncs E S) (e : E) (cleans : ℕ → Bool) (r : ℕ)
    (ctx : Context S) : Logged S :=
  match ctx.reqs r with
  | none => ⟨ctx, .errInvalidParam, []⟩
  | some req =>
    let log := locks.enter ctx r ++ [.access r]
    if req.status ≠ .inprogress then ⟨ctx, req.status, log ++ locks.leave ctx r ++ [.access r]⟩
    else
      let (op, status) := f.progress e req
      let log := log ++ [.access r]
      if status ≠ .inprogress then
        let ctx := { ctx with plist := ctx.plist.erase r }
        let (ctx, completed) := completeLogged locks cleans r op ctx
        ⟨ctx, status, log ++ [.access r] ++ completed ++ locks.leave ctx r⟩
      else ⟨ctx.setReq r op, status, log ++ locks.leave (ctx.setReq r op) r⟩

/-- The list node behind that of a request. -/
def successor (plist : List ℕ) (r : ℕ) : Option ℕ := (plist.dropWhile (· != r)).tail.head?

/-- The loop of `ucg_context_progress` from one node of the list on, for a number of rounds: the
    node behind is read before the request is tested. It counts the completed requests. -/
def progressLoop (locks : Locks) (f : PlanFuncs E S) (e : ℕ → E) (cleans : ℕ → Bool) :
    ℕ → Option ℕ → Context S → Context S × ℕ × List ReqEvent
  | 0, _, ctx => (ctx, 0, [])
  | _ + 1, none, ctx => (ctx, 0, [])
  | k + 1, some r, ctx =>
    let next := successor ctx.plist r
    let out := testLogged locks f (e r) cleans r ctx
    let rest := progressLoop locks f e cleans k next out.ctx
    (rest.1, (if out.status ≠ .inprogress then 1 else 0) + rest.2.1,
      .access r :: (out.log ++ rest.2.2))

/-- `ucg_context_progress`, before the plan components make progress on their own. -/
def progressLogged (locks : Locks) (f : PlanFuncs E S) (e : ℕ → E) (cleans : ℕ → Bool)
    (ctx : Context S) : Context S × ℕ × List ReqEvent :=
  if ctx.plist = [] then (ctx, 0, [.enter locks.lock, .leave locks.lock])
  else
    let out := progressLoop locks f e cleans ctx.plist.length ctx.plist.head? ctx
    (out.1, out.2.1, .enter locks.lock :: (out.2.2 ++ [.leave locks.lock]))

/-- A call of the API, with what the callbacks do in it: the context after it, and its log. -/
def callLogged (locks : Locks) (f : PlanFuncs E S) (cleans : ℕ → Bool) (ctx : Context S) :
    ReqCall E S → Context S × List ReqEvent
  | .init group state r =>
    let out := initLogged locks group state r ctx
    (out.ctx, out.log)
  | .start e r =>
    let out := startLogged locks f e cleans r ctx
    (out.ctx, out.log)
  | .test e r =>
    let out := testLogged locks f e cleans r ctx
    (out.ctx, out.log)
  | .progress e =>
    let out := progressLogged locks f e cleans ctx
    (out.1, out.2.2)
  | .cleanup r =>
    let out := cleanupLogged locks r ctx
    (out.ctx, out.log)

/-- The log of a sequence of calls. -/
def runLogged (locks : Locks) (f : PlanFuncs E S) :
    List (ReqCall E S × (ℕ → Bool)) → Context S → List ReqEvent
  | [], _ => []
  | (call, cleans) :: rest, ctx =>
    let out := callLogged locks f cleans ctx call
    out.2 ++ runLogged locks f rest out.1

/-- `ucg_request_start` would complete the request at once. -/
def StartCompletes (f : PlanFuncs E S) (e : E) (r : ℕ) (ctx : Context S) : Prop :=
  ∃ req, ctx.reqs r = some req ∧ req.status = .ok ∧
    let out := f.trigger e { req with id := groupAllocReqId (ctx.uniqueReqId req.group) }
    out.2 = .ok ∧ out.1.status ≠ .inprogress

/-- `ucg_request_test` would complete the request. -/
def TestCompletes (f : PlanFuncs E S) (e : E) (r : ℕ) (ctx : Context S) : Prop :=
  ∃ req, ctx.reqs r = some req ∧ req.status = .inprogress ∧ (f.progress e req).2 ≠ .inprogress

/-- The call keeps every request: a request that it completes is not cleaned up by its callback, and
    a request that is to be cleaned up is still in progress. -/
def Keeps (f : PlanFuncs E S) (cleans : ℕ → Bool) (ctx : Context S) : ReqCall E S → Prop
  | .init .. => True
  | .start e r => StartCompletes f e r ctx → cleans r = false
  | .test e r => TestCompletes f e r ctx → cleans r = false
  | .progress e => ∀ r ∈ ctx.plist, TestCompletes f (e r) r ctx → cleans r = false
  | .cleanup r => ∀ req, ctx.reqs r = some req → req.status = .inprogress

/-- All calls of a sequence keep every request. -/
def AllKeep (f : PlanFuncs E S) : List (ReqCall E S × (ℕ → Bool)) → Context S → Prop
  | [], _ => True
  | (call, cleans) :: rest, ctx => Keeps f cleans ctx call ∧ AllKeep f rest (ctx.step f call)

/-! ### One call -/

section Calls

variable (locks : Locks) (f : PlanFuncs E S) (cleans : ℕ → Bool)

/-- Every handle that the ledger has as released is free. -/
def Agrees (ledger : Ledger ℕ ℕ) (ctx : Context S) : Prop :=
  ∀ r, ledger.dead r = true → ctx.reqs r = none

/-- The list holds requests in progress, each once. -/
def Linked (ctx : Context S) : Prop :=
  ctx.plist.Nodup ∧ ∀ r ∈ ctx.plist, ∃ req, ctx.reqs r = some req ∧ req.status = .inprogress

theorem Agrees.live {ledger : Ledger ℕ ℕ} {ctx : Context S} (h : Agrees ledger ctx) {r : ℕ}
    {req : PlanOp S} (hr : ctx.reqs r = some req) : ledger.dead r = false := by
  cases hd : ledger.dead r with
  | false => rfl
  | true => simp [h r hd] at hr

theorem Agrees.setReq {ledger : Ledger ℕ ℕ} {ctx : Context S} (h : Agrees ledger ctx) {r : ℕ}
    (hr : ledger.dead r = false) (op : PlanOp S) : Agrees ledger (ctx.setReq r op) := by
  intro r' hr'
  have hne : r' ≠ r := by
    rintro rfl
    simp [hr] at hr'
  rw [setReq_of_ne ctx hne]
  exact h r' hr'

theorem of_live {ctx : Context S} {r : ℕ} {req : PlanOp S} (hr : ctx.reqs r = some req) :
    locks.of ctx r = locks.lock := by
  simp [Locks.of, hr]

@[simp] theorem of_setReq (ctx : Context S) (r : ℕ) (op : PlanOp S) :
    locks.of (ctx.setReq r op) r = locks.lock := by
  simp [Locks.of]

/-- A ledger that stops stops for good. -/
theorem run_append_none {ledger : Ledger ℕ ℕ} {log : List ReqEvent} (h : ledger.run log = none)
    (log' : List ReqEvent) : ledger.run (log ++ log') = none := by
  rw [Ledger.run_append, h, Option.bind_none]

theorem cleanup_keeps {ctx : Context S} {r : ℕ} {req : PlanOp S} {ledger : Ledger ℕ ℕ}
    (hr : ctx.reqs r = some req) (hlive : ledger.dead r = false) (hst : req.status = .inprogress) :
    (cleanupLogged locks r ctx).ctx = (requestCleanup r ctx).1 ∧
      ledger.run (cleanupLogged locks r ctx).log = some ledger := by
  refine ⟨by simp [cleanupLogged, requestCleanup, hr, hst], ?_⟩
  simp [cleanupLogged, hr, hst, Locks.enter, Locks.leave, Ledger.run_access, hlive]

/-- A request that is released is used once more, to find the lock. -/
theorem cleanup_releases {ctx : Context S} {r : ℕ} {req : PlanOp S} {ledger : Ledger ℕ ℕ}
    (hr : ctx.reqs r = some req) (hlive : ledger.dead r = false) (hst : req.status ≠ .inprogress) :
    ledger.run (cleanupLogged locks r ctx).log = none := by
  simp [cleanupLogged, hr, hst, Locks.enter, Locks.leave, Ledger.run_access, Ledger.run_release,
    Ledger.run_access_dead, hlive]

theorem complete_releases {r : ℕ} (op : PlanOp S) (ledger : Ledger ℕ ℕ) (ctx : Context S)
    (hlive : ledger.dead r = false) (hc : cleans r = true) (hst : op.status ≠ .inprogress) :
    ledger.run (completeLogged locks cleans r op ctx).2 = none := by
  simp only [completeLogged, hc, if_true, Ledger.run_access _ _ hlive]
  exact cleanup_releases locks (setReq_self ctx r _) hlive hst

theorem start_keeps {ctx : Context S} {e : E} {r : ℕ} {req : PlanOp S} {ledger : Ledger ℕ ℕ}
    (hr : ctx.reqs r = some req) (hlive : ledger.dead r = false)
    (h : StartCompletes f e r ctx → cleans r = false) :
    (startLogged locks f e cleans r ctx).ctx = (requestStart f e r ctx).1 ∧
      ledger.run (startLogged locks f e cleans r ctx).log = some ledger := by
  by_cases hst : req.status = .ok
  swap
  · simp [startLogged, requestStart, hr, hst, Locks.enter, Locks.leave, Ledger.run_access, hlive]
  obtain ⟨_, id, group, state⟩ := req
  obtain rfl := hst
  rcases htrig : f.trigger e ⟨.ok, groupAllocReqId (ctx.uniqueReqId group), group, state⟩ with
    ⟨op, status⟩
  by_cases hok : status = .ok
  swap
  · simp [startLogged, requestStart, hr, htrig, hok, Locks.enter, Locks.leave, Ledger.run_access,
      hlive, of_live locks hr]
  by_cases hprog : op.status = .inprogress
  · refine ⟨by simp [startLogged, requestStart, hr, htrig, hok, hprog], ?_⟩
    simp [startLogged, hr, htrig, hok, hprog, Locks.enter, Locks.leave, Ledger.run_access, hlive,
      Locks.of]
  · have hc : cleans r = false := h ⟨_, hr, rfl, by simp [htrig, hok, hprog]⟩
    simp [startLogged, requestStart, hr, htrig, hok, hprog, Locks.enter, Locks.leave,
      Ledger.run_access, hlive, of_live locks hr, completeLogged, hc]

/-- A request that its callback releases is used once more. -/
theorem start_releases {ctx : Context S} {e : E} {r : ℕ} {ledger : Ledger ℕ ℕ}
    (hagree : Agrees ledger ctx) (h : StartCompletes f e r ctx) (hc : cleans r = true) :
    ledger.run (startLogged locks f e cleans r ctx).log = none := by
  obtain ⟨⟨_, id, group, state⟩, hr, hst, hout⟩ := h
  obtain rfl := hst
  have hlive := hagree.live hr
  rcases htrig : f.trigger e ⟨.ok, groupAllocReqId (ctx.uniqueReqId group), group, state⟩ with
    ⟨op, status⟩
  simp only [htrig] at hout
  obtain ⟨rfl, hprog⟩ := hout
  have hcomplete :=
    complete_releases locks cleans (r := r) op ⟨ledger.dead, locks.lock :: ledger.locks⟩
    ⟨ctx.reqs, ctx.plist, Function.update ctx.uniqueReqId group
      (groupAllocReqId (ctx.uniqueReqId group))⟩ hlive hc hprog
  simp [startLogged, hr, htrig, hprog, Locks.enter, Ledger.run_access, hlive, of_live locks hr,
    run_append_none hcomplete]

theorem test_keeps {ctx : Context S} {e : E} {r : ℕ} {req : PlanOp S}
    {ledger : Ledger ℕ ℕ} (hr : ctx.reqs r = some req) (hlive : ledger.dead r = false)
    (h : TestCompletes f e r ctx → cleans r = false) :
    (testLogged locks f e cleans r ctx).ctx = (requestTest f e r ctx).1 ∧
      ledger.run (testLogged locks f e cleans r ctx).log = some ledger := by
  by_cases hst : req.status = .inprogress
  swap
  · simp [testLogged, requestTest, hr, hst, Locks.enter, Locks.leave, Ledger.run_access, hlive]
  rcases hprog : f.progress e req with ⟨op, status⟩
  by_cases hdone : status = .inprogress
  · simp [testLogged, requestTest, hr, hst, hprog, hdone, Locks.enter, Locks.leave,
      Ledger.run_access, hlive, of_live locks hr]
  · have hc : cleans r = false := h ⟨_, hr, hst, by simp [hprog, hdone]⟩
    simp [testLogged, requestTest, hr, hst, hprog, hdone, Locks.enter, Locks.leave,
      Ledger.run_access, hlive, of_live locks hr, completeLogged, hc]
    rfl

theorem test_releases (hf : f.Lawful) {ctx : Context S} {e : E} {r : ℕ} {ledger : Ledger ℕ ℕ}
    (hagree : Agrees ledger ctx) (h : TestCompletes f e r ctx) (hc : cleans r = true) :
    ledger.run (testLogged locks f e cleans r ctx).log = none := by
  obtain ⟨req, hr, hst, hdone⟩ := h
  have hlive := hagree.live hr
  have hlaw := hf.progress_status e req
  rcases hprog : f.progress e req with ⟨op, status⟩
  simp only [hprog] at hdone hlaw
  have hcomplete :=
    complete_releases locks cleans (r := r) op ⟨ledger.dead, locks.lock :: ledger.locks⟩
    ⟨ctx.reqs, ctx.plist.erase r, ctx.uniqueReqId⟩ hlive hc
    (hlaw ▸ hdone)
  simp [testLogged, hr, hst, hprog, hdone, Locks.enter, Ledger.run_access, hlive, of_live locks hr,
    run_append_none hcomplete]

end Calls

/-! ### What a test leaves -/

section Test

variable {f : PlanFuncs E S} {ctx : Context S} {e : E} {r : ℕ}

theorem requestTest_reqs_of_ne {r' : ℕ} (h : r' ≠ r) :
    (requestTest f e r ctx).1.reqs r' = ctx.reqs r' := by
  unfold requestTest
  split
  · rfl
  split
  · rfl
  dsimp only
  split
  · exact setReq_of_ne ctx h _
  · exact setReq_of_ne ctx h _

theorem requestTest_none {r' : ℕ} (h : ctx.reqs r' = none) :
    (requestTest f e r ctx).1.reqs r' = none := by
  rcases eq_or_ne r' r with rfl | hne
  · simp [requestTest, h]
  · rw [requestTest_reqs_of_ne hne, h]

variable (f ctx e r) in
/-- A request is taken off the list when it completes. -/
theorem requestTest_plist :
    (requestTest f e r ctx).1.plist = ctx.plist ∨
      (requestTest f e r ctx).1.plist = ctx.plist.erase r := by
  unfold requestTest
  split
  · exact .inl rfl
  split
  · exact .inl rfl
  dsimp only
  split
  · exact .inr rfl
  · exact .inl rfl

theorem Linked.test (hf : f.Lawful) (h : Linked ctx) : Linked (requestTest f e r ctx).1 := by
  have hothers : ∀ r' ∈ ctx.plist, r' ≠ r → ∃ req, (requestTest f e r ctx).1.reqs r' = some req ∧
      req.status = .inprogress := by
    intro r' hr' hne
    rw [requestTest_reqs_of_ne hne]
    exact h.2 r' hr'
  cases hr : ctx.reqs r with
  | none => simpa [requestTest, hr] using h
  | some req =>
    by_cases hst : req.status = .inprogress
    swap
    · simpa [requestTest, hr, hst] using h
    have hlaw := hf.progress_status e req
    rcases hprog : f.progress e req with ⟨op, status⟩
    simp only [hprog] at hlaw
    by_cases hdone : status = .inprogress
    · have hout : (requestTest f e r ctx).1 = ctx.setReq r op := by
        simp [requestTest, hr, hst, hprog, hdone]
      refine ⟨by rw [hout]; exact h.1, fun r' hr' => ?_⟩
      rw [hout, setReq_plist] at hr'
      rcases eq_or_ne r' r with rfl | hne
      · rw [hout]
        exact ⟨op, setReq_self .., hlaw ▸ hdone⟩
      · exact hothers r' hr' hne
    · have hout : (requestTest f e r ctx).1.plist = ctx.plist.erase r := by
        simp [requestTest, hr, hst, hprog, hdone]
      refine ⟨by rw [hout]; exact h.1.erase r, fun r' hr' => ?_⟩
      rw [hout] at hr'
      obtain ⟨hne, hmem⟩ := (h.1.mem_erase_iff).mp hr'
      exact hothers r' hmem hne

theorem testCompletes_congr {ctx' : Context S} (h : ctx'.reqs r = ctx.reqs r) :
    TestCompletes f e r ctx' ↔ TestCompletes f e r ctx := by
  rw [TestCompletes, TestCompletes, h]

theorem Agrees.test {ledger : Ledger ℕ ℕ} (h : Agrees ledger ctx) :
    Agrees ledger (requestTest f e r ctx).1 :=
  fun r' hr' => requestTest_none (h r' hr')

end Test

/-! ### The progress loop -/

section Loop

variable (locks : Locks) {f : PlanFuncs E S} (e : ℕ → E) (cleans : ℕ → Bool)

theorem successor_append {pre rest : List ℕ} {r : ℕ} (h : r ∉ pre) :
    successor (pre ++ r :: rest) r = rest.head? := by
  have hpre : ∀ x ∈ pre, (x != r) = true := by
    intro x hx
    simp only [bne_iff_ne, ne_eq]
    rintro rfl
    exact h hx
  simp [successor, List.dropWhile_append_of_pos hpre]

/-- What stands behind the tested request stays on the list. -/
theorem plist_after_test {ctx : Context S} {pre rest : List ℕ} {r : ℕ} (h : Linked ctx)
    (hlist : ctx.plist = pre ++ r :: rest) :
    ∃ pre', (requestTest f (e r) r ctx).1.plist = pre' ++ rest := by
  rcases requestTest_plist f ctx (e r) r with hsame | herase
  · exact ⟨pre ++ [r], by simp [hsame, hlist]⟩
  · have hnot : r ∉ pre := by
      intro hmem
      have := h.1
      rw [hlist, List.nodup_append] at this
      exact this.2.2 r hmem r (by simp) rfl
    refine ⟨pre, ?_⟩
    rw [herase, hlist, List.erase_append_right _ hnot, List.erase_cons_head]

theorem progressLoop_keeps (hf : f.Lawful) (ledger : Ledger ℕ ℕ) :
    ∀ (rest pre : List ℕ) (k : ℕ) (ctx : Context S), Linked ctx → Agrees ledger ctx →
      ctx.plist = pre ++ rest → rest.length ≤ k →
      (∀ r ∈ rest, TestCompletes f (e r) r ctx → cleans r = false) →
      (progressLoop locks f e cleans k rest.head? ctx).1 =
          rest.foldl (fun ctx r => (requestTest f (e r) r ctx).1) ctx ∧
        ledger.run (progressLoop locks f e cleans k rest.head? ctx).2.2 = some ledger
  | [], _, k, ctx, _, _, _, _, _ => by
    cases k <;> exact ⟨rfl, rfl⟩
  | r :: rest, pre, 0, ctx, _, _, _, hk, _ => by simp at hk
  | r :: rest, pre, k + 1, ctx, hlink, hagree, hlist, hk, hkeep => by
    obtain ⟨req, hr, -⟩ := hlink.2 r (by simp [hlist])
    have hlive := hagree.live hr
    have hnodup := hlink.1
    rw [hlist, List.nodup_append] at hnodup
    have hpre : r ∉ pre := fun hmem => hnodup.2.2 r hmem r (by simp) rfl
    have hrest : r ∉ rest := (List.nodup_cons.mp hnodup.2.1).1
    obtain ⟨htest, hrun⟩ := test_keeps locks f cleans (e := e r) hr hlive (hkeep r (by simp))
    obtain ⟨pre', hlist'⟩ := plist_after_test (f := f) e hlink hlist
    obtain ⟨ihctx, ihrun⟩ := progressLoop_keeps hf ledger rest pre' k (requestTest f (e r) r ctx).1
      (hlink.test hf) hagree.test hlist' (by simpa using hk) (fun r' hr' hcomp =>
        hkeep r' (by simp [hr']) ((testCompletes_congr (requestTest_reqs_of_ne
          (by rintro rfl; exact hrest hr'))).mp hcomp))
    simp only [List.head?_cons, progressLoop, hlist, successor_append hpre, htest]
    refine ⟨ihctx, ?_⟩
    rw [Ledger.run_access _ _ hlive, Ledger.run_append, hrun, Option.bind_some]
    exact ihrun

/-- The first request that its callback releases ends it. -/
theorem progressLoop_releases (hf : f.Lawful) (ledger : Ledger ℕ ℕ) :
    ∀ (rest pre : List ℕ) (k : ℕ) (ctx : Context S), Linked ctx → Agrees ledger ctx →
      ctx.plist = pre ++ rest → rest.length ≤ k →
      (∃ r ∈ rest, TestCompletes f (e r) r ctx ∧ cleans r = true) →
      ledger.run (progressLoop locks f e cleans k rest.head? ctx).2.2 = none
  | [], _, k, ctx, _, _, _, _, hex => by simp at hex
  | r :: rest, pre, 0, ctx, _, _, _, hk, _ => by simp at hk
  | r :: rest, pre, k + 1, ctx, hlink, hagree, hlist, hk, hex => by
    obtain ⟨req, hr, -⟩ := hlink.2 r (by simp [hlist])
    have hlive := hagree.live hr
    have hnodup := hlink.1
    rw [hlist, List.nodup_append] at hnodup
    have hpre : r ∉ pre := fun hmem => hnodup.2.2 r hmem r (by simp) rfl
    have hrest : r ∉ rest := (List.nodup_cons.mp hnodup.2.1).1
    simp only [List.head?_cons, progressLoop, hlist, successor_append hpre]
    rw [Ledger.run_access _ _ hlive]
    by_cases hfirst : TestCompletes f (e r) r ctx ∧ cleans r = true
    · exact run_append_none (test_releases locks f cleans hf hagree hfirst.1 hfirst.2) _
    obtain ⟨htest, hrun⟩ := test_keeps locks f cleans (e := e r) hr hlive (fun hcomp => by
      simpa using fun hc => hfirst ⟨hcomp, hc⟩)
    obtain ⟨pre', hlist'⟩ := plist_after_test (f := f) e hlink hlist
    rw [htest, Ledger.run_append, hrun, Option.bind_some]
    refine progressLoop_releases hf ledger rest pre' k _ (hlink.test hf) hagree.test hlist'
      (by simpa using hk) ?_
    obtain ⟨r', hr', hcomp, hc⟩ := hex
    rcases List.mem_cons.mp hr' with rfl | hmem
    · exact absurd ⟨hcomp, hc⟩ hfirst
    · refine ⟨r', hmem, (testCompletes_congr (requestTest_reqs_of_ne ?_)).mpr hcomp, hc⟩
      rintro rfl
      exact hrest hmem

end Loop

/-! ### Calls and runs -/

section Runs

variable (locks : Locks) {f : PlanFuncs E S} (cleans : ℕ → Bool)

theorem Linked.start {ctx : Context S} (h : Linked ctx) (e : E) (r : ℕ) :
    Linked (requestStart f e r ctx).1 := by
  unfold requestStart
  split
  · exact h
  next req hr =>
  split
  · exact h
  next hst =>
  have hnot : r ∉ ctx.plist := by
    intro hmem
    obtain ⟨req', hr', hst'⟩ := h.2 r hmem
    rw [hr, Option.some.injEq] at hr'
    rw [← hr'] at hst'
    simp [hst'] at hst
  have hothers : ∀ (counters : ℕ → ℕ) (op : PlanOp S), ∀ r' ∈ ctx.plist, ∃ req,
      (Context.setReq { ctx with uniqueReqId := counters } r op).reqs r' = some req ∧
        req.status = .inprogress := by
    intro counters op r' hr'
    rw [setReq_of_ne _ (by rintro rfl; exact hnot hr')]
    exact h.2 r' hr'
  dsimp only
  split
  · split
    · next hprog =>
      refine ⟨List.nodup_append.mpr ⟨h.1, List.nodup_singleton r, ?_⟩, ?_⟩
      · rintro a ha b hb rfl
        exact hnot (List.mem_singleton.mp hb ▸ ha)
      · intro r' hr'
        rcases List.mem_append.mp hr' with hmem | hmem
        · exact hothers _ _ r' hmem
        · obtain rfl := List.mem_singleton.mp hmem
          exact ⟨_, setReq_self .., hprog⟩
    · exact ⟨h.1, hothers _ _⟩
  · exact ⟨h.1, hothers _ _⟩

theorem Agrees.start {ledger : Ledger ℕ ℕ} {ctx : Context S} (h : Agrees ledger ctx) (e : E)
    (r : ℕ) : Agrees ledger (requestStart f e r ctx).1 := by
  unfold requestStart
  split
  · exact h
  next req hr =>
  split
  · exact h
  have hset : ∀ (counters : ℕ → ℕ) (op : PlanOp S),
      Agrees ledger (Context.setReq { ctx with uniqueReqId := counters } r op) := by
    intro counters op
    have hagree : Agrees ledger { ctx with uniqueReqId := counters } := h
    exact hagree.setReq (h.live hr) op
  dsimp only
  split
  · split
    · exact hset _ _
    · exact hset _ _
  · exact hset _ _

theorem Linked.init {ctx : Context S} (h : Linked ctx) (group : ℕ) (state : S) (r : ℕ) :
    Linked (requestInit group state r ctx).1 := by
  unfold requestInit
  split
  · exact h
  next hr =>
  refine ⟨h.1, fun r' hr' => ?_⟩
  obtain ⟨req, hreq, hst⟩ := h.2 r' hr'
  refine ⟨req, ?_, hst⟩
  rw [setReq_of_ne ctx (by rintro rfl; simp [hr] at hreq)]
  exact hreq

theorem linked_tests (hf : f.Lawful) (e : ℕ → E) : ∀ (rs : List ℕ) {ctx : Context S}, Linked ctx →
    Linked (rs.foldl (fun ctx r => (requestTest f (e r) r ctx).1) ctx)
  | [], _, h => h
  | r :: rs, _, h => linked_tests hf e rs (h.test hf (e := e r) (r := r))

theorem agrees_tests (e : ℕ → E) {ledger : Ledger ℕ ℕ} : ∀ (rs : List ℕ) {ctx : Context S},
    Agrees ledger ctx →
    Agrees ledger (rs.foldl (fun ctx r => (requestTest f (e r) r ctx).1) ctx)
  | [], _, h => h
  | r :: rs, _, h => agrees_tests e rs (h.test (e := e r) (r := r))

theorem progress_keeps (hf : f.Lawful) {ctx : Context S} {ledger : Ledger ℕ ℕ} (e : ℕ → E)
    (hlink : Linked ctx) (hagree : Agrees ledger ctx)
    (h : ∀ r ∈ ctx.plist, TestCompletes f (e r) r ctx → cleans r = false) :
    (progressLogged locks f e cleans ctx).1 = contextProgress f e ctx ∧
      ledger.run (progressLogged locks f e cleans ctx).2.2 = some ledger := by
  unfold progressLogged contextProgress
  split
  · next hnil =>
    rw [hnil]
    exact ⟨rfl, by simp⟩
  · obtain ⟨hctx, hrun⟩ := progressLoop_keeps locks e cleans hf
      ⟨ledger.dead, locks.lock :: ledger.locks⟩ ctx.plist [] ctx.plist.length ctx hlink
      hagree rfl le_rfl h
    refine ⟨hctx, ?_⟩
    simp [Ledger.run_append, hrun]

theorem progress_releases (hf : f.Lawful) {ctx : Context S} {ledger : Ledger ℕ ℕ} (e : ℕ → E)
    (hlink : Linked ctx) (hagree : Agrees ledger ctx)
    (h : ∃ r ∈ ctx.plist, TestCompletes f (e r) r ctx ∧ cleans r = true) :
    ledger.run (progressLogged locks f e cleans ctx).2.2 = none := by
  have hne : ctx.plist ≠ [] := by
    obtain ⟨r, hr, -⟩ := h
    exact List.ne_nil_of_mem hr
  have hrun := progressLoop_releases locks e cleans hf
    ⟨ledger.dead, locks.lock :: ledger.locks⟩ ctx.plist [] ctx.plist.length ctx hlink
    hagree rfl le_rfl h
  simp [progressLogged, hne, run_append_none hrun]

/-- A call that keeps every request is the plain call, and the ledger follows it: no released
    request is used, and the locks held afterwards are those held before. -/
theorem callLogged_keeps (hf : f.Lawful) {ctx : Context S} {ledger : Ledger ℕ ℕ}
    (call : ReqCall E S) (hlink : Linked ctx) (hagree : Agrees ledger ctx)
    (h : Keeps f cleans ctx call) :
    (callLogged locks f cleans ctx call).1 = ctx.step f call ∧ Linked (ctx.step f call) ∧
      ∃ ledger', ledger.run (callLogged locks f cleans ctx call).2 = some ledger' ∧
        ledger'.locks = ledger.locks ∧ Agrees ledger' (ctx.step f call) := by
  cases call with
  | init group state r =>
    refine ⟨?_, hlink.init group state r, ?_⟩
    · cases hr : ctx.reqs r <;> simp [callLogged, initLogged, Context.step, requestInit, hr]
    · cases hr : ctx.reqs r with
      | some req =>
        refine ⟨ledger, by simp [callLogged, initLogged, hr], rfl, ?_⟩
        simpa [Context.step, requestInit, hr] using hagree
      | none =>
        refine ⟨⟨Function.update ledger.dead r false, ledger.locks⟩, ?_, rfl, ?_⟩
        · simp [callLogged, initLogged, hr, Ledger.run_access]
        · intro r' hr'
          have hne : r' ≠ r := by
            rintro rfl
            simp at hr'
          simp only [Function.update_of_ne hne] at hr'
          simp only [Context.step, requestInit, hr, setReq_of_ne ctx hne]
          exact hagree r' hr'
  | start e r =>
    refine ⟨?_, hlink.start e r, ledger, ?_, rfl, hagree.start e r⟩
    · cases hr : ctx.reqs r with
      | none => simp [callLogged, startLogged, Context.step, requestStart, hr]
      | some req => exact (start_keeps locks f cleans hr (hagree.live hr) h).1
    · cases hr : ctx.reqs r with
      | none => simp [callLogged, startLogged, hr]
      | some req => exact (start_keeps locks f cleans hr (hagree.live hr) h).2
  | test e r =>
    refine ⟨?_, hlink.test hf, ledger, ?_, rfl, hagree.test⟩
    · cases hr : ctx.reqs r with
      | none => simp [callLogged, testLogged, Context.step, requestTest, hr]
      | some req => exact (test_keeps locks f cleans hr (hagree.live hr) h).1
    · cases hr : ctx.reqs r with
      | none => simp [callLogged, testLogged, hr]
      | some req => exact (test_keeps locks f cleans hr (hagree.live hr) h).2
  | progress e =>
    obtain ⟨hctx, hrun⟩ := progress_keeps locks cleans hf e hlink hagree h
    exact ⟨hctx, linked_tests hf e _ hlink, ledger, hrun, rfl, agrees_tests e _ hagree⟩
  | cleanup r =>
    cases hr : ctx.reqs r with
    | none =>
      have hstep : ctx.step f (.cleanup r) = ctx := by simp [Context.step, requestCleanup, hr]
      rw [hstep]
      exact ⟨by simp [callLogged, cleanupLogged, hr], hlink, ledger,
        by simp [callLogged, cleanupLogged, hr], rfl, hagree⟩
    | some req =>
      have hst := h req hr
      have hstep : ctx.step f (.cleanup r) = ctx := by simp [Context.step, requestCleanup, hr, hst]
      obtain ⟨hctx, hrun⟩ := cleanup_keeps locks hr (hagree.live hr) hst
      rw [hstep]
      exact ⟨hctx.trans hstep, hlink, ledger, hrun, rfl, hagree⟩

/-- A call that releases a request uses it afterwards. -/
theorem callLogged_releases (hf : f.Lawful) {ctx : Context S} {ledger : Ledger ℕ ℕ}
    (call : ReqCall E S) (hlink : Linked ctx) (hagree : Agrees ledger ctx)
    (h : ¬Keeps f cleans ctx call) : ledger.run (callLogged locks f cleans ctx call).2 = none := by
  cases call with
  | init group state r => exact absurd trivial h
  | start e r =>
    obtain ⟨hcomp, hc⟩ := Classical.not_imp.mp h
    exact start_releases locks f cleans hagree hcomp (by simpa using hc)
  | test e r =>
    obtain ⟨hcomp, hc⟩ := Classical.not_imp.mp h
    exact test_releases locks f cleans hf hagree hcomp (by simpa using hc)
  | progress e =>
    simp only [Keeps, not_forall, Bool.not_eq_false] at h
    obtain ⟨r, hr, hcomp, hc⟩ := h
    exact progress_releases locks cleans hf e hlink hagree ⟨r, hr, hcomp, hc⟩
  | cleanup r =>
    simp only [Keeps, not_forall] at h
    obtain ⟨req, hr, hst⟩ := h
    exact cleanup_releases locks hr (hagree.live hr) hst

theorem run_iff (hf : f.Lawful) : ∀ (calls : List (ReqCall E S × (ℕ → Bool))) (ctx : Context S)
    (ledger : Ledger ℕ ℕ), Linked ctx → Agrees ledger ctx →
      ((∃ ledger', ledger.run (runLogged locks f calls ctx) = some ledger' ∧
        ledger'.locks = ledger.locks) ↔ AllKeep f calls ctx)
  | [], ctx, ledger, _, _ => by simp [runLogged, AllKeep]
  | (call, cleans) :: rest, ctx, ledger, hlink, hagree => by
    rw [runLogged, AllKeep]
    by_cases h : Keeps f cleans ctx call
    · obtain ⟨hctx, hlink', ledger', hrun, hlocks, hagree'⟩ :=
        callLogged_keeps locks cleans hf call hlink hagree h
      simp only [hctx, Ledger.run_append, hrun, Option.bind_some, ← hlocks, h, true_and]
      exact run_iff hf rest _ ledger' hlink' hagree'
    · simp [Ledger.run_append, callLogged_releases locks cleans hf call hlink hagree h, h]

end Runs

/-- No sequence of calls uses a released request and every lock is left as it was entered, exactly
    where no call of the sequence releases a request. -/
theorem clean_iff (locks : Locks) {f : PlanFuncs E S} (hf : f.Lawful)
    (calls : List (ReqCall E S × (ℕ → Bool))) :
    Handles.Clean (runLogged locks f calls Context.init) ↔ AllKeep f calls Context.init := by
  refine run_iff locks hf calls Context.init Ledger.init ?_ ?_
  · exact ⟨List.nodup_nil, by simp [Context.init]⟩
  · intro r hr
    simp [Ledger.init] at hr

/-- An operation that is in progress until it is tested. -/
def oneTest : PlanFuncs Unit Unit where
  trigger _ op := ({ op with status := .inprogress }, .ok)
  progress _ op := ({ op with status := .ok }, .ok)

theorem oneTest_lawful : oneTest.Lawful :=
  ⟨fun _ _ => rfl, fun _ _ => rfl, fun _ _ => rfl⟩

/-- A request that is started and tested; `cleans` says what its callback does. -/
def startAndTest (cleans : Bool) : List (ReqCall Unit Unit × (ℕ → Bool)) :=
  [(.init 0 () 5, fun _ => false), (.start () 5, fun _ => false), (.test () 5, fun _ => cleans)]

theorem clean_iff_startAndTest :
    Handles.Clean (runLogged ⟨0, fun _ => 1⟩ oneTest (startAndTest false) Context.init) :=
  (clean_iff ⟨0, fun _ => 1⟩ oneTest_lawful _).mpr
    ⟨trivial, fun _ => rfl, fun _ => rfl, trivial⟩

/-- The callback of a tested request releases it: the request is used afterwards, and the lock that
    is left is the one its memory leads to by then. -/
theorem startAndTest_uses_released :
    ¬Handles.Clean (runLogged ⟨0, fun _ => 1⟩ oneTest (startAndTest true) Context.init) ∧
      .leave 1 ∈ runLogged ⟨0, fun _ => 1⟩ oneTest (startAndTest true) Context.init ∧
      .enter 1 ∉ runLogged ⟨0, fun _ => 1⟩ oneTest (startAndTest true) Context.init := by
  refine ⟨?_, by decide, by decide⟩
  rintro ⟨ledger, hrun, -⟩
  have hnone : Ledger.init.run
    (runLogged ⟨0, fun _ => 1⟩ oneTest (startAndTest true) Context.init) =
      none := rfl
  simp [hnone] at hrun

end Kucg.Core
