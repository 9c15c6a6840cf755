import Mathlib.Tactic
import Kucg.Core.Status

/-! Requests of a context: `ucg_request.c`, the id counter of `ucg_group.h` and the progress loop of
    `ucg_context.c`.

    A request is embedded in the plan operation it runs, which is known here by its two entry
    points (`PlanFuncs`); whatever their calls to the transport return is part of their input. The
    invariant (`Context.Ok`) ties a request's status to the context's progress list and to its
    id. A `trigger` that does not return `UCG_OK` breaks it, and nothing else does. The completion
    callback and the lock are left out. -/

namespace Kucg.Core

def groupBaseReqId : ℕ := 0x800000

def groupEndReqId : ℕ := 0xFFFFFF

/-- `ucg_plan_op_t`: the embedded request (`status`, `id`, `group`) and what the plan adds. -/
structure PlanOp (S : Type) where
  status : Status
  id : ℕ
  group : ℕ
  state : S

/-- The `trigger` and `progress` pointers of a plan operation. `E` is what the calls made inside
    return. -/
structure PlanFuncs (E S : Type) where
  trigger : E → PlanOp S → PlanOp S × Status
  progress : E → PlanOp S → PlanOp S × Status

/-- What `ucg_request_test` asserts, and that an operation leaves its id and group alone. -/
structure PlanFuncs.Lawful {E S : Type} (f : PlanFuncs E S) : Prop where
  progress_status : ∀ e op, (f.progress e op).2 = (f.progress e op).1.status
  progress_id : ∀ e op, (f.progress e op).1.id = op.id
  trigger_id : ∀ e op, (f.trigger e op).1.id = op.id

/-- A context with its requests by handle, its progress list, and the id counter of each group. -/
structure Context (S : Type) where
  reqs : ℕ → Option (PlanOp S)
  plist : List ℕ
  uniqueReqId : ℕ → ℕ

variable {E S : Type}

/-- `ucg_group_alloc_req_id`: the new value of the counter, which is also the id. -/
def groupAllocReqId (uniqueReqId : ℕ) : ℕ :=
  if uniqueReqId + 1 = groupEndReqId then groupBaseReqId + 1 else uniqueReqId + 1

/-- A context before any request: the counters start at the base id. -/
def Context.init : Context S := ⟨fun _ => none, [], fun _ => groupBaseReqId⟩

/-- Store a request under its handle. -/
def Context.setReq (ctx : Context S) (r : ℕ) (op : PlanOp S) : Context S :=
  { ctx with reqs := Function.update ctx.reqs r (some op) }

/-- `ucg_request_ctor`, for a handle not in use. -/
def requestInit (group : ℕ) (state : S) (r : ℕ) (ctx : Context S) : Context S × Status :=
  match ctx.reqs r with
  | some _ => (ctx, .errInvalidParam)
  | none => (ctx.setReq r ⟨.ok, groupBaseReqId, group, state⟩, .ok)

/-- `ucg_request_start`. -/
def requestStart (f : PlanFuncs E S) (e : E) (r : ℕ) (ctx : Context S) : Context S × Status :=
  match ctx.reqs r with
  | none => (ctx, .errInvalidParam)
  | some req =>
    if req.status ≠ .ok then (ctx, req.status)
    else
      let id := groupAllocReqId (ctx.uniqueReqId req.group)
      let ctx := { ctx with uniqueReqId := Function.update ctx.uniqueReqId req.group id }
      let (op, status) := f.trigger e { req with id := id }
      if status = .ok then
        if op.status = .inprogress then
          ({ ctx.setReq r op with plist := ctx.plist ++ [r] }, status)
        else (ctx.setReq r { op with id := groupBaseReqId }, status)
      else (ctx.setReq r op, status)

/-- `ucg_request_test`. -/
def requestTest (f : PlanFuncs E S) (e : E) (r : ℕ) (ctx : Context S) : Context S × Status :=
  match ctx.reqs r with
  | none => (ctx, .errInvalidParam)
  | some req =>
    if req.status ≠ .inprogress then (ctx, req.status)
    else
      let (op, status) := f.progress e req
      if status ≠ .inprogress then
        ({ ctx.setReq r { op with id := groupBaseReqId } with plist := ctx.plist.erase r }, status)
      else (ctx.setReq r op, status)

/-- `ucg_request_cleanup`: a request that is not in progress is destroyed. -/
def requestCleanup (r : ℕ) (ctx : Context S) : Context S × Status :=
  match ctx.reqs r with
  | none => (ctx, .errInvalidParam)
  | some req =>
    if req.status = .inprogress then (ctx, .inprogress)
    else ({ ctx with reqs := Function.update ctx.reqs r none }, .ok)

/-- `ucg_context_progress`: every request on the list, as it is at the time of the call, is
    tested. -/
def contextProgress (f : PlanFuncs E S) (e : ℕ → E) (ctx : Context S) : Context S :=
  ctx.plist.foldl (fun ctx r => (requestTest f (e r) r ctx).1) ctx

/-- A call of the API. -/
inductive ReqCall (E S : Type) where
  | init (group : ℕ) (state : S) (r : ℕ)
  | start (e : E) (r : ℕ)
  | test (e : E) (r : ℕ)
  | progress (e : ℕ → E)
  | cleanup (r : ℕ)

/-- The context after a call. -/
def Context.step (f : PlanFuncs E S) (ctx : Context S) : ReqCall E S → Context S
  | .init group state r => (requestInit group state r ctx).1
  | .start e r => (requestStart f e r ctx).1
  | .test e r => (requestTest f e r ctx).1
  | .progress e => contextProgress f e ctx
  | .cleanup r => (requestCleanup r ctx).1

/-- The life-cycle invariant of all requests of a context. -/
def Context.Ok (ctx : Context S) : Prop :=
  ∀ r req, ctx.reqs r = some req → (r ∈ ctx.plist ↔ req.status = .inprogress) ∧
    (req.id = groupBaseReqId ↔ req.status ≠ .inprogress)

/-- What is expected of a call: the invariant holds after it, and a request whose start returned
    an error can be cleaned up. -/
def CallOk (f : PlanFuncs E S) (ctx : Context S) (call : ReqCall E S) : Prop :=
  (ctx.step f call).Ok ∧ ∀ e r req, call = .start e r → ctx.reqs r = some req →
    (requestStart f e r ctx).2.IsErr → (requestCleanup r (ctx.step f call)).2 = .ok

/-- The condition on a call: the `trigger` of a started request, if it is called, returns
    `UCG_OK`. -/
def Triggers (f : PlanFuncs E S) (ctx : Context S) (call : ReqCall E S) : Prop :=
  ∀ e r req, call = .start e r → ctx.reqs r = some req → req.status = .ok →
    (f.trigger e { req with id := groupAllocReqId (ctx.uniqueReqId req.group) }).2 = .ok

/-! ### The invariant -/

/-- The invariant of contexts, with what keeps it going: the list has no doubles and no dead
    handles, and the next id is never the base id. -/
structure Context.Inv (ctx : Context S) : Prop where
  ok : ctx.Ok
  nodup : ctx.plist.Nodup
  live : ∀ r ∈ ctx.plist, ctx.reqs r ≠ none
  counter : ∀ g, groupBaseReqId ≤ ctx.uniqueReqId g

theorem base_lt_alloc {u : ℕ} (h : groupBaseReqId ≤ u) : groupBaseReqId < groupAllocReqId u := by
  unfold groupAllocReqId
  split <;> omega

theorem Context.init_inv : (Context.init : Context S).Inv :=
  ⟨fun _ _ h => absurd h (by simp [Context.init]), List.nodup_nil, by simp [Context.init],
    fun _ => le_rfl⟩

@[simp] theorem setReq_plist (ctx : Context S) (r : ℕ) (op : PlanOp S) :
    (ctx.setReq r op).plist = ctx.plist := rfl

@[simp] theorem setReq_self (ctx : Context S) (r : ℕ) (op : PlanOp S) :
    (ctx.setReq r op).reqs r = some op := Function.update_self ..

theorem setReq_of_ne (ctx : Context S) {r r' : ℕ} (h : r' ≠ r) (op : PlanOp S) :
    (ctx.setReq r op).reqs r' = ctx.reqs r' := Function.update_of_ne h _ _

/-- One request is replaced and possibly enters or leaves the list; all others stay. -/
theorem Context.Inv.replace {ctx ctx' : Context S} (h : ctx.Inv) {r : ℕ} {op : PlanOp S}
    (hreqs : ctx'.reqs = Function.update ctx.reqs r (some op))
    (hother : ∀ r', r' ≠ r → (r' ∈ ctx'.plist ↔ r' ∈ ctx.plist)) (hnodup : ctx'.plist.Nodup)
    (hlist : r ∈ ctx'.plist ↔ op.status = .inprogress)
    (hid : op.id = groupBaseReqId ↔ op.status ≠ .inprogress)
    (hcounter : ∀ g, groupBaseReqId ≤ ctx'.uniqueReqId g) : ctx'.Inv := by
  refine ⟨?_, hnodup, ?_, hcounter⟩
  · intro r' req hr'
    rw [hreqs] at hr'
    by_cases heq : r' = r
    · subst heq
      rw [Function.update_self] at hr'
      obtain rfl := Option.some.inj hr'
      exact ⟨hlist, hid⟩
    · rw [Function.update_of_ne heq] at hr'
      rw [hother r' heq]
      exact h.ok r' req hr'
  · intro r' hr'
    rw [hreqs]
    by_cases heq : r' = r
    · rw [heq, Function.update_self]
      simp
    · rw [Function.update_of_ne heq]
      exact h.live r' ((hother r' heq).mp hr')

/-- The allocation of an id keeps the counters at the base id or above. -/
theorem counter_alloc {ctx : Context S} (h : ctx.Inv) (group : ℕ) (g : ℕ) :
    groupBaseReqId ≤ Function.update ctx.uniqueReqId group
      (groupAllocReqId (ctx.uniqueReqId group)) g := by
  by_cases heq : g = group
  · rw [heq, Function.update_self]
    exact (base_lt_alloc (h.counter group)).le
  · rw [Function.update_of_ne heq]
    exact h.counter g

theorem requestInit_inv {ctx : Context S} (h : ctx.Inv) (group : ℕ) (state : S) (r : ℕ) :
    (requestInit group state r ctx).1.Inv := by
  unfold requestInit
  split
  · exact h
  · rename_i hr
    refine h.replace rfl (fun _ _ => Iff.rfl) h.nodup ?_ (by simp) h.counter
    -- an unused handle is not on the list
    exact ⟨fun hmem => absurd hr (h.live r hmem), fun hst => absurd hst (by simp)⟩

theorem requestCleanup_inv {ctx : Context S} (h : ctx.Inv) (r : ℕ) :
    (requestCleanup r ctx).1.Inv := by
  unfold requestCleanup
  split
  · exact h
  rename_i req hr
  split
  · exact h
  rename_i hst
  have hmem : r ∉ ctx.plist := fun hmem => hst ((h.ok r req hr).1.mp hmem)
  refine ⟨?_, h.nodup, ?_, h.counter⟩
  · intro r' req' hr'
    dsimp only at hr' ⊢
    by_cases heq : r' = r
    · rw [heq, Function.update_self] at hr'
      exact absurd hr' (by simp)
    · rw [Function.update_of_ne heq] at hr'
      exact h.ok r' req' hr'
  · intro r' hr'
    have heq : r' ≠ r := fun heq => hmem (heq ▸ hr')
    dsimp only
    rw [Function.update_of_ne heq]
    exact h.live r' hr'

theorem requestTest_inv {f : PlanFuncs E S} (hf : f.Lawful) {ctx : Context S} (h : ctx.Inv) (e : E)
    (r : ℕ) : (requestTest f e r ctx).1.Inv := by
  unfold requestTest
  split
  · exact h
  rename_i req hr
  split
  · exact h
  rename_i hst
  have hst := not_not.mp hst
  obtain ⟨hlist, hid⟩ := h.ok r req hr
  dsimp only
  split
  · -- completed: off the list, and the id is the base id again
    rename_i hdone
    rw [hf.progress_status] at hdone
    refine h.replace rfl (fun r' hne => List.mem_erase_of_ne hne) (h.nodup.erase r) ?_ ?_ h.counter
    · exact ⟨fun hmem => absurd rfl ((h.nodup.mem_erase_iff.mp hmem).1), fun hst =>
        absurd hst hdone⟩
    · exact ⟨fun _ => hdone, fun _ => rfl⟩
  · rename_i hdone
    rw [hf.progress_status] at hdone
    have hdone := not_not.mp hdone
    refine h.replace rfl (fun _ _ => Iff.rfl) h.nodup ?_ ?_ h.counter
    · exact ⟨fun _ => hdone, fun _ => hlist.mpr hst⟩
    · rw [hf.progress_id, hid]
      exact ⟨fun hne => absurd hst hne, fun hne => absurd hdone hne⟩

theorem contextProgress_inv {f : PlanFuncs E S} (hf : f.Lawful) {ctx : Context S} (h : ctx.Inv)
    (e : ℕ → E) : (contextProgress f e ctx).Inv := by
  have hfold : ∀ (l : List ℕ) (ctx : Context S), ctx.Inv →
      (l.foldl (fun ctx r => (requestTest f (e r) r ctx).1) ctx).Inv := by
    intro l
    induction l with
    | nil => exact fun _ h => h
    | cons r l ih => exact fun ctx h => ih _ (requestTest_inv hf h (e r) r)
  exact hfold ctx.plist ctx h

/-- A start whose `trigger`, if called, returns `UCG_OK`. -/
theorem requestStart_inv {f : PlanFuncs E S} (hf : f.Lawful) {ctx : Context S} (h : ctx.Inv) {e : E}
    {r : ℕ} (htrig : Triggers f ctx (.start e r)) : (requestStart f e r ctx).1.Inv := by
  unfold requestStart
  split
  · exact h
  rename_i req hr
  split
  · exact h
  rename_i hst
  have hst := not_not.mp hst
  obtain ⟨hlist, -⟩ := h.ok r req hr
  have hmem : r ∉ ctx.plist := fun hmem => absurd (hst.symm.trans (hlist.mp hmem)) (by decide)
  have hok := htrig e r req rfl hr hst
  have hid := hf.trigger_id e { req with id := groupAllocReqId (ctx.uniqueReqId req.group) }
  dsimp only at hid ⊢
  rw [if_pos hok]
  split
  · rename_i hin
    refine h.replace rfl ?_ ?_ ?_ ?_ (counter_alloc h req.group)
    · intro r' hne
      simp [hne]
    · exact List.nodup_append.mpr ⟨h.nodup, List.nodup_singleton r,
        fun a ha b hb hab => hmem (List.mem_singleton.mp hb ▸ hab ▸ ha)⟩
    · simp [hin]
    · rw [hid]
      have hlt := base_lt_alloc (h.counter req.group)
      exact ⟨fun heq => absurd heq (by omega), fun hne => absurd hin hne⟩
  · rename_i hin
    refine h.replace rfl (fun _ _ => Iff.rfl) h.nodup ?_ ?_ (counter_alloc h req.group)
    · exact ⟨fun h => absurd h hmem, fun h => absurd h hin⟩
    · exact ⟨fun _ => hin, fun _ => rfl⟩

theorem step_inv_of_triggers {f : PlanFuncs E S} (hf : f.Lawful) {ctx : Context S} (h : ctx.Inv)
    {call : ReqCall E S} (htrig : Triggers f ctx call) : (ctx.step f call).Inv := by
  cases call with
  | init group state r => exact requestInit_inv h group state r
  | start e r => exact requestStart_inv hf h htrig
  | test e r => exact requestTest_inv hf h e r
  | progress e => exact contextProgress_inv hf h e
  | cleanup r => exact requestCleanup_inv h r

/-! ### The condition is exact -/

/-- A start that reaches `trigger`. -/
theorem requestStart_ready {f : PlanFuncs E S} {ctx : Context S} {e : E} {r : ℕ} {req : PlanOp S}
    (hr : ctx.reqs r = some req) (hst : req.status = .ok) :
    requestStart f e r ctx =
      let id := groupAllocReqId (ctx.uniqueReqId req.group)
      let ctx := { ctx with uniqueReqId := Function.update ctx.uniqueReqId req.group id }
      let (op, status) := f.trigger e { req with id := id }
      if status = .ok then
        if op.status = .inprogress then
          ({ ctx.setReq r op with plist := ctx.plist ++ [r] }, status)
        else (ctx.setReq r { op with id := groupBaseReqId }, status)
      else (ctx.setReq r op, status) := by
  unfold requestStart
  rw [hr]
  exact if_neg (not_not.mpr hst)

/-- A start that is refused. -/
theorem requestStart_refused {f : PlanFuncs E S} {ctx : Context S} {e : E} {r : ℕ} {req : PlanOp S}
    (hr : ctx.reqs r = some req) (hst : req.status ≠ .ok) :
    requestStart f e r ctx = (ctx, req.status) := by
  unfold requestStart
  rw [hr]
  exact if_pos hst

/-- A start whose `trigger` does not return `UCG_OK` leaves an id that is not the base id on a
    request that is not on the list. -/
theorem not_ok_of_trigger {f : PlanFuncs E S} (hf : f.Lawful) {ctx : Context S} (h : ctx.Inv)
    {e : E}
    {r : ℕ} {req : PlanOp S} (hr : ctx.reqs r = some req) (hst : req.status = .ok)
    (hfail : (f.trigger e { req with id := groupAllocReqId (ctx.uniqueReqId req.group) }).2 ≠ .ok) :
    ¬(requestStart f e r ctx).1.Ok := by
  obtain ⟨hlist, -⟩ := h.ok r req hr
  have hid := hf.trigger_id e { req with id := groupAllocReqId (ctx.uniqueReqId req.group) }
  have hlt := base_lt_alloc (h.counter req.group)
  rw [requestStart_ready hr hst]
  dsimp only
  rw [if_neg hfail]
  intro hok
  obtain ⟨hlist', hid'⟩ := hok r _ (setReq_self ..)
  have hin : (f.trigger e { req with id := groupAllocReqId (ctx.uniqueReqId req.group) }).1.status =
      .inprogress := by
    by_contra hne
    exact absurd (hid.symm.trans (hid'.mpr hne)) hlt.ne'
  exact absurd (hst.symm.trans (hlist.mp (hlist'.mpr hin))) (by decide)

/-- A call is as expected exactly when it meets the condition. -/
theorem callOk_iff {f : PlanFuncs E S} (hf : f.Lawful) {ctx : Context S} (h : ctx.Inv)
    (call : ReqCall E S) : CallOk f ctx call ↔ Triggers f ctx call := by
  constructor
  · rintro ⟨hok, -⟩ e r req rfl hr hst
    by_contra hfail
    exact not_ok_of_trigger hf h hr hst hfail hok
  · intro htrig
    refine ⟨(step_inv_of_triggers hf h htrig).ok, ?_⟩
    rintro e r req rfl hr herr
    by_cases hst : req.status = .ok
    · -- the request was triggered, and `trigger` did not fail
      have hok := htrig e r req rfl hr hst
      rw [requestStart_ready hr hst] at herr
      dsimp only at herr
      rw [if_pos hok] at herr
      split at herr <;> exact absurd hok herr.1
    · -- the request was refused for its own error
      rw [requestStart_refused hr hst] at herr
      have hstep : ctx.step f (.start e r) = ctx := by
        rw [Context.step, requestStart_refused hr hst]
      rw [hstep, requestCleanup, hr]
      dsimp only
      rw [if_neg herr.2]

/-- A run of calls from a context without requests, all meeting the condition `cond`. -/
inductive ReqRun (f : PlanFuncs E S) (cond : Context S → ReqCall E S → Prop) : Context S → Prop
  | init : ReqRun f cond Context.init
  | step {ctx : Context S} (call : ReqCall E S) : ReqRun f cond ctx → cond ctx call →
      ReqRun f cond (ctx.step f call)

theorem reqRun_inv {f : PlanFuncs E S} (hf : f.Lawful) {cond : Context S → ReqCall E S → Prop}
    (hcond : ∀ ctx call, cond ctx call → Triggers f ctx call) {ctx : Context S}
    (h : ReqRun f cond ctx) : ctx.Inv := by
  induction h with
  | init => exact Context.init_inv
  | step call _ hc ih => exact step_inv_of_triggers hf ih (hcond _ call hc)

end Kucg.Core
