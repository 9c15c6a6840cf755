import Kucg.Core.Request

/-! The ids that the members of a group give to the requests they start.

    Each member counts for itself, and what happens at a member between two starts, or in the
    `trigger` of one, has no part in the count. A start that is refused has: it takes no id. So the
    ids agree as long as the members refuse the same starts. The ids of a group go round: the one
    after `END - 1` is `BASE + 1`, and an id comes back after `END - BASE - 1` allocations. -/

namespace Kucg.Core

variable {E S : Type}

/-- A call of `ucg_request_start` for a request of a group: the handle, the request and the counter
    of the group, as the call finds them. -/
structure StartCall (S : Type) where
  handle : ℕ
  req : PlanOp S
  uniqueReqId : ℕ

/-- The request can be started. -/
def StartCall.ready (s : StartCall S) : Bool := s.req.status = .ok

/-- The id that the request gets, if it can be started. -/
def StartCall.id (s : StartCall S) : Option ℕ :=
  if s.ready then some (groupAllocReqId s.uniqueReqId) else none

/-- A call, if it starts a request of group `g`. -/
def startCall (g : ℕ) (ctx : Context S) : ReqCall E S → Option (StartCall S)
  | .start _ r => (ctx.reqs r).bind fun req =>
      if req.group = g then some ⟨r, req, ctx.uniqueReqId g⟩ else none
  | _ => none

/-- The starts of requests of group `g` in a run of calls. -/
def startCalls (f : PlanFuncs E S) (g : ℕ) : Context S → List (ReqCall E S) → List (StartCall S)
  | _, [] => []
  | ctx, call :: calls =>
    (startCall g ctx call).toList ++ startCalls f g (ctx.step f call) calls

/-- The context after a run of calls. -/
def Context.run (f : PlanFuncs E S) (ctx : Context S) (calls : List (ReqCall E S)) : Context S :=
  calls.foldl (Context.step f) ctx

/-- An operation stays in its group. -/
structure PlanFuncs.KeepsGroup (f : PlanFuncs E S) : Prop where
  progress_group : ∀ e op, (f.progress e op).1.group = op.group
  trigger_group : ∀ e op, (f.trigger e op).1.group = op.group

/-! ### The counter -/

section Counter

variable {f : PlanFuncs E S} {ctx : Context S} {g r : ℕ}

theorem requestTest_uniqueReqId (f : PlanFuncs E S) (e : E) (r : ℕ) (ctx : Context S) :
    (requestTest f e r ctx).1.uniqueReqId = ctx.uniqueReqId := by
  unfold requestTest
  split
  · rfl
  split
  · rfl
  dsimp only
  split <;> rfl

theorem contextProgress_uniqueReqId (f : PlanFuncs E S) (e : ℕ → E) (ctx : Context S) :
    (contextProgress f e ctx).uniqueReqId = ctx.uniqueReqId := by
  have hfold : ∀ (l : List ℕ) (ctx : Context S),
      (l.foldl (fun ctx r => (requestTest f (e r) r ctx).1) ctx).uniqueReqId = ctx.uniqueReqId := by
    intro l
    induction l with
    | nil => exact fun _ => rfl
    | cons r l ih => exact fun ctx => (ih _).trans (requestTest_uniqueReqId f (e r) r ctx)
  exact hfold ctx.plist ctx

/-- A start that is not refused counts, whatever its `trigger` returns. -/
theorem requestStart_uniqueReqId {e : E} {req : PlanOp S} (hr : ctx.reqs r = some req)
    (hst : req.status = .ok) : (requestStart f e r ctx).1.uniqueReqId =
      Function.update ctx.uniqueReqId req.group (groupAllocReqId (ctx.uniqueReqId req.group)) := by
  rw [requestStart_ready hr hst]
  dsimp only
  split
  · split <;> rfl
  · rfl

/-- The counter of a group moves with the starts of the group only, and with those alone that are
    not refused. -/
theorem step_uniqueReqId (f : PlanFuncs E S) (g : ℕ) (ctx : Context S) (call : ReqCall E S) :
    (ctx.step f call).uniqueReqId g =
      ((startCall g ctx call).bind StartCall.id).getD (ctx.uniqueReqId g) := by
  cases call with
  | start e r =>
    rw [Context.step, startCall]
    cases hr : ctx.reqs r with
    | none =>
      unfold requestStart
      rw [hr]
      rfl
    | some req =>
      by_cases hst : req.status = .ok
      · rw [requestStart_uniqueReqId hr hst]
        by_cases hg : req.group = g
        · subst hg
          simp [StartCall.id, StartCall.ready, hst]
        · rw [Function.update_of_ne (Ne.symm hg)]
          simp [hg]
      · rw [requestStart_refused hr hst]
        by_cases hg : req.group = g <;> simp [StartCall.id, StartCall.ready, hst, hg]
  | init group state r =>
    rw [Context.step, requestInit]
    split <;> rfl
  | test e r => exact congrFun (requestTest_uniqueReqId f e r ctx) g
  | progress e => exact congrFun (contextProgress_uniqueReqId f e ctx) g
  | cleanup r =>
    rw [Context.step, requestCleanup]
    split
    · rfl
    split <;> rfl

end Counter

/-! ### Agreement -/

/-- Each start finds the counter as the one before has left it. -/
def Counted : ℕ → List (StartCall S) → Prop
  | _, [] => True
  | u, s :: ss => s.uniqueReqId = u ∧ Counted (s.id.getD u) ss

/-- What holds of the starts of two members that have the same number. -/
def Paired (R : StartCall S → StartCall S → Prop) (ss ss' : List (StartCall S)) : Prop :=
  ∀ (k : ℕ) (s s' : StartCall S), ss[k]? = some s → ss'[k]? = some s' → R s s'

section Agreement

variable {f : PlanFuncs E S} {g u : ℕ} {s s' : StartCall S} {ss ss' : List (StartCall S)}

theorem uniqueReqId_startCall {ctx : Context S} {call : ReqCall E S}
    (h : startCall g ctx call = some s) : s.uniqueReqId = ctx.uniqueReqId g := by
  cases call with
  | start e r =>
    obtain ⟨req, -, hs⟩ := Option.bind_eq_some_iff.mp h
    split_ifs at hs
    obtain rfl := Option.some.inj hs
    rfl
  | _ => exact absurd h (by simp [startCall])

/-- The starts of a group count, whatever else is called in between. -/
theorem counted_startCalls : ∀ (calls : List (ReqCall E S)) (ctx : Context S),
    Counted (ctx.uniqueReqId g) (startCalls f g ctx calls)
  | [], _ => trivial
  | call :: calls, ctx => by
    have ih := counted_startCalls calls (ctx.step f call)
    rw [step_uniqueReqId] at ih
    rw [startCalls]
    cases hs : startCall g ctx call with
    | none =>
      rw [hs] at ih
      exact ih
    | some s =>
      rw [hs] at ih
      exact ⟨uniqueReqId_startCall hs, ih⟩

theorem paired_nil_left {R : StartCall S → StartCall S → Prop} : Paired R [] ss := by
  intro k s s' hs
  simp at hs

theorem paired_nil_right {R : StartCall S → StartCall S → Prop} : Paired R ss [] := by
  intro k s s' _ hs'
  simp at hs'

theorem paired_cons {R : StartCall S → StartCall S → Prop} :
    Paired R (s :: ss) (s' :: ss') ↔ R s s' ∧ Paired R ss ss' := by
  constructor
  · intro h
    exact ⟨h 0 s s' rfl rfl, fun k => h (k + 1)⟩
  · rintro ⟨h₀, h⟩ k t t' ht ht'
    cases k with
    | zero =>
      obtain rfl := Option.some.inj ht
      obtain rfl := Option.some.inj ht'
      exact h₀
    | succ k => exact h k t t' ht ht'

theorem id_eq_iff (h : s.uniqueReqId = u) (h' : s'.uniqueReqId = u) :
    s.id = s'.id ↔ s.ready = s'.ready := by
  rw [StartCall.id, StartCall.id, h, h']
  cases s.ready <;> cases s'.ready <;> simp

/-- Starts that have been counted from the same value have the same ids if and only if the same ones
    are refused. -/
theorem paired_id_iff : ∀ {u : ℕ} {ss ss' : List (StartCall S)}, Counted u ss → Counted u ss' →
    (Paired (fun s s' => s.id = s'.id) ss ss' ↔ Paired (fun s s' => s.ready = s'.ready) ss ss')
  | _, [], _, _, _ => iff_of_true paired_nil_left paired_nil_left
  | _, _ :: _, [], _, _ => iff_of_true paired_nil_right paired_nil_right
  | u, s :: ss, s' :: ss', ⟨hu, h⟩, ⟨hu', h'⟩ => by
    rw [paired_cons, paired_cons, id_eq_iff hu hu']
    refine and_congr_right fun hready => ?_
    rw [(id_eq_iff hu hu').mpr hready] at h
    exact paired_id_iff h h'

end Agreement

/-! ### The ids of a group -/

section Ids

variable {f : PlanFuncs E S} {g u j k : ℕ} {s s' : StartCall S} {ss : List (StartCall S)}

/-- The number of different ids. -/
def reqIdPeriod : ℕ := groupEndReqId - groupBaseReqId - 1

theorem groupAllocReqId_iterate : ∀ j : ℕ,
    groupAllocReqId^[j + 1] groupBaseReqId = groupBaseReqId + 1 + j % reqIdPeriod
  | 0 => by decide
  | j + 1 => by
    have hlt := Nat.mod_lt j (by decide : 0 < reqIdPeriod)
    rw [Function.iterate_succ_apply', groupAllocReqId_iterate j, groupAllocReqId,
      show groupEndReqId = groupBaseReqId + 1 + reqIdPeriod by decide, ← Nat.mod_add_mod j]
    split_ifs with hend
    · rw [show j % reqIdPeriod + 1 = reqIdPeriod by omega, Nat.mod_self]
    · rw [Nat.mod_eq_of_lt (show j % reqIdPeriod + 1 < reqIdPeriod by omega)]
      rfl

theorem base_lt_iterate (j : ℕ) : groupBaseReqId < groupAllocReqId^[j + 1] groupBaseReqId := by
  rw [groupAllocReqId_iterate]
  omega

theorem iterate_lt_end (j : ℕ) : groupAllocReqId^[j + 1] groupBaseReqId < groupEndReqId := by
  have hlt := Nat.mod_lt j (by decide : 0 < reqIdPeriod)
  have hend : groupEndReqId = groupBaseReqId + 1 + reqIdPeriod := by decide
  rw [groupAllocReqId_iterate]
  omega

/-- An id comes back after `reqIdPeriod` allocations, and not before. -/
theorem iterate_eq_far (hlt : j < k)
    (h : groupAllocReqId^[j + 1] groupBaseReqId = groupAllocReqId^[k + 1] groupBaseReqId) :
    j + reqIdPeriod ≤ k := by
  rw [groupAllocReqId_iterate, groupAllocReqId_iterate] at h
  have hdvd : reqIdPeriod ∣ k - j := (Nat.modEq_iff_dvd' hlt.le).mp (by
    rw [Nat.ModEq]
    omega)
  have := Nat.le_of_dvd (by omega) hdvd
  omega

/-- The starts that are not refused. -/
def allocs (ss : List (StartCall S)) : List (StartCall S) := ss.filter StartCall.ready

/-- The allocations of a group are numbered one after the other. -/
theorem uniqueReqId_allocs : ∀ {u : ℕ} {ss : List (StartCall S)} {j : ℕ}, Counted u ss →
    (allocs ss)[j]? = some s → s.uniqueReqId = groupAllocReqId^[j] u
  | _, [], _, _, hs => by simp [allocs] at hs
  | u, t :: ss, j, ⟨hu, h⟩, hs => by
    rw [allocs, List.filter_cons] at hs
    rw [StartCall.id, hu] at h
    cases hready : t.ready with
    | false =>
      rw [hready, if_neg (by simp)] at hs
      rw [hready, if_neg (by simp)] at h
      exact uniqueReqId_allocs h hs
    | true =>
      rw [hready, if_pos rfl] at hs
      rw [hready, if_pos rfl] at h
      have h : Counted (groupAllocReqId u) ss := h
      cases j with
      | zero =>
        obtain rfl := Option.some.inj hs
        exact hu
      | succ j =>
        have hrec : s.uniqueReqId = groupAllocReqId^[j] (groupAllocReqId u) :=
          uniqueReqId_allocs h hs
        exact hrec

theorem ready_allocs (hs : (allocs ss)[j]? = some s) : s.ready = true :=
  (List.mem_filter.mp (List.mem_of_getElem? hs)).2

/-- The id of the `j`-th allocation. -/
theorem id_allocs (h : Counted groupBaseReqId ss) (hs : (allocs ss)[j]? = some s) :
    s.id = some (groupAllocReqId^[j + 1] groupBaseReqId) := by
  rw [StartCall.id, if_pos (ready_allocs hs), uniqueReqId_allocs h hs, Function.iterate_succ_apply']

/-- Every id of a group lies between the base and the end. -/
theorem id_between (h : Counted groupBaseReqId ss) (hs : s ∈ ss) {id : ℕ} (hid : s.id = some id) :
    groupBaseReqId < id ∧ id < groupEndReqId := by
  have hready : s.ready = true := by
    by_contra hnot
    rw [StartCall.id, if_neg hnot] at hid
    cases hid
  obtain ⟨j, hj⟩ := List.getElem?_of_mem (List.mem_filter.mpr ⟨hs, hready⟩)
  rw [id_allocs h hj] at hid
  obtain rfl := Option.some.inj hid
  exact ⟨base_lt_iterate j, iterate_lt_end j⟩

end Ids

/-! ### Requests in flight -/

/-- The last allocation for a handle. -/
structure StartedAt (ss : List (StartCall S)) (r id j : ℕ) : Prop where
  id_eq : ∃ s, (allocs ss)[j]? = some s ∧ s.handle = r ∧ s.id = some id
  last : ∀ k s, j < k → (allocs ss)[k]? = some s → s.handle ≠ r

/-- Every request of the group that is in progress has the id of its last start. -/
def StartedAll (g : ℕ) (ctx : Context S) (ss : List (StartCall S)) : Prop :=
  ∀ r req, ctx.reqs r = some req → req.status = .inprogress → req.group = g →
    ∃ j, StartedAt ss r req.id j

section Flight

variable {f : PlanFuncs E S} {g r id j : ℕ} {s : StartCall S} {ss : List (StartCall S)}
  {ctx ctx' : Context S}

/-- A refused start is no allocation. -/
theorem allocs_refused (h : s.ready = false) : allocs (ss ++ [s]) = allocs ss := by
  simp [allocs, h]

theorem allocs_ready (h : s.ready = true) : allocs (ss ++ [s]) = allocs ss ++ [s] := by
  simp [allocs, h]

theorem StartedAt.append_refused (h : StartedAt ss r id j) (hready : s.ready = false) :
    StartedAt (ss ++ [s]) r id j := by
  have heq : allocs (ss ++ [s]) = allocs ss := allocs_refused hready
  exact ⟨by rw [heq]; exact h.id_eq, by rw [heq]; exact h.last⟩

/-- The allocation for another handle changes nothing. -/
theorem StartedAt.append (h : StartedAt ss r id j) (hne : s.handle ≠ r) :
    StartedAt (ss ++ [s]) r id j := by
  cases hready : s.ready with
  | false => exact h.append_refused hready
  | true =>
    obtain ⟨t, ht, hhandle, hid⟩ := h.id_eq
    have hlt : j < (allocs ss).length := (List.getElem?_eq_some_iff.mp ht).1
    refine ⟨⟨t, ?_, hhandle, hid⟩, fun k t' hk ht' => ?_⟩
    · rw [allocs_ready hready, List.getElem?_append_left hlt, ht]
    · rw [allocs_ready hready, List.getElem?_append] at ht'
      split_ifs at ht' with hin
      · exact h.last k t' hk ht'
      · rw [List.getElem?_singleton] at ht'
        split_ifs at ht'
        obtain rfl := Option.some.inj ht'
        exact hne

/-- The allocation for a handle is its last one. -/
theorem startedAt_new (hready : s.ready = true) (hid : s.id = some id) :
    StartedAt (ss ++ [s]) s.handle id (allocs ss).length := by
  refine ⟨⟨s, ?_, rfl, hid⟩, fun k t hk ht => ?_⟩
  · rw [allocs_ready hready]
    simp
  · rw [allocs_ready hready, List.getElem?_append_right hk.le,
      List.getElem?_singleton, if_neg (by omega)] at ht
    cases ht

/-- One handle gets a new request, or none. -/
theorem StartedAll.update (h : StartedAll g ctx ss) {o : Option (PlanOp S)}
    (hreqs : ctx'.reqs = Function.update ctx.reqs r o)
    (ho : ∀ op, o = some op → op.status = .inprogress → op.group = g →
      ∃ j, StartedAt ss r op.id j) : StartedAll g ctx' ss := by
  intro r' req hr' hst hg
  rw [hreqs] at hr'
  by_cases heq : r' = r
  · subst heq
    rw [Function.update_self] at hr'
    exact ho req hr' hst hg
  · rw [Function.update_of_ne heq] at hr'
    exact h r' req hr' hst hg

theorem requestTest_startedAll (hf : f.Lawful) (hg : f.KeepsGroup) (h : StartedAll g ctx ss)
    (e : E) (r : ℕ) : StartedAll g (requestTest f e r ctx).1 ss := by
  unfold requestTest
  split
  · exact h
  rename_i req hr
  split
  · exact h
  rename_i hst
  have hst := not_not.mp hst
  dsimp only
  split
  · rename_i hdone
    rw [hf.progress_status] at hdone
    refine h.update rfl fun op hop hst' => ?_
    obtain rfl := Option.some.inj hop
    exact absurd hst' hdone
  · refine h.update rfl fun op hop _ hgroup => ?_
    obtain rfl := Option.some.inj hop
    rw [hf.progress_id]
    exact h r req hr hst ((hg.progress_group e req).symm.trans hgroup)

theorem contextProgress_startedAll (hf : f.Lawful) (hg : f.KeepsGroup) (h : StartedAll g ctx ss)
    (e : ℕ → E) : StartedAll g (contextProgress f e ctx) ss := by
  have hfold : ∀ (l : List ℕ) (ctx : Context S), StartedAll g ctx ss →
      StartedAll g (l.foldl (fun ctx r => (requestTest f (e r) r ctx).1) ctx) ss := by
    intro l
    induction l with
    | nil => exact fun _ h => h
    | cons r l ih => exact fun ctx h => ih _ (requestTest_startedAll hf hg h (e r) r)
  exact hfold ctx.plist ctx h

/-- What a start that is not refused leaves: a request in progress has the id of this start. -/
theorem requestStart_reqs (hf : f.Lawful) (hg : f.KeepsGroup) {e : E} {req : PlanOp S}
    (hr : ctx.reqs r = some req) (hst : req.status = .ok) : ∃ op : PlanOp S,
      (requestStart f e r ctx).1.reqs = Function.update ctx.reqs r (some op) ∧
        op.group = req.group ∧
          (op.status = .inprogress → op.id = groupAllocReqId (ctx.uniqueReqId req.group)) := by
  have hid := hf.trigger_id e { req with id := groupAllocReqId (ctx.uniqueReqId req.group) }
  have hgroup := hg.trigger_group e { req with id := groupAllocReqId (ctx.uniqueReqId req.group) }
  rw [requestStart_ready hr hst]
  dsimp only at hid ⊢
  split
  · split
    · exact ⟨_, rfl, hgroup, fun _ => hid⟩
    · rename_i hdone
      exact ⟨_, rfl, hgroup, fun hin => absurd hin hdone⟩
  · exact ⟨_, rfl, hgroup, fun _ => hid⟩

/-- Every call keeps it. -/
theorem step_startedAll (hf : f.Lawful) (hg : f.KeepsGroup) (h : StartedAll g ctx ss)
    (call : ReqCall E S) :
    StartedAll g (ctx.step f call) (ss ++ (startCall g ctx call).toList) := by
  cases call with
  | start e r =>
    rw [Context.step, startCall]
    cases hr : ctx.reqs r with
    | none =>
      unfold requestStart
      rw [hr]
      simpa using h
    | some req =>
      rw [Option.bind_some]
      by_cases hst : req.status = .ok
      · obtain ⟨op, hreqs, hgroup, hid⟩ := requestStart_reqs hf hg hr hst (e := e)
        by_cases hreq : req.group = g
        · -- the start gives an id, and the other handles keep theirs
          subst hreq
          rw [if_pos rfl, Option.toList_some]
          have hready : StartCall.ready ⟨r, req, ctx.uniqueReqId req.group⟩ = true :=
            decide_eq_true hst
          have hother : StartedAll req.group { ctx with reqs := Function.update ctx.reqs r none }
              (ss ++ [⟨r, req, ctx.uniqueReqId req.group⟩]) := by
            intro r' req' hr' hst' hgroup'
            dsimp only at hr'
            by_cases heq : r' = r
            · rw [heq, Function.update_self] at hr'
              cases hr'
            · rw [Function.update_of_ne heq] at hr'
              obtain ⟨j, hj⟩ := h r' req' hr' hst' hgroup'
              exact ⟨j, hj.append (Ne.symm heq)⟩
          refine hother.update (by rw [hreqs, Function.update_idem]) fun op' hop hst' _ => ?_
          obtain rfl := Option.some.inj hop
          refine ⟨(allocs ss).length, startedAt_new hready ?_⟩
          rw [StartCall.id, if_pos hready, hid hst']
        · rw [if_neg hreq, Option.toList_none, List.append_nil]
          refine h.update hreqs fun op' hop _ hgroup' => ?_
          obtain rfl := Option.some.inj hop
          exact absurd (hgroup.symm.trans hgroup') hreq
      · rw [requestStart_refused hr hst]
        intro r' req' hr' hst' hgroup'
        obtain ⟨j, hj⟩ := h r' req' hr' hst' hgroup'
        by_cases hreq : req.group = g
        · rw [if_pos hreq]
          exact ⟨j, hj.append_refused (decide_eq_false hst)⟩
        · rw [if_neg hreq, Option.toList_none, List.append_nil]
          exact ⟨j, hj⟩
  | init group state r =>
    simp only [startCall, Option.toList_none, List.append_nil, Context.step]
    rw [requestInit]
    split
    · exact h
    · refine h.update rfl fun op hop hst _ => ?_
      obtain rfl := Option.some.inj hop
      cases hst
  | test e r =>
    simp only [startCall, Option.toList_none, List.append_nil]
    exact requestTest_startedAll hf hg h e r
  | progress e =>
    simp only [startCall, Option.toList_none, List.append_nil]
    exact contextProgress_startedAll hf hg h e
  | cleanup r =>
    simp only [startCall, Option.toList_none, List.append_nil, Context.step]
    rw [requestCleanup]
    split
    · exact h
    split
    · exact h
    · exact h.update rfl fun op hop => absurd hop (by simp)

/-- Every run keeps it. -/
theorem run_startedAll (hf : f.Lawful) (hg : f.KeepsGroup) : ∀ (calls : List (ReqCall E S))
    {ctx : Context S} {ss : List (StartCall S)}, StartedAll g ctx ss →
      StartedAll g (ctx.run f calls) (ss ++ startCalls f g ctx calls)
  | [], _, _, h => by
    rw [startCalls, List.append_nil]
    exact h
  | call :: calls, ctx, ss, h => by
    rw [startCalls, ← List.append_assoc]
    exact run_startedAll hf hg calls (step_startedAll hf hg h call)

/-- Two requests of a group that are in progress at the same time and have the same id have got it
    `reqIdPeriod` allocations apart. -/
theorem startedAt_far {r' j' : ℕ} (hcount : Counted groupBaseReqId ss) (h : StartedAt ss r id j)
    (h' : StartedAt ss r' id j') (hne : r ≠ r') :
    j + reqIdPeriod ≤ j' ∨ j' + reqIdPeriod ≤ j := by
  obtain ⟨s, hs, hr, hid⟩ := h.id_eq
  obtain ⟨s', hs', hr', hid'⟩ := h'.id_eq
  rw [id_allocs hcount hs] at hid
  rw [id_allocs hcount hs'] at hid'
  have heq := Option.some.inj (hid.trans hid'.symm)
  rcases lt_trichotomy j j' with hlt | rfl | hlt
  · exact Or.inl (iterate_eq_far hlt heq)
  · exact absurd (hr.symm.trans (Option.some.inj (hs.symm.trans hs') ▸ hr')) hne
  · exact Or.inr (iterate_eq_far hlt heq.symm)

end Flight

end Kucg.Core
