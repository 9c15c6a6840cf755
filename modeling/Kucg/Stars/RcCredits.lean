import Mathlib.Algebra.BigOperators.Group.Finset.Basic
import Mathlib.Data.Int.ModEq
import Mathlib.Tactic
import Kucg.Stars.NotifyProgress

/-! The send queues of RC endpoints and the credits of their interface (`rc_offload_ep.c`,
    `rc_offload_iface.c`, `rc_ep.h`).

    A put checks that its endpoint has room and that the interface has credit, and takes neither;
    the two counters of an endpoint are kept right all the same, modulo 2^16. So the counters agree
    with the work requests in every run (`counters_of_run`), a queue overflows as soon as a put is
    made when it is full (`bounded_iff`), and the credits are wrong as soon as anything is put at
    all (`rc_accounting`). -/

namespace Kucg.Stars

open Kucg.Core

namespace RcCredits

/-- The configuration of an interface. -/
structure Config where
  txQueueLen : ℕ
  txMaxWr : ℕ
  txCqModeration : ℕ
  txCqLen : ℕ

/-- `config.tx_max_wr` of the interface. -/
def Config.maxWr (cfg : Config) : ℕ := min cfg.txMaxWr cfg.txQueueLen

/-- `config.tx_moderation` of the interface, a 16-bit number; `SCT_TX_CQ_MOD` is 4. -/
def Config.txModeration (cfg : Config) : ℕ := min cfg.txCqModeration (cfg.maxWr / 4) % 2 ^ 16

/-- What `tx.cq_available` starts with. -/
def Config.cqAvailable (cfg : Config) : ℤ := Int.bmod (cfg.txCqLen - 1) (2 ^ 32)

/-- What `txqp.available` starts with, a signed 16-bit number. -/
def Config.available (cfg : Config) : ℤ := Int.bmod cfg.maxWr (2 ^ 16)

/-- `sct_rc_ofd_ep_t`: the producer and the consumer count, and `txqp.available`. -/
structure RcEp where
  pi : ℕ
  ci : ℕ
  available : ℤ

/-- A new endpoint. -/
def RcEp.init (cfg : Config) : RcEp := ⟨0, 0, cfg.available⟩

/-- The tasks of a request, those of the endpoints and waits (`none`), and `sq_ci_hash`. -/
structure RcReq where
  tasks : List (Option ℕ)
  sqCi : ℕ → ℕ

/-- `sct_ofd_req_init`. -/
def sctOfdReqInit : SctReq RcReq := ⟨0, [], fun _ => 0⟩

/-- An interface, its endpoints, and the request that is being filled. -/
structure State where
  cqAvailable : ℤ
  eps : ℕ → Option RcEp
  req : SctReq RcReq
  iface : SctIface RcReq

/-- An interface with `n` new endpoints. -/
def State.init (cfg : Config) (n : ℕ) : State :=
  ⟨cfg.cqAvailable, fun e => if e < n then some (RcEp.init cfg) else none, sctOfdReqInit, false, []⟩

/-- `SCT_RC_CHECK_RES`. -/
def sctRcCheckRes (cfg : Config) (st : State) (ep : RcEp) : Bool :=
  ¬(st.cqAvailable ≤ cfg.txModeration ∧ ¬0 < st.cqAvailable) ∧ ¬ep.available ≤ 0

/-- `sct_inc_ofd_sq_ci` and `sct_ofd_req_push_trans_tail`; a completion is expected if the task is
marked. -/
def pushTask (task : Option ℕ) (flag : Bool) (req : SctReq RcReq) : SctReq RcReq where
  cqeCnt := if flag then (req.cqeCnt + 1) % 2 ^ 16 else req.cqeCnt
  context :=
    { tasks := req.context.tasks ++ [task]
      sqCi := fun e => if task = some e then (req.context.sqCi e + 1) % 2 ^ 32
        else req.context.sqCi e }

/-- `sct_rc_ofd_ep_post_send` and `sct_rc_ofd_db_post_send`. -/
def postSend (e : ℕ) (ep : RcEp) (flag : Bool) (st : State) : State :=
  { st with
    eps := Function.update st.eps e (some { ep with pi := (ep.pi + 1) % 2 ^ 16 })
    req := pushTask (some e) flag st.req }

/-- `sct_rc_ofd_ep_put_with_notify`. -/
def putWithNotify (cfg : Config) (e : ℕ) (ep : RcEp) (flag : Bool) (st : State) : State × Status :=
  if sctRcCheckRes cfg st ep then (postSend e ep flag st, .ok) else (st, .errNoResource)

/-- `sct_rc_ofd_handle_ci` for each entry of the hash of a request. -/
def updateCi (eps : ℕ → Option RcEp) (req : RcReq) : ℕ → Option RcEp := fun e =>
  (eps e).map fun ep => { ep with ci := (ep.ci + req.sqCi e) % 2 ^ 16 }

/-- `sct_rc_ofd_iface_notify_progress`. -/
def rcNotifyProgress (replies : ℕ → CqeReply) (st : State) : State :=
  let res := notifyProgress replies st.iface
  { st with iface := res.1, eps := res.2.1.foldl updateCi st.eps }

/-- The clean-up of an endpoint. -/
def destroy (e : ℕ) (ep : RcEp) (st : State) : State :=
  { st with
    cqAvailable := st.cqAvailable + (ep.pi - ep.ci)
    eps := Function.update st.eps e none }

/-- An operation on the interface. -/
inductive Op where
  | put (e : ℕ) (flag : Bool)
  | wait (flag : Bool)
  | submit
  | progress (replies : ℕ → CqeReply)
  | destroy (e : ℕ)

/-- An operation changes the state; there are none on endpoints that do not exist. -/
def step (cfg : Config) (st : State) : Op → State
  | .put e flag =>
    match st.eps e with
    | none => st
    | some ep => (putWithNotify cfg e ep flag st).1
  | .wait flag => { st with req := pushTask none flag st.req }
  | .submit =>
    { st with
      req := sctOfdReqInit
      iface := { st.iface with reqQueue := st.iface.reqQueue ++ [st.req] } }
  | .progress replies => rcNotifyProgress replies st
  | .destroy e =>
    match st.eps e with
    | none => st
    | some ep => destroy e ep st

/-- The work requests that have been posted through an endpoint and are not complete. -/
def outstanding (st : State) (e : ℕ) : ℕ :=
  ((st.req :: st.iface.reqQueue).map fun req => req.context.tasks.count (some e)).sum

/-- The operation does what is claimed of it: a put into a full queue is refused, and an endpoint
that is destroyed gives back what it holds. -/
def StepAccounts (cfg : Config) (st : State) : Op → Prop
  | .put e flag => ∀ ep, st.eps e = some ep → cfg.txQueueLen ≤ outstanding st e →
      putWithNotify cfg e ep flag st = (st, .errNoResource)
  | .destroy e => ∀ ep, st.eps e = some ep →
      (destroy e ep st).cqAvailable = st.cqAvailable + outstanding st e
  | _ => True

/-- The counts agree: the queues are not overrun, the counters of an endpoint tell its work
requests, and the credit of the interface is what they leave. -/
structure Accounts (cfg : Config) (n : ℕ) (st : State) : Prop where
  bound : ∀ e ep, st.eps e = some ep → outstanding st e ≤ cfg.txQueueLen
  counters : ∀ e ep, st.eps e = some ep → (ep.pi + 2 ^ 16 - ep.ci) % 2 ^ 16 = outstanding st e
  credit : st.cqAvailable = cfg.cqAvailable -
    ∑ e ∈ Finset.range n, if (st.eps e).isSome then (outstanding st e : ℤ) else 0
  credit_le : st.cqAvailable ≤ cfg.cqAvailable

/-- Each operation of the run does, and the counts agree after it. -/
def KeepsAccounts (cfg : Config) (n : ℕ) : State → List Op → Prop
  | _, [] => True
  | st, op :: ops => StepAccounts cfg st op ∧ Accounts cfg n (step cfg st op) ∧
      KeepsAccounts cfg n (step cfg st op) ops

/-- The put is refused. -/
def Refused (cfg : Config) (st : State) : Op → Prop
  | .put e _ => ∀ ep, st.eps e = some ep → sctRcCheckRes cfg st ep = false
  | _ => True

/-- Each put of the run is. -/
def NothingPut (cfg : Config) : State → List Op → Prop
  | _, [] => True
  | st, op :: ops => Refused cfg st op ∧ NothingPut cfg (step cfg st op) ops

/-! ### Work requests -/

section Load

variable {cfg : Config} {st : State} {e : ℕ}

/-- The work requests of an endpoint in requests. -/
def load (reqs : List RcReq) (e : ℕ) : ℕ := (reqs.map fun req => req.tasks.count (some e)).sum

/-- The requests that are not complete. -/
def State.reqs (st : State) : List RcReq :=
  st.req.context :: st.iface.reqQueue.map SctReq.context

theorem outstanding_eq : outstanding st e = load st.reqs e := by
  simp [outstanding, load, State.reqs, Function.comp_def]

theorem load_cons (req : RcReq) (reqs : List RcReq) :
    load (req :: reqs) e = req.tasks.count (some e) + load reqs e := by
  simp [load]

theorem load_append (reqs reqs' : List RcReq) :
    load (reqs ++ reqs') e = load reqs e + load reqs' e := by
  simp [load]

theorem load_perm {reqs reqs' : List RcReq} (h : reqs.Perm reqs') : load reqs e = load reqs' e :=
  (h.map _).sum_eq

/-- A task counts for its own endpoint. -/
theorem count_pushTask (task : Option ℕ) (flag : Bool) (req : SctReq RcReq) :
    (pushTask task flag req).context.tasks.count (some e) =
      req.context.tasks.count (some e) + if task = some e then 1 else 0 := by
  by_cases h : task = some e <;> simp [pushTask, List.count_append, h]

theorem outstanding_push (task : Option ℕ) (flag : Bool) :
    outstanding { st with req := pushTask task flag st.req } e =
      outstanding st e + if task = some e then 1 else 0 := by
  simp only [outstanding_eq, State.reqs, load_cons, count_pushTask]
  omega

/-- A submit moves the request to the end of the queue. -/
theorem reqs_submit : (step cfg st .submit).reqs.Perm (sctOfdReqInit.context :: st.reqs) := by
  simp only [step, State.reqs, List.map_append, List.map_cons, List.map_nil]
  exact (List.perm_append_singleton _ _).cons _

theorem outstanding_submit : outstanding (step cfg st .submit) e = outstanding st e := by
  rw [outstanding_eq, load_perm reqs_submit, load_cons, outstanding_eq]
  simp [sctOfdReqInit]

variable (st) in
/-- What a progress reports, and what it leaves. -/
theorem exists_progress (replies : ℕ → CqeReply) : ∃ reported,
    (rcNotifyProgress replies st).eps = reported.foldl updateCi st.eps ∧
      (reported ++ (rcNotifyProgress replies st).reqs).Perm st.reqs ∧
      (rcNotifyProgress replies st).cqAvailable = st.cqAvailable := by
  refine ⟨(notifyProgress replies st.iface).2.1, rfl, ?_, rfl⟩
  refine List.perm_middle.trans (List.Perm.cons _ ?_)
  rw [rcNotifyProgress, notifyProgress]
  by_cases hwait : st.iface.waitFlag = true
  · simp only [if_pos hwait]
    exact .refl _
  · simp only [if_neg hwait]
    exact notifyLoop_perm replies 0 st.iface.reqQueue

theorem updateCi_foldl : ∀ (reported : List RcReq) (eps : ℕ → Option RcEp),
    reported.foldl updateCi eps e = (eps e).map fun ep =>
      { ep with ci := reported.foldl (fun ci req => (ci + req.sqCi e) % 2 ^ 16) ep.ci }
  | [], eps => by simp
  | req :: reported, eps => by
    rw [List.foldl_cons, updateCi_foldl reported, updateCi, Option.map_map]
    rfl

end Load

/-! ### The counters of an endpoint -/

section Counters

variable {cfg : Config} {n : ℕ} {st : State} {e : ℕ}

/-- The hash of a request counts its work requests. -/
def HashOk (req : RcReq) : Prop := ∀ e, req.sqCi e ≡ req.tasks.count (some e) [MOD 2 ^ 16]

/-- The counters agree with the work requests, modulo 2^16. -/
structure CountersOk (st : State) : Prop where
  hash : ∀ req ∈ st.reqs, HashOk req
  counters : ∀ e ep, st.eps e = some ep →
    ep.pi < 2 ^ 16 ∧ ep.ci < 2 ^ 16 ∧ ep.pi ≡ ep.ci + outstanding st e [MOD 2 ^ 16]

theorem hashOk_init : HashOk sctOfdReqInit.context := fun _ => Nat.ModEq.refl 0

theorem hashOk_push {task : Option ℕ} {flag : Bool} {req : SctReq RcReq} (h : HashOk req.context) :
    HashOk (pushTask task flag req).context := by
  intro e
  rw [count_pushTask]
  by_cases htask : task = some e
  · simp only [pushTask, if_pos htask]
    have hmod : (req.context.sqCi e + 1) % 2 ^ 32 ≡ req.context.sqCi e + 1 [MOD 2 ^ 16] :=
      Nat.mod_mod_of_dvd _ (by decide)
    exact hmod.trans ((h e).add_right 1)
  · simp only [pushTask, if_neg htask]
    exact h e

/-- The consumer count goes on by the work requests that are reported. -/
theorem ci_foldl : ∀ {reported : List RcReq} {ci : ℕ}, (∀ req ∈ reported, HashOk req) →
    ci < 2 ^ 16 →
    (reported.foldl (fun ci req => (ci + req.sqCi e) % 2 ^ 16) ci) < 2 ^ 16 ∧
      reported.foldl (fun ci req => (ci + req.sqCi e) % 2 ^ 16) ci ≡
        ci + load reported e [MOD 2 ^ 16]
  | [], ci, _, hci => ⟨hci, Nat.ModEq.refl _⟩
  | req :: reported, ci, h, _ => by
    obtain ⟨hreq, hrest⟩ := List.forall_mem_cons.mp h
    obtain ⟨hlt, hmod⟩ := ci_foldl hrest (Nat.mod_lt (ci + req.sqCi e) (by decide : 0 < 2 ^ 16))
    refine ⟨hlt, hmod.trans ?_⟩
    rw [load_cons, ← Nat.add_assoc]
    exact ((Nat.mod_modEq _ _).trans ((hreq e).add_left ci)).add_right _

theorem countersOk_init : CountersOk (State.init cfg n) := by
  refine ⟨fun req hreq => ?_, fun e ep hep => ?_⟩
  · obtain rfl := List.mem_singleton.mp hreq
    exact hashOk_init
  · simp only [State.init] at hep
    split_ifs at hep
    obtain rfl := Option.some.inj hep
    exact ⟨by simp [RcEp.init], by simp [RcEp.init], Nat.ModEq.refl _⟩

theorem hashOk_reqs_push (h : CountersOk st) {flag : Bool} {task : Option ℕ} :
    ∀ req ∈ State.reqs { st with req := pushTask task flag st.req }, HashOk req := by
  intro req hreq
  rcases List.mem_cons.mp hreq with rfl | hreq
  · exact hashOk_push (h.hash _ List.mem_cons_self)
  · exact h.hash req (List.mem_cons_of_mem _ hreq)

/-- Posting a work request. -/
theorem countersOk_postSend (h : CountersOk st) {ep : RcEp} (hep : st.eps e = some ep)
    (flag : Bool) : CountersOk (postSend e ep flag st) := by
  refine ⟨hashOk_reqs_push h, fun e' ep' hep' => ?_⟩
  have hout : outstanding (postSend e ep flag st) e' =
      outstanding st e' + if some e = some e' then 1 else 0 := outstanding_push (some e) flag
  rw [hout]
  by_cases he : e' = e
  · subst he
    simp only [postSend, Function.update_self, Option.some.injEq] at hep'
    obtain ⟨-, hci, hmod⟩ := h.counters e' ep hep
    rw [← hep', if_pos rfl]
    refine ⟨Nat.mod_lt _ (by decide), hci, (Nat.mod_modEq _ _).trans ?_⟩
    rw [← Nat.add_assoc]
    exact hmod.add_right 1
  · simp only [postSend, Function.update_of_ne he] at hep'
    rw [if_neg (fun heq => he (Option.some.inj heq).symm)]
    exact h.counters e' ep' hep'

/-- Each operation keeps the counters right. -/
theorem countersOk_step (h : CountersOk st) (op : Op) : CountersOk (step cfg st op) := by
  cases op with
  | put e flag =>
    rcases hep : st.eps e with _ | ep
    · simpa only [step, hep] using h
    · simp only [step, hep, putWithNotify]
      split_ifs
      · exact countersOk_postSend h hep flag
      · exact h
  | wait flag =>
    refine ⟨hashOk_reqs_push h, fun e ep hep => ?_⟩
    have hout : outstanding (step cfg st (.wait flag)) e = outstanding st e :=
      outstanding_push none flag
    rw [hout]
    exact h.counters e ep hep
  | submit =>
    refine ⟨fun req hreq => ?_, fun e ep hep => ?_⟩
    · rcases List.mem_cons.mp (reqs_submit.subset hreq) with rfl | hreq
      · exact hashOk_init
      · exact h.hash req hreq
    · rw [outstanding_submit]
      exact h.counters e ep hep
  | progress replies =>
    obtain ⟨reported, heps, hperm, -⟩ := exists_progress st replies
    have hall : ∀ req ∈ reported ++ (rcNotifyProgress replies st).reqs, HashOk req :=
      fun req hreq => h.hash req (hperm.subset hreq)
    refine ⟨fun req hreq => hall req (List.mem_append_right _ hreq), fun e ep hep => ?_⟩
    simp only [step] at hep ⊢
    rw [heps, updateCi_foldl, Option.map_eq_some_iff] at hep
    obtain ⟨ep₀, hep₀, rfl⟩ := hep
    obtain ⟨hpi, hci, hmod⟩ := h.counters e ep₀ hep₀
    obtain ⟨hlt, hfold⟩ := ci_foldl (e := e)
      (fun req hreq => hall req (List.mem_append_left _ hreq)) hci
    refine ⟨hpi, hlt, hmod.trans ?_⟩
    rw [outstanding_eq, ← load_perm hperm, load_append, ← outstanding_eq, ← Nat.add_assoc]
    exact hfold.symm.add_right _
  | destroy e =>
    rcases hep : st.eps e with _ | ep
    · simpa only [step, hep] using h
    · simp only [step, hep]
      refine ⟨h.hash, fun e' ep' hep' => ?_⟩
      by_cases he : e' = e
      · subst he
        simp [destroy] at hep'
      · simp only [destroy, Function.update_of_ne he] at hep'
        exact h.counters e' ep' hep'

/-- In every run, the producer count minus the consumer count is the number of work requests, modulo
2^16. -/
theorem counters_of_run : ∀ (ops : List Op) {st : State}, CountersOk st →
    CountersOk (ops.foldl (step cfg) st)
  | [], _, h => h
  | op :: ops, _, h => counters_of_run ops (countersOk_step h op)

end Counters

/-! ### The length of a queue -/

section Bound

variable {cfg : Config} {n : ℕ} {st : State} {e : ℕ}

/-- No queue is overrun. -/
def Bounded (cfg : Config) (st : State) : Prop :=
  ∀ e ep, st.eps e = some ep → outstanding st e ≤ cfg.txQueueLen

/-- The put is refused, or its endpoint has room. -/
def HasRoom (cfg : Config) (st : State) : Op → Prop
  | .put e _ => ∀ ep, st.eps e = some ep → sctRcCheckRes cfg st ep = true →
      outstanding st e < cfg.txQueueLen
  | _ => True

/-- In each state of the run. -/
def KeepsBounded (cfg : Config) : State → List Op → Prop
  | _, [] => True
  | st, op :: ops => Bounded cfg (step cfg st op) ∧ KeepsBounded cfg (step cfg st op) ops

/-- For each put of the run. -/
def AllHaveRoom (cfg : Config) : State → List Op → Prop
  | _, [] => True
  | st, op :: ops => HasRoom cfg st op ∧ AllHaveRoom cfg (step cfg st op) ops

theorem outstanding_postSend {ep : RcEp} {flag : Bool} (e' : ℕ) :
    outstanding (postSend e ep flag st) e' = outstanding st e' + if e = e' then 1 else 0 := by
  have h : outstanding _ e' = outstanding st e' + if some e = some e' then 1 else 0 :=
    outstanding_push (some e) flag
  simp only [Option.some.injEq] at h
  exact h

theorem outstanding_progress_le (replies : ℕ → CqeReply) :
    outstanding (rcNotifyProgress replies st) e ≤ outstanding st e := by
  obtain ⟨reported, -, hperm, -⟩ := exists_progress st replies
  rw [outstanding_eq, outstanding_eq, ← load_perm hperm, load_append]
  exact Nat.le_add_left _ _

theorem eps_progress (replies : ℕ → CqeReply) :
    ((rcNotifyProgress replies st).eps e).isSome = (st.eps e).isSome := by
  obtain ⟨reported, heps, -, -⟩ := exists_progress st replies
  rw [heps, updateCi_foldl, Option.isSome_map]

/-- An operation keeps the queues within their length exactly when it finds room. -/
theorem bounded_step_iff (h : Bounded cfg st) (op : Op) :
    Bounded cfg (step cfg st op) ↔ HasRoom cfg st op := by
  cases op with
  | put e flag =>
    rcases hep : st.eps e with _ | ep
    · simp [step, HasRoom, hep, h]
    · simp only [step, HasRoom, hep, Option.some.injEq, forall_eq', putWithNotify]
      by_cases hres : sctRcCheckRes cfg st ep = true
      · rw [if_pos hres]
        simp only [hres, true_imp_iff]
        constructor
        · intro hb
          have hroom := hb e _ (Function.update_self ..)
          rwa [outstanding_postSend, if_pos rfl] at hroom
        · intro hroom e' ep' hep'
          rw [outstanding_postSend]
          by_cases he : e = e'
          · subst he
            rwa [if_pos rfl]
          · simp only [postSend, Function.update_of_ne (Ne.symm he)] at hep'
            rw [if_neg he]
            exact h e' ep' hep'
      · rw [if_neg hres]
        exact ⟨fun _ hok => absurd hok hres, fun _ => h⟩
  | wait flag =>
    refine ⟨fun _ => trivial, fun _ e ep hep => ?_⟩
    have hout : outstanding (step cfg st (.wait flag)) e = outstanding st e :=
      outstanding_push none flag
    rw [hout]
    exact h e ep hep
  | submit =>
    refine ⟨fun _ => trivial, fun _ e ep hep => ?_⟩
    rw [outstanding_submit]
    exact h e ep hep
  | progress replies =>
    refine ⟨fun _ => trivial, fun _ e ep hep => (outstanding_progress_le replies).trans ?_⟩
    have hsome : ((rcNotifyProgress replies st).eps e).isSome = (st.eps e).isSome :=
      eps_progress replies
    rw [show (rcNotifyProgress replies st).eps e = some ep from hep, Option.isSome_some] at hsome
    obtain ⟨ep₀, hep₀⟩ := Option.isSome_iff_exists.mp hsome.symm
    exact h e ep₀ hep₀
  | destroy e =>
    refine ⟨fun _ => trivial, fun _ => ?_⟩
    rcases hep : st.eps e with _ | ep
    · simpa only [step, hep] using h
    · simp only [step, hep]
      intro e' ep' hep'
      by_cases he : e' = e
      · subst he
        simp [destroy] at hep'
      · simp only [destroy, Function.update_of_ne he] at hep'
        exact h e' ep' hep'

/-- A queue stays within its length exactly when no put is made while it is full. -/
theorem bounded_iff : ∀ (ops : List Op) {st : State}, Bounded cfg st →
    (KeepsBounded cfg st ops ↔ AllHaveRoom cfg st ops)
  | [], _, _ => Iff.rfl
  | op :: ops, st, h => by
    rw [KeepsBounded, AllHaveRoom, bounded_step_iff h op]
    constructor
    · rintro ⟨hroom, hrest⟩
      exact ⟨hroom, (bounded_iff ops ((bounded_step_iff h op).mpr hroom)).mp hrest⟩
    · rintro ⟨hroom, hrest⟩
      exact ⟨hroom, (bounded_iff ops ((bounded_step_iff h op).mpr hroom)).mpr hrest⟩

end Bound

/-! ### The credit -/

section Credit

variable {cfg : Config} {n : ℕ} {st : State} {e : ℕ}

/-- Nothing has been put. -/
structure Idle (cfg : Config) (n : ℕ) (st : State) : Prop where
  reqs : ∀ req ∈ st.reqs, ∀ e, req.tasks.count (some e) = 0 ∧ req.sqCi e = 0
  eps : ∀ e ep, st.eps e = some ep → ep.pi = 0 ∧ ep.ci = 0
  live : ∀ e, n ≤ e → st.eps e = none
  credit : st.cqAvailable = cfg.cqAvailable

theorem Idle.outstanding (h : Idle cfg n st) (e : ℕ) : outstanding st e = 0 := by
  rw [outstanding_eq, load]
  refine List.sum_eq_zero fun m hm => ?_
  obtain ⟨req, hreq, rfl⟩ := List.mem_map.mp hm
  exact (h.reqs req hreq e).1

theorem idle_init : Idle cfg n (State.init cfg n) := by
  refine ⟨fun req hreq e => ?_, fun e ep hep => ?_, fun e he => ?_, rfl⟩
  · obtain rfl := List.mem_singleton.mp hreq
    exact ⟨rfl, rfl⟩
  · simp only [State.init] at hep
    split_ifs at hep
    obtain rfl := Option.some.inj hep
    exact ⟨rfl, rfl⟩
  · simp [State.init, not_lt.mpr he]

theorem Idle.accounts (h : Idle cfg n st) : Accounts cfg n st where
  bound e ep _ := by
    rw [h.outstanding]
    exact Nat.zero_le _
  counters e ep hep := by
    obtain ⟨hpi, hci⟩ := h.eps e ep hep
    simp [hpi, hci, h.outstanding]
  credit := by simp [h.outstanding, h.credit]
  credit_le := h.credit.le

/-- A put that is refused changes nothing. -/
theorem put_refused {flag : Bool} {ep : RcEp} (hep : st.eps e = some ep)
    (h : Refused cfg st (.put e flag)) : putWithNotify cfg e ep flag st = (st, .errNoResource) := by
  rw [putWithNotify, h ep hep]
  rfl

theorem Idle.updateCi_foldl_eq : ∀ {reported : List RcReq} {ci : ℕ},
    (∀ req ∈ reported, req.sqCi e = 0) → ci = 0 →
      reported.foldl (fun ci req => (ci + req.sqCi e) % 2 ^ 16) ci = 0
  | [], _, _, hci => hci
  | req :: reported, ci, h, hci => by
    obtain ⟨hreq, hrest⟩ := List.forall_mem_cons.mp h
    rw [List.foldl_cons, hreq, hci]
    exact Idle.updateCi_foldl_eq hrest rfl

/-- Without a put that is accepted, nothing is ever put. -/
theorem Idle.step (h : Idle cfg n st) (op : Op) (hop : Refused cfg st op) :
    Idle cfg n (step cfg st op) := by
  cases op with
  | put e flag =>
    rcases hep : st.eps e with _ | ep
    · simpa only [RcCredits.step, hep] using h
    · simp only [RcCredits.step, hep, put_refused hep hop]
      exact h
  | wait flag =>
    refine ⟨fun req hreq e => ?_, h.eps, h.live, h.credit⟩
    rcases List.mem_cons.mp hreq with rfl | hreq
    · obtain ⟨hcount, hci⟩ := h.reqs _ List.mem_cons_self e
      simp only [RcCredits.step]
      rw [count_pushTask, hcount]
      exact ⟨rfl, hci⟩
    · exact h.reqs req (List.mem_cons_of_mem _ hreq) e
  | submit =>
    refine ⟨fun req hreq e => ?_, h.eps, h.live, h.credit⟩
    rcases List.mem_cons.mp (reqs_submit.subset hreq) with rfl | hreq
    · simp [sctOfdReqInit]
    · exact h.reqs req hreq e
  | progress replies =>
    obtain ⟨reported, heps, hperm, hcredit⟩ := exists_progress st replies
    have hall : ∀ req ∈ reported ++ (rcNotifyProgress replies st).reqs, req ∈ st.reqs :=
      fun req hreq => hperm.subset hreq
    refine ⟨fun req hreq => h.reqs req (hall req (List.mem_append_right _ hreq)),
      fun e ep hep => ?_, fun e he => ?_, hcredit.trans h.credit⟩
    · simp only [RcCredits.step] at hep
      rw [heps, updateCi_foldl, Option.map_eq_some_iff] at hep
      obtain ⟨ep₀, hep₀, rfl⟩ := hep
      obtain ⟨hpi, hci⟩ := h.eps e ep₀ hep₀
      exact ⟨hpi, Idle.updateCi_foldl_eq (fun req hreq =>
        (h.reqs req (hall req (List.mem_append_left _ hreq)) e).2) hci⟩
    · simp only [RcCredits.step, heps, updateCi_foldl, h.live e he, Option.map_none]
  | destroy e =>
    rcases hep : st.eps e with _ | ep
    · simpa only [RcCredits.step, hep] using h
    · simp only [RcCredits.step, hep]
      obtain ⟨hpi, hci⟩ := h.eps e ep hep
      refine ⟨h.reqs, fun e' ep' hep' => ?_, fun e' he' => ?_, ?_⟩
      · by_cases he : e' = e
        · subst he
          simp [destroy] at hep'
        · simp only [destroy, Function.update_of_ne he] at hep'
          exact h.eps e' ep' hep'
      · by_cases he : e' = e
        · subst he
          simp [destroy]
        · simp only [destroy, Function.update_of_ne he]
          exact h.live e' he'
      · simp [destroy, hpi, hci, h.credit]

theorem Idle.stepAccounts (h : Idle cfg n st) (op : Op) (hop : Refused cfg st op) :
    StepAccounts cfg st op := by
  cases op with
  | put e flag => exact fun ep hep _ => put_refused hep hop
  | destroy e =>
    intro ep hep
    obtain ⟨hpi, hci⟩ := h.eps e ep hep
    simp [destroy, hpi, hci, h.outstanding]
  | wait flag => trivial
  | submit => trivial
  | progress replies => trivial

/-- A put that is accepted takes no credit. -/
theorem Idle.not_accounts (h : Idle cfg n st) {op : Op} (hop : ¬Refused cfg st op) :
    ¬Accounts cfg n (RcCredits.step cfg st op) := by
  intro hacc
  cases op with
  | put e flag =>
    simp only [Refused, not_forall, Bool.not_eq_false] at hop
    obtain ⟨ep, hep, hres⟩ := hop
    have hstep : RcCredits.step cfg st (.put e flag) = postSend e ep flag st := by
      simp only [RcCredits.step, hep, putWithNotify, if_pos hres]
    rw [hstep] at hacc
    have hlt : e < n := by
      by_contra hge
      rw [h.live e (not_lt.mp hge)] at hep
      exact absurd hep (by simp)
    have hcredit := hacc.credit
    have hone : (1 : ℤ) ≤ ∑ e' ∈ Finset.range n,
        if ((postSend e ep flag st).eps e').isSome then
          (RcCredits.outstanding (postSend e ep flag st) e' : ℤ) else 0 := by
      refine le_trans ?_ (Finset.single_le_sum (fun e' _ => ?_) (Finset.mem_range.mpr hlt))
      · rw [outstanding_postSend, h.outstanding]
        simp [postSend]
      · split_ifs
        · exact Int.natCast_nonneg _
        · exact le_rfl
    have hsame : (postSend e ep flag st).cqAvailable = cfg.cqAvailable := h.credit
    omega
  | wait flag => exact hop trivial
  | submit => exact hop trivial
  | progress replies => exact hop trivial
  | destroy e => exact hop trivial

theorem keepsAccounts_of_idle : ∀ (ops : List Op) {st : State}, Idle cfg n st →
    (KeepsAccounts cfg n st ops ↔ NothingPut cfg st ops)
  | [], _, _ => Iff.rfl
  | op :: ops, st, h => by
    rw [KeepsAccounts, NothingPut]
    by_cases hop : Refused cfg st op
    · have hnext := h.step op hop
      rw [keepsAccounts_of_idle ops hnext]
      exact ⟨fun hk => ⟨hop, hk.2.2⟩, fun hn => ⟨h.stepAccounts op hop, hnext.accounts, hn.2⟩⟩
    · exact ⟨fun hk => absurd hk.2.1 (h.not_accounts hop), fun hn => absurd hn.1 hop⟩

end Credit

/-- In a run, the counts agree after each operation exactly when each put is refused for want of
resources; the queues stay within their length exactly when no put is made while its queue is full;
and the counters of the endpoints agree with the work requests in any case, modulo 2^16. -/
theorem rc_accounting (cfg : Config) (n : ℕ) (ops : List Op) :
    (KeepsAccounts cfg n (.init cfg n) ops ↔ NothingPut cfg (.init cfg n) ops) ∧
    (KeepsBounded cfg (.init cfg n) ops ↔ AllHaveRoom cfg (.init cfg n) ops) ∧
    CountersOk (ops.foldl (step cfg) (.init cfg n)) :=
  ⟨keepsAccounts_of_idle ops idle_init, bounded_iff ops idle_init.accounts.bound,
    counters_of_run ops countersOk_init⟩

/-- One put. -/
theorem not_keepsAccounts : ¬KeepsAccounts ⟨1024, 2 ^ 32 - 1, 64, 4096⟩ 1
    (.init ⟨1024, 2 ^ 32 - 1, 64, 4096⟩ 1) [.put 0 true] := by
  rintro ⟨-, hacc, -⟩
  exact absurd hacc.credit (by decide)

/-- A queue for one work request holds two. -/
example : ¬KeepsBounded ⟨1, 1, 0, 4096⟩ (.init ⟨1, 1, 0, 4096⟩ 1)
    [.put 0 true, .put 0 true] := by
  rintro ⟨-, hbound, -⟩
  exact absurd (hbound 0 _ rfl) (by decide)

end RcCredits

end Kucg.Stars
