import Mathlib.Tactic
import Kucg.Core.MetaOp

/-! The order in which a meta-operation calls its sub-operations.

    The sub-operations are an environment that answers every call with any status it likes, knowing
    all earlier calls and answers (`env`). A run is any sequence of starts and tests; the calls of
    the current round, from its start on, are logged in order, and `RoundOk` says what is expected
    of the log and the status at any time between two calls. -/

namespace Kucg.Core

/-- A call of a sub-operation, known by its position, and the status it returned. -/
inductive Event where
  | trigger (op id : ℕ) (status : Status)
  | progress (op : ℕ) (status : Status)
  deriving DecidableEq, Repr

namespace Event

/-- The returned status. -/
def status : Event → Status
  | trigger _ _ st => st
  | progress _ st => st

/-- The sub-operation that is triggered, if any. -/
def triggered? : Event → Option ℕ
  | trigger i _ _ => some i
  | progress _ _ => none

end Event

/-- The sub-operations as an environment: `past` are the calls of earlier rounds, the state is the
    log of the current one. -/
def envOps (env : List Event → Status) (past : List Event) : OpFuncs (StateM (List Event)) ℕ where
  trigger i id round :=
    let st := env (past ++ round)
    ((i, st), round ++ [.trigger i id st])
  progress i round :=
    let st := env (past ++ round)
    ((i, st), round ++ [.progress i st])

/-- A meta-operation and the logs of its rounds, the current one first. -/
structure MetaSys where
  op : MetaOp ℕ
  rounds : List (List Event)

/-- A user's call. A start comes with the id allocated for it. -/
inductive MetaCall where
  | start (id : ℕ)
  | test

/-- The calls of all rounds but the current one, in order. -/
def pastCalls (rounds : List (List Event)) : List Event := rounds.reverse.flatten

/-- One call: as in `ucg_request_start` and `ucg_request_test`, a request in progress is not
    started, and only a request in progress is progressed. -/
def MetaSys.step (env : List Event → Status) (s : MetaSys) : MetaCall → MetaSys
  | .start id =>
    if s.op.status = .inprogress then s
    else
      let r := metaOpTrigger (envOps env (pastCalls s.rounds)) { s.op with id := id } []
      ⟨r.1.1, r.2 :: s.rounds⟩
  | .test =>
    match s.rounds with
    | [] => s
    | round :: past =>
      if s.op.status = .inprogress then
        let r := metaOpProgress (envOps env (pastCalls past)) s.op round
        ⟨r.1.1, r.2 :: past⟩
      else s

/-- A meta-operation of `n` sub-operations before its first start. -/
def MetaSys.init (n : ℕ) : MetaSys := ⟨metaOpNew (List.range n) 0, []⟩

/-- What is expected of the current round of a meta-operation of `n` sub-operations with request
    id `id`, when its request has status `st`. -/
structure RoundOk (n id : ℕ) (st : Status) (round : List Event) : Prop where
  /-- The round began with sub-operation 0. -/
  began : 0 < n → ∃ st' rest, round = .trigger 0 id st' :: rest
  /-- The sub-operations are triggered in list order, each once. -/
  inOrder : ∃ k ≤ n, round.filterMap Event.triggered? = List.range k ∧ (st = .ok → k = n)
  sameId : ∀ i id' st', .trigger i id' st' ∈ round → id' = id
  /-- One is triggered only after the one before it completed. -/
  afterOk : ∀ before i id' st', before ++ [.trigger (i + 1) id' st'] <+: round →
    .progress i .ok ∈ before
  completed : st = .ok ↔ ∀ i < n, .progress i .ok ∈ round
  /-- An error is the status of the meta-operation and the end of the round's triggers. -/
  failed : ∀ ev ∈ round, ev.status.IsErr → st = ev.status
  stopped : round.Pairwise fun a b => a.status.IsErr → b.triggered? = none

/-- The current round, if any, is as expected. -/
def MetaSys.Ok (n : ℕ) (s : MetaSys) : Prop :=
  ∀ round past, s.rounds = round :: past → RoundOk n s.op.id s.op.status round

/-- No `trigger` returned an error that `progress` did not return too. -/
def Repeated (round : List Event) : Prop :=
  ∀ i id st, .trigger i id st ∈ round → st.IsErr → .progress i st ∈ round

/-- The condition on one call: a start does not follow an error, and in the round up to now every
    error of a `trigger` is also returned by the `progress` called right after it. -/
def StepOk (env : List Event → Status) (s : MetaSys) (call : MetaCall) : Prop :=
  (∀ id, call = .start id → ¬s.op.status.IsErr) ∧
    ∀ round past, (s.step env call).rounds = round :: past → Repeated round

/-! ### Logs -/

/-- The calls of a log are in order: `k` sub-operations completed, and with `t` the next one is
    triggered. -/
structure Ordered (id : ℕ) (round : List Event) (k : ℕ) (t : Bool) : Prop where
  began : round = [] ∨ ∃ st rest, round = .trigger 0 id st :: rest
  triggers : round.filterMap Event.triggered? = List.range (if t then k + 1 else k)
  sameId : ∀ i id' st', .trigger i id' st' ∈ round → id' = id
  afterOk : ∀ before i id' st', before ++ [.trigger (i + 1) id' st'] <+: round →
    .progress i .ok ∈ before
  done : ∀ i, .progress i .ok ∈ round ↔ i < k

theorem Ordered.nil (id : ℕ) : Ordered id [] 0 false := by
  refine ⟨Or.inl rfl, rfl, by simp, ?_, by simp⟩
  intro before i id' st' h
  exact absurd (List.prefix_nil.mp h) (by simp)

/-- A log that is not empty began with sub-operation 0. -/
theorem Ordered.nonempty {id k : ℕ} {round : List Event} {t : Bool} (h : Ordered id round k t)
    (hk : 0 < k ∨ t = true) : ∃ st rest, round = .trigger 0 id st :: rest := by
  refine h.began.resolve_left fun hnil => ?_
  have ht := h.triggers
  rw [hnil, List.filterMap_nil] at ht
  have hlen := congrArg List.length ht
  rcases hk with hk | rfl
  · cases t <;> simp at hlen; omega
  · simp at hlen

section
variable {id k : ℕ} {round : List Event} {st : Status}

/-- The next sub-operation is triggered. -/
theorem Ordered.trigger (h : Ordered id round k false) (st : Status) :
    Ordered id (round ++ [.trigger k id st]) k true where
  began := by
    rcases h.began with rfl | ⟨st', rest, rfl⟩
    · have hk := h.triggers
      have hk : k = 0 := by simpa using congrArg List.length hk.symm
      exact Or.inr ⟨st, [], by rw [hk]; rfl⟩
    · exact Or.inr ⟨st', _, rfl⟩
  triggers := by
    rw [List.filterMap_append, h.triggers]
    simp [Event.triggered?, List.range_succ]
  sameId i id' st' hmem := by
    rcases List.mem_append.mp hmem with hmem | hmem
    · exact h.sameId i id' st' hmem
    · simp only [List.mem_singleton, Event.trigger.injEq] at hmem
      exact hmem.2.1
  afterOk before i id' st' hp := by
    rcases List.prefix_concat_iff.mp hp with heq | hp
    · -- the new trigger: all sub-operations before it are done
      obtain ⟨rfl, hev⟩ := List.append_inj' heq rfl
      simp only [List.cons.injEq, Event.trigger.injEq, and_true] at hev
      exact (h.done i).mpr (by omega)
    · exact h.afterOk before i id' st' hp
  done i := by
    rw [← h.done i]
    simp

/-- The triggered sub-operation is progressed. -/
theorem Ordered.progress (h : Ordered id round k true) (st : Status) :
    Ordered id (round ++ [.progress k st]) (if st = .ok then k + 1 else k)
      (decide (st ≠ .ok)) where
  began := by
    obtain ⟨st', rest, rfl⟩ := h.nonempty (Or.inr rfl)
    exact Or.inr ⟨st', _, rfl⟩
  triggers := by
    rw [List.filterMap_append, h.triggers]
    by_cases hok : st = .ok <;> simp [Event.triggered?, hok]
  sameId i id' st' hmem := by
    rcases List.mem_append.mp hmem with hmem | hmem
    · exact h.sameId i id' st' hmem
    · exact absurd (List.mem_singleton.mp hmem) (by simp)
  afterOk before i id' st' hp := by
    rcases List.prefix_concat_iff.mp hp with heq | hp
    · obtain ⟨-, hev⟩ := List.append_inj' heq rfl
      exact absurd hev (by simp)
    · exact h.afterOk before i id' st' hp
  done i := by
    rw [List.mem_append, h.done i, List.mem_singleton, Event.progress.injEq]
    by_cases hok : st = .ok
    · simp only [hok, and_true, if_true]
      omega
    · simp only [if_neg hok, or_iff_left_iff_imp]
      rintro ⟨-, h'⟩
      exact absurd h'.symm hok

/-- An ordered log without an error. -/
structure Clean (id : ℕ) (round : List Event) (k : ℕ) (t : Bool) : Prop where
  ordered : Ordered id round k t
  noErr : ∀ ev ∈ round, ¬ev.status.IsErr

theorem Clean.nil (id : ℕ) : Clean id [] 0 false := ⟨Ordered.nil id, by simp⟩

theorem noErr_append {ev : Event} (h : ∀ e ∈ round, ¬e.status.IsErr) (hev : ¬ev.status.IsErr) :
    ∀ e ∈ round ++ [ev], ¬e.status.IsErr := by
  intro e he
  rcases List.mem_append.mp he with he | he
  · exact h e he
  · rw [List.mem_singleton.mp he]
    exact hev

theorem Clean.trigger (h : Clean id round k false) (hst : ¬st.IsErr) :
    Clean id (round ++ [.trigger k id st]) k true :=
  ⟨h.ordered.trigger st, noErr_append h.noErr hst⟩

theorem Clean.progress (h : Clean id round k true) (hst : ¬st.IsErr) :
    Clean id (round ++ [.progress k st]) (if st = .ok then k + 1 else k) (decide (st ≠ .ok)) :=
  ⟨h.ordered.progress st, noErr_append h.noErr hst⟩

theorem Clean.stopped {t : Bool} (h : Clean id round k t) :
    round.Pairwise fun a b => a.status.IsErr → b.triggered? = none :=
  List.pairwise_of_forall_mem_list fun a ha _ _ herr => absurd herr (h.noErr a ha)

end

/-! ### What a call does -/

theorem range_set_self (n k : ℕ) : (List.range n).set k k = List.range n := by
  refine List.ext_getElem (by simp) fun i h1 h2 => ?_
  rw [List.getElem_set]
  split
  · rename_i hik
    subst hik
    exact (List.getElem_range _).symm
  · rfl

/-- The log up to the call of `progress`. -/
def triggerLog (env : List Event → Status) (past : List Event) (op : MetaOp ℕ)
    (round : List Event) : List Event :=
  if op.triggered then round
  else round ++ [.trigger op.nCompletedOps op.id (env (past ++ round))]

/-- One call of `metaOpProgress`: `trigger` unless already triggered, then `progress`. -/
theorem stateM_bind_apply {S α γ : Type} (x : StateM S α) (f : α → StateM S γ) (s : S) :
    (x >>= f) s = f (x s).1 (x s).2 := rfl

theorem stateM_pure_apply {S α : Type} (a : α) (s : S) : (pure a : StateM S α) s = (a, s) := rfl

theorem metaOpProgress_log {n : ℕ} (env : List Event → Status) (past : List Event) {op : MetaOp ℕ}
    (round : List Event) (hops : op.ops = List.range n) (hk : op.nCompletedOps < n) :
    metaOpProgress (envOps env past) op round =
      let log := triggerLog env past op round
      let st := env (past ++ log)
      (metaOpAdvance { op with triggered := true } st, log ++ [.progress op.nCompletedOps st]) := by
  have hget : op.ops[op.nCompletedOps]? = some op.nCompletedOps := by
    rw [hops, List.getElem?_range hk]
  have hset : op.ops.set op.nCompletedOps op.nCompletedOps = op.ops := by
    rw [hops, range_set_self]
  unfold metaOpProgress
  rw [hget]
  cases ht : op.triggered
  · simp only [triggerLog, ht, envOps, stateM_bind_apply, stateM_pure_apply, Bool.false_eq_true,
      if_false, hset]
  · simp only [triggerLog, ht, envOps, stateM_bind_apply, stateM_pure_apply, if_true, hset]

/-! ### The invariant of runs -/

/-- The current round of a meta-operation of `n` sub-operations. -/
inductive RoundInv (n : ℕ) (op : MetaOp ℕ) (round : List Event) : Prop
  | running (hst : op.status = .inprogress) (hk : op.nCompletedOps < n)
      (hclean : Clean op.id round op.nCompletedOps op.triggered)
      (hbegan : 0 < op.nCompletedOps ∨ op.triggered = true)
  | finished (hst : op.status = .ok) (ht : op.triggered = false)
      (hclean : Clean op.id round n false)
  | failed (log : List Event) (hst : op.status.IsErr) (hk : op.nCompletedOps < n)
      (ht : op.triggered = true) (hclean : Clean op.id log op.nCompletedOps true)
      (hround : round = log ++ [.progress op.nCompletedOps op.status])
  | refused (log : List Event) (hst : op.status.IsErr) (hk : op.nCompletedOps < n)
      (ht : op.triggered = true) (hclean : Clean op.id log op.nCompletedOps false)
      (hround : round = log ++ [.trigger op.nCompletedOps op.id op.status,
        .progress op.nCompletedOps op.status])

/-- After `progress` returned, when `trigger` did not fail. -/
theorem roundInv_advance {n : ℕ} {op : MetaOp ℕ} {log : List Event} (hops : op.ops = List.range n)
    (hst : op.status = .inprogress) (hk : op.nCompletedOps < n)
    (hclean : Clean op.id log op.nCompletedOps true) (st : Status) :
    RoundInv n (metaOpAdvance { op with triggered := true } st).1
      (log ++ [.progress op.nCompletedOps st]) := by
  unfold metaOpAdvance
  by_cases hok : st = .ok
  · have hnext := hclean.progress (show ¬st.IsErr by rw [hok]; decide)
    rw [if_pos hok, decide_eq_false (by simpa using hok)] at hnext
    rw [if_pos hok]
    dsimp only
    split
    · rename_i hn
      rw [hops, List.length_range] at hn
      exact .finished rfl rfl (hn ▸ hnext)
    · rename_i hn
      rw [hops, List.length_range] at hn
      exact .running hst (by dsimp only; omega) hnext (Or.inl (Nat.succ_pos _))
  · rw [if_neg hok]
    by_cases hin : st = .inprogress
    · have hnext := hclean.progress (show ¬st.IsErr by rw [hin]; decide)
      rw [if_neg hok, decide_eq_true hok] at hnext
      rw [if_neg (not_not.mpr hin)]
      exact .running hst hk hnext (Or.inr rfl)
    · rw [if_pos hin]
      exact .failed log ⟨hok, hin⟩ hk rfl hclean rfl

/-- After `progress` returned the error that `trigger` had returned. -/
theorem roundInv_refused {n : ℕ} {op : MetaOp ℕ} {log : List Event} (hk : op.nCompletedOps < n)
    (hclean : Clean op.id log op.nCompletedOps false) {st : Status} (hst : st.IsErr) :
    RoundInv n (metaOpAdvance { op with triggered := true } st).1
      (log ++ [.trigger op.nCompletedOps op.id st, .progress op.nCompletedOps st]) := by
  unfold metaOpAdvance
  rw [if_neg hst.1, if_pos hst.2]
  exact .refused log hst hk rfl hclean rfl

/-- One call of `metaOpProgress` in a round without an error so far. -/
theorem roundInv_progress {n : ℕ} (env : List Event → Status) (past : List Event) {op : MetaOp ℕ}
    {round : List Event} (hops : op.ops = List.range n) (hst : op.status = .inprogress)
    (hk : op.nCompletedOps < n) (hclean : Clean op.id round op.nCompletedOps op.triggered)
    (hrep : Repeated (metaOpProgress (envOps env past) op round).2) :
    RoundInv n (metaOpProgress (envOps env past) op round).1.1
      (metaOpProgress (envOps env past) op round).2 := by
  rw [metaOpProgress_log env past round hops hk] at hrep ⊢
  dsimp only at hrep ⊢
  cases ht : op.triggered
  · rw [ht] at hclean
    have hlog : triggerLog env past op round =
        round ++ [.trigger op.nCompletedOps op.id (env (past ++ round))] := by
      rw [triggerLog, ht]
      rfl
    rw [hlog] at hrep ⊢
    by_cases herr : (env (past ++ round)).IsErr
    · -- the error can only be repeated by the `progress` of this call
      have hmem := hrep op.nCompletedOps op.id _ (by simp) herr
      rw [List.append_assoc, List.mem_append] at hmem
      rcases hmem with hmem | hmem
      · exact absurd herr (hclean.noErr _ hmem)
      · simp only [List.mem_append, List.mem_singleton, reduceCtorEq, false_or,
          Event.progress.injEq, true_and] at hmem
        rw [← hmem]
        have h := roundInv_refused hk hclean herr
        simpa only [List.append_assoc, List.cons_append, List.nil_append] using h
    · exact roundInv_advance hops hst hk (hclean.trigger herr) _
  · rw [ht] at hclean
    have hlog : triggerLog env past op round = round := by
      rw [triggerLog, ht]
      rfl
    rw [hlog]
    exact roundInv_advance hops hst hk hclean _

/-- The invariant of a system. -/
structure MetaSys.Inv (n : ℕ) (s : MetaSys) : Prop where
  ops : s.op.ops = List.range n
  fresh : s.rounds = [] → s.op.status = .ok ∧ s.op.triggered = false
  current : ∀ round past, s.rounds = round :: past → RoundInv n s.op round

theorem init_inv (n : ℕ) : (MetaSys.init n).Inv n :=
  ⟨rfl, fun _ => ⟨rfl, rfl⟩, fun _ _ h => absurd h (by simp [MetaSys.init])⟩

/-- A start that does not follow an error finds the operation untriggered. -/
theorem MetaSys.Inv.untriggered {n : ℕ} {s : MetaSys} (hI : s.Inv n)
    (hin : s.op.status ≠ .inprogress) (herr : ¬s.op.status.IsErr) : s.op.triggered = false := by
  match hr : s.rounds with
  | [] => exact (hI.fresh hr).2
  | round :: past =>
    cases hI.current round past hr with
    | running hst => exact absurd hst hin
    | finished _ ht => exact ht
    | failed _ hst => exact absurd hst herr
    | refused _ hst => exact absurd hst herr

theorem metaOpTrigger_zero (env : List Event → Status) (past : List Event) {op : MetaOp ℕ}
    (hops : op.ops = List.range 0) :
    metaOpTrigger (envOps env past) op [] = (({ op with status := .ok }, .ok), []) := by
  unfold metaOpTrigger
  rw [if_pos (by simp [hops])]
  rfl

/-- `metaOpTrigger` is one call of `metaOpProgress` from sub-operation 0 on. -/
theorem metaOpTrigger_log {n : ℕ} (env : List Event → Status) (past : List Event) {op : MetaOp ℕ}
    (hops : op.ops = List.range n) (hn : 0 < n) :
    ∃ r st, metaOpProgress (envOps env past) { op with status := .inprogress, nCompletedOps := 0 }
      [] = r ∧ metaOpTrigger (envOps env past) op [] = ((r.1.1, st), r.2) := by
  unfold metaOpTrigger
  rw [if_neg (by rw [hops, List.length_range]; omega)]
  exact ⟨_, _, rfl, rfl⟩

/-- A call of `metaOpProgress` keeps the sub-operations and the id. -/
theorem metaOpProgress_frame {n : ℕ} (env : List Event → Status) (past : List Event) {op : MetaOp ℕ}
    (round : List Event) (hops : op.ops = List.range n) (hk : op.nCompletedOps < n) :
    (metaOpProgress (envOps env past) op round).1.1.ops = List.range n ∧
      (metaOpProgress (envOps env past) op round).1.1.id = op.id := by
  rw [metaOpProgress_log env past round hops hk]
  exact ⟨(metaOpAdvance_ops _ _).trans hops, metaOpAdvance_id _ _⟩

/-- The invariant is kept by a call that meets the condition. -/
theorem step_inv {n : ℕ} (env : List Event → Status) {s : MetaSys} {call : MetaCall}
    (hI : s.Inv n) (hok : StepOk env s call) : (s.step env call).Inv n := by
  obtain ⟨herr, hrep⟩ := hok
  cases call with
  | start id =>
    by_cases hin : s.op.status = .inprogress
    · rw [MetaSys.step, if_pos hin]
      exact hI
    rw [MetaSys.step, if_neg hin] at hrep ⊢
    have ht := hI.untriggered hin (herr id rfl)
    rcases Nat.eq_zero_or_pos n with rfl | hn
    · -- nothing to do: completed at once
      have htrig := metaOpTrigger_zero env (pastCalls s.rounds)
        (show { s.op with id := id }.ops = List.range 0 from hI.ops)
      simp only [htrig]
      refine ⟨hI.ops, fun h => absurd h (by simp), ?_⟩
      intro round past h
      obtain ⟨rfl, -⟩ := List.cons.inj h
      exact .finished rfl ht (Clean.nil id)
    · obtain ⟨r, st, hr, htrig⟩ := metaOpTrigger_log env (pastCalls s.rounds)
        (show { s.op with id := id }.ops = List.range n from hI.ops) hn
      have hzero : ∀ id, (MetaOp.mk s.op.ops 0 s.op.triggered .inprogress id).ops = List.range n :=
        fun _ => hI.ops
      simp only [htrig] at hrep ⊢
      have hrep := hrep _ _ rfl
      rw [← hr] at hrep ⊢
      refine ⟨(metaOpProgress_frame env _ [] (hzero id) hn).1, fun h => absurd h (by simp), ?_⟩
      intro round past h
      obtain ⟨rfl, -⟩ := List.cons.inj h
      refine roundInv_progress env _ hI.ops rfl hn ?_ hrep
      simp only [ht]
      exact Clean.nil id
  | test =>
    match hr : s.rounds with
    | [] =>
      rw [MetaSys.step, hr]
      exact hI
    | round :: past =>
      by_cases hin : s.op.status = .inprogress
      · simp only [MetaSys.step, hr, if_pos hin] at hrep ⊢
        have hrep := hrep _ _ rfl
        cases hI.current round past hr with
        | running hst hk hclean hbegan =>
          refine ⟨(metaOpProgress_frame env _ round hI.ops hk).1, fun h => absurd h (by simp), ?_⟩
          intro round' past' h
          obtain ⟨rfl, -⟩ := List.cons.inj h
          exact roundInv_progress env _ hI.ops hst hk hclean hrep
        | finished hst => exact absurd (hst.symm.trans hin) (by decide)
        | failed _ hst => exact absurd hin hst.2
        | refused _ hst => exact absurd hin hst.2
      · simp only [MetaSys.step, hr, if_neg hin]
        exact hI

/-! ### Runs -/

/-- An ordered log that has an error, if at all, only as its last status is as expected. -/
theorem roundOk_of_ordered {n id k : ℕ} {t : Bool} {st : Status} {round : List Event}
    (h : Ordered id round k t) (hk : k + (if t then 1 else 0) ≤ n)
      (hbegan : 0 < n → 0 < k ∨ t = true)
    (hst : st = .ok ↔ k = n) (hfailed : ∀ ev ∈ round, ev.status.IsErr → st = ev.status)
    (hstopped : round.Pairwise fun a b => a.status.IsErr → b.triggered? = none) :
    RoundOk n id st round where
  began hn := h.nonempty (hbegan hn)
  inOrder := by
    refine ⟨k + (if t then 1 else 0), hk, ?_, ?_⟩
    · rw [h.triggers]
      cases t <;> rfl
    · intro hok
      have := hst.mp hok
      omega
  sameId := h.sameId
  afterOk := h.afterOk
  completed := by
    simp only [h.done, hst]
    constructor
    · rintro rfl i hi
      exact hi
    · intro hall
      by_contra hne
      exact absurd (hall k (by omega)) (lt_irrefl k)
  failed := hfailed
  stopped := hstopped

/-- What is expected follows from the invariant. -/
theorem roundOk_of_inv {n : ℕ} {op : MetaOp ℕ} {round : List Event} (h : RoundInv n op round) :
    RoundOk n op.id op.status round := by
  cases h with
  | running hst hk hclean hbegan =>
    refine roundOk_of_ordered hclean.ordered (by split <;> omega) (fun _ => hbegan) ?_ ?_
      hclean.stopped
    · rw [hst]
      exact ⟨fun h => absurd h (by decide), fun h => by omega⟩
    · exact fun ev hev herr => absurd herr (hclean.noErr ev hev)
  | finished hst ht hclean =>
    refine roundOk_of_ordered hclean.ordered (by simp) (fun hn => Or.inl hn) ?_ ?_ hclean.stopped
    · exact ⟨fun _ => rfl, fun _ => hst⟩
    · exact fun ev hev herr => absurd herr (hclean.noErr ev hev)
  | failed log hst hk ht hclean hround =>
    have hord := hclean.ordered.progress op.status
    rw [if_neg hst.1, decide_eq_true hst.1] at hord
    rw [hround]
    refine roundOk_of_ordered hord (by simpa using hk) (fun _ => Or.inr rfl) ?_ ?_ ?_
    · exact ⟨fun h => absurd h hst.1, fun h => by omega⟩
    · intro ev hev herr
      rcases List.mem_append.mp hev with hev | hev
      · exact absurd herr (hclean.noErr ev hev)
      · rw [List.mem_singleton.mp hev]
        rfl
    · refine List.pairwise_append.mpr ⟨hclean.stopped, List.pairwise_singleton _ _, ?_⟩
      exact fun a ha _ _ herr => absurd herr (hclean.noErr a ha)
  | refused log hst hk ht hclean hround =>
    have hord := (hclean.ordered.trigger op.status).progress op.status
    rw [if_neg hst.1, decide_eq_true hst.1, List.append_assoc] at hord
    rw [hround]
    refine roundOk_of_ordered hord (by simpa using hk) (fun _ => Or.inr rfl) ?_ ?_ ?_
    · exact ⟨fun h => absurd h hst.1, fun h => by omega⟩
    · intro ev hev herr
      rcases List.mem_append.mp hev with hev | hev
      · exact absurd herr (hclean.noErr ev hev)
      · simp only [List.mem_cons, List.not_mem_nil, or_false] at hev
        rcases hev with rfl | rfl <;> rfl
    · refine List.pairwise_append.mpr ⟨hclean.stopped, ?_, ?_⟩
      · refine List.pairwise_pair.mpr fun _ => rfl
      · exact fun a ha _ _ herr => absurd herr (hclean.noErr a ha)

/-- A run from a fresh meta-operation of `n` sub-operations whose calls all meet the condition. -/
inductive OkRun (env : List Event → Status) (n : ℕ) : MetaSys → Prop
  | init : OkRun env n (MetaSys.init n)
  | step {s : MetaSys} (call : MetaCall) : OkRun env n s → StepOk env s call →
      OkRun env n (s.step env call)

theorem okRun_inv {env : List Event → Status} {n : ℕ} {s : MetaSys} (h : OkRun env n s) :
    s.Inv n := by
  induction h with
  | init => exact init_inv n
  | step call _ hok ih => exact step_inv env ih hok

/-! ### The condition is exact -/

/-- In a round that goes as expected, `progress` repeats the errors of `trigger`. -/
theorem RoundInv.repeated {n : ℕ} {op : MetaOp ℕ} {round : List Event} (h : RoundInv n op round) :
    Repeated round := by
  intro i id st hmem herr
  cases h with
  | running _ _ hclean => exact absurd herr (hclean.noErr _ hmem)
  | finished _ _ hclean => exact absurd herr (hclean.noErr _ hmem)
  | failed log _ _ _ hclean hround =>
    rw [hround, List.mem_append] at hmem
    rcases hmem with hmem | hmem
    · exact absurd herr (hclean.noErr _ hmem)
    · exact absurd (List.mem_singleton.mp hmem) (by simp)
  | refused log _ _ _ hclean hround =>
    rw [hround, List.mem_append] at hmem ⊢
    rcases hmem with hmem | hmem
    · exact absurd herr (hclean.noErr _ hmem)
    · simp only [List.mem_cons, Event.trigger.injEq, reduceCtorEq, List.not_mem_nil, or_false]
        at hmem
      exact Or.inr (by rw [hmem.1, hmem.2.2]; simp)

/-- The status of the meta-operation is an error only if `progress` returned it. -/
theorem metaOpAdvance_err {op : MetaOp ℕ} (hst : op.status = .inprogress) {st : Status}
    (herr : (metaOpAdvance op st).1.status.IsErr) : (metaOpAdvance op st).1.status = st := by
  unfold metaOpAdvance at herr ⊢
  dsimp only at herr ⊢
  split_ifs at herr ⊢ with h1 h2 h3
  · exact h1.symm
  · exact absurd hst herr.2
  · rfl
  · exact absurd hst herr.2

/-- A call of `metaOpProgress` that turns every error into the status repeats those of `trigger`. -/
theorem repeated_of_failed {n : ℕ} (env : List Event → Status) (past : List Event) {op : MetaOp ℕ}
    {round : List Event} (hops : op.ops = List.range n) (hst : op.status = .inprogress)
    (hk : op.nCompletedOps < n) (hclean : ∀ ev ∈ round, ¬ev.status.IsErr)
    (hfailed : ∀ ev ∈ (metaOpProgress (envOps env past) op round).2, ev.status.IsErr →
      (metaOpProgress (envOps env past) op round).1.1.status = ev.status) :
    Repeated (metaOpProgress (envOps env past) op round).2 := by
  rw [metaOpProgress_log env past round hops hk] at hfailed ⊢
  dsimp only at hfailed ⊢
  intro i id st hmem herr
  have hstatus := hfailed _ hmem herr
  have hlast := metaOpAdvance_err (show { op with triggered := true }.status = .inprogress from hst)
    (by rw [hstatus]; exact herr)
  -- the trigger with an error is the one of this call
  have hi : i = op.nCompletedOps := by
    unfold triggerLog at hmem
    split at hmem
    · rcases List.mem_append.mp hmem with hmem | hmem
      · exact absurd herr (hclean _ hmem)
      · exact absurd (List.mem_singleton.mp hmem) (by simp)
    · simp only [List.mem_append, List.mem_singleton, Event.trigger.injEq, reduceCtorEq,
        or_false] at hmem
      rcases hmem with hmem | hmem
      · exact absurd herr (hclean _ hmem)
      · exact hmem.1
  rw [List.mem_append, hi]
  refine Or.inr (List.mem_singleton.mpr ?_)
  rw [← hlast, hstatus]
  rfl

/-- A meta-operation started after an error does not trigger sub-operation 0. -/
theorem not_ok_of_restart {n : ℕ} (env : List Event → Status) {s : MetaSys} (hI : s.Inv n)
    (herr : s.op.status.IsErr) (id : ℕ) : ¬(s.step env (.start id)).Ok n := by
  have hstuck : s.op.triggered = true ∧ 0 < n := by
    match hr : s.rounds with
    | [] => exact absurd (hI.fresh hr).1 herr.1
    | round :: past =>
      cases hI.current round past hr with
      | running hst => exact absurd hst herr.2
      | finished hst => exact absurd hst herr.1
      | failed _ _ hk ht => exact ⟨ht, by omega⟩
      | refused _ _ hk ht => exact ⟨ht, by omega⟩
  intro hok
  rw [MetaSys.step, if_neg herr.2] at hok
  obtain ⟨r, st, hr, htrig⟩ := metaOpTrigger_log env (pastCalls s.rounds)
    (show { s.op with id := id }.ops = List.range n from hI.ops) hstuck.2
  simp only [htrig] at hok
  obtain ⟨st', rest, hbegan⟩ := (hok _ _ rfl).began hstuck.2
  rw [← hr, metaOpProgress_log env _ [] (show (MetaOp.mk s.op.ops 0 s.op.triggered .inprogress
    id).ops = List.range n from hI.ops) hstuck.2] at hbegan
  simp [triggerLog, hstuck.1] at hbegan

/-- A call after which all is as expected met the condition. -/
theorem stepOk_of_ok {n : ℕ} (env : List Event → Status) {s : MetaSys} {call : MetaCall}
    (hI : s.Inv n) (hok : (s.step env call).Ok n) : StepOk env s call := by
  have hsame : ∀ round past, s.rounds = round :: past → Repeated round :=
    fun round past hr => (hI.current round past hr).repeated
  cases call with
  | start id =>
    by_cases hin : s.op.status = .inprogress
    · refine ⟨fun _ _ herr => herr.2 hin, ?_⟩
      rw [MetaSys.step, if_pos hin]
      exact hsame
    refine ⟨fun _ _ herr => not_ok_of_restart env hI herr id hok, ?_⟩
    rw [MetaSys.step, if_neg hin] at hok ⊢
    intro round past h
    rcases Nat.eq_zero_or_pos n with rfl | hn
    · have htrig := metaOpTrigger_zero env (pastCalls s.rounds)
        (show { s.op with id := id }.ops = List.range 0 from hI.ops)
      simp only [htrig] at h
      obtain ⟨rfl, -⟩ := List.cons.inj h
      exact fun i id' st hmem => absurd hmem (by simp)
    · obtain ⟨r, st, hr, htrig⟩ := metaOpTrigger_log env (pastCalls s.rounds)
        (show { s.op with id := id }.ops = List.range n from hI.ops) hn
      simp only [htrig] at h hok
      obtain ⟨rfl, -⟩ := List.cons.inj h
      have hfailed := (hok _ _ rfl).failed
      dsimp only at hfailed
      rw [← hr] at hfailed ⊢
      exact repeated_of_failed env _
        (show (MetaOp.mk s.op.ops 0 s.op.triggered .inprogress id).ops =
        List.range n from hI.ops) rfl hn (by simp) hfailed
  | test =>
    refine ⟨fun _ h => absurd h (by simp), ?_⟩
    match hr : s.rounds with
    | [] =>
      have hstep : s.step env .test = s := by rw [MetaSys.step, hr]
      rw [hstep]
      exact hsame
    | round :: past =>
      by_cases hin : s.op.status = .inprogress
      · simp only [MetaSys.step, hr, if_pos hin] at hok ⊢
        intro round' past' h
        obtain ⟨rfl, -⟩ := List.cons.inj h
        cases hI.current round past hr with
        | running hst hk hclean =>
          exact repeated_of_failed env _ hI.ops hst hk hclean.noErr (hok _ _ rfl).failed
        | finished hst => exact absurd (hst.symm.trans hin) (by decide)
        | failed _ hst => exact absurd hin hst.2
        | refused _ hst => exact absurd hin hst.2
      · simp only [MetaSys.step, hr, if_neg hin]
        exact hr ▸ hsame

/-- A call in a round without an error meets the condition. -/
theorem stepOk_of_noErr {env : List Event → Status} {s : MetaSys} {call : MetaCall}
    {round : List Event} {past : List (List Event)} (hst : ¬s.op.status.IsErr)
    (hr : (s.step env call).rounds = round :: past) (h : ∀ ev ∈ round, ¬ev.status.IsErr) :
    StepOk env s call := by
  refine ⟨fun _ _ => hst, fun round' past' hr' => ?_⟩
  obtain ⟨rfl, -⟩ := List.cons.inj (hr.symm.trans hr')
  exact fun i id st hmem herr => absurd herr (h _ hmem)

/-- Answers under which the first `progress` of a run is in progress and all else succeeds. -/
def slowAnswers (calls : List Event) : Status := if calls.length = 1 then .inprogress else .ok

/-- Answers under which the first `trigger` fails and all else succeeds. -/
def lostAnswers (calls : List Event) : Status := if calls = [] then .errNoMemory else .ok

/-- Answers under which the first `progress` fails and all else succeeds. -/
def failAnswers (calls : List Event) : Status := if calls.length = 1 then .errIoError else .ok

end Kucg.Core
