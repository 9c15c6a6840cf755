import Kucg.Core.MetaOp
import Kucg.Lib.Adequacy
import Kucg.Lib.Results
import Kucg.Lib.Sched

/-! Plan operations that post messages, and the meta-operation over them.

    `Obeys` says of the two entry points of an operation what `Proc.Follows` says of a procedure.
    A meta-operation whose sub-operations obey their traces one after another obeys the traces put
    together (`metaOp_obeys`). -/

namespace Kucg.Ucx

open Kucg.Core Kucg.Lib

variable {ι β O : Type}

/-- The trace is followed to its end and `Q` holds. -/
def Done (Q : (ι → β) → Set ℕ → Prop) (g : Ghost ι β) : Prop :=
  g.todo = [] ∧ g.pend = [] ∧ Q g.mem g.know

/-- A started operation as `ucg_request_start` and `ucg_request_test` run it: progress is called
    as long as the request is in progress. -/
def opProc (f : OpFuncs (Prog ι β) O) (status : O → Status) (op : O) (id : ℕ) : Proc ι β O where
  trigger := do
    let (op, _) ← f.trigger op id
    pure op
  progress op := do
    let (op, _) ← f.progress op
    pure op
  active op := status op = .inprogress

/-- What an operation made as `op₀` can have become, and what it has posted since it was triggered:
    it is triggered when new or complete, and called again as long as it is in progress. -/
inductive OpRun (f : OpFuncs (Prog ι β) O) (status : O → Status) (op₀ : O) :
    O → List (Post ι) → Prop
  | trigger {op : O} {st : Status} {posts : List (Post ι)} (id : ℕ)
      (h : (f.trigger op₀ id).Yields (op, st) posts) : OpRun f status op₀ op posts
  | again {op op' : O} {st : Status} {posts posts' : List (Post ι)} (id : ℕ)
      (hrun : OpRun f status op₀ op posts) (hok : status op = .ok)
      (h : (f.trigger op id).Yields (op', st) posts') : OpRun f status op₀ op' posts'
  | progress {op op' : O} {st : Status} {posts posts' : List (Post ι)}
      (hrun : OpRun f status op₀ op posts) (hin : status op = .inprogress)
      (h : (f.progress op).Yields (op', st) posts') : OpRun f status op₀ op' (posts ++ posts')

/-- What every trigger and every progress call keeps holds in every run. -/
theorem OpRun.invariant {f : OpFuncs (Prog ι β) O} {status : O → Status} {op₀ : O}
    {I : O → Prop} {J : O → List (Post ι) → Prop} (hnew : I op₀)
    (hidle : ∀ op posts, J op posts → I op)
    (htrigger : ∀ op id, I op → (f.trigger op id).Always (fun res posts => J res.1 posts) [])
    (hprogress : ∀ op posts, J op posts → status op = .inprogress →
      (f.progress op).Always (fun res posts => J res.1 posts) posts)
    {op : O} {posts : List (Post ι)} (h : OpRun f status op₀ op posts) : J op posts := by
  induction h with
  | trigger id h => exact (htrigger _ id hnew).of_yields h
  | again id _ _ h ih => exact (htrigger _ id (hidle _ _ ih)).of_yields h
  | progress _ hin h ih => exact (hprogress _ _ ih hin).of_yields h

variable [DecidableEq ι]

/-- The operation follows the trace of `g₀` and ends with `Q`; its invariant `inv` holds after the
    trigger and after every progress, also of an operation that is complete. -/
structure Obeys (f : OpFuncs (Prog ι β) O) (status : O → Status) (id : ℕ) (op₀ : O)
    (inv : O → Ghost ι β → Prop) (Q : (ι → β) → Set ℕ → Prop) (g₀ : Ghost ι β) : Prop where
  trigger : (f.trigger op₀ id).wp (fun res g => inv res.1 g) g₀
  progress : ∀ op g, inv op g →
    (f.progress op).wp (fun res g => res.2 = status res.1 ∧ inv res.1 g) g
  settled : ∀ op g, inv op g → status op = .inprogress ∨ status op = .ok ∧ Done Q g

section Obeys

variable {f : OpFuncs (Prog ι β) O} {status : O → Status} {id : ℕ} {op₀ : O}
  {inv : O → Ghost ι β → Prop} {Q : (ι → β) → Set ℕ → Prop} {g₀ : Ghost ι β}

/-- Less may be asked for in the end. -/
theorem Obeys.imp {Q' : (ι → β) → Set ℕ → Prop} (h : Obeys f status id op₀ inv Q g₀)
    (hQ : ∀ m k, Q m k → Q' m k) : Obeys f status id op₀ inv Q' g₀ where
  trigger := h.trigger
  progress := h.progress
  settled op g hg := (h.settled op g hg).imp_right fun ⟨hok, htodo, hpend, hend⟩ =>
    ⟨hok, htodo, hpend, hQ _ _ hend⟩

/-- As a procedure of a rank. -/
theorem Obeys.meets (h : Obeys f status id op₀ inv Q g₀) :
    (opProc f status op₀ id).Meets (fun op m k => status op = .ok ∧ Q m k) g₀ := by
  have hpost (op) (g) (hinv : inv op g) : (opProc f status op₀ id).post inv
      (fun op m k => status op = .ok ∧ Q m k) op g := by
    refine ⟨hinv, fun hact => ?_⟩
    rcases h.settled op g hinv with hin | ⟨hok, htodo, hpend, hQ⟩
    · exact absurd hin (of_decide_eq_false hact)
    · exact ⟨htodo, hpend, hok, hQ⟩
  refine ⟨inv, ?_, fun op g hinv => ?_⟩
  · simp only [opProc, wp_bind, wp_pure]
    exact h.trigger.imp fun (res : O × Status) g => hpost res.1 g
  · simp only [opProc, wp_bind, wp_pure]
    exact (h.progress op g hinv).imp fun (res : O × Status) g hres => hpost res.1 g hres.2

end Obeys

/-! ### Operations that execute a schedule -/

/-- Where a call of an operation ends: `Rel` tells what is left of its schedule. -/
def OpLeaf (status : O → Status) (Rel : O → Sched ι β → Prop) (moved : Bool) (op : O)
    (cs : Sched ι β) : Prop :=
  Rel op cs ∧ (status op = .inprogress ∧ moved = true ∧ cs.AtStop ∨ status op = .ok ∧ cs = [])

omit [DecidableEq ι] in
/-- The operation executes the schedule `cs₀`. -/
structure OpRuns (f : OpFuncs (Prog ι β) O) (status : O → Status) (id : ℕ) (op₀ : O)
    (Rel : O → Sched ι β → Prop) (cs₀ : Sched ι β) : Prop where
  trigger : (f.trigger op₀ id).Exec (fun moved res cs => OpLeaf status Rel moved res.1 cs) true cs₀
  progress : ∀ op cs, Rel op cs → (f.progress op).Exec
    (fun moved res cs => res.2 = status res.1 ∧ OpLeaf status Rel moved res.1 cs) false cs

section OpRuns

variable {f : OpFuncs (Prog ι β) O} {status : O → Status} {id : ℕ} {op₀ : O}
  {Rel : O → Sched ι β → Prop} {cs₀ : Sched ι β}

omit [DecidableEq ι] in
theorem OpLeaf.leaf {moved : Bool} {op : O} {cs : Sched ι β} (h : OpLeaf status Rel moved op cs) :
    (opProc f status op₀ id).Leaf
      (fun op cs => Rel op cs ∧ (status op = .inprogress ∨ status op = .ok)) moved op cs := by
  obtain ⟨hrel, ⟨hst, hmoved, hstop⟩ | ⟨hst, hnil⟩⟩ := h
  · exact ⟨⟨hrel, Or.inl hst⟩, Or.inl ⟨decide_eq_true hst, hmoved, hstop⟩⟩
  · exact ⟨⟨hrel, Or.inr hst⟩, Or.inr ⟨decide_eq_false (by simp [hst]), hnil⟩⟩

omit [DecidableEq ι] in
/-- As a procedure of a rank. -/
theorem OpRuns.runs (h : OpRuns f status id op₀ Rel cs₀) : (opProc f status op₀ id).Runs
    (fun op cs => Rel op cs ∧ (status op = .inprogress ∨ status op = .ok)) cs₀ where
  trigger := by
    simp only [opProc, exec_bind, exec_pure]
    exact h.trigger.imp fun moved res cs hleaf => hleaf.leaf
  progress op cs hrel := by
    simp only [opProc, exec_bind, exec_pure]
    exact (h.progress op cs hrel.1).imp fun moved res cs hleaf => hleaf.2.leaf

variable {Q : (ι → β) → Set ℕ → Prop} {g₀ : Ghost ι β}

/-- As an operation that obeys the trace which its schedule follows. -/
theorem OpRuns.obeys (h : OpRuns f status id op₀ Rel cs₀) (hQ : Stable (Done Q))
    (hwp : Sched.wp (Done Q) cs₀ g₀) : Obeys f status id op₀ (fun op g => ∃ moved cs,
      OpLeaf status Rel moved op cs ∧ Sched.wp (Done Q) cs g) Q g₀ where
  trigger := h.trigger.wp hQ hwp
  progress := by
    rintro op g ⟨moved, cs, hleaf, hcs⟩
    refine ((h.progress op cs hleaf.1).wp hQ hcs).imp ?_
    rintro res g ⟨moved, cs, ⟨hst, hleaf⟩, hcs⟩
    exact ⟨hst, moved, cs, hleaf, hcs⟩
  settled := by
    rintro op g ⟨moved, cs, ⟨-, ⟨hin, -⟩ | ⟨hok, rfl⟩⟩, hcs⟩
    · exact Or.inl hin
    · exact Or.inr ⟨hok, hcs⟩

end OpRuns

/-! ### The meta-operation -/

/-- What the memory and the known ranks are between sub-operations. -/
abbrev Cond (ι β : Type) := (ι → β) → Set ℕ → Prop

/-- Operations that lead from `P` to `Q` one after another, and the trace they follow. -/
inductive Stages (f : OpFuncs (Prog ι β) O) (status : O → Status) (id : ℕ) :
    List O → List (Event β) → Cond ι β → Cond ι β → Prop
  | nil (P : Cond ι β) : Stages f status id [] [] P P
  | cons {op : O} {ops : List O} {t t' : List (Event β)} {P R Q : Cond ι β}
      (hop : ∀ m k, P m k → ∃ inv, Obeys f status id op inv R ⟨m, [], t, k⟩)
      (hops : Stages f status id ops t' R Q) : Stages f status id (op :: ops) (t ++ t') P Q

section Meta

variable (f : OpFuncs (Prog ι β) O) (status : O → Status) (id : ℕ) (Q : Cond ι β)

/-- Between calls, a meta-operation has completed, or its current sub-operation has not been
    triggered, or it has. -/
inductive MetaInv : MetaOp O → Ghost ι β → Prop
  | complete {op : MetaOp O} {g : Ghost ι β} (hall : op.nCompletedOps = op.ops.length)
      (hst : op.status = .ok) (hdone : Done Q g) : MetaInv op g
  | fresh {op : MetaOp O} {g : Ghost ι β} {pre ops : List O} {P : Cond ι β}
      (hops : op.ops = pre ++ ops) (hpre : pre.length = op.nCompletedOps) (hne : ops ≠ [])
      (htrig : op.triggered = false) (hst : op.status = .inprogress) (hid : op.id = id)
      (hpend : g.pend = []) (hP : P g.mem g.know) (hstages : Stages f status id ops g.todo P Q) :
      MetaInv op g
  | busy {op : MetaOp O} {g : Ghost ι β} {pre ops : List O} {cur op₀ : O} {R : Cond ι β}
      {t t' : List (Event β)} {inv : O → Ghost ι β → Prop} {g₀ : Ghost ι β}
      (hops : op.ops = pre ++ cur :: ops) (hpre : pre.length = op.nCompletedOps)
      (htrig : op.triggered = true) (hst : op.status = .inprogress) (hid : op.id = id)
      (htodo : g.todo = t ++ t') (hobeys : Obeys f status id op₀ inv R g₀)
      (hinv : inv cur { g with todo := t }) (hstages : Stages f status id ops t' R Q) :
      MetaInv op g

variable {f status id Q}

/-- The end of a progress call, when the sub-operation has been called. -/
theorem metaInv_advance {op : MetaOp O} {pre ops : List O} {cur op₀ : O} {R : Cond ι β}
    {t t' : List (Event β)} {inv : O → Ghost ι β → Prop} {g₀ g : Ghost ι β}
    (hops : op.ops = pre ++ cur :: ops) (hpre : pre.length = op.nCompletedOps)
    (htrig : op.triggered = true) (hst : op.status = .inprogress) (hid : op.id = id)
    (htodo : g.todo = t ++ t') (hobeys : Obeys f status id op₀ inv R g₀)
    (hinv : inv cur { g with todo := t }) (hstages : Stages f status id ops t' R Q) :
    MetaInv f status id Q (metaOpAdvance op (status cur)).1 g := by
  rcases hobeys.settled cur _ hinv with hin | ⟨hok, ht, hpend, hR⟩
  · rw [hin, metaOpAdvance, if_neg (by decide), if_neg (by simp)]
    exact .busy hops hpre htrig hst hid htodo hobeys hinv hstages
  · obtain rfl : t = [] := ht
    rw [hok, metaOpAdvance, if_pos rfl]
    dsimp only
    split_ifs with hall
    · have hnil : ops = [] := by
        rw [hops, List.length_append, List.length_cons, ← hpre] at hall
        exact List.length_eq_zero_iff.mp (by omega)
      subst hnil
      cases hstages
      exact .complete hall rfl ⟨htodo, hpend, hR⟩
    · have hsplit : op.ops = (pre ++ [cur]) ++ ops := by simp [hops]
      refine .fresh hsplit (by simp [hpre]) ?_ rfl hst hid hpend hR (by rwa [htodo])
      rintro rfl
      exact hall (by simp [hops, ← hpre])

/-- A progress call on a sub-operation that has been triggered. -/
theorem wp_progress_busy {op : MetaOp O} {pre ops : List O} {cur op₀ : O} {R : Cond ι β}
    {t t' : List (Event β)} {inv : O → Ghost ι β → Prop} {g₀ g : Ghost ι β}
    (hpre : pre.length = op.nCompletedOps)
    (hst : op.status = .inprogress) (hid : op.id = id)
    (htodo : g.todo = t ++ t') (hobeys : Obeys f status id op₀ inv R g₀)
    (hinv : inv cur { g with todo := t }) (hstages : Stages f status id ops t' R Q) :
    (f.progress cur).wp (fun res g => MetaInv f status id Q (metaOpAdvance
      { op with ops := (pre ++ cur :: ops).set op.nCompletedOps res.1, triggered := true }
      res.2).1 g) g := by
  have hwp := (hobeys.progress cur _ hinv).more t'
  rw [show ({ g with todo := t ++ t' } : Ghost ι β) = g by rw [← htodo]] at hwp
  refine hwp.imp ?_
  rintro ⟨cur', st⟩ g' ⟨t₁, ht₁, hst', hinv'⟩
  obtain rfl : st = status cur' := hst'
  have hset : (pre ++ cur :: ops).set op.nCompletedOps cur' = pre ++ cur' :: ops := by
    rw [← hpre, List.set_append_right _ _ le_rfl, Nat.sub_self, List.set_cons_zero]
  exact metaInv_advance hset hpre rfl hst hid ht₁ hobeys hinv' hstages

/-- A progress call, at its current sub-operation. -/
theorem wp_metaOpProgress_cur {op : MetaOp O} {cur : O} {R : MetaOp O × Status → Ghost ι β → Prop}
    {g : Ghost ι β} (hcur : op.ops[op.nCompletedOps]? = some cur)
    (h : (if op.triggered then pure (cur, Status.ok) else f.trigger cur op.id).wp
      (fun res g => (f.progress res.1).wp (fun res g => R (metaOpAdvance
        { op with ops := op.ops.set op.nCompletedOps res.1, triggered := true } res.2) g) g) g) :
    (metaOpProgress f op).wp R g := by
  rw [metaOpProgress, hcur]
  dsimp only
  split_ifs at h ⊢ <;> simpa only [wp_bind, wp_pure] using h

/-- A progress call keeps the invariant, and returns the status it stores. -/
theorem wp_metaOpProgress {op : MetaOp O} {g : Ghost ι β} (h : MetaInv f status id Q op g) :
    (metaOpProgress f op).wp (fun res g => res.2 = res.1.status ∧ MetaInv f status id Q res.1 g)
      g := by
  cases h with
  | complete hall hst hdone =>
    rw [metaOpProgress, hall, List.getElem?_eq_none le_rfl]
    exact ⟨rfl, .complete hall hst hdone⟩
  | @fresh pre ops P hops hpre hne htrig hst hid hpend hP hstages =>
    obtain ⟨cur, ops, rfl⟩ := List.exists_cons_of_ne_nil hne
    obtain ⟨mem, pend, todo, know⟩ := g
    obtain rfl : pend = [] := hpend
    subst hid
    cases hstages with
    | @cons _ _ t t' _ R _ hop hstages =>
      obtain ⟨inv, hobeys⟩ := hop _ _ hP
      have hcur : op.ops[op.nCompletedOps]? = some cur := by rw [hops, ← hpre]; simp
      refine wp_metaOpProgress_cur hcur ?_
      rw [if_neg (by rw [htrig]; decide)]
      refine (hobeys.trigger.more t').imp ?_
      rintro ⟨cur', st⟩ g' ⟨t₁, ht₁, hinv⟩
      have hset (x : O) : op.ops.set op.nCompletedOps x =
          (pre ++ cur' :: ops).set op.nCompletedOps x := by
        rw [hops, ← hpre, List.set_append_right _ _ le_rfl, List.set_append_right _ _ le_rfl,
          Nat.sub_self, List.set_cons_zero, List.set_cons_zero]
      simp only [hset]
      exact (wp_progress_busy hpre hst rfl ht₁ hobeys hinv hstages).imp
        fun res g hres => ⟨metaOpAdvance_status _ _, hres⟩
  | @busy pre ops cur op₀ R t t' inv g₀ hops hpre htrig hst hid htodo hobeys hinv hstages =>
    have hcur : op.ops[op.nCompletedOps]? = some cur := by rw [hops, ← hpre]; simp
    refine wp_metaOpProgress_cur hcur ?_
    rw [if_pos htrig, wp_pure, hops]
    exact (wp_progress_busy hpre hst hid htodo hobeys hinv hstages).imp
      fun res g hres => ⟨metaOpAdvance_status _ _, hres⟩

/-- The trigger and progress functions of a meta-operation. -/
def metaFuncs (f : OpFuncs (Prog ι β) O) : OpFuncs (Prog ι β) (MetaOp O) where
  trigger op id := metaOpTrigger f { op with id := id }
  progress := metaOpProgress f

/-- A meta-operation obeys the traces of its sub-operations one after another. -/
theorem metaOp_obeys {ops : List O} {t : List (Event β)} {P : Cond ι β} (hne : ops ≠ [])
    (hstages : Stages f status id ops t P Q) {m : ι → β} {k : Set ℕ} (hP : P m k) :
    Obeys (metaFuncs f) MetaOp.status id (metaOpNew ops id) (MetaInv f status id Q) Q
      ⟨m, [], t, k⟩ where
  trigger := by
    have hfresh : MetaInv f status id Q
        { (metaOpNew ops id) with status := .inprogress, nCompletedOps := 0 } ⟨m, [], t, k⟩ :=
      .fresh (List.nil_append _).symm rfl hne rfl rfl rfl rfl hP hstages
    have hlen : (metaOpNew ops id).ops.length ≠ 0 := by simpa [metaOpNew] using hne
    simp only [metaFuncs, metaOpTrigger]
    rw [if_neg hlen, wp_bind]
    exact (wp_metaOpProgress hfresh).imp fun _ _ hres => hres.2
  progress op g h := wp_metaOpProgress h
  settled op g h := by
    cases h with
    | complete hall hst hdone => exact Or.inr ⟨hst, hdone⟩
    | fresh hops hpre hne htrig hst => exact Or.inl hst
    | busy hops hpre htrig hst => exact Or.inl hst

end Meta

end Kucg.Ucx
