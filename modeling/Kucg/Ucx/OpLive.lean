import Kucg.Lib.Completion
import Kucg.Ucx.P2p
import Kucg.Ucx.PlanOp

/-! Plan operations that come to their end, and operations of several kinds in one list.

    An operation is lively when a call that finds nothing in flight posts a message or is the last
    one; a meta-operation of lively operations then comes nearer to its end with each of them
    (`metaOp_lively`). The sub-operations of a meta-operation are of different types: they are
    embedded in one, which obeys and comes to an end as they do. -/

namespace Kucg.Ucx

open Kucg.Core Kucg.Lib

variable {ι β O O' α : Type}

/-! ### Calls of the library below -/

section Calls

variable {Q : Status → Prop}

@[simp] theorem all_p2pIsend {buffer : List ι} {vrank : ℕ} {vgroup : VGroup} :
    (p2pIsend buffer (some vrank) vgroup : Prog ι β Status).All Q ↔ Q .ok := Iff.rfl

@[simp] theorem all_p2pIrecv {buffer : List ι} {vrank request : ℕ} {vgroup : VGroup} :
    (p2pIrecv buffer (some vrank) vgroup request : Prog ι β Status).All Q ↔ Q .ok := Iff.rfl

@[simp] theorem all_p2pTest {request : ℕ} :
    (p2pTest request : Prog ι β Status).All Q ↔ Q .ok ∧ Q .inprogress := by
  simp [p2pTest, Prog.All, and_comm]

@[simp] theorem all_p2pTestall : (p2pTestall : Prog ι β Status).All Q ↔ Q .ok ∧ Q .inprogress := by
  simp [p2pTestall, Prog.All, and_comm]

@[simp] theorem all_opReduce {op : β → β → β} {source target : List ι} {Q : Unit → Prop} :
    (opReduce op source target).All Q ↔ Q () := Iff.rfl

@[simp] theorem all_dtMemcpy {dst src : List ι} {Q : Unit → Prop} :
    (dtMemcpy dst src : Prog ι β Unit).All Q ↔ Q () := Iff.rfl

@[simp] theorem busy_p2pIsend {buffer : List ι} {vrank : ℕ} {vgroup : VGroup} :
    (p2pIsend buffer (some vrank) vgroup : Prog ι β Status).Busy Q := trivial

@[simp] theorem busy_p2pIrecv {buffer : List ι} {vrank request : ℕ} {vgroup : VGroup} :
    (p2pIrecv buffer (some vrank) vgroup request : Prog ι β Status).Busy Q := trivial

@[simp] theorem busy_p2pTest {request : ℕ} :
    (p2pTest request : Prog ι β Status).Busy Q ↔ Q .ok := Iff.rfl

@[simp] theorem busy_p2pTestall : (p2pTestall : Prog ι β Status).Busy Q ↔ Q .ok := Iff.rfl

@[simp] theorem busy_opReduce {op : β → β → β} {source target : List ι} {Q : Unit → Prop} :
    (opReduce op source target).Busy Q ↔ Q () := Iff.rfl

@[simp] theorem busy_dtMemcpy {dst src : List ι} {Q : Unit → Prop} :
    (dtMemcpy dst src : Prog ι β Unit).Busy Q ↔ Q () := Iff.rfl

end Calls

/-! ### Lively operations -/

/-- Between calls the operation is in states `G`, from which a call that finds nothing in flight
    posts a message or is the last one. -/
structure Steady (f : OpFuncs (Prog ι β) O) (status : O → Status) (G : O → Prop) : Prop where
  progress : ∀ op, G op → (f.progress op).All fun res => res.2 = status res.1 ∧ G res.1
  busy : ∀ op, G op → (f.progress op).Busy fun res => status res.1 ≠ .inprogress

/-- The trigger brings the operation into such states. -/
def OpLively (f : OpFuncs (Prog ι β) O) (status : O → Status) (id : ℕ) (op₀ : O) : Prop :=
  ∃ G, Steady f status G ∧ (f.trigger op₀ id).All fun res => G res.1

/-- An operation of its own. -/
theorem OpLively.proc {f : OpFuncs (Prog ι β) O} {status : O → Status} {id : ℕ} {op₀ : O}
    (h : OpLively f status id op₀) : ∃ G, (opProc f status op₀ id).Lively G fun _ => 0 := by
  obtain ⟨G, hsteady, htrig⟩ := h
  refine ⟨G, ?_, fun op hG => ?_, fun op hG _ => ?_⟩
  · simp only [opProc, all_bind, all_pure]
    exact htrig
  · simp only [opProc, all_bind, all_pure]
    exact (hsteady.progress op hG).imp fun res hres => ⟨hres.2, le_rfl⟩
  · simp only [opProc, busy_bind, busy_pure, decide_eq_false_iff_not]
    exact (hsteady.busy op hG).imp fun res hres => Or.inl hres

/-- Wherever a program that executes a schedule may end. -/
theorem all_of_exec {p : Prog ι β α} {K : Bool → α → Sched ι β → Prop} :
    ∀ {moved : Bool} {cs : Sched ι β}, p.Exec K moved cs →
      p.All fun a => ∃ moved cs, K moved a cs := by
  induction p with
  | pure a => exact fun h => ⟨_, _, h⟩
  | isend d src next ih | irecv h s dst next ih | zip f src dst next ih =>
    exact fun ⟨cs', _, h⟩ => ih h
  | testall next ih =>
    rintro moved cs ⟨hfalse, htrue⟩ done
    cases done with
    | false => exact ih _ hfalse
    | true => exact htrue.elim (ih _) fun ⟨cs', _, htrue⟩ => ih _ htrue
  | test h next ih =>
    rintro moved cs ⟨hfalse, htrue⟩ done
    cases done with
    | false => exact ih _ hfalse
    | true => exact ih _ htrue

/-- An operation that executes a schedule, and comes to its end when nothing is in flight. -/
theorem OpRuns.lively {f : OpFuncs (Prog ι β) O} {status : O → Status} {id : ℕ} {op₀ : O}
    {Rel : O → Sched ι β → Prop} {cs₀ : Sched ι β} (h : OpRuns f status id op₀ Rel cs₀)
    (hbusy : ∀ op cs, Rel op cs → (f.progress op).Busy fun res => status res.1 ≠ .inprogress) :
    OpLively f status id op₀ := by
  refine ⟨fun op => ∃ cs, Rel op cs, ⟨?_, ?_⟩, ?_⟩
  · rintro op ⟨cs, hrel⟩
    exact (all_of_exec (h.progress op cs hrel)).imp fun res ⟨_, cs, hst, hleaf⟩ =>
      ⟨hst, cs, hleaf.1⟩
  · rintro op ⟨cs, hrel⟩
    exact hbusy op cs hrel
  · exact (all_of_exec h.trigger).imp fun res ⟨_, cs, hleaf⟩ => ⟨cs, hleaf.1⟩

/-- Wherever a program that follows a trace may end. -/
theorem all_of_wp [DecidableEq ι] {p : Prog ι β α} {Q : α → Ghost ι β → Prop} :
    ∀ {g : Ghost ι β}, p.wp Q g → p.All fun a => ∃ g, Q a g := by
  induction p with
  | pure a => exact fun h => ⟨_, h⟩
  | isend d src next ih => exact fun ⟨_, _, _, _, _, h⟩ => ih h
  | irecv s h dst next ih => exact fun ⟨_, _, _, _, _, _, h⟩ => ih h
  | zip f src dst next ih => exact fun ⟨_, _, h⟩ => ih h
  | testall next ih | test h next ih =>
    rintro g ⟨htrue, hfalse⟩ done
    cases done with
    | false => exact ih _ hfalse
    | true => exact ih _ htrue

/-- An operation that obeys a trace, and comes to its end when nothing is in flight. -/
theorem Obeys.lively [DecidableEq ι] {f : OpFuncs (Prog ι β) O} {status : O → Status} {id : ℕ}
    {op₀ : O} {inv : O → Ghost ι β → Prop} {Q : (ι → β) → Set ℕ → Prop} {g₀ : Ghost ι β}
    (h : Obeys f status id op₀ inv Q g₀)
    (hbusy : ∀ op g, inv op g → (f.progress op).Busy fun res => status res.1 ≠ .inprogress) :
    OpLively f status id op₀ := by
  refine ⟨fun op => ∃ g, inv op g, ⟨?_, ?_⟩, all_of_wp h.trigger⟩
  · rintro op ⟨g, hinv⟩
    exact (all_of_wp (h.progress op g hinv)).imp fun res ⟨g, hst, hinv⟩ => ⟨hst, g, hinv⟩
  · rintro op ⟨g, hinv⟩
    exact hbusy op g hinv

/-- Operations on traces made of rounds: a rank that has finished has got `UCG_OK` and what its
    condition says, and from every state all ranks come to their end. -/
theorem obeys_run [DecidableEq ι] {n K id : ℕ} {f : OpFuncs (Prog ι β) O} {status : O → Status}
    {ops : ℕ → O} {trace : ℕ → List (Event β)} {Q : ℕ → (ι → β) → Set ℕ → Prop} {m : ℕ → ι → β}
    (hpaced : Paced K trace) (hout : ∀ r, n ≤ r → trace r = [])
    (hobeys : ∀ r < n, ∃ inv, Obeys f status id (ops r) inv (Q r) ⟨m r, [], trace r, {r}⟩)
    (hlive : ∀ r < n, ∃ G μ, (opProc f status (ops r) id).Lively G μ) {acts : List Act}
    {N : Net ι β O}
    (hrun : (Net.init m).run n (fun r => opProc f status (ops r) id) acts = some N) :
    (∀ r < n, ∀ op, N.FinishedIn r op → status op = .ok ∧
      ∃ know, Q r (N.node r).mem know ∧ ∀ q ∈ know, N.Started q) ∧
    ∃ acts' N', N.run n (fun r => opProc f status (ops r) id) acts' = some N' ∧
      ∀ r < n, ∃ op, N'.FinishedIn r op := by
  have hmeets (r) (hr : r < n) : (opProc f status (ops r) id).Meets
      (fun op m k => status op = .ok ∧ Q r m k) ⟨m r, [], trace r, {r}⟩ := by
    obtain ⟨inv, hinv⟩ := hobeys r hr
    exact hinv.meets
  refine ⟨fun r hr op hfin => ?_, ?_⟩
  · obtain ⟨know, ⟨hok, hQ⟩, hstarted⟩ := finished_ok hpaced.matched hmeets hrun hfin
    exact ⟨hok, know, hQ, hstarted⟩
  · choose! G μ hlive using hlive
    exact finished_live hpaced hout hmeets hlive hrun

/-! ### The meta-operation -/

section Meta

variable (f : OpFuncs (Prog ι β) O) (status : O → Status) (id : ℕ)

/-- Between calls, the operations after the current one are lively, and the current one is as well
    or in a state that it can be in between its calls. -/
inductive MetaLive : MetaOp O → Prop
  | complete {op : MetaOp O} (hall : op.nCompletedOps = op.ops.length)
      (hst : op.status ≠ .inprogress) : MetaLive op
  | fresh {op : MetaOp O} {pre ops : List O} (hops : op.ops = pre ++ ops)
      (hpre : pre.length = op.nCompletedOps) (hne : ops ≠ []) (htrig : op.triggered = false)
      (hid : op.id = id) (hlive : ∀ o ∈ ops, OpLively f status id o) : MetaLive op
  | busy {op : MetaOp O} {pre ops : List O} {cur : O} {G : O → Prop}
      (hops : op.ops = pre ++ cur :: ops) (hpre : pre.length = op.nCompletedOps)
      (htrig : op.triggered = true) (hid : op.id = id) (hsteady : Steady f status G) (hcur : G cur)
      (hlive : ∀ o ∈ ops, OpLively f status id o) : MetaLive op

variable {f status id}

/-- What is left of a meta-operation. -/
def metaRest (op : MetaOp O) : ℕ := op.ops.length - op.nCompletedOps

/-- The end of a progress call. -/
theorem metaLive_advance (op : MetaOp O) {pre ops : List O} {cur : O} {G : O → Prop} (st : Status)
    (hops : op.ops = pre ++ cur :: ops) (hpre : pre.length = op.nCompletedOps)
    (htrig : op.triggered = true) (hid : op.id = id) (hsteady : Steady f status G) (hcur : G cur)
    (hlive : ∀ o ∈ ops, OpLively f status id o) :
    MetaLive f status id (metaOpAdvance op st).1 ∧ metaRest (metaOpAdvance op st).1 ≤ metaRest op ∧
      (st ≠ .inprogress → (metaOpAdvance op st).1.status ≠ .inprogress ∨
        metaRest (metaOpAdvance op st).1 < metaRest op) := by
  have hlen : op.nCompletedOps < op.ops.length := by simp [hops, ← hpre]
  unfold metaOpAdvance metaRest
  dsimp only
  split_ifs with hok hall herr
  · exact ⟨.complete hall (by simp), by dsimp only; omega, fun _ => Or.inl (by simp)⟩
  · refine ⟨.fresh (by simp [hops] : op.ops = (pre ++ [cur]) ++ ops) (by simp [hpre]) ?_ rfl hid
      hlive, by dsimp only; omega, fun _ => Or.inr (by dsimp only; omega)⟩
    rintro rfl
    exact hall (by simp [hops, ← hpre])
  · exact ⟨.busy hops hpre htrig hid hsteady hcur hlive, le_rfl, fun _ => Or.inl herr⟩
  · exact ⟨.busy hops hpre htrig hid hsteady hcur hlive, le_rfl, fun h =>
      absurd (not_not.mp herr) h⟩

/-- A progress call on a sub-operation that has been triggered. -/
theorem metaLive_progress {op : MetaOp O} {pre ops : List O} {cur : O} {G : O → Prop}
    (hpre : pre.length = op.nCompletedOps) (hid : op.id = id)
    (hsteady : Steady f status G) (hcur : G cur) (hlive : ∀ o ∈ ops, OpLively f status id o) :
    let after (res : O × Status) := metaOpAdvance
      { op with ops := (pre ++ cur :: ops).set op.nCompletedOps res.1, triggered := true } res.2
    let rest := pre.length + (ops.length + 1) - op.nCompletedOps
    (f.progress cur).All (fun res => (after res).2 = (after res).1.status ∧
      MetaLive f status id (after res).1 ∧ metaRest (after res).1 ≤ rest) ∧
    (f.progress cur).Busy fun res => (after res).1.status ≠ .inprogress ∨
      metaRest (after res).1 < rest := by
  intro after rest
  have hset (x : O) : (pre ++ cur :: ops).set op.nCompletedOps x = pre ++ x :: ops := by
    rw [← hpre, List.set_append_right _ _ le_rfl, Nat.sub_self, List.set_cons_zero]
  have hrest (x : O) (t : Bool) : metaRest
      { op with ops := (pre ++ cur :: ops).set op.nCompletedOps x, triggered := t } = rest := by
    simp [metaRest, rest]
  have hadv (res : O × Status) (hG : G res.1) := metaLive_advance
    { op with ops := (pre ++ cur :: ops).set op.nCompletedOps res.1, triggered := true } res.2
    (hset res.1) hpre rfl hid hsteady hG hlive
  refine ⟨(hsteady.progress cur hcur).imp fun res h => ⟨metaOpAdvance_status _ _, ?_⟩,
    (hsteady.busy cur hcur).imp_all (fun res h hbusy => ?_) (hsteady.progress cur hcur)⟩
  · obtain ⟨h₁, h₂, -⟩ := hadv res h.2
    rw [hrest] at h₂
    exact ⟨h₁, h₂⟩
  · obtain ⟨-, -, h₃⟩ := hadv res h.2
    rw [hrest] at h₃
    exact h₃ (by rwa [h.1])

/-- A progress call of a meta-operation. -/
theorem MetaLive.progress {op : MetaOp O} (h : MetaLive f status id op) :
    (metaOpProgress f op).All (fun res => res.2 = res.1.status ∧ MetaLive f status id res.1 ∧
      metaRest res.1 ≤ metaRest op) ∧
    (metaOpProgress f op).Busy fun res => res.1.status ≠ .inprogress ∨
      metaRest res.1 < metaRest op := by
  cases h with
  | complete hall hst =>
    rw [metaOpProgress, hall, List.getElem?_eq_none le_rfl]
    exact ⟨⟨rfl, .complete hall hst, le_rfl⟩, Or.inl hst⟩
  | @fresh pre ops hops hpre hne htrig hid hlive =>
    obtain ⟨cur, ops, rfl⟩ := List.exists_cons_of_ne_nil hne
    rw [List.forall_mem_cons] at hlive
    obtain ⟨⟨G, hsteady, htrigger⟩, hlive⟩ := hlive
    subst hid
    have hcur : op.ops[op.nCompletedOps]? = some cur := by rw [hops, ← hpre]; simp
    have hset (x y : O) : op.ops.set op.nCompletedOps x =
        (pre ++ y :: ops).set op.nCompletedOps x := by
      rw [hops, ← hpre, List.set_append_right _ _ le_rfl, List.set_append_right _ _ le_rfl,
        Nat.sub_self, List.set_cons_zero, List.set_cons_zero]
    have hrest : metaRest op = pre.length + (ops.length + 1) - op.nCompletedOps := by
      simp [metaRest, hops]
    rw [metaOpProgress, hcur]
    dsimp only
    rw [if_neg (by rw [htrig]; decide), hrest]
    simp only [all_bind, busy_bind, all_pure, busy_pure]
    refine ⟨htrigger.imp fun res hG => ?_,
      Prog.Busy.imp_all (fun res hG _ => ?_) htrigger (htrigger.busy)⟩
    · simp only [hset _ res.1]
      exact (metaLive_progress (f := f) hpre rfl hsteady hG hlive).1
    · simp only [hset _ res.1]
      exact (metaLive_progress (f := f) hpre rfl hsteady hG hlive).2
  | @busy pre ops cur G hops hpre htrig hid hsteady hG hlive =>
    have hcur : op.ops[op.nCompletedOps]? = some cur := by rw [hops, ← hpre]; simp
    have hrest : metaRest op = pre.length + (ops.length + 1) - op.nCompletedOps := by
      simp [metaRest, hops]
    rw [metaOpProgress, hcur]
    dsimp only
    rw [if_pos htrig, hrest, hops]
    simp only [all_bind, busy_bind, all_pure, busy_pure]
    exact metaLive_progress hpre hid hsteady hG hlive

/-- A meta-operation of lively operations comes to its end. -/
theorem metaOp_lively {ops : List O} (hne : ops ≠ []) (hlive : ∀ o ∈ ops, OpLively f status id o) :
    (opProc (metaFuncs f) MetaOp.status (metaOpNew ops id) id).Lively (MetaLive f status id)
      metaRest where
  trigger := by
    have hfresh : MetaLive f status id
        { (metaOpNew ops id) with status := .inprogress, nCompletedOps := 0 } :=
      .fresh (List.nil_append _).symm rfl hne rfl rfl hlive
    have hlen : (metaOpNew ops id).ops.length ≠ 0 := by simpa [metaOpNew] using hne
    simp only [opProc, metaFuncs, metaOpTrigger]
    rw [if_neg hlen]
    simp only [all_bind, all_pure]
    exact hfresh.progress.1.imp fun _ hres => hres.2.1
  progress op hop := by
    simp only [opProc, metaFuncs, all_bind, all_pure]
    exact hop.progress.1.imp fun _ hres => hres.2
  busy op hop _ := by
    simp only [opProc, metaFuncs, busy_bind, busy_pure, decide_eq_false_iff_not]
    exact hop.progress.2

end Meta

/-! ### Operations of several kinds -/

/-- The operations of type `O` among those of type `O'`. -/
structure Embeds (f : OpFuncs (Prog ι β) O) (status : O → Status) (f' : OpFuncs (Prog ι β) O')
    (status' : O' → Status) (e : O → O') : Prop where
  trigger : ∀ op id, f'.trigger (e op) id = (f.trigger op id).bind fun res => pure (e res.1, res.2)
  progress : ∀ op, f'.progress (e op) = (f.progress op).bind fun res => pure (e res.1, res.2)
  status : ∀ op, status' (e op) = status op

section Embeds

variable {f : OpFuncs (Prog ι β) O} {status : O → Status} {f' : OpFuncs (Prog ι β) O'}
  {status' : O' → Status} {e : O → O'} (he : Embeds f status f' status' e) {id : ℕ} {op₀ : O}

include he

/-- An embedded operation obeys its trace. -/
theorem Obeys.embed [DecidableEq ι] {inv : O → Ghost ι β → Prop} {Q : (ι → β) → Set ℕ → Prop}
    {g₀ : Ghost ι β} (h : Obeys f status id op₀ inv Q g₀) :
    Obeys f' status' id (e op₀) (fun op' g => ∃ op, op' = e op ∧ inv op g) Q g₀ where
  trigger := by
    rw [he.trigger]
    refine wp_bind.mpr (h.trigger.imp fun res g hres => ?_)
    exact ⟨res.1, rfl, hres⟩
  progress := by
    rintro _ g ⟨op, rfl, hinv⟩
    rw [he.progress]
    refine wp_bind.mpr ((h.progress op g hinv).imp fun res g hres => ?_)
    exact ⟨hres.1.trans (he.status _).symm, res.1, rfl, hres.2⟩
  settled := by
    rintro _ g ⟨op, rfl, hinv⟩
    rw [he.status]
    exact h.settled op g hinv

/-- An embedded operation comes to its end. -/
theorem OpLively.embed (h : OpLively f status id op₀) : OpLively f' status' id (e op₀) := by
  obtain ⟨G, hsteady, htrig⟩ := h
  refine ⟨fun op' => ∃ op, op' = e op ∧ G op, ⟨?_, ?_⟩, ?_⟩
  · rintro _ ⟨op, rfl, hG⟩
    rw [he.progress]
    exact all_bind.mpr ((hsteady.progress op hG).imp fun res hres =>
      ⟨hres.1.trans (he.status _).symm, res.1, rfl, hres.2⟩)
  · rintro _ ⟨op, rfl, hG⟩
    rw [he.progress]
    exact busy_bind.mpr ((hsteady.busy op hG).imp fun res hres => by rwa [busy_pure, he.status])
  · rw [he.trigger]
    exact all_bind.mpr (htrig.imp fun res hres => ⟨res.1, rfl, hres⟩)

end Embeds

end Kucg.Ucx
