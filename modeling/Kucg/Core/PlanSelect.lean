import Kucg.Core.MsgSize
import Kucg.Core.PlanSequence

/-! Plan selection with fallback: `ucg_plans_prepare`.

    The first-class plan for the message size is tried first, then its fallbacks in their order;
    fallbacks with the prepare function of the first-class plan are passed over. The specification
    is a search over all stored plans without order (`Eligible`); the scores of a stored plan and
    its fallbacks do not increase, so the first success is one of highest score. Whether a prepare
    function succeeds may depend on the function, the group and the arguments in any way. -/

namespace Kucg.Core

variable {P V Op : Type}

/-- `check_need_reselect`: whether a failed first-class plan leads to a second round, for message
    size 0. -/
def needReselect : CollType → Bool
  | .alltoallv | .ialltoallv => true
  | _ => false

/-- `attr.prepare(attr.vgroup, args, op)`; calling `NULL` has no result. -/
def Attr.call (prepare : P → V → Coll → Except Status Op) (args : Coll) (a : Attr P V) :
    Option (Except Status Op) :=
  a.prepare.map fun p => prepare p a.vgroup args

section
variable [DecidableEq P]

/-- The fallback loop of `ucg_plans_prepare`; `first` is the prepare function of the first-class
    plan. -/
def prepareFallback (prepare : P → V → Coll → Except Status Op) (args : Coll) (first : Option P) :
    List (Attr P V) → Option (Except Status Op)
  | [] => some (.error .errNotFound)
  | fb :: rest =>
    if fb.prepare = first then prepareFallback prepare args first rest
    else
      match fb.call prepare args with
      | none => none
      | some (.ok op) => some (.ok op)
      | some (.error _) => prepareFallback prepare args first rest

/-- `ucg_plans_prepare` from the label `reselect` on; `again` is the second round, if there is to be
    one when the first-class plan fails. -/
def prepareRound (prepare : P → V → Coll → Except Status Op) (args : Coll) (head : List (Plan P V))
    (msgSize : ℕ) (again : Option (Option (Except Status Op))) : Option (Except Status Op) :=
  match plansFind msgSize head with
  | none => some (.error .errNotFound)
  | some plan =>
    match plan.attr.call prepare args with
    | none => none
    | some (.ok op) => some (.ok op)
    | some (.error _) =>
      match again with
      | some round => round
      | none => prepareFallback prepare args plan.attr.prepare plan.fallback

/-- `ucg_plans_prepare` on a group of `size` ranks. -/
def plansPrepare (prepare : P → V → Coll → Except Status Op) (plans : Plans P V) (type : CollType)
    (memType : MemType) (size : ℕ) (args : Coll) : Option (Except Status Op) := do
  let m ← msgSize size args
  let head := plans.plans type memType
  prepareRound prepare args head m
    (if needReselect type then some (prepareRound prepare args head 0 none) else none)

end

/-! ### The search over all stored plans -/

/-- `a` is stored for message size `m`. -/
def Stored (head : List (Plan P V)) (m : ℕ) (a : Attr P V) : Prop :=
  ∃ plan ∈ head, plan.range.Has m ∧ a ∈ plan.attr :: plan.fallback

/-- `a` is stored for message size `m`, and is no fallback with the prepare function of the
    first-class plan. -/
def Eligible (head : List (Plan P V)) (m : ℕ) (a : Attr P V) : Prop :=
  ∃ plan ∈ head, plan.range.Has m ∧
    (a = plan.attr ∨ a ∈ plan.fallback ∧ a.prepare ≠ plan.attr.prepare)

/-- The prepare function of `a` succeeds on its group, with `op`. -/
def Prepares (prepare : P → V → Coll → Except Status Op) (args : Coll) (a : Attr P V) (op : Op) :
    Prop := a.call prepare args = some (.ok op)

/-- `r` is the outcome of a search among the plans `E`: the operation of a plan of highest score
    among those that succeed, or `UCG_ERR_NOT_FOUND` if none does. -/
structure Selects (prepare : P → V → Coll → Except Status Op) (args : Coll) (E : Attr P V → Prop)
    (r : Except Status Op) : Prop where
  best : ∀ op, r = .ok op → ∃ a, E a ∧ Prepares prepare args a op ∧
    ∀ b op', E b → Prepares prepare args b op' → b.score ≤ a.score
  found : ∀ a op, E a → Prepares prepare args a op → ∃ op', r = .ok op'
  notFound : (∀ a op, E a → ¬Prepares prepare args a op) → r = .error .errNotFound

variable {prepare : P → V → Coll → Except Status Op} {args : Coll}

theorem Selects.congr {E E' : Attr P V → Prop} {r : Except Status Op}
    (h : Selects prepare args E r) (heq : ∀ a, E a ↔ E' a) : Selects prepare args E' r := by
  have hE : E = E' := funext fun a => propext (heq a)
  exact hE ▸ h

/-- A search that starts with a plan that fails. -/
theorem Selects.skip {E : Attr P V → Prop} {r : Except Status Op} {a : Attr P V}
    (h : Selects prepare args E r) (hfail : ∀ op, ¬Prepares prepare args a op) :
    Selects prepare args (fun b => b = a ∨ E b) r where
  best op hr := by
    obtain ⟨b, hb, hop, hbest⟩ := h.best op hr
    refine ⟨b, Or.inr hb, hop, fun c op' hc hcop => ?_⟩
    rcases hc with rfl | hc
    · exact absurd hcop (hfail op')
    · exact hbest c op' hc hcop
  found b op hb hop := by
    rcases hb with rfl | hb
    · exact absurd hop (hfail op)
    · exact h.found b op hb hop
  notFound hnone := h.notFound fun b op hb => hnone b op (Or.inr hb)

/-- A search that starts with a plan of highest score that succeeds. -/
theorem Selects.first {E : Attr P V → Prop} {a : Attr P V} {op : Op}
    (hop : Prepares prepare args a op) (hbest : ∀ b, E b → b.score ≤ a.score) :
    Selects prepare args (fun b => b = a ∨ E b) (.ok op) where
  best op' hr := by
    obtain rfl := Except.ok.inj hr
    refine ⟨a, Or.inl rfl, hop, fun b _ hb _ => ?_⟩
    rcases hb with rfl | hb
    · exact le_rfl
    · exact hbest b hb
  found _ _ _ _ := ⟨op, rfl⟩
  notFound hnone := absurd hop (hnone a op (Or.inl rfl))

theorem Selects.none : Selects prepare args (fun _ : Attr P V => False) (.error .errNotFound) where
  best _ hr := absurd hr (by simp)
  found _ _ h _ := h.elim
  notFound _ := rfl

variable (prepare args) in
theorem call_of_isSome {a : Attr P V} (h : a.prepare.isSome) :
    ∃ r, a.call prepare args = some r := by
  obtain ⟨p, hp⟩ := Option.isSome_iff_exists.mp h
  exact ⟨_, by rw [Attr.call, hp]; rfl⟩

section
variable [DecidableEq P]

variable (prepare args) in
/-- The fallback loop searches the fallbacks with another prepare function. -/
theorem prepareFallback_selects (first : Option P) : ∀ {fbs : List (Attr P V)},
    (∀ fb ∈ fbs, fb.prepare.isSome) → fbs.Pairwise (·.score ≥ ·.score) →
    ∃ r, prepareFallback prepare args first fbs = some r ∧
      Selects prepare args (fun a => a ∈ fbs ∧ a.prepare ≠ first) r
  | [], _, _ => ⟨_, rfl, Selects.none.congr fun a => by simp⟩
  | fb :: rest, hsome, hsorted => by
    obtain ⟨hfb, hrest⟩ := List.forall_mem_cons.mp hsome
    obtain ⟨hle, hsorted⟩ := List.pairwise_cons.mp hsorted
    obtain ⟨r, hr, hsel⟩ := prepareFallback_selects first hrest hsorted
    rw [prepareFallback]
    by_cases hfirst : fb.prepare = first
    · -- passed over
      rw [if_pos hfirst]
      refine ⟨r, hr, hsel.congr fun a => ?_⟩
      rw [List.mem_cons]
      constructor
      · rintro ⟨ha, hne⟩
        exact ⟨Or.inr ha, hne⟩
      · rintro ⟨rfl | ha, hne⟩
        · exact absurd hfirst hne
        · exact ⟨ha, hne⟩
    · have hcons (a : Attr P V) : (a = fb ∨ a ∈ rest ∧ a.prepare ≠ first) ↔
          a ∈ fb :: rest ∧ a.prepare ≠ first := by
        rw [List.mem_cons]
        constructor
        · rintro (rfl | ⟨ha, hne⟩)
          · exact ⟨Or.inl rfl, hfirst⟩
          · exact ⟨Or.inr ha, hne⟩
        · rintro ⟨rfl | ha, hne⟩
          · exact Or.inl rfl
          · exact Or.inr ⟨ha, hne⟩
      obtain ⟨outcome, hcall⟩ := call_of_isSome prepare args hfb
      rw [if_neg hfirst, hcall]
      cases outcome with
      | ok op =>
        exact ⟨_, rfl, (Selects.first hcall fun b hb => hle b hb.1).congr hcons⟩
      | error e =>
        refine ⟨r, hr, (hsel.skip fun op hop => ?_).congr hcons⟩
        rw [Prepares, hcall] at hop
        exact absurd (Option.some.inj hop) (by simp)

variable (prepare args) in
/-- Without a second round, a selection searches the eligible plans. -/
theorem prepareRound_selects {head : List (Plan P V)} {m : ℕ} (hok : HeadOk head)
    (hsome : ∀ a, Stored head m a → a.prepare.isSome) :
    ∃ r, prepareRound prepare args head m none = some r ∧
      Selects prepare args (Eligible head m) r := by
  rw [prepareRound]
  cases hfind : plansFind m head with
  | none =>
    refine ⟨_, rfl, Selects.none.congr fun a => ⟨False.elim, ?_⟩⟩
    rintro ⟨plan, hplan, hm, -⟩
    rw [plansFind_eq_some hok hplan hm] at hfind
    exact absurd hfind (by simp)
  | some plan =>
    obtain ⟨hplan, hm⟩ := plansFind_mem hfind
    have hv := hok.valid plan hplan
    have heligible (a : Attr P V) : (a = plan.attr ∨ a ∈ plan.fallback ∧
        a.prepare ≠ plan.attr.prepare) ↔ Eligible head m a := by
      constructor
      · exact fun ha => ⟨plan, hplan, hm, ha⟩
      · rintro ⟨plan', hplan', hm', ha⟩
        rw [plansFind_eq_some hok hplan' hm'] at hfind
        exact Option.some.inj hfind ▸ ha
    have hstored (a : Attr P V) (ha : a ∈ plan.attr :: plan.fallback) : a.prepare.isSome :=
      hsome a ⟨plan, hplan, hm, ha⟩
    obtain ⟨r, hr, hsel⟩ := prepareFallback_selects prepare args
      plan.attr.prepare (fun fb hfb => hstored fb (List.mem_cons_of_mem _ hfb))
      hv.fallback_sorted
    obtain ⟨outcome, hcall⟩ := call_of_isSome prepare args
      (hstored plan.attr List.mem_cons_self)
    dsimp only
    rw [hcall]
    cases outcome with
    | ok op =>
      exact ⟨_, rfl, (Selects.first hcall fun b hb => hv.score_le hb.1).congr heligible⟩
    | error e =>
      refine ⟨r, hr, (hsel.skip fun op hop => ?_).congr heligible⟩
      rw [Prepares, hcall] at hop
      exact absurd (Option.some.inj hop) (by simp)

variable [DecidableEq V]

/-- Every plan in the record has passed the checks. -/
theorem ledger_checked {calls : List (Call P V)} {s : Store P V} (h : runCalls calls = .ok s) :
    ∀ i, ∀ params ∈ ledger calls i, planAttrCheck params.attr = .ok := by
  refine Lib.foldlM_simulation (R := fun _ (g : Ledger P V) => ∀ i, ∀ params ∈ g i,
    planAttrCheck params.attr = .ok) Call.record (fun s g call s' hg hexec => ?_) calls _ _ s
    (fun i params hp => absurd hp List.not_mem_nil) h
  have hupdate {l : List (PlanParams P V)} (hl : ∀ params ∈ l, planAttrCheck params.attr = .ok)
      (j : ℕ) : ∀ i, ∀ params ∈ Function.update g j l i, planAttrCheck params.attr = .ok := by
    intro i params hp
    by_cases hij : i = j
    · rw [hij, Function.update_self] at hp
      exact hl params hp
    · rw [Function.update_of_ne hij] at hp
      exact hg i params hp
  rcases exec_cases hexec with ⟨i, rfl, -⟩ | ⟨i, params, plans, plans', rfl, -, hadd, -⟩ |
    ⟨i, rfl, -⟩ | ⟨dst, src, d, r, rfl, hne, -, -, -⟩
  · exact hupdate (by simp) i
  · refine hupdate (fun params' hp => ?_) i
    rcases List.mem_append.mp hp with hp | hp
    · exact hg i params' hp
    · exact List.mem_singleton.mp hp ▸ planAttrCheck_of_add hadd
  · rw [Call.record, if_pos rfl]
    exact hg
  · rw [Call.record, if_neg hne]
    refine hupdate (fun params hp => ?_) dst
    exact (List.mem_append.mp hp).elim (hg dst params) (hg src params)

/-- No stored plan lacks a prepare function. -/
theorem stored_isSome {calls : List (Call P V)} {s : Store P V} (h : runCalls calls = .ok s)
    {i : ℕ} {plans : Plans P V} (hi : s i = some plans) {c : CollType} {mem : MemType} {m : ℕ}
    {a : Attr P V} (ha : Stored (plans.plans c mem) m a) : a.prepare.isSome := by
  obtain ⟨plan, hplan, hm, ha⟩ := ha
  have hR := runCalls_records h
  have hcontents := (hR.2 i plans hi).contents c mem m
  have hkey : a.key ∈ contentsAt (plans.plans c mem) m := by
    rw [contentsAt, plansFind_eq_some ((hR.1 i plans hi).ok c mem) hplan hm]
    exact Multiset.mem_coe.mpr (List.mem_map_of_mem (f := Attr.key) ha)
  rw [hcontents, addedAt, Multiset.mem_coe] at hkey
  obtain ⟨params, hparams, heq⟩ := List.mem_map.mp hkey
  have hcheck := ledger_checked h i params (List.mem_filter.mp hparams).1
  have hprepare : a.prepare = params.attr.prepare := (Prod.mk.inj heq).1.symm
  rw [planAttrCheck] at hcheck
  split_ifs at hcheck with hbad
  push Not at hbad
  rw [hprepare]
  simpa [Option.ne_none_iff_isSome] using hbad.1

/-- The selection of a plan for anything but an alltoallv is a search among the plans stored for the
    message size, fallbacks with the prepare function of the first-class plan apart. -/
theorem prepare_selects (calls : List (Call P V)) (s : Store P V) (h : runCalls calls = .ok s)
    (i : ℕ) (plans : Plans P V) (hi : s i = some plans) (type : CollType) (memType : MemType)
    (htype : needReselect type = false) (size m : ℕ) (args : Coll)
    (hm : msgSize size args = some m) (prepare : P → V → Coll → Except Status Op) :
    ∃ r, plansPrepare prepare plans type memType size args = some r ∧
      Selects prepare args (Eligible (plans.plans type memType) m) r := by
  rw [plansPrepare, hm, htype]
  exact prepareRound_selects prepare args ((runCalls_inv h i plans hi).ok type memType) fun a ha =>
    stored_isSome h hi ha

/-- If all stored plans with one prepare function have one group, the selection is a search among
    all plans stored for the message size. -/
theorem prepare_selects_stored {calls : List (Call P V)} {s : Store P V}
    (h : runCalls calls = .ok s) {i : ℕ} {plans : Plans P V} (hi : s i = some plans)
    {type : CollType} {memType : MemType} (htype : needReselect type = false) {size m : ℕ}
    (hm : msgSize size args = some m)
    (hgroup : ∀ a b, Stored (plans.plans type memType) m a → Stored (plans.plans type memType) m b →
      a.prepare = b.prepare → a.vgroup = b.vgroup) :
    ∃ r, plansPrepare prepare plans type memType size args = some r ∧
      Selects prepare args (Stored (plans.plans type memType) m) r := by
  rw [plansPrepare, hm, htype]
  have hok := (runCalls_inv h i plans hi).ok type memType
  obtain ⟨r, hr, hsel⟩ := prepareRound_selects prepare args hok fun a ha =>
    stored_isSome h hi ha
  have hstored : ∀ a, Eligible (plans.plans type memType) m a →
      Stored (plans.plans type memType) m a := by
    rintro a ⟨plan, hplan, hhas, rfl | ⟨ha, -⟩⟩
    · exact ⟨plan, hplan, hhas, List.mem_cons_self⟩
    · exact ⟨plan, hplan, hhas, List.mem_cons_of_mem _ ha⟩
  -- a plan that is passed over does what the first-class plan did
  have hpassed : ∀ a, Stored (plans.plans type memType) m a →
      ∃ b, Eligible (plans.plans type memType) m b ∧ a.score ≤ b.score ∧
        b.call prepare args = a.call prepare args := by
    rintro a ⟨plan, hplan, hhas, ha⟩
    by_cases heq : a.prepare = plan.attr.prepare
    · have hfirst : Stored (plans.plans type memType) m plan.attr :=
        ⟨plan, hplan, hhas, List.mem_cons_self⟩
      have hvgroup := hgroup a plan.attr ⟨plan, hplan, hhas, ha⟩ hfirst heq
      refine ⟨plan.attr, ⟨plan, hplan, hhas, Or.inl rfl⟩, ?_, ?_⟩
      · rcases List.mem_cons.mp ha with rfl | ha
        · exact le_rfl
        · exact (hok.valid plan hplan).score_le ha
      · rw [Attr.call, Attr.call, heq, hvgroup]
    · refine ⟨a, ⟨plan, hplan, hhas, ?_⟩, le_rfl, rfl⟩
      rcases List.mem_cons.mp ha with rfl | ha
      · exact Or.inl rfl
      · exact Or.inr ⟨ha, heq⟩
  refine ⟨r, hr, fun op hop => ?_, fun a op ha hop => ?_, fun hnone => ?_⟩
  · obtain ⟨a, ha, haop, hbest⟩ := hsel.best op hop
    refine ⟨a, hstored a ha, haop, fun b op' hb hbop => ?_⟩
    obtain ⟨c, hc, hle, hcall⟩ := hpassed b hb
    exact hle.trans (hbest c op' hc (hcall.trans hbop))
  · obtain ⟨b, hb, -, hcall⟩ := hpassed a ha
    exact hsel.found b op hb (hcall.trans hop)
  · exact hsel.notFound fun a op ha => hnone a op (hstored a ha)

end

theorem prepare_selects_bcast : ∃ s plans, runCalls mergeCalls = .ok s ∧ s 0 = some plans ∧
    ∃ r, plansPrepare (fun p _ _ => if p = 2 then .error .errUnsupported else .ok p) plans .bcast
        .host 4 (.bcast ⟨.user, 60, some ⟨1⟩, 0⟩) = some r ∧
      Selects (fun p _ _ => if p = 2 then .error .errUnsupported else .ok p)
        (.bcast ⟨.user, 60, some ⟨1⟩, 0⟩) (Eligible (plans.plans .bcast .host) 60) r :=
  ⟨_, _, rfl, rfl, prepare_selects mergeCalls _ rfl 0 _ rfl .bcast .host rfl 4 60 _ (by decide) _⟩

/-- One prepare function, registered for two groups. -/
def twoGroups : List (Call ℕ ℕ) :=
  let params (vgroup score : ℕ) : PlanParams ℕ ℕ :=
    ⟨.host, .bcast, ⟨some 1, 0, some "plan", some "domain", false, ⟨0, 100⟩, vgroup, score⟩⟩
  [.init 0, .add 0 (params 1 10), .add 0 (params 2 5)]

/-- The function fails on the first group. On the second one it would succeed, and is not called. -/
theorem twoGroups_notFound : ∃ s plans, runCalls twoGroups = .ok s ∧ s 0 = some plans ∧
    (∃ a op, Stored (plans.plans .bcast .host) 60 a ∧
      Prepares (fun _ v _ => if v = 1 then .error .errUnsupported else .ok v)
        (.bcast ⟨.user, 60, some ⟨1⟩, 0⟩) a op) ∧
    plansPrepare (fun _ v _ => if v = 1 then .error .errUnsupported else .ok v) plans .bcast
      .host 4 (.bcast ⟨.user, 60, some ⟨1⟩, 0⟩) = some (.error .errNotFound) := by
  let attr (vgroup score : ℕ) : Attr ℕ ℕ :=
    ⟨some 1, 0, some "plan", some "domain", false, ⟨0, 100⟩, vgroup, score⟩
  obtain ⟨s, plans, hs, hplans, hhead⟩ : ∃ s plans, runCalls twoGroups = .ok s ∧ s 0 = some plans ∧
      plans.plans .bcast .host = [⟨attr 1 10, [attr 2 5]⟩] := by
    refine ⟨_, _, rfl, rfl, ?_⟩
    simp only [Plans.set, and_self, if_true, plansInit, plansAddOne_nil, plansCompactOne,
      compactFrom]
    rw [plansAddOne_same]
    · rfl
    · exact planCreate_valid (by decide)
    · rfl
  refine ⟨s, plans, hs, hplans, ⟨attr 2 5, 2, ?_, rfl⟩, ?_⟩
  · rw [hhead]
    exact ⟨_, List.mem_cons_self, by decide, List.mem_cons_of_mem _ List.mem_cons_self⟩
  · simp only [plansPrepare, hhead]
    decide

end Kucg.Core
