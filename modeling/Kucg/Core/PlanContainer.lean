import Kucg.Core.Status
import Mathlib.Tactic

/-! The plan container of `ucg_plan.c`: per collective and memory type a list of first-class plans
    ordered by message size, each with its list of fallback plans.

    A plan handed to the container is split at the boundaries of the plans already stored
    (`normaliseLoop`), merged into the list range by range (`addLoop`), and neighbours that differ
    in nothing but their range are joined again (`compactFrom`).

    Intrusive lists are Lean lists. A first-class plan owns its fallback list; a fallback plan is
    its attributes alone, so a fallback plan with a fallback list of its own cannot be built.
    Allocation is taken to succeed throughout. Function pointers (`P`) and group pointers (`V`)
    are only ever compared. -/

namespace Kucg.Core

/-- `ucg_plan_range_t`: the message sizes `[start, stop)`. -/
structure Range where
  start : Nat
  stop : Nat
  deriving DecidableEq, Repr

namespace Range

/-- The range contains message size `m`. -/
def Has (r : Range) (m : Nat) : Prop := r.start ≤ m ∧ m < r.stop

instance (r : Range) (m : Nat) : Decidable (r.Has m) := inferInstanceAs (Decidable (_ ∧ _))

end Range

/-- `ucg_plan_attr_t`. A `NULL` pointer is `none`. -/
structure Attr (P V : Type) where
  prepare : Option P
  id : Int
  name : Option String
  domain : Option String
  deprecated : Bool
  range : Range
  vgroup : V
  score : Nat

/-- `ucg_plan_t` of type `UCG_PLAN_TYPE_FIRST_CLASS`. -/
structure Plan (P V : Type) where
  attr : Attr P V
  fallback : List (Attr P V)

/-- `ucg_plans_t`: one list of first-class plans for every collective and memory type. -/
structure Plans (P V : Type) where
  plans : CollType → MemType → List (Plan P V)

/-- `ucg_plan_params_t`. -/
structure PlanParams (P V : Type) where
  memType : MemType
  collType : CollType
  attr : Attr P V

variable {P V : Type}

/-- The range of a first-class plan. -/
abbrev Plan.range (p : Plan P V) : Range := p.attr.range

/-- `ucg_plan_attr_check`. -/
def planAttrCheck (attr : Attr P V) : Status :=
  if attr.prepare.isNone ∨ attr.range.start ≥ attr.range.stop ∨ attr.domain.isNone ∨
      attr.name.isNone then .errInvalidParam
  else .ok

/-- The sorted insertion at the end of `ucg_plan_add_fallback`: in front of the first fallback
    with a strictly smaller score. -/
def insertFallback (fb : Attr P V) : List (Attr P V) → List (Attr P V)
  | [] => [fb]
  | e :: rest => if fb.score > e.score then fb :: e :: rest else e :: insertFallback fb rest

/-- `ucg_plan_add_fallback` for a first-class `planFb`: its own fallbacks move to `plan` first,
    then `planFb` itself is demoted. -/
def planAddFallback (plan planFb : Plan P V) : Plan P V :=
  { plan with
    fallback := insertFallback planFb.attr
      (planFb.fallback.foldl (fun fbs fb => insertFallback fb fbs) plan.fallback) }

/-- `ucg_plan_apply_attr` on a zeroed plan: every field but `deprecated` is copied. -/
def planApplyAttr (attr : Attr P V) : Attr P V := { attr with deprecated := false }

/-- `ucg_plan_create`. -/
def planCreate (params : PlanParams P V) : Plan P V := ⟨planApplyAttr params.attr, []⟩

/-- `ucg_plan_dup`. -/
def planDup (plan : Plan P V) : Plan P V :=
  ⟨planApplyAttr plan.attr, plan.fallback.map planApplyAttr⟩

/-- `ucg_plan_need_split`: the boundary of `r2` at which `r1` has to be split, if any. -/
def planNeedSplit (r1 r2 : Range) : Option Nat :=
  if r2.start > r1.start ∧ r2.start < r1.stop then some r2.start
  else if r2.stop > r1.start ∧ r2.stop < r1.stop then some r2.stop
  else none

/-- Replace the end of an attribute's range. -/
def Attr.withStop (a : Attr P V) (stop : Nat) : Attr P V :=
  { a with range := { a.range with stop := stop } }

/-- Replace the start of an attribute's range. -/
def Attr.withStart (a : Attr P V) (start : Nat) : Attr P V :=
  { a with range := { a.range with start := start } }

/-- `ucg_plan_split`: the original plan, now `[start, middle)`, and the new one, `[middle, stop)`.
    The fallback plans are split alike. -/
def planSplit (plan : Plan P V) (middle : Nat) : Plan P V × Plan P V :=
  let newPlan := planDup plan
  (⟨plan.attr.withStop middle, plan.fallback.map (·.withStop middle)⟩,
   ⟨newPlan.attr.withStart middle, newPlan.fallback.map (·.withStart middle)⟩)

@[simp] theorem planSplit_fst_range (p : Plan P V) (middle : Nat) :
    (planSplit p middle).1.range = ⟨p.range.start, middle⟩ := rfl

@[simp] theorem planSplit_snd_range (p : Plan P V) (middle : Nat) :
    (planSplit p middle).2.range = ⟨middle, p.range.stop⟩ := rfl

/-- The number of boundaries of `r` strictly inside `e`: the splits of `e` still to come. -/
def Range.cuts (r e : Range) : Nat :=
  (if e.start < r.start ∧ r.start < e.stop then 1 else 0) +
    (if e.start < r.stop ∧ r.stop < e.stop then 1 else 0)

theorem needSplit_inside {r1 r2 : Range} {pos : Nat} (h : planNeedSplit r1 r2 = some pos) :
    r1.start < pos ∧ pos < r1.stop ∧ (pos = r2.start ∨ pos = r2.stop) ∧
      (r1.start < r2.start ∧ r2.start < r1.stop → pos = r2.start) := by
  unfold planNeedSplit at h
  split at h
  · obtain rfl := Option.some.inj h; omega
  · split at h
    · obtain rfl := Option.some.inj h; omega
    · exact absurd h (by simp)

theorem needSplit_none {r1 r2 : Range} (h : planNeedSplit r1 r2 = none) :
    ¬(r1.start < r2.start ∧ r2.start < r1.stop) ∧ ¬(r1.start < r2.stop ∧ r2.stop < r1.stop) := by
  unfold planNeedSplit at h
  split at h
  · exact absurd h (by simp)
  · split at h
    · exact absurd h (by simp)
    · constructor <;> omega

/-- Splitting at one of the boundaries of `r` removes that boundary from both halves. -/
theorem cuts_split {r e : Range} {pos : Nat} (h1 : e.start < pos) (h2 : pos < e.stop)
    (hp : pos = r.start ∨ pos = r.stop) :
    r.cuts ⟨e.start, pos⟩ + r.cuts ⟨pos, e.stop⟩ < r.cuts e := by
  simp only [Range.cuts]
  split_ifs <;> omega

/-- `ucg_plans_normalise_one`, the loop: `head` is the list from `exist_plan` on, `newPlan` the
    tail of the list of new plans. Returns the list from `exist_plan` on and the new plans from
    `newPlan` on. A node that was split, or at which `newPlan` was split, is visited again. -/
def normaliseLoop (head : List (Plan P V)) (newPlan : Plan P V) :
    List (Plan P V) × List (Plan P V) :=
  match head with
  | [] => ([], [newPlan])
  | exist :: rest =>
    if newPlan.range.stop ≤ exist.range.start then (exist :: rest, [newPlan])
    else
      match _he : planNeedSplit exist.range newPlan.range with
      | some pos =>
        let exist' := (planSplit exist pos).1
        let rest' := (planSplit exist pos).2 :: rest
        match _hn : planNeedSplit newPlan.range exist'.range with
        | some pos' =>
          let r := normaliseLoop (exist' :: rest') (planSplit newPlan pos').2
          (r.1, (planSplit newPlan pos').1 :: r.2)
        | none => normaliseLoop (exist' :: rest') newPlan
      | none =>
        match _hn : planNeedSplit newPlan.range exist.range with
        | some pos' =>
          let r := normaliseLoop (exist :: rest) (planSplit newPlan pos').2
          (r.1, (planSplit newPlan pos').1 :: r.2)
        | none =>
          let r := normaliseLoop rest newPlan
          (exist :: r.1, r.2)
  termination_by (newPlan.range.stop - newPlan.range.start,
    (head.map fun e => newPlan.range.cuts e.range).sum, head.length)
  decreasing_by
    · -- the new plan was split: its tail is shorter
      obtain ⟨h1, h2, -⟩ := needSplit_inside _hn
      apply Prod.Lex.left
      simp only [planSplit_snd_range]
      omega
    · -- the existing plan was split: one boundary less inside the list
      obtain ⟨h1, h2, h3, -⟩ := needSplit_inside _he
      have := cuts_split h1 h2 h3
      apply Prod.Lex.right
      apply Prod.Lex.left
      simp only [List.map_cons, List.sum_cons, planSplit_fst_range,
        planSplit_snd_range]
      omega
    · obtain ⟨h1, h2, -⟩ := needSplit_inside _hn
      apply Prod.Lex.left
      simp only [planSplit_snd_range]
      omega
    · -- nothing was split: the loop moves on
      rw [List.map_cons, List.sum_cons]
      rcases Nat.eq_zero_or_pos (newPlan.range.cuts exist.range) with h0 | h0
      · rw [h0, Nat.zero_add]
        exact Prod.Lex.right _ (Prod.Lex.right _ (Nat.lt_succ_self _))
      · exact Prod.Lex.right _ (Prod.Lex.left _ _ (by omega))

/-- `ucg_plans_normalise_one`. -/
def plansNormaliseOne (head : List (Plan P V)) (plan : Plan P V) :
    List (Plan P V) × List (Plan P V) :=
  normaliseLoop head plan

/-- `ucg_plans_add_one`, the loop: `newHead` is what is left of the new plans. A new plan in front
    of `exist_plan` is inserted and the node visited again; of two plans with the same range the
    one with the larger score stays first class and takes the other as a fallback. -/
def addLoop (head newHead : List (Plan P V)) : List (Plan P V) :=
  match head, newHead with
  | [], news => news
  | exist :: rest, [] => exist :: rest
  | exist :: rest, newPlan :: news =>
    if newPlan.range.start = exist.range.start then
      if newPlan.attr.score > exist.attr.score then
        planAddFallback newPlan exist :: addLoop rest news
      else planAddFallback exist newPlan :: addLoop rest news
    else if newPlan.range.start < exist.range.start then newPlan :: addLoop (exist :: rest) news
    else exist :: addLoop rest (newPlan :: news)
  termination_by head.length + newHead.length

/-- `ucg_plans_add_one`. -/
def plansAddOne (head : List (Plan P V)) (plan : Plan P V) : List (Plan P V) :=
  let (head', newHead) := plansNormaliseOne head plan
  addLoop head' newHead

variable [DecidableEq P] [DecidableEq V]

/-- The attribute part of `ucg_plan_is_compactible`. -/
def attrIsCompactible (a1 a2 : Attr P V) : Bool :=
  a1.vgroup = a2.vgroup && a1.prepare = a2.prepare && a1.score = a2.score &&
    a1.range.stop = a2.range.start

/-- `ucg_plan_is_compactible` for first-class plans: the fallbacks have to agree one by one. -/
def planIsCompactible (p1 p2 : Plan P V) : Bool :=
  attrIsCompactible p1.attr p2.attr && p1.fallback.length = p2.fallback.length &&
    (p1.fallback.zip p2.fallback).all fun fb => attrIsCompactible fb.1 fb.2

omit [DecidableEq P] [DecidableEq V] in
/-- `ucg_plan_compact`: `p1` and its fallbacks are extended to the ends of `p2` and its
    fallbacks. -/
def planCompact (p1 p2 : Plan P V) : Plan P V :=
  ⟨p1.attr.withStop p2.range.stop,
    List.zipWith (fun fb1 fb2 => fb1.withStop fb2.range.stop) p1.fallback p2.fallback⟩

/-- `ucg_plans_compact_one` from node `plan` on; after a join the joined node is visited again. -/
def compactFrom (plan : Plan P V) : List (Plan P V) → List (Plan P V)
  | [] => [plan]
  | nextPlan :: rest =>
    if planIsCompactible plan nextPlan then compactFrom (planCompact plan nextPlan) rest
    else plan :: compactFrom nextPlan rest

/-- `ucg_plans_compact_one`. -/
def plansCompactOne : List (Plan P V) → List (Plan P V)
  | [] => []
  | plan :: rest => compactFrom plan rest

/-- `ucg_plans_merge_one`: every plan of `newHead` is duplicated and added; the list is compacted
    once at the end. -/
def plansMergeOne (head newHead : List (Plan P V)) : List (Plan P V) :=
  plansCompactOne (newHead.foldl (fun h newPlan => plansAddOne h (planDup newPlan)) head)

omit [DecidableEq P] [DecidableEq V] in
/-- The lookup loop of `ucg_plans_prepare`: the plan whose range has `msgSize`; the search ends at
    the first plan that starts behind it. -/
def plansFind (msgSize : ℕ) : List (Plan P V) → Option (Plan P V)
  | [] => none
  | plan :: rest =>
    if msgSize < plan.range.start then none
    else if plan.range.Has msgSize then some plan
    else plansFind msgSize rest

omit [DecidableEq P] [DecidableEq V] in
/-- `ucg_plans_init`. -/
def plansInit : Plans P V := ⟨fun _ _ => []⟩

/-- Replace the list of one collective and memory type. -/
def Plans.set (plans : Plans P V) (c : CollType) (m : MemType) (head : List (Plan P V)) :
    Plans P V :=
  ⟨fun c' m' => if c' = c ∧ m' = m then head else plans.plans c' m'⟩

/-- `ucg_plans_add`. -/
def plansAdd (plans : Plans P V) (params : PlanParams P V) : Except Status (Plans P V) :=
  if params.collType = .last ∨ params.memType = .unknown ∨ planAttrCheck params.attr ≠ .ok then
    .error .errInvalidParam
  else if params.attr.deprecated then .ok plans
  else
    let head := plans.plans params.collType params.memType
    .ok (plans.set params.collType params.memType
      (plansCompactOne (plansAddOne head (planCreate params))))

/-- `ucg_plans_merge` of two different containers: the new content of `*dst`, built from a copy
    of `*dst`. -/
def plansMerge (dst src : Plans P V) : Plans P V :=
  ⟨fun c m =>
    if c = .last ∨ m = .unknown then []
    else plansMergeOne ((dst.plans c m).map planDup) (src.plans c m)⟩

/-- The container handles of a process; an unused handle is `NULL`. -/
abbrev Store (P V : Type) := ℕ → Option (Plans P V)

/-- A call on containers named by their handles. -/
inductive Call (P V : Type) where
  | init (plans : ℕ)
  | add (plans : ℕ) (params : PlanParams P V)
  | merge (dst src : ℕ)

/-- One call: `NULL` is refused, and a merge of a container with itself is no merge at all. -/
def Call.exec (s : Store P V) : Call P V → Except Status (Store P V)
  | .init plans => .ok (Function.update s plans (some plansInit))
  | .add plans params =>
    match s plans with
    | none => .error .errInvalidParam
    | some p => (plansAdd p params).map fun p' => Function.update s plans (some p')
  | .merge dst src =>
    match s dst, s src with
    | some d, some r =>
      if dst = src then .ok s else .ok (Function.update s dst (some (plansMerge d r)))
    | _, _ => .error .errInvalidParam

/-- A sequence of calls, all of them successful, in a process without containers. -/
def runCalls (calls : List (Call P V)) : Except Status (Store P V) :=
  calls.foldlM Call.exec fun _ => none

end Kucg.Core
