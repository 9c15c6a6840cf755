import Mathlib.Algebra.Order.Group.Multiset
import Kucg.Core.PlanInvariant

/-! What a plan container stores at a message size.

    Seen from outside, a container is a function from message sizes to bags of plans, a plan being
    known by its `prepare` function, group and score (`contentsAt`). The specification keeps no
    ranges at all: it is the record of the plans handed over (`Ledger`), and its bag at a message
    size is read off the record (`addedAt`). The interval list refines it. On the list the bag is
    the sum of what every stored range contributes (`weight`), so splitting, demoting and joining
    plans are equations between sums. -/

namespace Kucg.Core

variable {P V : Type}

/-- What a plan is known by. -/
abbrev Key (P V : Type) := Option P × V × ℕ

def Attr.key (a : Attr P V) : Key P V := (a.prepare, a.vgroup, a.score)

/-- The bag of a first-class plan and its fallbacks. -/
def Plan.keys (p : Plan P V) : Multiset (Key P V) :=
  p.attr.key ::ₘ (p.fallback.map Attr.key : List _)

/-- The bag of the first-class plan found at message size `n` and its fallbacks. -/
def contentsAt (head : List (Plan P V)) (n : ℕ) : Multiset (Key P V) :=
  match plansFind n head with
  | none => 0
  | some plan => plan.keys

/-- What one stored plan contributes at `n`. -/
def Plan.weight (p : Plan P V) (n : ℕ) : Multiset (Key P V) := if p.range.Has n then p.keys else 0

/-- What all stored plans contribute at `n`. -/
def weight (head : List (Plan P V)) (n : ℕ) : Multiset (Key P V) := (head.map (·.weight n)).sum

@[simp] theorem weight_nil (n : ℕ) : weight ([] : List (Plan P V)) n = 0 := rfl

@[simp] theorem weight_cons (p : Plan P V) (head : List (Plan P V)) (n : ℕ) :
    weight (p :: head) n = p.weight n + weight head n := List.sum_cons

theorem weight_before {head : List (Plan P V)} {n : ℕ} (h : ∀ p ∈ head, n < p.range.start) :
    weight head n = 0 := by
  induction head with
  | nil => rfl
  | cons p head ih =>
    have hp := h p (List.mem_cons_self ..)
    rw [weight_cons, ih fun q hq => h q (List.mem_cons_of_mem _ hq), Plan.weight,
      if_neg (by unfold Range.Has; omega), add_zero]

/-- In an ordered list at most one plan contributes, and the lookup finds it. -/
theorem contentsAt_eq_weight (n : ℕ) :
    ∀ {head : List (Plan P V)}, HeadOk head → contentsAt head n = weight head n
  | [], _ => rfl
  | p :: head, hok => by
    obtain ⟨hv, hb, hrest⟩ := headOk_cons.mp hok
    have hne := hv.nonempty
    unfold contentsAt plansFind
    by_cases hlt : n < p.range.start
    · rw [if_pos hlt, weight_before]
      intro q hq
      rcases List.mem_cons.mp hq with rfl | hq
      · exact hlt
      · exact hlt.trans (hne.trans_le (hb q hq))
    · rw [if_neg hlt]
      by_cases hin : p.range.Has n
      · have hrest0 : weight head n = 0 :=
          weight_before fun q hq => hin.2.trans_le (hb q hq)
        rw [if_pos hin, weight_cons, hrest0, add_zero, Plan.weight, if_pos hin]
      · rw [if_neg hin, weight_cons, Plan.weight, if_neg hin, zero_add]
        exact contentsAt_eq_weight n hrest

/-! ### Plans on their own -/

/-- Changing all attributes of a plan alike keeps its bag when it keeps the keys. -/
theorem keys_map (f : Attr P V → Attr P V) (hf : ∀ a, (f a).key = a.key) (p : Plan P V) :
    Plan.keys ⟨f p.attr, p.fallback.map f⟩ = p.keys := by
  have hcomp : Attr.key ∘ f = Attr.key := funext hf
  simp only [Plan.keys, hf, List.map_map, hcomp]

@[simp] theorem planDup_keys (p : Plan P V) : (planDup p).keys = p.keys :=
  keys_map planApplyAttr (fun _ => rfl) p

@[simp] theorem planDup_weight (p : Plan P V) (n : ℕ) : (planDup p).weight n = p.weight n := by
  rw [Plan.weight, planDup_keys, planDup_range]
  rfl

@[simp] theorem planSplit_fst_keys (p : Plan P V) (middle : ℕ) :
    (planSplit p middle).1.keys = p.keys :=
  keys_map (·.withStop middle) (fun _ => rfl) p

@[simp] theorem planSplit_snd_keys (p : Plan P V) (middle : ℕ) :
    (planSplit p middle).2.keys = p.keys :=
  (keys_map (·.withStart middle) (fun _ => rfl) (planDup p)).trans (planDup_keys p)

/-- Adjacent plans with the same bag contribute what their union does. -/
theorem weight_adjacent (r : Plan P V) (middle : ℕ) {p q : Plan P V}
    (hp : p.range = ⟨r.range.start, middle⟩)
    (hq : q.range = ⟨middle, r.range.stop⟩) (h1 : r.range.start ≤ middle)
    (h2 : middle ≤ r.range.stop) (hpk : p.keys = r.keys) (hqk : q.keys = r.keys) (n : ℕ) :
    p.weight n + q.weight n = r.weight n := by
  simp only [Plan.weight, hp, hq, hpk, hqk, Range.Has]
  by_cases hlt : n < middle
  · rw [if_neg (show ¬(middle ≤ n ∧ n < r.range.stop) by omega), add_zero]
    exact if_congr (by omega) rfl rfl
  · rw [if_neg (show ¬(r.range.start ≤ n ∧ n < middle) by omega), zero_add]
    exact if_congr (by omega) rfl rfl

theorem planSplit_weight {p : Plan P V} {middle : ℕ} (h1 : p.range.start < middle)
    (h2 : middle < p.range.stop) (n : ℕ) :
    (planSplit p middle).1.weight n + (planSplit p middle).2.weight n = p.weight n :=
  weight_adjacent p middle (planSplit_fst_range p middle) (planSplit_snd_range p middle) h1.le h2.le
    (planSplit_fst_keys p middle) (planSplit_snd_keys p middle) n

theorem planAddFallback_keys (plan planFb : Plan P V) :
    (planAddFallback plan planFb).keys = plan.keys + planFb.keys := by
  have hperm := (planAddFallback_perm plan planFb).map Attr.key
  have h : ((planAddFallback plan planFb).fallback.map Attr.key : Multiset (Key P V)) =
      planFb.attr.key ::ₘ (planFb.fallback.map Attr.key) + (plan.fallback.map Attr.key) := by
    rw [Multiset.coe_eq_coe.mpr hperm]
    simp
  rw [Plan.keys, h]
  simp only [planAddFallback, Plan.keys, Multiset.cons_add, Multiset.add_cons]
  rw [add_comm, Multiset.cons_swap]

theorem planAddFallback_weight {plan planFb : Plan P V} (hr : plan.range = planFb.range) (n : ℕ) :
    (planAddFallback plan planFb).weight n = plan.weight n + planFb.weight n := by
  simp only [Plan.weight, planAddFallback_keys, planAddFallback_range, ← hr]
  split_ifs
  · rfl
  · rfl

/-! ### The two loops of an insertion, and compaction -/

theorem normaliseLoop_weight (head : List (Plan P V)) (newPlan : Plan P V) (n : ℕ) :
    weight (normaliseLoop head newPlan).1 n = weight head n ∧
      weight (normaliseLoop head newPlan).2 n = newPlan.weight n := by
  induction head, newPlan using normaliseLoop.induct with
  | case1 newPlan =>
    rw [normaliseLoop_behind (by simp)]
    exact ⟨rfl, by simp⟩
  | case2 newPlan exist rest hstop =>
    rw [normaliseLoop, if_pos hstop]
    exact ⟨rfl, by simp⟩
  | case3 newPlan exist rest hstop pos he exist' rest' pos' hn ih =>
    obtain ⟨h1, h2, -⟩ := needSplit_inside he
    obtain ⟨h1', h2', -⟩ := needSplit_inside hn
    simp only [normaliseLoop_cons exist rest newPlan hstop, he, exist', hn]
    simp only [exist', rest', weight_cons] at ih
    refine ⟨?_, ?_⟩
    · rw [ih.1, ← add_assoc, planSplit_weight h1 h2, weight_cons]
    · rw [weight_cons, ih.2, planSplit_weight h1' h2']
  | case4 newPlan exist rest hstop pos he exist' rest' hn ih =>
    obtain ⟨h1, h2, -⟩ := needSplit_inside he
    simp only [normaliseLoop_cons exist rest newPlan hstop, he, exist', hn]
    simp only [exist', rest', weight_cons] at ih
    refine ⟨?_, ih.2⟩
    rw [ih.1, ← add_assoc, planSplit_weight h1 h2, weight_cons]
  | case5 newPlan exist rest hstop he pos' hn ih =>
    obtain ⟨h1', h2', -⟩ := needSplit_inside hn
    simp only [normaliseLoop_cons exist rest newPlan hstop, he, hn]
    refine ⟨ih.1, ?_⟩
    rw [weight_cons, ih.2, planSplit_weight h1' h2']
  | case6 newPlan exist rest hstop he hn ih =>
    simp only [normaliseLoop_cons exist rest newPlan hstop, he, hn]
    refine ⟨?_, ih.2⟩
    rw [weight_cons, ih.1, weight_cons]

theorem addLoop_weight (n : ℕ) (head newHead : List (Plan P V)) (hok : HeadOk head)
    (hnew : HeadOk newHead) (hal : ∀ p ∈ head, ∀ q ∈ newHead, Aligned p q) :
    weight (addLoop head newHead) n = weight head n + weight newHead n := by
  induction head, newHead using addLoop.induct with
  | case1 news => rw [addLoop, weight_nil, zero_add]
  | case2 exist rest => rw [addLoop, weight_nil, add_zero]
  | case3 exist rest newPlan news hstart hscore ih =>
    obtain ⟨hv, -, hrest⟩ := headOk_cons.mp hok
    obtain ⟨hv', -, hnews⟩ := headOk_cons.mp hnew
    have hr := (hal exist (by simp) newPlan (by simp)).symm.range_eq hv' hv hstart
    have ih := ih hrest hnews fun p hp q hq => hal p (by simp [hp]) q (by simp [hq])
    rw [addLoop, if_pos hstart, if_pos hscore, weight_cons, planAddFallback_weight hr, ih,
      weight_cons, weight_cons]
    abel
  | case4 exist rest newPlan news hstart hscore ih =>
    obtain ⟨hv, -, hrest⟩ := headOk_cons.mp hok
    obtain ⟨hv', -, hnews⟩ := headOk_cons.mp hnew
    have hr := (hal exist (by simp) newPlan (by simp)).range_eq hv hv' hstart.symm
    have ih := ih hrest hnews fun p hp q hq => hal p (by simp [hp]) q (by simp [hq])
    rw [addLoop, if_pos hstart, if_neg hscore, weight_cons, planAddFallback_weight hr, ih,
      weight_cons, weight_cons]
    abel
  | case5 exist rest newPlan news hstart hlt ih =>
    obtain ⟨-, -, hnews⟩ := headOk_cons.mp hnew
    have ih := ih hok hnews fun p hp q hq => hal p hp q (by simp [hq])
    rw [addLoop, if_neg hstart, if_pos hlt, weight_cons, ih, weight_cons newPlan]
    abel
  | case6 exist rest newPlan news hstart hlt ih =>
    obtain ⟨-, -, hrest⟩ := headOk_cons.mp hok
    have ih := ih hrest hnew fun p hp q hq => hal p (by simp [hp]) q hq
    rw [addLoop, if_neg hstart, if_neg hlt, weight_cons, ih, weight_cons exist]
    abel

/-- An insertion adds the new plan at every size of its range and nothing else. -/
theorem plansAddOne_weight {head : List (Plan P V)} {plan : Plan P V} (hok : HeadOk head)
    (hplan : plan.Valid) (n : ℕ) :
    weight (plansAddOne head plan) n = weight head n + plan.weight n := by
  have hn := normaliseLoop_spec head plan hok hplan
  have hw := normaliseLoop_weight head plan n
  unfold plansAddOne plansNormaliseOne
  rw [addLoop_weight n _ _ hn.ok hn.newOk hn.aligned, hw.1, hw.2]

section
variable [DecidableEq P] [DecidableEq V]

theorem keys_of_compactible {p1 p2 : Plan P V} (h : planIsCompactible p1 p2 = true) :
    p1.keys = p2.keys := by
  have hkey : ∀ {a b : Attr P V}, attrIsCompactible a b = true → a.key = b.key := by
    intro a b hab
    obtain ⟨hv, hp, hs, -⟩ := attrIsCompactible_iff.mp hab
    simp only [Attr.key, hv, hp, hs]
  obtain ⟨ha, hf⟩ := planIsCompactible_iff.mp h
  have hmap : p1.fallback.map Attr.key = p2.fallback.map Attr.key := by
    rw [← List.forall₂_eq_eq_eq, List.forall₂_map_left_iff, List.forall₂_map_right_iff]
    exact hf.imp fun _ _ => hkey
  rw [Plan.keys, Plan.keys, hkey ha, hmap]

omit [DecidableEq P] [DecidableEq V] in
theorem planCompact_keys {p1 p2 : Plan P V} (h : p1.fallback.length = p2.fallback.length) :
    (planCompact p1 p2).keys = p1.keys := by
  have hzip : ∀ {l1 l2 : List (Attr P V)}, l1.length = l2.length →
      (List.zipWith (fun a b => a.withStop b.range.stop) l1 l2).map Attr.key = l1.map Attr.key := by
    intro l1
    induction l1 with
    | nil => simp
    | cons a l1 ih =>
      intro l2 h
      cases l2 with
      | nil => exact absurd h (by simp)
      | cons b l2 =>
        simp only [List.zipWith_cons_cons, List.map_cons, ih (Nat.succ.inj h)]
        rfl
  simp only [Plan.keys, planCompact, hzip h]
  rfl

theorem planCompact_weight {p1 p2 : Plan P V} (h1 : p1.Valid) (h2 : p2.Valid)
    (h : planIsCompactible p1 p2 = true) (n : ℕ) :
    p1.weight n + p2.weight n = (planCompact p1 p2).weight n := by
  obtain ⟨ha, hf⟩ := planIsCompactible_iff.mp h
  have hstop : p1.range.stop = p2.range.start := (attrIsCompactible_iff.mp ha).2.2.2
  have hk := planCompact_keys hf.length_eq
  have hne := h1.nonempty
  have hne' := h2.nonempty
  refine weight_adjacent (planCompact p1 p2) p1.range.stop rfl ?_ hne.le ?_ hk.symm
    ((keys_of_compactible h).symm.trans hk.symm) n
  · rw [hstop]
    rfl
  · rw [hstop]
    exact hne'.le

theorem compactFrom_weight (n : ℕ) : ∀ (l : List (Plan P V)) (plan : Plan P V),
    HeadOk (plan :: l) → weight (compactFrom plan l) n = weight (plan :: l) n
  | [], _, _ => rfl
  | next :: rest, plan, hok => by
    obtain ⟨hv, -, hrest⟩ := headOk_cons.mp hok
    obtain ⟨hv', hb', hrest'⟩ := headOk_cons.mp hrest
    unfold compactFrom
    split
    · rename_i hc
      rw [compactFrom_weight n rest (planCompact plan next)
        (headOk_cons.mpr ⟨planCompact_valid hv hv' hc, hb', hrest'⟩), weight_cons,
        ← planCompact_weight hv hv' hc, weight_cons, weight_cons, add_assoc]
    · rw [weight_cons, compactFrom_weight n rest next hrest, weight_cons plan]

theorem plansCompactOne_weight {head : List (Plan P V)} (hok : HeadOk head) (n : ℕ) :
    weight (plansCompactOne head) n = weight head n := by
  cases head with
  | nil => rfl
  | cons plan rest => exact compactFrom_weight n rest plan hok

omit [DecidableEq P] [DecidableEq V] in
theorem addDups_weight (n : ℕ) : ∀ {news head : List (Plan P V)}, (∀ p ∈ news, p.Valid) →
    HeadOk head →
    weight (news.foldl (fun h newPlan => plansAddOne h (planDup newPlan)) head) n =
      weight head n + weight news n
  | [], _, _, _ => by rw [List.foldl_nil, weight_nil, add_zero]
  | p :: news, head, hv, hok => by
    have hp := planDup_valid (hv p (List.mem_cons_self ..))
    rw [List.foldl_cons, addDups_weight n (fun q hq => hv q (List.mem_cons_of_mem _ hq))
      (plansAddOne_headOk hok hp), plansAddOne_weight hok hp, planDup_weight, weight_cons,
      add_assoc]

/-! ### The record of calls -/

/-- For every handle the plans handed over so far, in order. -/
abbrev Ledger (P V : Type) := ℕ → List (PlanParams P V)

/-- The bag of recorded plans that are not deprecated and whose range has `n`. -/
def addedAt (added : List (PlanParams P V)) (c : CollType) (m : MemType) (n : ℕ) :
    Multiset (Key P V) :=
  (added.filter fun params => params.collType = c ∧ params.memType = m ∧
    params.attr.deprecated = false ∧ params.attr.range.Has n).map (·.attr.key)

/-- What a call does to the record: a merge appends the record of another container. -/
def Call.record (g : Ledger P V) : Call P V → Ledger P V
  | .init i => Function.update g i []
  | .add i params => Function.update g i (g i ++ [params])
  | .merge dst src => if dst = src then g else Function.update g dst (g dst ++ g src)

/-- The record after a sequence of calls. -/
def ledger (calls : List (Call P V)) : Ledger P V := calls.foldl Call.record fun _ => []

omit [DecidableEq P] [DecidableEq V] in
@[simp] theorem addedAt_append (l1 l2 : List (PlanParams P V)) (c : CollType) (m : MemType)
    (n : ℕ) :
    addedAt (l1 ++ l2) c m n = addedAt l1 c m n + addedAt l2 c m n := by
  simp [addedAt]

omit [DecidableEq P] [DecidableEq V] in
theorem addedAt_singleton (params : PlanParams P V) (c : CollType) (m : MemType) (n : ℕ) :
    addedAt [params] c m n =
      if params.collType = c ∧ params.memType = m ∧ params.attr.deprecated = false ∧
        params.attr.range.Has n then {params.attr.key} else 0 := by
  simp only [addedAt, List.filter_cons, List.filter_nil, decide_eq_true_eq]
  split
  · rfl
  · rfl

/-- A stored list at the types that are no collective or no memory type is empty. -/
def Plans.Closed (plans : Plans P V) : Prop :=
  ∀ c m, c = .last ∨ m = .unknown → plans.plans c m = []

/-- `plans` stores what the record says. -/
structure Stores (plans : Plans P V) (added : List (PlanParams P V)) : Prop where
  closed : plans.Closed
  contents : ∀ c m n, contentsAt (plans.plans c m) n = addedAt added c m n

omit [DecidableEq P] [DecidableEq V] in
theorem stores_init : Stores (plansInit : Plans P V) [] :=
  ⟨fun _ _ _ => rfl, fun _ _ _ => rfl⟩

/-- A successful insertion stores the record with the new plan. -/
theorem plansAdd_stores {plans plans' : Plans P V} {params : PlanParams P V}
    {added : List (PlanParams P V)} (hI : plans.Inv) (hS : Stores plans added)
    (h : plansAdd plans params = .ok plans') : Stores plans' (added ++ [params]) := by
  have hcheck := planAttrCheck_of_add h
  have hI' := plansAdd_inv hI h
  unfold plansAdd at h
  split at h
  · exact absurd h (by simp)
  rename_i htype
  split at h
  · -- a deprecated plan is dropped and not counted
    rename_i hdep
    obtain rfl := Except.ok.inj h
    refine ⟨hS.closed, fun c m n => ?_⟩
    rw [hS.contents, addedAt_append]
    simp [addedAt, hdep]
  · rename_i hdep
    obtain rfl := Except.ok.inj h
    push Not at htype
    refine ⟨?_, fun c m n => ?_⟩
    · intro c m hcm
      unfold Plans.set
      dsimp only
      rw [if_neg, hS.closed c m hcm]
      rintro ⟨rfl, rfl⟩
      exact hcm.elim htype.1 htype.2.1
    · have hok := hI.ok params.collType params.memType
      have hv := planCreate_valid hcheck
      rw [contentsAt_eq_weight n (hI'.ok c m), addedAt_append]
      unfold Plans.set
      dsimp only
      split
      · rename_i hcm
        obtain ⟨rfl, rfl⟩ := hcm
        rw [plansCompactOne_weight (plansAddOne_headOk hok hv), plansAddOne_weight hok hv,
          ← contentsAt_eq_weight n hok, hS.contents]
        have hdep' : params.attr.deprecated = false := Bool.eq_false_iff.mpr hdep
        simp only [addedAt_singleton, hdep', true_and]
        rfl
      · rename_i hcm
        have hne : ¬(params.collType = c ∧ params.memType = m ∧ params.attr.deprecated = false ∧
            params.attr.range.Has n) := fun h => hcm ⟨h.1.symm, h.2.1.symm⟩
        rw [← contentsAt_eq_weight n (hI.ok c m), hS.contents, addedAt_singleton, if_neg hne,
          add_zero]

/-- A merge of two different containers stores both records. -/
theorem plansMerge_stores {dst src : Plans P V} {added added' : List (PlanParams P V)}
    (hd : dst.Inv) (hs : src.Inv) (hD : Stores dst added) (hS : Stores src added') :
    Stores (plansMerge dst src) (added ++ added') := by
  refine ⟨fun c m hcm => if_pos hcm, fun c m n => ?_⟩
  rw [addedAt_append, ← hD.contents, ← hS.contents]
  by_cases hcm : c = .last ∨ m = .unknown
  · rw [hD.closed c m hcm, hS.closed c m hcm, plansMerge]
    simp only [if_pos hcm]
    rfl
  · have hdok := hd.ok c m
    have hsok := hs.ok c m
    have hdup := headOk_map_dup hdok
    have hweight : weight ((dst.plans c m).map planDup) n = weight (dst.plans c m) n := by
      simp only [weight, List.map_map, Function.comp_def, planDup_weight]
    rw [contentsAt_eq_weight n ((plansMerge_inv hd hs).ok c m), contentsAt_eq_weight n hdok,
      contentsAt_eq_weight n hsok, plansMerge]
    simp only [if_neg hcm]
    rw [plansMergeOne, plansCompactOne_weight (addDups_headOk hsok.valid hdup),
      addDups_weight n hsok.valid hdup, hweight]

/-- Every container of the process stores what its record says. -/
def Store.Records (s : Store P V) (g : Ledger P V) : Prop :=
  s.Inv ∧ ∀ i plans, s i = some plans → Stores plans (g i)

omit [DecidableEq P] [DecidableEq V] in
theorem records_update {s : Store P V} {g : Ledger P V}
    (h : ∀ i plans, s i = some plans → Stores plans (g i)) {plans : Plans P V}
    {added : List (PlanParams P V)} (hS : Stores plans added) (i : ℕ) :
    ∀ j p, Function.update s i (some plans) j = some p →
      Stores p (Function.update g i added j) := by
  intro j p hj
  by_cases hij : j = i
  · subst hij
    rw [Function.update_self] at hj ⊢
    exact Option.some.inj hj ▸ hS
  · rw [Function.update_of_ne hij] at hj ⊢
    exact h j p hj

/-- One call. -/
theorem exec_records (s : Store P V) (g : Ledger P V) (call : Call P V) (s' : Store P V)
    (hR : s.Records g) (h : call.exec s = .ok s') : s'.Records (call.record g) := by
  obtain ⟨hI, hS⟩ := hR
  refine ⟨exec_inv s call s' hI h, ?_⟩
  rcases exec_cases h with ⟨i, rfl, rfl⟩ | ⟨i, params, plans, plans', rfl, hs, hadd, rfl⟩ |
    ⟨i, rfl, rfl⟩ | ⟨dst, src, d, r, rfl, hne, hd, hr, rfl⟩
  · exact records_update hS stores_init i
  · exact records_update hS (plansAdd_stores (hI i plans hs) (hS i plans hs) hadd) i
  · rw [Call.record, if_pos rfl]
    exact hS
  · rw [Call.record, if_neg hne]
    exact records_update hS
      (plansMerge_stores (hI dst d hd) (hI src r hr) (hS dst d hd) (hS src r hr)) dst

/-- Every run of successful calls. -/
theorem runCalls_records {calls : List (Call P V)} {s : Store P V} (h : runCalls calls = .ok s) :
    s.Records (ledger calls) :=
  Lib.foldlM_simulation Call.record exec_records calls _ _ s
    ⟨fun i plans hi => absurd hi (by simp), fun i plans hi => absurd hi (by simp)⟩ h

/-- Nothing is lost and nothing doubled: after any calls, every container stores at every message
    size the bag of the plans handed to it, directly or with a container merged into it; a merge
    leaves the bag of both containers in the one and the other container as it was. A container
    merged with itself stays what it is. -/
theorem contents_recorded (calls : List (Call P V)) (s : Store P V)
    (h : runCalls calls = .ok s) :
    (∀ i plans, s i = some plans → ∀ c m n,
      contentsAt (plans.plans c m) n = addedAt (ledger calls i) c m n) ∧
    ∀ dst src d r s', s dst = some d → s src = some r → (Call.merge dst src).exec s = .ok s' →
      s' src = some r ∧ (dst = src → s' = s) ∧
      (dst ≠ src → ∃ d', s' dst = some d' ∧ ∀ c m n, contentsAt (d'.plans c m) n =
        contentsAt (d.plans c m) n + contentsAt (r.plans c m) n) := by
  have hR := runCalls_records h
  refine ⟨fun i plans hi => (hR.2 i plans hi).contents, ?_⟩
  intro dst src d r s' hd hr hmerge
  have hR' := exec_records s _ _ s' hR hmerge
  simp only [Call.exec, hd, hr] at hmerge
  by_cases heq : dst = src
  · rw [if_pos heq] at hmerge
    obtain rfl := Except.ok.inj hmerge
    exact ⟨hr, fun _ => rfl, fun hne => absurd heq hne⟩
  · rw [if_neg heq] at hmerge
    obtain rfl := Except.ok.inj hmerge
    refine ⟨by rw [Function.update_of_ne (Ne.symm heq), hr], fun h => absurd h heq, fun _ => ?_⟩
    refine ⟨_, Function.update_self .., fun c m n => ?_⟩
    rw [(hR'.2 dst _ (Function.update_self ..)).contents, Call.record, if_neg heq,
      Function.update_self, addedAt_append, (hR.2 dst d hd).contents, (hR.2 src r hr).contents]

end

theorem mergeCalls_recorded : ∃ s plans, runCalls mergeCalls = .ok s ∧ s 0 = some plans ∧
    ∀ c m n, contentsAt (plans.plans c m) n = addedAt (ledger mergeCalls 0) c m n :=
  ⟨_, _, rfl, rfl, (contents_recorded mergeCalls _ rfl).1 0 _ rfl⟩

/-- One container with one plan. -/
def oneCall : List (Call ℕ ℕ) :=
  [.init 0, .add 0
    ⟨.host, .bcast, ⟨some 1, 0, some "plan", some "domain", false, ⟨0, 100⟩, 0, 10⟩⟩]

/-- Merging a container with itself succeeds and does not give the sum of its bag with itself. -/
theorem selfMerge_not_sum : ∃ s s' plans plans', runCalls oneCall = .ok s ∧ s 0 = some plans ∧
    (Call.merge 0 0).exec s = .ok s' ∧ s' 0 = some plans' ∧
    contentsAt (plans'.plans .bcast .host) 5 ≠
      contentsAt (plans.plans .bcast .host) 5 + contentsAt (plans.plans .bcast .host) 5 := by
  refine ⟨_, _, _, _, rfl, rfl, rfl, rfl, ?_⟩
  have hR := runCalls_records (show runCalls oneCall = .ok _ from rfl)
  rw [(hR.2 0 _ rfl).contents]
  decide

end Kucg.Core
