import Kucg.Core.PlanSequence

/-! The order in which plans are registered.

    A container that was filled by additions stores at every message size the plans handed over for
    it, arranged one by one (`addAll_seqAt`). If the scores are distinct, the arrangement is the
    ranked list of the plans, whatever the order of the additions was and however they were spread
    over merged containers (`registration_order`). If scores are equal, the plan that arrived first
    comes first unless it was overtaken together with its equals: a first-class plan that has to
    leave its place goes behind those of its fallbacks that score the same (`first_come_iff`). -/

namespace Kucg.Core

open Lib Lib.Ranking

variable {P V : Type}

section
variable [DecidableEq P] [DecidableEq V]

/-- The plans of `added` for `n`, in the order of their addition. -/
def addedSeq (added : List (PlanParams P V)) (c : CollType) (m : MemType) (n : ℕ) :
    List (Key P V) :=
  (added.filter fun params => params.collType = c ∧ params.memType = m ∧
    params.attr.deprecated = false ∧ params.attr.range.Has n).map (·.attr.key)

/-- Plans added to an empty container, one by one. -/
def addAll (added : List (PlanParams P V)) : Except Status (Plans P V) :=
  added.foldlM plansAdd plansInit

/-- The parameters pass the checks of `ucg_plans_add`. -/
def PlanParams.Accepted (params : PlanParams P V) : Prop :=
  params.collType ≠ .last ∧ params.memType ≠ .unknown ∧ planAttrCheck params.attr = .ok

instance (params : PlanParams P V) : Decidable params.Accepted :=
  inferInstanceAs (Decidable (_ ∧ _ ∧ _))

/-- All lists of a container, up to identifiers, names and domains. -/
def Plans.view (plans : Plans P V) (c : CollType) (m : MemType) :
    List ((Range × Key P V) × List (Range × Key P V)) := (plans.plans c m).map Plan.view

omit [DecidableEq P] [DecidableEq V] in
theorem coe_addedSeq (added : List (PlanParams P V)) (c : CollType) (m : MemType) (n : ℕ) :
    (addedSeq added c m n : Multiset (Key P V)) = addedAt added c m n := rfl

theorem plansAdd_of_accepted {plans : Plans P V} {params : PlanParams P V} (h : params.Accepted) :
    ∃ plans', plansAdd plans params = .ok plans' := by
  obtain ⟨hc, hm, hcheck⟩ := h
  unfold plansAdd
  rw [if_neg (by simp [hc, hm, hcheck])]
  split_ifs
  · exact ⟨_, rfl⟩
  · exact ⟨_, rfl⟩

/-- A container after additions: the invariant, and what is stored. -/
theorem addAll_stores {added : List (PlanParams P V)} {plans : Plans P V}
    (h : addAll added = .ok plans) : plans.Inv ∧ Stores plans added := by
  have hstep : ∀ (plans : Plans P V) (added : List (PlanParams P V)) params plans',
      plans.Inv ∧ Stores plans added → plansAdd plans params = .ok plans' →
      plans'.Inv ∧ Stores plans' (added ++ [params]) := fun plans added params plans' hI hadd =>
    ⟨plansAdd_inv hI.1 hadd, plansAdd_stores hI.1 hI.2 hadd⟩
  have hrun := foldlM_simulation (fun added params => added ++ [params]) hstep added plansInit []
    plans ⟨plansInit_inv, stores_init⟩ h
  have hfold : added.foldl (fun added params => added ++ [params]) [] = added := by
    simp [← List.flatMap_def]
  rwa [hfold] at hrun

theorem addAll_ok : ∀ {added : List (PlanParams P V)}, (∀ params ∈ added, params.Accepted) →
    ∃ plans, addAll added = .ok plans := by
  intro added
  unfold addAll
  generalize (plansInit : Plans P V) = plans
  induction added generalizing plans with
  | nil => exact fun _ => ⟨plans, rfl⟩
  | cons params added ih =>
    intro h
    obtain ⟨plans', hadd⟩ : ∃ plans', plansAdd plans params = .ok plans' :=
      plansAdd_of_accepted (h params List.mem_cons_self)
    rw [List.foldlM_cons, hadd]
    exact ih plans' fun q hq => h q (List.mem_cons_of_mem params hq)

/-! ### Distinct scores -/

omit [DecidableEq P] [DecidableEq V] in
theorem nodup_score_addedSeq {added : List (PlanParams P V)}
    (h : (added.map (·.attr.score)).Nodup) (c : CollType) (m : MemType) (n : ℕ) :
    ((addedSeq added c m n).map Key.score).Nodup := by
  rw [addedSeq, List.map_map]
  exact h.sublist (List.filter_sublist.map _)

/-- Containers that store the same plans, with distinct scores, look the same. -/
theorem view_eq_of_stores {plans plans' : Plans P V} {added added' : List (PlanParams P V)}
    (hI : plans.Inv) (hI' : plans'.Inv) (hS : Stores plans added) (hS' : Stores plans' added')
    (hperm : added.Perm added') (hdistinct : (added.map (·.attr.score)).Nodup) :
    plans.view = plans'.view := by
  funext c m
  have hok := hI.ok c m
  have hok' := hI'.ok c m
  refine view_eq_of_seqAt hok hok' (hI.compacted c m) (hI'.compacted c m) fun n => ?_
  have hseq : (seqAt (plans.plans c m) n).Perm (addedSeq added c m n) :=
    Multiset.coe_eq_coe.mp ((contentsAt_eq_seqAt _ n).symm.trans (hS.contents c m n))
  have hseq' : (seqAt (plans'.plans c m) n).Perm (addedSeq added' c m n) :=
    Multiset.coe_eq_coe.mp ((contentsAt_eq_seqAt _ n).symm.trans (hS'.contents c m n))
  have hadded : (addedSeq added c m n).Perm (addedSeq added' c m n) := (hperm.filter _).map _
  refine (ranked_seqAt hok n).eq_of_perm (ranked_seqAt hok' n)
    ((hseq.trans hadded).trans hseq'.symm) ?_
  exact (hseq.map Key.score).nodup_iff.mpr (nodup_score_addedSeq hdistinct c m n)

/-- The order of registration does not matter if the scores are distinct: any order of additions,
    and any spread over two containers, merged in either direction, gives the same container up to
    identifiers, names and domains. -/
theorem registration_order (set : List (PlanParams P V))
    (haccepted : ∀ params ∈ set, params.Accepted)
    (hdistinct : (set.map (·.attr.score)).Nodup) :
    ∃ view, (∀ added, added.Perm set → ∃ plans, addAll added = .ok plans ∧ plans.view = view) ∧
      ∀ added added', (added ++ added').Perm set → ∃ plans plans', addAll added = .ok plans ∧
        addAll added' = .ok plans' ∧ (plansMerge plans plans').view = view ∧
        (plansMerge plans' plans).view = view := by
  obtain ⟨plans₀, h₀⟩ := addAll_ok haccepted
  obtain ⟨hI₀, hS₀⟩ := addAll_stores h₀
  refine ⟨plans₀.view, fun added hperm => ?_, fun added added' hperm => ?_⟩
  · obtain ⟨plans, h⟩ := addAll_ok fun params hp => haccepted params (hperm.mem_iff.mp hp)
    obtain ⟨hI, hS⟩ := addAll_stores h
    exact ⟨plans, h, (view_eq_of_stores hI₀ hI hS₀ hS hperm.symm hdistinct).symm⟩
  · have hmem : ∀ params ∈ added ++ added', params.Accepted := fun params hp =>
      haccepted params (hperm.mem_iff.mp hp)
    obtain ⟨plans, h⟩ := addAll_ok fun params hp => hmem params (List.mem_append_left _ hp)
    obtain ⟨plans', h'⟩ := addAll_ok fun params hp => hmem params (List.mem_append_right _ hp)
    obtain ⟨hI, hS⟩ := addAll_stores h
    obtain ⟨hI', hS'⟩ := addAll_stores h'
    refine ⟨plans, plans', h, h', ?_, ?_⟩
    · exact (view_eq_of_stores hI₀ (plansMerge_inv hI hI') hS₀ (plansMerge_stores hI hI' hS hS')
        hperm.symm hdistinct).symm
    · exact (view_eq_of_stores hI₀ (plansMerge_inv hI' hI) hS₀ (plansMerge_stores hI' hI hS' hS)
        (hperm.symm.trans List.perm_append_comm) hdistinct).symm

end

/-- A plan for broadcasts in host memory. -/
def hostPlan (prepare score start stop : ℕ) : PlanParams ℕ ℕ :=
  ⟨.host, .bcast, ⟨some prepare, 0, some "plan", some "domain", false, ⟨start, stop⟩, 0, score⟩⟩

/-- Three plans across each other's boundaries. -/
def crossing : List (PlanParams ℕ ℕ) :=
  [hostPlan 1 10 0 100, hostPlan 2 20 50 200, hostPlan 3 30 75 80]

theorem registration_order_crossing : ∃ view,
    (∀ added, added.Perm crossing → ∃ plans, addAll added = .ok plans ∧ plans.view = view) ∧
    ∀ added added', (added ++ added').Perm crossing → ∃ plans plans', addAll added = .ok plans ∧
      addAll added' = .ok plans' ∧ (plansMerge plans plans').view = view ∧
      (plansMerge plans' plans).view = view :=
  registration_order crossing (by decide) (by decide)

/-! ### Equal scores -/

section
variable [DecidableEq P] [DecidableEq V]

omit [DecidableEq P] [DecidableEq V] in
theorem addedSeq_append (added added' : List (PlanParams P V)) (c : CollType) (m : MemType)
    (n : ℕ) : addedSeq (added ++ added') c m n = addedSeq added c m n ++ addedSeq added' c m n := by
  simp [addedSeq]

/-- An addition joins the new plan into the sequences that it is for. -/
theorem plansAdd_seqAt {plans plans' : Plans P V} {params : PlanParams P V} (hI : plans.Inv)
    (h : plansAdd plans params = .ok plans') (c : CollType) (m : MemType) (n : ℕ) :
    seqAt (plans'.plans c m) n =
      join Key.score (seqAt (plans.plans c m) n) (addedSeq [params] c m n) := by
  have hcheck := planAttrCheck_of_add h
  have hseq : addedSeq [params] c m n = if params.collType = c ∧ params.memType = m ∧
      params.attr.deprecated = false ∧ params.attr.range.Has n then [params.attr.key] else [] := by
    simp only [addedSeq, List.filter_cons, List.filter_nil, decide_eq_true_eq]
    split_ifs
    · rfl
    · rfl
  unfold plansAdd at h
  split_ifs at h with htype hdep
  · obtain rfl := Except.ok.inj h
    rw [hseq, if_neg (by simp [hdep]), join_nil]
  · obtain rfl := Except.ok.inj h
    have hok := hI.ok params.collType params.memType
    have hv := planCreate_valid hcheck
    unfold Plans.set
    dsimp only
    split_ifs with hcm
    · -- the list the plan is added to
      obtain ⟨rfl, rfl⟩ := hcm
      rw [plansCompactOne_seqAt (plansAddOne_headOk hok hv), plansAddOne_seqAt hok hv, hseq]
      have hdep : params.attr.deprecated = false := Bool.eq_false_iff.mpr hdep
      simp only [hdep, true_and]
      rfl
    · rw [hseq, if_neg fun hh => hcm ⟨hh.1.symm, hh.2.1.symm⟩, join_nil]

/-- What additions store is what they hand over, arranged one by one. -/
theorem addAll_seqAt {added : List (PlanParams P V)} {plans : Plans P V}
    (h : addAll added = .ok plans) (c : CollType) (m : MemType) (n : ℕ) :
    seqAt (plans.plans c m) n = arrange Key.score (addedSeq added c m n) := by
  induction added using List.reverseRecOn generalizing plans with
  | nil =>
    obtain rfl := Except.ok.inj h
    rfl
  | append_singleton added params ih =>
    rw [addAll, List.foldlM_append] at h
    obtain ⟨plans₁, h₁, h⟩ := ok_of_bind h
    obtain ⟨plans₂, hadd, h⟩ := ok_of_bind h
    obtain rfl := Except.ok.inj h
    rw [plansAdd_seqAt (addAll_stores h₁).1 hadd, ih h₁, addedSeq_append]
    simp only [addedSeq, List.filter_cons, List.filter_nil]
    split_ifs
    · exact arrange_append_singleton.symm
    · rw [List.map_nil, join_nil, List.append_nil]

/-- Among the stored plans, those of equal score are in the order of their addition. -/
def FirstCome (stored added : List (Key P V)) : Prop :=
  ∀ s, tied Key.score s stored = tied Key.score s added

/-- At any message size, plans of equal score are stored in the order of their addition exactly if,
    whenever a plan with a higher score than all before it was added, the plans with the highest
    score up to then were all the same. -/
theorem first_come_iff (added : List (PlanParams P V)) (plans : Plans P V)
    (h : addAll added = .ok plans) (c : CollType) (m : MemType) (n : ℕ) :
    FirstCome (seqAt (plans.plans c m) n) (addedSeq added c m n) ↔
      SoleLeaders Key.score (addedSeq added c m n) := by
  rw [addAll_seqAt h, FirstCome]
  exact stable_iff

end

theorem first_come_iff_crossing : ∃ plans, addAll crossing = .ok plans ∧
    (FirstCome (seqAt (plans.plans .bcast .host) 77) (addedSeq crossing .bcast .host 77) ↔
      SoleLeaders Key.score (addedSeq crossing .bcast .host 77)) :=
  ⟨_, rfl, first_come_iff crossing _ rfl .bcast .host 77⟩

/-- Two plans of score 5, and one of score 9 after them. -/
def overtaken : List (PlanParams ℕ ℕ) :=
  [hostPlan 1 5 0 100, hostPlan 2 5 0 100, hostPlan 3 9 0 100]

/-- The second plan of score 5 is stored in front of the first one. -/
theorem overtaken_reordered : ∃ plans, addAll overtaken = .ok plans ∧
    ¬FirstCome (seqAt (plans.plans .bcast .host) 0) (addedSeq overtaken .bcast .host 0) := by
  refine ⟨_, rfl, fun h => ?_⟩
  have h₅ := h 5
  rw [addAll_seqAt (show addAll overtaken = .ok _ from rfl)] at h₅
  exact absurd h₅ (by decide)

end Kucg.Core
