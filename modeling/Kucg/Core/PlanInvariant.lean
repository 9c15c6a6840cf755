import Kucg.Core.PlanContainer
import Kucg.Lib.Run

/-! The representation invariant of the plan container.

    Internally (`HeadOk`) a list is kept with each plan ending no later than its successor starts,
    each fallback on its owner's range, and scores that do not increase from the first-class plan
    down its fallbacks. The two loops of an insertion each have one specification: normalisation
    refines the stored ranges and cuts the new plan until any stored and any new range are equal
    or disjoint (`NormSpec`), and the merge loop then keeps the order. Compaction joins plans
    without changing anything a neighbour is compared by. -/

namespace Kucg.Core

variable {P V : Type}

/-- The scores of a first-class plan and its fallbacks, in order. -/
def Plan.scores (p : Plan P V) : List ℕ := p.attr.score :: p.fallback.map (·.score)

/-- What holds of every stored plan on its own. -/
structure Plan.Valid (p : Plan P V) : Prop where
  nonempty : p.range.start < p.range.stop
  fallbackRange : ∀ fb ∈ p.fallback, fb.range = p.range
  sorted : p.scores.Pairwise (· ≥ ·)

/-- `a` ends no later than `b` starts. -/
def Before (a b : Plan P V) : Prop := a.range.stop ≤ b.range.start

/-- The ranges of `a` and `b` are equal or disjoint. -/
def Aligned (a b : Plan P V) : Prop := a.range = b.range ∨ Before a b ∨ Before b a

theorem Aligned.symm {a b : Plan P V} : Aligned a b → Aligned b a
  | .inl h => .inl h.symm
  | .inr (.inl h) => .inr (.inr h)
  | .inr (.inr h) => .inr (.inl h)

/-- The invariant of one list, compaction aside. -/
structure HeadOk (head : List (Plan P V)) : Prop where
  valid : ∀ p ∈ head, p.Valid
  sorted : head.Pairwise Before

theorem HeadOk.nil : HeadOk ([] : List (Plan P V)) := ⟨by simp, List.Pairwise.nil⟩

theorem headOk_cons {p : Plan P V} {head : List (Plan P V)} :
    HeadOk (p :: head) ↔ p.Valid ∧ (∀ q ∈ head, Before p q) ∧ HeadOk head := by
  constructor
  · rintro ⟨hv, hs⟩
    obtain ⟨hb, hs⟩ := List.pairwise_cons.mp hs
    exact ⟨hv p (List.mem_cons_self ..), hb, fun q hq => hv q (List.mem_cons_of_mem _ hq), hs⟩
  · rintro ⟨hp, hb, hv, hs⟩
    refine ⟨?_, List.pairwise_cons.mpr ⟨hb, hs⟩⟩
    intro q hq
    rcases List.mem_cons.mp hq with rfl | hq
    · exact hp
    · exact hv q hq

/-! ### Plans on their own -/

theorem planCreate_valid {params : PlanParams P V} (h : planAttrCheck params.attr = .ok) :
    (planCreate params).Valid := by
  refine ⟨?_, by simp [planCreate], by simp [planCreate, Plan.scores]⟩
  unfold planAttrCheck at h
  split at h
  · exact absurd h (by simp)
  · rename_i hc
    push Not at hc
    exact hc.2.1

@[simp] theorem planDup_range (p : Plan P V) : (planDup p).range = p.range := rfl

@[simp] theorem planDup_scores (p : Plan P V) : (planDup p).scores = p.scores := by
  simp [planDup, Plan.scores, planApplyAttr, Function.comp_def]

theorem planDup_valid {p : Plan P V} (h : p.Valid) : (planDup p).Valid := by
  refine ⟨h.nonempty, ?_, by rw [planDup_scores]; exact h.sorted⟩
  intro fb hfb
  obtain ⟨e, he, rfl⟩ := List.mem_map.mp hfb
  exact h.fallbackRange e he

theorem planSplit_fst_valid {p : Plan P V} {middle : ℕ} (h : p.Valid)
    (hm : p.range.start < middle) :
    (planSplit p middle).1.Valid := by
  refine ⟨hm, ?_, ?_⟩
  · intro fb hfb
    obtain ⟨e, he, rfl⟩ := List.mem_map.mp hfb
    simp only [Attr.withStop, h.fallbackRange e he, planSplit_fst_range]
  · have hs := h.sorted
    simpa [planSplit, Plan.scores, Attr.withStop, Function.comp_def] using hs

theorem planSplit_snd_valid {p : Plan P V} {middle : ℕ} (h : p.Valid) (hm : middle < p.range.stop) :
    (planSplit p middle).2.Valid := by
  refine ⟨hm, ?_, ?_⟩
  · intro fb hfb
    obtain ⟨e, he, rfl⟩ := List.mem_map.mp hfb
    simp only [Attr.withStart, (planDup_valid h).fallbackRange e he, planSplit_snd_range,
      planDup_range]
  · have hs := (planDup_valid h).sorted
    simpa [planSplit, Plan.scores, Attr.withStart, Function.comp_def] using hs

/-! ### Fallback lists -/

theorem insertFallback_perm (fb : Attr P V) :
    ∀ fbs : List (Attr P V), (insertFallback fb fbs).Perm (fb :: fbs)
  | [] => List.Perm.refl _
  | e :: rest => by
    unfold insertFallback
    split
    · exact List.Perm.refl _
    · exact ((insertFallback_perm fb rest).cons e).trans (List.Perm.swap fb e rest)

theorem insertFallback_sorted (fb : Attr P V) :
    ∀ {fbs : List (Attr P V)}, fbs.Pairwise (·.score ≥ ·.score) →
      (insertFallback fb fbs).Pairwise (·.score ≥ ·.score)
  | [], _ => by simp [insertFallback]
  | e :: rest, h => by
    obtain ⟨he, hrest⟩ := List.pairwise_cons.mp h
    unfold insertFallback
    split
    · rename_i hlt
      refine List.pairwise_cons.mpr ⟨?_, h⟩
      intro a ha
      rcases List.mem_cons.mp ha with rfl | ha
      · exact hlt.le
      · exact (he a ha).trans hlt.le
    · rename_i hge
      refine List.pairwise_cons.mpr ⟨?_, insertFallback_sorted fb hrest⟩
      intro a ha
      rcases List.mem_cons.mp ((insertFallback_perm fb rest).mem_iff.mp ha) with rfl | ha
      · exact not_lt.mp hge
      · exact he a ha

theorem insertFallbacks_perm :
    ∀ news fbs : List (Attr P V),
      (news.foldl (fun fbs fb => insertFallback fb fbs) fbs).Perm (news ++ fbs)
  | [], _ => List.Perm.refl _
  | fb :: news, fbs =>
    (insertFallbacks_perm news (insertFallback fb fbs)).trans
      (((insertFallback_perm fb fbs).append_left news).trans List.perm_middle)

theorem insertFallbacks_sorted :
    ∀ (news : List (Attr P V)) {fbs : List (Attr P V)}, fbs.Pairwise (·.score ≥ ·.score) →
      (news.foldl (fun fbs fb => insertFallback fb fbs) fbs).Pairwise (·.score ≥ ·.score)
  | [], _, h => h
  | fb :: news, _, h => insertFallbacks_sorted news (insertFallback_sorted fb h)

/-- A plan keeps its own fallbacks and takes over the demoted plan and its fallbacks. -/
theorem planAddFallback_perm (plan planFb : Plan P V) :
    (planAddFallback plan planFb).fallback.Perm
      (planFb.attr :: planFb.fallback ++ plan.fallback) :=
  (insertFallback_perm _ _).trans ((insertFallbacks_perm _ _).cons _)

@[simp] theorem planAddFallback_range (plan planFb : Plan P V) :
    (planAddFallback plan planFb).range = plan.range := rfl

theorem Plan.Valid.score_le {p : Plan P V} (h : p.Valid) {fb : Attr P V} (hfb : fb ∈ p.fallback) :
    fb.score ≤ p.attr.score :=
  (List.pairwise_cons.mp h.sorted).1 _ (List.mem_map_of_mem hfb)

theorem Plan.Valid.fallback_sorted {p : Plan P V} (h : p.Valid) :
    p.fallback.Pairwise (·.score ≥ ·.score) :=
  List.pairwise_map.mp (List.pairwise_cons.mp h.sorted).2

theorem planAddFallback_valid {plan planFb : Plan P V} (hp : plan.Valid) (hf : planFb.Valid)
    (hr : plan.range = planFb.range) (hs : planFb.attr.score ≤ plan.attr.score) :
    (planAddFallback plan planFb).Valid := by
  -- every fallback is the demoted plan, one of its fallbacks, or one the plan already had
  have hmem : ∀ fb ∈ (planAddFallback plan planFb).fallback,
      fb.range = plan.range ∧ fb.score ≤ plan.attr.score := by
    intro fb hfb
    have hfb := (planAddFallback_perm plan planFb).mem_iff.mp hfb
    rcases List.mem_append.mp hfb with hfb | hfb
    · rcases List.mem_cons.mp hfb with rfl | hfb
      · exact ⟨hr.symm, hs⟩
      · exact ⟨(hf.fallbackRange fb hfb).trans hr.symm, (hf.score_le hfb).trans hs⟩
    · exact ⟨hp.fallbackRange fb hfb, hp.score_le hfb⟩
  refine ⟨hp.nonempty, fun fb hfb => (hmem fb hfb).1, ?_⟩
  refine List.pairwise_cons.mpr ⟨?_, List.pairwise_map.mpr ?_⟩
  · intro s hs
    obtain ⟨fb, hfb, rfl⟩ := List.mem_map.mp hs
    exact (hmem fb hfb).2
  · exact insertFallback_sorted _ (insertFallbacks_sorted _ hp.fallback_sorted)

/-! ### Normalisation -/

/-- What `normaliseLoop head newPlan = (head', news)` achieves. -/
structure NormSpec (head : List (Plan P V)) (newPlan : Plan P V)
    (head' news : List (Plan P V)) : Prop where
  ok : HeadOk head'
  newOk : HeadOk news
  /-- Stored plans are only cut, and those in front of the new plan not even that. -/
  inside : ∀ q ∈ head', ∃ p ∈ head, p.range.start ≤ q.range.start ∧ q.range.stop ≤ p.range.stop ∧
    (p.range.stop ≤ newPlan.range.start → q.range = p.range)
  newInside : ∀ q ∈ news, newPlan.range.start ≤ q.range.start ∧ q.range.stop ≤ newPlan.range.stop
  aligned : ∀ p ∈ head', ∀ q ∈ news, Aligned p q

/-- A list that starts behind the new plan ends the loop. -/
theorem normaliseLoop_behind {head : List (Plan P V)} {newPlan : Plan P V}
    (h : ∀ p ∈ head, Before newPlan p) : normaliseLoop head newPlan = (head, [newPlan]) := by
  unfold normaliseLoop
  cases head with
  | nil => rfl
  | cons exist rest => exact if_pos (h exist (List.mem_cons_self ..))

theorem NormSpec.behind {head : List (Plan P V)} {newPlan : Plan P V} (hok : HeadOk head)
    (hnew : newPlan.Valid) (h : ∀ p ∈ head, Before newPlan p) :
    NormSpec head newPlan head [newPlan] := by
  refine ⟨hok, headOk_cons.mpr ⟨hnew, by simp, HeadOk.nil⟩, ?_, ?_, ?_⟩
  · exact fun q hq => ⟨q, hq, le_rfl, le_rfl, fun _ => rfl⟩
  · intro q hq
    obtain rfl := List.mem_singleton.mp hq
    exact ⟨le_rfl, le_rfl⟩
  · intro p hp q hq
    obtain rfl := List.mem_singleton.mp hq
    exact Or.inr (Or.inr (h p hp))

/-- The existing plan was split and the loop visits its front half again. -/
theorem NormSpec.splitExist {exist newPlan : Plan P V} {rest head' news : List (Plan P V)}
    {pos : ℕ} (hnew : newPlan.Valid) (hpos : planNeedSplit exist.range newPlan.range = some pos)
    (h : NormSpec ((planSplit exist pos).1 :: (planSplit exist pos).2 :: rest) newPlan head' news) :
    NormSpec (exist :: rest) newPlan head' news := by
  obtain ⟨h1, h2, h3, -⟩ := needSplit_inside hpos
  have hne := hnew.nonempty
  refine ⟨h.ok, h.newOk, ?_, h.newInside, h.aligned⟩
  intro q hq
  obtain ⟨p, hp, ha, hb, hc⟩ := h.inside q hq
  rcases List.mem_cons.mp hp with rfl | hp
  · simp only [planSplit_fst_range] at ha hb
    exact ⟨exist, List.mem_cons_self .., ha, by omega, by omega⟩
  rcases List.mem_cons.mp hp with rfl | hp
  · simp only [planSplit_snd_range] at ha hb
    exact ⟨exist, List.mem_cons_self .., by omega, hb, by omega⟩
  · exact ⟨p, List.mem_cons_of_mem _ hp, ha, hb, hc⟩

/-- The new plan was split at `pos` and the loop goes on with its back half. The front half is
    either in front of the whole list or on the range of the first stored plan. -/
theorem NormSpec.splitNew {exist newPlan : Plan P V} {rest head' news : List (Plan P V)} {pos : ℕ}
    (hok : HeadOk (exist :: rest)) (hnew : newPlan.Valid)
    (hexist : ¬(exist.range.start < newPlan.range.start ∧ newPlan.range.start < exist.range.stop))
    (hpos : planNeedSplit newPlan.range exist.range = some pos)
    (h : NormSpec (exist :: rest) (planSplit newPlan pos).2 head' news) :
    NormSpec (exist :: rest) newPlan head' ((planSplit newPlan pos).1 :: news) := by
  obtain ⟨h1, h2, h3, h4⟩ := needSplit_inside hpos
  obtain ⟨hv, hbefore, -⟩ := headOk_cons.mp hok
  have hne := hv.nonempty
  refine ⟨h.ok, headOk_cons.mpr ⟨planSplit_fst_valid hnew h1, ?_, h.newOk⟩, ?_, ?_, ?_⟩
  · -- the front half ends where the back half starts
    intro q hq
    obtain ⟨ha, -⟩ := h.newInside q hq
    exact ha
  · -- inside
    intro q hq
    obtain ⟨p, hp, ha, hb, hc⟩ := h.inside q hq
    refine ⟨p, hp, ha, hb, fun hle => hc ?_⟩
    simp only [planSplit_snd_range]
    omega
  · -- newInside
    intro q hq
    rcases List.mem_cons.mp hq with rfl | hq
    · simp only [planSplit_fst_range]
      omega
    · obtain ⟨ha, hb⟩ := h.newInside q hq
      simp only [planSplit_snd_range] at ha hb
      omega
  · -- aligned
    intro q hq r hr
    rcases List.mem_cons.mp hr with rfl | hr
    · obtain ⟨p, hp, ha, hb, hc⟩ := h.inside q hq
      simp only [Aligned, Before, planSplit_fst_range, planSplit_snd_range] at hc ⊢
      rcases List.mem_cons.mp hp with rfl | hp
      · -- cut at the start of `exist`: in front of it; at its end: the very range of `exist`
        rcases h3 with h3 | h3
        · exact Or.inr (Or.inr (by omega))
        · have heq : newPlan.range.start = p.range.start := by omega
          exact Or.inl (by rw [hc (by omega), heq, h3])
      · have hb' : exist.range.stop ≤ p.range.start := hbefore p hp
        exact Or.inr (Or.inr (by omega))
    · exact h.aligned q hq r hr

/-- Nothing was split: the existing plan is on the range of the new one or in front of it. -/
theorem NormSpec.moveOn {exist newPlan : Plan P V} {rest : List (Plan P V)}
    (hok : HeadOk (exist :: rest)) (hnew : newPlan.Valid)
    (hstop : ¬newPlan.range.stop ≤ exist.range.start)
    (he : planNeedSplit exist.range newPlan.range = none)
    (hn : planNeedSplit newPlan.range exist.range = none)
    (h : NormSpec rest newPlan (normaliseLoop rest newPlan).1 (normaliseLoop rest newPlan).2) :
    NormSpec (exist :: rest) newPlan (exist :: (normaliseLoop rest newPlan).1)
      (normaliseLoop rest newPlan).2 := by
  obtain ⟨he1, he2⟩ := needSplit_none he
  obtain ⟨hn1, hn2⟩ := needSplit_none hn
  obtain ⟨hv, hbefore, -⟩ := headOk_cons.mp hok
  have hne := hv.nonempty
  have hne' := hnew.nonempty
  have hcase : exist.range = newPlan.range ∨ exist.range.stop ≤ newPlan.range.start := by
    by_cases hs : exist.range.start = newPlan.range.start
    · have ht : exist.range.stop = newPlan.range.stop := by omega
      exact Or.inl (by cases hr : exist.range; cases hr' : newPlan.range; simp_all)
    · exact Or.inr (by omega)
  refine ⟨headOk_cons.mpr ⟨hv, ?_, h.ok⟩, h.newOk, ?_, h.newInside, ?_⟩
  · intro q hq
    obtain ⟨p, hp, ha, -, -⟩ := h.inside q hq
    exact (hbefore p hp).trans ha
  · intro q hq
    rcases List.mem_cons.mp hq with rfl | hq
    · exact ⟨q, List.mem_cons_self .., le_rfl, le_rfl, fun _ => rfl⟩
    · obtain ⟨p, hp, hrest⟩ := h.inside q hq
      exact ⟨p, List.mem_cons_of_mem _ hp, hrest⟩
  · intro q hq r hr
    rcases List.mem_cons.mp hq with rfl | hq
    · rcases hcase with heq | hlt
      · -- then the rest of the list starts behind the new plan, which is cut no further
        have hbehind : ∀ p ∈ rest, Before newPlan p := by
          intro p hp
          have := hbefore p hp
          simpa only [Before, heq] using this
        rw [normaliseLoop_behind hbehind, List.mem_singleton] at hr
        exact Or.inl (by rw [hr, heq])
      · exact Or.inr (Or.inl (hlt.trans (h.newInside r hr).1))
    · exact h.aligned q hq r hr

theorem headOk_split {exist : Plan P V} {rest : List (Plan P V)} {pos : ℕ}
    (hok : HeadOk (exist :: rest)) (h1 : exist.range.start < pos) (h2 : pos < exist.range.stop) :
    HeadOk ((planSplit exist pos).1 :: (planSplit exist pos).2 :: rest) := by
  obtain ⟨hv, hbefore, hrest⟩ := headOk_cons.mp hok
  refine headOk_cons.mpr ⟨planSplit_fst_valid hv h1, ?_, headOk_cons.mpr
    ⟨planSplit_snd_valid hv h2, hbefore, hrest⟩⟩
  intro q hq
  rcases List.mem_cons.mp hq with rfl | hq
  · exact le_rfl
  · have := hbefore q hq
    simp only [Before, planSplit_fst_range] at this ⊢
    omega

/-- One iteration of the loop. -/
theorem normaliseLoop_cons (exist : Plan P V) (rest : List (Plan P V)) (newPlan : Plan P V)
    (hstop : ¬newPlan.range.stop ≤ exist.range.start) :
    normaliseLoop (exist :: rest) newPlan =
      match planNeedSplit exist.range newPlan.range with
      | some pos =>
        let head := (planSplit exist pos).1 :: (planSplit exist pos).2 :: rest
        match planNeedSplit newPlan.range (planSplit exist pos).1.range with
        | some pos' =>
          let r := normaliseLoop head (planSplit newPlan pos').2
          (r.1, (planSplit newPlan pos').1 :: r.2)
        | none => normaliseLoop head newPlan
      | none =>
        match planNeedSplit newPlan.range exist.range with
        | some pos' =>
          let r := normaliseLoop (exist :: rest) (planSplit newPlan pos').2
          (r.1, (planSplit newPlan pos').1 :: r.2)
        | none =>
          let r := normaliseLoop rest newPlan
          (exist :: r.1, r.2) := by
  rw [normaliseLoop, if_neg hstop]
  cases planNeedSplit exist.range newPlan.range with
  | some pos =>
    dsimp only
    cases planNeedSplit newPlan.range (planSplit exist pos).1.range <;> rfl
  | none => cases planNeedSplit newPlan.range exist.range <;> rfl

/-- The normalisation loop meets its specification on every list and every new plan. -/
theorem normaliseLoop_spec (head : List (Plan P V)) (newPlan : Plan P V) (hok : HeadOk head)
    (hnew : newPlan.Valid) :
    NormSpec head newPlan (normaliseLoop head newPlan).1 (normaliseLoop head newPlan).2 := by
  induction head, newPlan using normaliseLoop.induct with
  | case1 newPlan =>
    rw [normaliseLoop_behind (by simp)]
    exact NormSpec.behind hok hnew (by simp)
  | case2 newPlan exist rest hstop =>
    have hbehind : ∀ p ∈ exist :: rest, Before newPlan p := by
      intro p hp
      obtain ⟨hv, hbefore, -⟩ := headOk_cons.mp hok
      rcases List.mem_cons.mp hp with rfl | hp
      · exact hstop
      · exact hstop.trans (hv.nonempty.le.trans (hbefore p hp))
    rw [normaliseLoop_behind hbehind]
    exact NormSpec.behind hok hnew hbehind
  | case3 newPlan exist rest hstop pos he exist' rest' pos' hn ih =>
    obtain ⟨h1, h2, -, h3⟩ := needSplit_inside he
    obtain ⟨-, h2', -⟩ := needSplit_inside hn
    have hok' := headOk_split hok h1 h2
    -- a start of the new plan inside `exist` would have been the place of the cut
    have hfront : ¬(exist'.range.start < newPlan.range.start ∧
        newPlan.range.start < exist'.range.stop) := by
      simp only [exist', planSplit_fst_range]
      omega
    simp only [normaliseLoop_cons exist rest newPlan hstop, he, exist', hn]
    exact NormSpec.splitExist hnew he (NormSpec.splitNew hok' hnew hfront hn
      (ih hok' (planSplit_snd_valid hnew h2')))
  | case4 newPlan exist rest hstop pos he exist' rest' hn ih =>
    obtain ⟨h1, h2, -⟩ := needSplit_inside he
    simp only [normaliseLoop_cons exist rest newPlan hstop, he, exist', hn]
    exact NormSpec.splitExist hnew he (ih (headOk_split hok h1 h2) hnew)
  | case5 newPlan exist rest hstop he pos' hn ih =>
    obtain ⟨-, h2', -⟩ := needSplit_inside hn
    simp only [normaliseLoop_cons exist rest newPlan hstop, he, hn]
    exact NormSpec.splitNew hok hnew (needSplit_none he).1 hn
      (ih hok (planSplit_snd_valid hnew h2'))
  | case6 newPlan exist rest hstop he hn ih =>
    simp only [normaliseLoop_cons exist rest newPlan hstop, he, hn]
    exact NormSpec.moveOn hok hnew hstop he hn (ih (headOk_cons.mp hok).2.2 hnew)

/-! ### Merging the new plans into the list -/

/-- What `addLoop head newHead = head'` achieves on aligned lists: no new range appears. -/
structure AddSpec (head newHead head' : List (Plan P V)) : Prop where
  ok : HeadOk head'
  ranges : ∀ q ∈ head', ∃ p ∈ head ++ newHead, q.range = p.range

/-- A plan in front of everything that the loop still has to place. -/
theorem AddSpec.cons {p : Plan P V} {head newHead head' hd new : List (Plan P V)}
    (h : AddSpec head newHead head') (hp : p.Valid)
    (hbefore : ∀ q ∈ head ++ newHead, Before p q) (hr : ∃ q ∈ hd ++ new, p.range = q.range)
    (hsub : ∀ q ∈ head ++ newHead, q ∈ hd ++ new) : AddSpec hd new (p :: head') := by
  refine ⟨headOk_cons.mpr ⟨hp, ?_, h.ok⟩, ?_⟩
  · intro q hq
    obtain ⟨r, hr, heq⟩ := h.ranges q hq
    rw [Before, heq]
    exact hbefore r hr
  · intro q hq
    rcases List.mem_cons.mp hq with rfl | hq
    · exact hr
    · obtain ⟨r, hr, heq⟩ := h.ranges q hq
      exact ⟨r, hsub r hr, heq⟩

theorem Aligned.before {p q : Plan P V} (h : Aligned p q) (hp : p.Valid) (hq : q.Valid)
    (hlt : p.range.start < q.range.start) : Before p q := by
  have h1 := hp.nonempty
  have h2 := hq.nonempty
  rcases h with h | h | h
  · exact absurd (congrArg Range.start h) (by omega)
  · exact h
  · unfold Before at h
    omega

theorem Aligned.range_eq {p q : Plan P V} (h : Aligned p q) (hp : p.Valid) (hq : q.Valid)
    (heq : p.range.start = q.range.start) : p.range = q.range := by
  have h1 := hp.nonempty
  have h2 := hq.nonempty
  rcases h with h | h | h
  · exact h
  all_goals
    unfold Before at h
    omega

theorem before_trans {p q r : Plan P V} (hq : q.Valid) (h1 : Before p q) (h2 : Before q r) :
    Before p r :=
  (h1.trans hq.nonempty.le).trans h2

/-- The merge loop meets its specification on aligned lists. -/
theorem addLoop_spec (head newHead : List (Plan P V)) (hok : HeadOk head) (hnew : HeadOk newHead)
    (hal : ∀ p ∈ head, ∀ q ∈ newHead, Aligned p q) :
    AddSpec head newHead (addLoop head newHead) := by
  induction head, newHead using addLoop.induct with
  | case1 news =>
    rw [addLoop]
    exact ⟨hnew, fun q hq => ⟨q, hq, rfl⟩⟩
  | case2 exist rest =>
    rw [addLoop]
    exact ⟨hok, fun q hq => ⟨q, by rwa [List.append_nil], rfl⟩⟩
  | case3 exist rest newPlan news hstart hscore ih =>
    -- the new plan takes the place of the existing one
    obtain ⟨hv, hb, hrest⟩ := headOk_cons.mp hok
    obtain ⟨hv', hb', hnews⟩ := headOk_cons.mp hnew
    have hr : newPlan.range = exist.range :=
      (hal exist (by simp) newPlan (by simp)).symm.range_eq hv' hv hstart
    rw [addLoop, if_pos hstart, if_pos hscore]
    refine (ih hrest hnews fun p hp q hq => hal p (by simp [hp]) q (by simp [hq])).cons
      (planAddFallback_valid hv' hv hr hscore.le) ?_ ⟨exist, by simp, hr⟩ ?_
    · intro q hq
      rcases List.mem_append.mp hq with hq | hq
      · rw [Before, planAddFallback_range, hr]
        exact hb q hq
      · exact hb' q hq
    · grind
  | case4 exist rest newPlan news hstart hscore ih =>
    -- the new plan becomes a fallback of the existing one
    obtain ⟨hv, hb, hrest⟩ := headOk_cons.mp hok
    obtain ⟨hv', hb', hnews⟩ := headOk_cons.mp hnew
    have hr : exist.range = newPlan.range :=
      (hal exist (by simp) newPlan (by simp)).range_eq hv hv' hstart.symm
    rw [addLoop, if_pos hstart, if_neg hscore]
    refine (ih hrest hnews fun p hp q hq => hal p (by simp [hp]) q (by simp [hq])).cons
      (planAddFallback_valid hv hv' hr (not_lt.mp hscore)) ?_ ⟨exist, by simp, rfl⟩ ?_
    · intro q hq
      rcases List.mem_append.mp hq with hq | hq
      · exact hb q hq
      · rw [Before, planAddFallback_range, hr]
        exact hb' q hq
    · grind
  | case5 exist rest newPlan news hstart hlt ih =>
    obtain ⟨hv, hb, hrest⟩ := headOk_cons.mp hok
    obtain ⟨hv', hb', hnews⟩ := headOk_cons.mp hnew
    have hfront : Before newPlan exist :=
      (hal exist (by simp) newPlan (by simp)).symm.before hv' hv hlt
    rw [addLoop, if_neg hstart, if_pos hlt]
    refine (ih hok hnews fun p hp q hq => hal p hp q (by simp [hq])).cons hv' ?_
      ⟨newPlan, by simp, rfl⟩ ?_
    · intro q hq
      rcases List.mem_append.mp hq with hq | hq
      · rcases List.mem_cons.mp hq with rfl | hq
        · exact hfront
        · exact before_trans hv hfront (hb q hq)
      · exact hb' q hq
    · grind
  | case6 exist rest newPlan news hstart hlt ih =>
    obtain ⟨hv, hb, hrest⟩ := headOk_cons.mp hok
    obtain ⟨hv', hb', hnews⟩ := headOk_cons.mp hnew
    have hfront : Before exist newPlan :=
      (hal exist (by simp) newPlan (by simp)).before hv hv' (by omega)
    rw [addLoop, if_neg hstart, if_neg hlt]
    refine (ih hrest hnew fun p hp q hq => hal p (by simp [hp]) q hq).cons hv ?_
      ⟨exist, by simp, rfl⟩ ?_
    · intro q hq
      rcases List.mem_append.mp hq with hq | hq
      · exact hb q hq
      · rcases List.mem_cons.mp hq with rfl | hq
        · exact hfront
        · exact before_trans hv' hfront (hb' q hq)
    · grind

theorem plansAddOne_headOk {head : List (Plan P V)} {plan : Plan P V} (hok : HeadOk head)
    (hplan : plan.Valid) : HeadOk (plansAddOne head plan) := by
  have hn := normaliseLoop_spec head plan hok hplan
  exact (addLoop_spec _ _ hn.ok hn.newOk hn.aligned).ok

/-- The first plan of a list. -/
theorem plansAddOne_nil (plan : Plan P V) : plansAddOne [] plan = [plan] := by
  rw [plansAddOne, plansNormaliseOne, normaliseLoop_behind (by simp)]
  simp [addLoop]

/-- A second plan on the range of the first one. -/
theorem plansAddOne_same {exist plan : Plan P V} (hplan : plan.Valid)
    (hr : plan.range = exist.range) : plansAddOne [exist] plan =
      [if plan.attr.score > exist.attr.score then planAddFallback plan exist
        else planAddFallback exist plan] := by
  have hne := hplan.nonempty
  have hexist : planNeedSplit exist.range plan.range = none := by
    rw [hr]
    simp [planNeedSplit]
  have hnew : planNeedSplit plan.range exist.range = none := by
    rw [hr]
    simp [planNeedSplit]
  rw [plansAddOne, plansNormaliseOne, normaliseLoop_cons exist [] plan (by rw [← hr]; omega),
    hexist,
    hnew, normaliseLoop_behind (by simp)]
  dsimp only
  rw [addLoop, if_pos (congrArg Range.start hr)]
  split_ifs <;> simp [addLoop]

/-! ### Compaction -/

section
variable [DecidableEq P] [DecidableEq V]

/-- No two neighbours can be joined. -/
def Compacted (head : List (Plan P V)) : Prop :=
  head.IsChain fun p q => planIsCompactible p q = false

theorem attrIsCompactible_iff {a1 a2 : Attr P V} :
    attrIsCompactible a1 a2 = true ↔ a1.vgroup = a2.vgroup ∧ a1.prepare = a2.prepare ∧
      a1.score = a2.score ∧ a1.range.stop = a2.range.start := by
  simp [attrIsCompactible, and_assoc]

theorem planIsCompactible_iff {p1 p2 : Plan P V} :
    planIsCompactible p1 p2 = true ↔ attrIsCompactible p1.attr p2.attr = true ∧
      List.Forall₂ (fun a b => attrIsCompactible a b = true) p1.fallback p2.fallback := by
  simp only [planIsCompactible, Bool.and_eq_true, decide_eq_true_eq, List.forall₂_iff_zip,
    List.all_eq_true, Prod.forall, and_assoc]

omit [DecidableEq P] [DecidableEq V] in
@[simp] theorem planCompact_range (p1 p2 : Plan P V) :
    (planCompact p1 p2).range = ⟨p1.range.start, p2.range.stop⟩ := rfl

omit [DecidableEq P] [DecidableEq V] in
theorem zipWith_withStop_scores : ∀ {l1 l2 : List (Attr P V)}, l1.length = l2.length →
    (List.zipWith (fun a b => a.withStop b.range.stop) l1 l2).map (·.score) = l1.map (·.score)
  | [], _, _ => by simp
  | a :: l1, b :: l2, h => by
    simp only [List.zipWith_cons_cons, List.map_cons, Attr.withStop,
      ← zipWith_withStop_scores (Nat.succ.inj h)]

/-- Joining two plans of the list gives a valid plan. -/
theorem planCompact_valid {p1 p2 : Plan P V} (h1 : p1.Valid) (h2 : p2.Valid)
    (hc : planIsCompactible p1 p2 = true) : (planCompact p1 p2).Valid := by
  obtain ⟨ha, hf⟩ := planIsCompactible_iff.mp hc
  have hstop : p1.range.stop = p2.range.start := (attrIsCompactible_iff.mp ha).2.2.2
  refine ⟨?_, ?_, ?_⟩
  · have := h1.nonempty
    have := h2.nonempty
    simp only [planCompact_range]
    omega
  · intro fb hfb
    simp only [planCompact, ← List.map_uncurry_zip_eq_zipWith] at hfb
    obtain ⟨⟨a, b⟩, hab, rfl⟩ := List.mem_map.mp hfb
    obtain ⟨ha, hb⟩ := List.of_mem_zip hab
    simp only [Function.uncurry, Attr.withStop, h1.fallbackRange a ha, h2.fallbackRange b hb,
      planCompact_range]
  · have hs := h1.sorted
    simp only [Plan.scores, planCompact, zipWith_withStop_scores hf.length_eq]
    exact hs

/-- What a predecessor is compared with does not change when a plan is extended. -/
theorem planIsCompactible_planCompact {p1 p2 : Plan P V} (hc : planIsCompactible p1 p2 = true)
    (q : Plan P V) : planIsCompactible q (planCompact p1 p2) = planIsCompactible q p1 := by
  have hlen := (planIsCompactible_iff.mp hc).2.length_eq
  have hattr : ∀ a : Attr P V, ∀ stop, ∀ b, attrIsCompactible b (a.withStop stop) =
      attrIsCompactible b a := fun _ _ _ => rfl
  have hzip : ∀ {l1 l2 l : List (Attr P V)}, l1.length = l2.length →
      (l.zip (List.zipWith (fun a b => a.withStop b.range.stop) l1 l2)).all
        (fun fb => attrIsCompactible fb.1 fb.2) =
      (l.zip l1).all fun fb => attrIsCompactible fb.1 fb.2 := by
    intro l1
    induction l1 with
    | nil => simp
    | cons a l1 ih =>
      intro l2 l h
      cases l2 with
      | nil => exact absurd h (by simp)
      | cons b l2 =>
        cases l with
        | nil => rfl
        | cons c l =>
          simp only [List.zipWith_cons_cons, List.zip_cons_cons, List.all_cons, hattr,
            ih (Nat.succ.inj h)]
  simp only [planIsCompactible, planCompact, hattr, hzip hlen, List.length_zipWith, ← hlen,
    Nat.min_self]

/-- What `compactFrom plan l` achieves. -/
structure CompactSpec (plan : Plan P V) (res : List (Plan P V)) : Prop where
  ok : HeadOk res
  compacted : Compacted res
  start : ∀ q ∈ res, plan.range.start ≤ q.range.start
  front : ∀ q ∈ res.head?, ∀ p, planIsCompactible p q = planIsCompactible p plan

/-- Compaction meets its specification on every well-ordered list. -/
theorem compactFrom_spec : ∀ (l : List (Plan P V)) (plan : Plan P V), HeadOk (plan :: l) →
    CompactSpec plan (compactFrom plan l)
  | [], plan, hok => by
    refine ⟨hok, List.isChain_singleton _, ?_, ?_⟩
    · intro q hq
      rw [List.mem_singleton.mp hq]
    · intro q hq p
      rw [Option.mem_some.mp hq]
  | next :: rest, plan, hok => by
    obtain ⟨hv, hb, hrest⟩ := headOk_cons.mp hok
    obtain ⟨hv', hb', hrest'⟩ := headOk_cons.mp hrest
    unfold compactFrom
    split
    · -- joined: the joined plan is compared with its predecessor as `plan` was
      rename_i hc
      have hspec := compactFrom_spec rest (planCompact plan next)
        (headOk_cons.mpr ⟨planCompact_valid hv hv' hc, hb', hrest'⟩)
      refine ⟨hspec.ok, hspec.compacted, hspec.start, fun q hq p => ?_⟩
      rw [hspec.front q hq p, planIsCompactible_planCompact hc]
    · rename_i hc
      have hspec := compactFrom_spec rest next hrest
      have hnext : Before plan next := hb next (List.mem_cons_self ..)
      refine ⟨headOk_cons.mpr ⟨hv, ?_, hspec.ok⟩, ?_, ?_, ?_⟩
      · exact fun q hq => hnext.trans (hspec.start q hq)
      · refine List.isChain_cons.mpr ⟨?_, hspec.compacted⟩
        intro q hq
        rw [hspec.front q hq]
        exact Bool.eq_false_iff.mpr hc
      · intro q hq
        rcases List.mem_cons.mp hq with rfl | hq
        · exact le_rfl
        · exact (hv.nonempty.le.trans hnext).trans (hspec.start q hq)
      · intro q hq p
        rw [Option.mem_some.mp hq]

theorem plansCompactOne_spec {head : List (Plan P V)} (hok : HeadOk head) :
    HeadOk (plansCompactOne head) ∧ Compacted (plansCompactOne head) := by
  cases head with
  | nil => exact ⟨hok, List.isChain_nil⟩
  | cons plan rest =>
    have h := compactFrom_spec rest plan hok
    exact ⟨h.ok, h.compacted⟩

/-! ### Containers -/

/-- The representation invariant of a container. -/
structure Plans.Inv (plans : Plans P V) : Prop where
  ok : ∀ c m, HeadOk (plans.plans c m)
  compacted : ∀ c m, Compacted (plans.plans c m)

theorem plansInit_inv : (plansInit : Plans P V).Inv :=
  ⟨fun _ _ => HeadOk.nil, fun _ _ => List.isChain_nil⟩

omit [DecidableEq P] [DecidableEq V] in
/-- A property of all lists survives the replacement of one of them. -/
theorem Plans.set_forall {plans : Plans P V} {Q : List (Plan P V) → Prop} {c : CollType}
    {m : MemType} {head : List (Plan P V)} (h : ∀ c m, Q (plans.plans c m)) (hh : Q head)
    (c' : CollType) (m' : MemType) : Q ((plans.set c m head).plans c' m') := by
  unfold Plans.set
  dsimp only
  split
  · exact hh
  · exact h c' m'

theorem planAttrCheck_of_add {plans plans' : Plans P V} {params : PlanParams P V}
    (h : plansAdd plans params = .ok plans') : planAttrCheck params.attr = .ok := by
  unfold plansAdd at h
  split at h
  · exact absurd h (by simp)
  · rename_i hc
    push Not at hc
    exact hc.2.2

theorem plansAdd_inv {plans plans' : Plans P V} {params : PlanParams P V} (hI : plans.Inv)
    (h : plansAdd plans params = .ok plans') : plans'.Inv := by
  have hcheck := planAttrCheck_of_add h
  unfold plansAdd at h
  split at h
  · exact absurd h (by simp)
  split at h
  · obtain rfl := Except.ok.inj h
    exact hI
  · obtain rfl := Except.ok.inj h
    have hspec := plansCompactOne_spec (plansAddOne_headOk (hI.ok params.collType params.memType)
      (planCreate_valid hcheck))
    exact ⟨Plans.set_forall hI.ok hspec.1, Plans.set_forall hI.compacted hspec.2⟩

omit [DecidableEq P] [DecidableEq V] in
theorem headOk_map_dup : ∀ {head : List (Plan P V)}, HeadOk head → HeadOk (head.map planDup)
  | [], _ => HeadOk.nil
  | p :: head, h => by
    obtain ⟨hv, hb, hok⟩ := headOk_cons.mp h
    refine headOk_cons.mpr ⟨planDup_valid hv, ?_, headOk_map_dup hok⟩
    intro q hq
    obtain ⟨r, hr, rfl⟩ := List.mem_map.mp hq
    exact hb r hr

omit [DecidableEq P] [DecidableEq V] in
theorem addDups_headOk : ∀ {news head : List (Plan P V)}, (∀ p ∈ news, p.Valid) → HeadOk head →
    HeadOk (news.foldl (fun h newPlan => plansAddOne h (planDup newPlan)) head)
  | [], _, _, hok => hok
  | p :: news, _, hv, hok => by
    rw [List.foldl_cons]
    exact addDups_headOk (fun q hq => hv q (List.mem_cons_of_mem _ hq))
      (plansAddOne_headOk hok (planDup_valid (hv p (List.mem_cons_self ..))))

theorem plansMerge_inv {dst src : Plans P V} (hd : dst.Inv) (hs : src.Inv) :
    (plansMerge dst src).Inv := by
  have hspec : ∀ c m, HeadOk ((plansMerge dst src).plans c m) ∧
      Compacted ((plansMerge dst src).plans c m) := by
    intro c m
    unfold plansMerge
    dsimp only
    split
    · exact ⟨HeadOk.nil, List.isChain_nil⟩
    · exact plansCompactOne_spec (addDups_headOk (hs.ok c m).valid (headOk_map_dup (hd.ok c m)))
  exact ⟨fun c m => (hspec c m).1, fun c m => (hspec c m).2⟩

/-- Every container of the process satisfies the invariant. -/
def Store.Inv (s : Store P V) : Prop := ∀ i plans, s i = some plans → plans.Inv

omit [DecidableEq P] [DecidableEq V] in
/-- What holds of all containers holds after one of them has been replaced. -/
theorem Store.update_forall {I : Plans P V → Prop} {s : Store P V}
    (hs : ∀ i plans, s i = some plans → I plans) {plans : Plans P V} (h : I plans) (i : ℕ) :
    ∀ j p, Function.update s i (some plans) j = some p → I p := by
  intro j p hj
  by_cases hij : j = i
  · rw [hij, Function.update_self] at hj
    exact Option.some.inj hj ▸ h
  · rw [Function.update_of_ne hij] at hj
    exact hs j p hj

theorem Store.Inv.update {s : Store P V} (hI : s.Inv) {plans : Plans P V} (h : plans.Inv) (i : ℕ) :
    Store.Inv (Function.update s i (some plans)) := Store.update_forall hI h i

/-- What a successful call does to the store. -/
theorem exec_cases {s s' : Store P V} {call : Call P V} (h : call.exec s = .ok s') :
    (∃ i, call = .init i ∧ s' = Function.update s i (some plansInit)) ∨
    (∃ i params plans plans', call = .add i params ∧ s i = some plans ∧
      plansAdd plans params = .ok plans' ∧ s' = Function.update s i (some plans')) ∨
    (∃ i, call = .merge i i ∧ s' = s) ∨
    (∃ dst src d r, call = .merge dst src ∧ dst ≠ src ∧ s dst = some d ∧ s src = some r ∧
      s' = Function.update s dst (some (plansMerge d r))) := by
  cases call with
  | init i => exact Or.inl ⟨i, rfl, (Except.ok.inj h).symm⟩
  | add i params =>
    simp only [Call.exec] at h
    split at h
    · exact absurd h (by simp)
    · rename_i plans hs
      cases hadd : plansAdd plans params with
      | error e => rw [hadd] at h; exact absurd h (by simp [Except.map])
      | ok plans' =>
        rw [hadd] at h
        exact Or.inr (Or.inl ⟨i, params, plans, plans', rfl, hs, hadd, (Except.ok.inj h).symm⟩)
  | merge dst src =>
    simp only [Call.exec] at h
    split at h
    · rename_i d r hd hr
      by_cases heq : dst = src
      · rw [if_pos heq] at h
        exact Or.inr (Or.inr (Or.inl ⟨dst, by rw [heq], (Except.ok.inj h).symm⟩))
      · rw [if_neg heq] at h
        exact Or.inr (Or.inr (Or.inr ⟨dst, src, d, r, rfl, heq, hd, hr, (Except.ok.inj h).symm⟩))
    · exact absurd h (by simp)

/-- One call. -/
theorem exec_inv (s : Store P V) (call : Call P V) (s' : Store P V) (hI : s.Inv)
    (h : call.exec s = .ok s') : s'.Inv := by
  rcases exec_cases h with ⟨i, -, rfl⟩ | ⟨i, params, plans, plans', -, hs, hadd, rfl⟩ |
    ⟨i, -, rfl⟩ | ⟨dst, src, d, r, -, -, hd, hr, rfl⟩
  · exact hI.update plansInit_inv i
  · exact hI.update (plansAdd_inv (hI i plans hs) hadd) i
  · exact hI
  · exact hI.update (plansMerge_inv (hI dst d hd) (hI src r hr)) dst

/-- Every run of successful calls ends with all containers satisfying the invariant. -/
theorem runCalls_inv {calls : List (Call P V)} {s : Store P V} (h : runCalls calls = .ok s) :
    s.Inv :=
  Lib.foldlM_invariant exec_inv calls _ s (fun i plans hi => absurd hi (by simp)) h

/-- The invariant as a user of one list sees it. -/
structure WellFormed (head : List (Plan P V)) : Prop where
  sorted : head.Pairwise fun p q => p.range.start < q.range.start
  nonempty : ∀ p ∈ head, p.range.start < p.range.stop
  disjoint : head.Pairwise fun p q => ∀ m, ¬(p.range.Has m ∧ q.range.Has m)
  fallbackRange : ∀ p ∈ head, ∀ fb ∈ p.fallback, fb.range = p.range
  fallbackSorted : ∀ p ∈ head, p.fallback.Pairwise fun a b => a.score ≥ b.score
  firstScore : ∀ p ∈ head, ∀ fb ∈ p.fallback, p.attr.score ≥ fb.score
  compacted : head.IsChain fun p q => planIsCompactible p q = false

theorem wellFormed_of_ok {head : List (Plan P V)} (hok : HeadOk head) (hc : Compacted head) :
    WellFormed head where
  sorted := hok.sorted.imp_of_mem fun {p q} hp _ hb => (hok.valid p hp).nonempty.trans_le hb
  nonempty := fun p hp => (hok.valid p hp).nonempty
  disjoint := hok.sorted.imp fun {p q} hb m hm => by
    obtain ⟨⟨-, h1⟩, h2, -⟩ := hm
    unfold Before at hb
    omega
  fallbackRange := fun p hp => (hok.valid p hp).fallbackRange
  fallbackSorted := fun p hp => (hok.valid p hp).fallback_sorted
  firstScore := fun p hp _ hfb => (hok.valid p hp).score_le hfb
  compacted := hc

/-- Whatever plans were added and whatever containers were merged, in any order: every list of
    every container is well formed. -/
theorem containers_wellFormed (calls : List (Call P V)) (s : Store P V)
    (h : runCalls calls = .ok s) (i : ℕ) (plans : Plans P V) (hi : s i = some plans)
    (c : CollType) (m : MemType) : WellFormed (plans.plans c m) :=
  have hI := runCalls_inv h i plans hi
  wellFormed_of_ok (hI.ok c m) (hI.compacted c m)

end

/-- Two plans added to one container, across each other's boundaries, and a second container
    merged into it. -/
def mergeCalls : List (Call ℕ ℕ) :=
  let params (prepare score start stop : ℕ) : PlanParams ℕ ℕ :=
    ⟨.host, .bcast, ⟨some prepare, 0, some "plan", some "domain", false, ⟨start, stop⟩, 0, score⟩⟩
  [.init 0, .add 0 (params 1 10 0 100), .add 0 (params 2 20 50 200), .init 1,
    .add 1 (params 1 10 150 300), .merge 0 1]

theorem mergeCalls_wellFormed : ∃ s plans, runCalls mergeCalls = .ok s ∧ s 0 = some plans ∧
    ∀ c m, WellFormed (plans.plans c m) :=
  ⟨_, _, rfl, rfl, containers_wellFormed mergeCalls _ rfl 0 _ rfl⟩

end Kucg.Core
