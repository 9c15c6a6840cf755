import Kucg.Core.PlanOrder

/-! Registration of plans when memory runs out.

    Which allocations fail is up to the system (`Allocs`), and a call stops at the first one that
    does. Everything that a call allocates is freed again then, with one exception: stored plans
    that were already split stay split. So a failed addition leaves a list behind that was cut, and
    nothing else (`Cut`); no sequence changes by that. A merge works on a copy and touches its
    destination only at the end. Where no allocation fails, the functions here are those of
    `PlanContainer` (`plansAddA_cases`, `plansMergeA_cases`). -/

namespace Kucg.Core

variable {P V : Type}

/-- The outcome of all allocations of a call, by their number: `true` is a failure. -/
abbrev Allocs := ℕ → Bool

/-- `count` allocations from number `k` on, up to the first failure: whether all succeed, and the
    number of the next allocation. -/
def tryAllocs (fails : Allocs) : ℕ → ℕ → Bool × ℕ
  | 0, k => (true, k)
  | count + 1, k => if fails k then (false, k + 1) else tryAllocs fails count (k + 1)

/-- The allocations of `ucg_plan_dup`: a node, a name and a domain for the plan and for each of its
    fallbacks. -/
def dupAllocs (plan : Plan P V) : ℕ := 3 * (1 + plan.fallback.length)

/-- `ucg_plans_normalise_one`, the loop, as `normaliseLoop`, with the number of the next allocation.
    A failure returns the list as it is by then; the pieces of the new plan are freed. -/
def normaliseLoopA (fails : Allocs) (head : List (Plan P V)) (newPlan : Plan P V) (k : ℕ) :
    Except (List (Plan P V)) (List (Plan P V) × List (Plan P V)) × ℕ :=
  match head with
  | [] => (.ok ([], [newPlan]), k)
  | exist :: rest =>
    if newPlan.range.stop ≤ exist.range.start then (.ok (exist :: rest, [newPlan]), k)
    else
      match _he : planNeedSplit exist.range newPlan.range with
      | some pos =>
        match tryAllocs fails (dupAllocs exist) k with
        | (false, k') => (.error (exist :: rest), k')
        | (true, k') =>
          let exist' := (planSplit exist pos).1
          let rest' := (planSplit exist pos).2 :: rest
          match _hn : planNeedSplit newPlan.range exist'.range with
          | some pos' =>
            match tryAllocs fails (dupAllocs newPlan) k' with
            | (false, k'') => (.error (exist' :: rest'), k'')
            | (true, k'') =>
              let r := normaliseLoopA fails (exist' :: rest') (planSplit newPlan pos').2 k''
              (r.1.map fun res => (res.1, (planSplit newPlan pos').1 :: res.2), r.2)
          | none => normaliseLoopA fails (exist' :: rest') newPlan k'
      | none =>
        match _hn : planNeedSplit newPlan.range exist.range with
        | some pos' =>
          match tryAllocs fails (dupAllocs newPlan) k with
          | (false, k') => (.error (exist :: rest), k')
          | (true, k') =>
            let r := normaliseLoopA fails (exist :: rest) (planSplit newPlan pos').2 k'
            (r.1.map fun res => (res.1, (planSplit newPlan pos').1 :: res.2), r.2)
        | none =>
          let r := normaliseLoopA fails rest newPlan k
          ((r.1.map fun res => (exist :: res.1, res.2)).mapError (exist :: ·), r.2)
  termination_by (newPlan.range.stop - newPlan.range.start,
    (head.map fun e => newPlan.range.cuts e.range).sum, head.length)
  decreasing_by
    -- as for `normaliseLoop`
    · obtain ⟨h1, h2, -⟩ := needSplit_inside _hn
      apply Prod.Lex.left
      simp only [planSplit_snd_range]
      omega
    · obtain ⟨h1, h2, h3, -⟩ := needSplit_inside _he
      have := cuts_split h1 h2 h3
      apply Prod.Lex.right
      apply Prod.Lex.left
      simp only [List.map_cons, List.sum_cons, planSplit_fst_range,
        planSplit_snd_range]
      omega
    · obtain ⟨h1, h2, -⟩ := needSplit_inside _hn
      apply Prod.Lex.left
      simp only [planSplit_snd_range]
      omega
    · rw [List.map_cons, List.sum_cons]
      rcases Nat.eq_zero_or_pos (newPlan.range.cuts exist.range) with h0 | h0
      · rw [h0, Nat.zero_add]
        exact Prod.Lex.right _ (Prod.Lex.right _ (Nat.lt_succ_self _))
      · exact Prod.Lex.right _ (Prod.Lex.left _ _ (by omega))

/-- `ucg_plans_add_one`: a failure returns the list as it is by then. -/
def plansAddOneA (fails : Allocs) (head : List (Plan P V)) (plan : Plan P V) (k : ℕ) :
    Except (List (Plan P V)) (List (Plan P V)) × ℕ :=
  let r := normaliseLoopA fails head plan k
  (r.1.map fun res => addLoop res.1 res.2, r.2)

/-- The loop of `ucg_plans_merge_one`. -/
def mergeLoopA (fails : Allocs) :
    List (Plan P V) → List (Plan P V) → ℕ → Option (List (Plan P V)) × ℕ
  | head, [], k => (some head, k)
  | head, newPlan :: rest, k =>
    match tryAllocs fails (dupAllocs newPlan) k with
    | (false, k') => (none, k')
    | (true, k') =>
      match plansAddOneA fails head (planDup newPlan) k' with
      | (.error _, k'') => (none, k'')
      | (.ok head', k'') => mergeLoopA fails head' rest k''

/-- What a call on a container comes to: the status, the content of the container, and the number of
    allocations. -/
structure PlansResult (P V : Type) where
  status : Status
  plans : Plans P V
  used : ℕ

/-- The collective and memory types, in the order of the loops. -/
def collMemTypes : List (CollType × MemType) :=
  [CollType.bcast, .allreduce, .barrier, .alltoallv, .scatterv, .gatherv, .allgatherv, .reduce,
    .ibcast, .iallreduce, .ibarrier, .ialltoallv, .iscatterv, .igatherv, .iallgatherv,
    .ireduce].flatMap fun c => [(c, MemType.host), (c, .acl)]

variable [DecidableEq P] [DecidableEq V]

/-- `ucg_plans_add`. -/
def plansAddA (fails : Allocs) (plans : Plans P V) (params : PlanParams P V) : PlansResult P V :=
  if params.collType = .last ∨ params.memType = .unknown ∨ planAttrCheck params.attr ≠ .ok then
    ⟨.errInvalidParam, plans, 0⟩
  else if params.attr.deprecated then ⟨.ok, plans, 0⟩
  else
    -- `ucg_plan_create`: the node, its name and its domain
    match tryAllocs fails 3 0 with
    | (false, k) => ⟨.errNoMemory, plans, k⟩
    | (true, k) =>
      let head := plans.plans params.collType params.memType
      match plansAddOneA fails head (planCreate params) k with
      | (.error head', k') =>
        ⟨.errNoMemory, plans.set params.collType params.memType head', k'⟩
      | (.ok head', k') =>
        ⟨.ok, plans.set params.collType params.memType (plansCompactOne head'), k'⟩

/-- The loops of `ucg_plans_merge` over the types still to come; `new` is the new container. -/
def mergeTypesA (fails : Allocs) (dst src : Plans P V) :
    List (CollType × MemType) → Plans P V → ℕ → Option (Plans P V) × ℕ
  | [], new, k => (some new, k)
  | (c, m) :: rest, new, k =>
    -- `ucg_plans_dup_one`
    match tryAllocs fails ((dst.plans c m).map dupAllocs).sum k with
    | (false, k') => (none, k')
    | (true, k') =>
      match mergeLoopA fails ((dst.plans c m).map planDup) (src.plans c m) k' with
      | (none, k'') => (none, k'')
      | (some head, k'') =>
        mergeTypesA fails dst src rest (new.set c m (plansCompactOne head)) k''

/-- `ucg_plans_merge` of two different containers, with the new content of `*dst`. -/
def plansMergeA (fails : Allocs) (dst src : Plans P V) : PlansResult P V :=
  match tryAllocs fails 1 0 with
  | (false, k) => ⟨.errNoMemory, dst, k⟩
  | (true, k) =>
    match mergeTypesA fails dst src collMemTypes plansInit k with
    | (none, k') => ⟨.errNoMemory, dst, k'⟩
    | (some new, k') => ⟨.ok, new, k'⟩

/-- One call, with the allocations that it makes; `NULL` is refused, and a merge of a container with
    itself is no merge at all. -/
def Call.execA (fails : Allocs) (s : Store P V) : Call P V → Status × Store P V
  | .init plans =>
    match tryAllocs fails 1 0 with
    | (false, _) => (.errNoMemory, s)
    | (true, _) => (.ok, Function.update s plans (some plansInit))
  | .add plans params =>
    match s plans with
    | none => (.errInvalidParam, s)
    | some p =>
      let r := plansAddA fails p params
      (r.status, Function.update s plans (some r.plans))
  | .merge dst src =>
    match s dst, s src with
    | some d, some r =>
      if dst = src then (.ok, s)
      else
        let res := plansMergeA fails d r
        (res.status, Function.update s dst (some res.plans))
    | _, _ => (.errInvalidParam, s)

/-- A sequence of calls, whether they succeed or not. -/
def runCallsA (calls : List (Call P V × Allocs)) : Store P V :=
  calls.foldl (fun s call => (call.1.execA call.2 s).2) fun _ => none

/-! ### Failures -/

section
omit [DecidableEq P] [DecidableEq V]

/-- One of the allocations from `k` up to `k'` fails. -/
def Failed (fails : Allocs) (k k' : ℕ) : Prop := ∃ j, k ≤ j ∧ j < k' ∧ fails j = true

variable {fails : Allocs} {k k' k'' : ℕ}

theorem failed_self : ¬Failed fails k k := by
  rintro ⟨j, hle, hlt, -⟩
  omega

theorem failed_trans (h : k ≤ k') (h' : k' ≤ k'') :
    Failed fails k k'' ↔ Failed fails k k' ∨ Failed fails k' k'' := by
  constructor
  · rintro ⟨j, hle, hlt, hj⟩
    by_cases hjk : j < k'
    · exact Or.inl ⟨j, hle, hjk, hj⟩
    · exact Or.inr ⟨j, not_lt.mp hjk, hlt, hj⟩
  · rintro (⟨j, hle, hlt, hj⟩ | ⟨j, hle, hlt, hj⟩)
    · exact ⟨j, hle, by omega, hj⟩
    · exact ⟨j, by omega, hlt, hj⟩

/-- Allocations succeed, or one of them fails. -/
theorem allocs_cases (fails : Allocs) : ∀ count k : ℕ,
    (∃ k', tryAllocs fails count k = (true, k') ∧ k ≤ k' ∧ ¬Failed fails k k') ∨
      ∃ k', tryAllocs fails count k = (false, k') ∧ k ≤ k' ∧ Failed fails k k'
  | 0, k => Or.inl ⟨k, rfl, le_rfl, failed_self⟩
  | count + 1, k => by
    have hstep : k ≤ k + 1 := Nat.le_succ k
    rw [tryAllocs]
    split_ifs with hk
    · exact Or.inr ⟨k + 1, rfl, hstep, k, le_rfl, Nat.lt_succ_self k, hk⟩
    · have hfirst : ¬Failed fails k (k + 1) := by
        rintro ⟨j, hj, hj', hfail⟩
        obtain rfl : j = k := by omega
        exact hk hfail
      rcases allocs_cases fails count (k + 1) with ⟨k', heq, hle, hnot⟩ | ⟨k', heq, hle, hfail⟩
      · refine Or.inl ⟨k', heq, hstep.trans hle, ?_⟩
        rw [failed_trans hstep hle]
        exact not_or.mpr ⟨hfirst, hnot⟩
      · exact Or.inr ⟨k', heq, hstep.trans hle, (failed_trans hstep hle).mpr (Or.inr hfail)⟩

/-! ### Lists that were cut -/

/-- Some plans of the list were split, and nothing else was done. -/
inductive Cut : List (Plan P V) → List (Plan P V) → Prop
  | refl (head : List (Plan P V)) : Cut head head
  | split {exist : Plan P V} {pos : ℕ} {rest head' : List (Plan P V)}
      (hstart : exist.range.start < pos) (hstop : pos < exist.range.stop)
      (h : Cut ((planSplit exist pos).1 :: (planSplit exist pos).2 :: rest) head') :
      Cut (exist :: rest) head'
  | cons (exist : Plan P V) {rest head' : List (Plan P V)} (h : Cut rest head') :
      Cut (exist :: rest) (exist :: head')

/-- Cuts start no plan in front of the list. -/
theorem Cut.start {head head' : List (Plan P V)} (h : Cut head head') :
    ∀ n, (∀ p ∈ head, n ≤ p.range.start) → ∀ p ∈ head', n ≤ p.range.start := by
  induction h with
  | refl => exact fun _ h => h
  | @split exist pos rest head' hstart hstop _ ih =>
    intro n h
    obtain ⟨hexist, hrest⟩ := List.forall_mem_cons.mp h
    refine ih n (List.forall_mem_cons.mpr ⟨hexist, List.forall_mem_cons.mpr ⟨?_, hrest⟩⟩)
    rw [planSplit_snd_range]
    exact hexist.trans hstart.le
  | cons exist _ ih =>
    intro n h
    obtain ⟨hexist, hrest⟩ := List.forall_mem_cons.mp h
    exact List.forall_mem_cons.mpr ⟨hexist, ih n hrest⟩

theorem Cut.ok {head head' : List (Plan P V)} (h : Cut head head') :
    HeadOk head → HeadOk head' := by
  induction h with
  | refl => exact id
  | split hstart hstop _ ih => exact fun hok => ih (headOk_split hok hstart hstop)
  | cons exist hcut ih =>
    intro hok
    obtain ⟨hv, hb, hrest⟩ := headOk_cons.mp hok
    exact headOk_cons.mpr ⟨hv, hcut.start exist.range.stop hb, ih hrest⟩

/-- Cuts change no sequence. -/
theorem Cut.shares {head head' : List (Plan P V)} (h : Cut head head') (n : ℕ) :
    shares head' n = shares head n := by
  induction h with
  | refl => rfl
  | split hstart hstop _ ih =>
    rw [ih, shares_cons, shares_cons, ← List.append_assoc, planSplit_share hstart hstop,
      shares_cons]
  | cons exist _ ih => rw [shares_cons, ih, shares_cons]

theorem Cut.seqAt {head head' : List (Plan P V)} (h : Cut head head') (hok : HeadOk head) (n : ℕ) :
    seqAt head' n = seqAt head n := by
  rw [seqAt_eq_shares n (h.ok hok), seqAt_eq_shares n hok, h.shares]

/-- All nodes of a list. -/
def nodes (head : List (Plan P V)) : List (Attr P V) :=
  head.flatMap fun p => p.attr :: p.fallback

/-- The attributes of two nodes are the same, ranges apart. -/
def Attr.SameBut (a b : Attr P V) : Prop :=
  a.prepare = b.prepare ∧ a.vgroup = b.vgroup ∧ a.score = b.score ∧ a.id = b.id ∧ a.name = b.name ∧
    a.domain = b.domain

theorem Attr.SameBut.refl (a : Attr P V) : a.SameBut a := ⟨rfl, rfl, rfl, rfl, rfl, rfl⟩

theorem Attr.SameBut.trans {a b c : Attr P V} (h : a.SameBut b) (h' : b.SameBut c) : a.SameBut c :=
  ⟨h.1.trans h'.1, h.2.1.trans h'.2.1, h.2.2.1.trans h'.2.2.1, h.2.2.2.1.trans h'.2.2.2.1,
    h.2.2.2.2.1.trans h'.2.2.2.2.1, h.2.2.2.2.2.trans h'.2.2.2.2.2⟩

/-- Every node of a list that was cut is a node of the list, or split off from one. -/
theorem Cut.nodes {head head' : List (Plan P V)} (h : Cut head head') :
    ∀ a ∈ nodes head', ∃ b ∈ nodes head, a.SameBut b := by
  induction h with
  | refl => exact fun a ha => ⟨a, ha, .refl a⟩
  | @split exist pos rest head' _ _ _ ih =>
    intro a ha
    obtain ⟨b, hb, hab⟩ := ih a ha
    have hnode : ∃ c ∈ exist.attr :: exist.fallback ++ Core.nodes rest, b.SameBut c := by
      simp only [Core.nodes, List.flatMap_cons, ← List.append_assoc, List.mem_append] at hb ⊢
      rcases hb with (hb | hb) | hb
      · rcases List.mem_cons.mp hb with rfl | hb
        · exact ⟨exist.attr, Or.inl List.mem_cons_self, rfl, rfl, rfl, rfl, rfl, rfl⟩
        · obtain ⟨c, hc, rfl⟩ := List.mem_map.mp hb
          exact ⟨c, Or.inl (List.mem_cons_of_mem _ hc), rfl, rfl, rfl, rfl, rfl, rfl⟩
      · rcases List.mem_cons.mp hb with rfl | hb
        · exact ⟨exist.attr, Or.inl List.mem_cons_self, rfl, rfl, rfl, rfl, rfl, rfl⟩
        · obtain ⟨c', hc', rfl⟩ := List.mem_map.mp hb
          obtain ⟨c, hc, rfl⟩ := List.mem_map.mp hc'
          exact ⟨c, Or.inl (List.mem_cons_of_mem _ hc), rfl, rfl, rfl, rfl, rfl, rfl⟩
      · exact ⟨b, Or.inr hb, .refl b⟩
    obtain ⟨c, hc, hbc⟩ := hnode
    exact ⟨c, hc, hab.trans hbc⟩
  | cons exist _ ih =>
    intro a ha
    simp only [Core.nodes, List.flatMap_cons, List.mem_append] at ha ⊢
    rcases ha with ha | ha
    · exact ⟨a, Or.inl ha, .refl a⟩
    · obtain ⟨b, hb, hab⟩ := ih a ha
      exact ⟨b, Or.inr hb, hab⟩

/-! ### The loop of the normalisation -/

/-- What `normaliseLoopA fails head newPlan k = r` achieves. -/
structure NormSpecA (fails : Allocs) (head : List (Plan P V)) (newPlan : Plan P V) (k : ℕ)
    (r : Except (List (Plan P V)) (List (Plan P V) × List (Plan P V)) × ℕ) : Prop where
  le : k ≤ r.2
  ok : ∀ res, r.1 = .ok res → ¬Failed fails k r.2 ∧ res = normaliseLoop head newPlan
  error : ∀ head', r.1 = .error head' → Failed fails k r.2 ∧ Cut head head'

theorem normaliseLoopA_cons (exist : Plan P V) (rest : List (Plan P V)) (newPlan : Plan P V)
    (hstop : ¬newPlan.range.stop ≤ exist.range.start) :
    normaliseLoopA fails (exist :: rest) newPlan k =
      match planNeedSplit exist.range newPlan.range with
      | some pos =>
        match tryAllocs fails (dupAllocs exist) k with
        | (false, k') => (.error (exist :: rest), k')
        | (true, k') =>
          let head := (planSplit exist pos).1 :: (planSplit exist pos).2 :: rest
          match planNeedSplit newPlan.range (planSplit exist pos).1.range with
          | some pos' =>
            match tryAllocs fails (dupAllocs newPlan) k' with
            | (false, k'') => (.error head, k'')
            | (true, k'') =>
              let r := normaliseLoopA fails head (planSplit newPlan pos').2 k''
              (r.1.map fun res => (res.1, (planSplit newPlan pos').1 :: res.2), r.2)
          | none => normaliseLoopA fails head newPlan k'
      | none =>
        match planNeedSplit newPlan.range exist.range with
        | some pos' =>
          match tryAllocs fails (dupAllocs newPlan) k with
          | (false, k') => (.error (exist :: rest), k')
          | (true, k') =>
            let r := normaliseLoopA fails (exist :: rest) (planSplit newPlan pos').2 k'
            (r.1.map fun res => (res.1, (planSplit newPlan pos').1 :: res.2), r.2)
        | none =>
          let r := normaliseLoopA fails rest newPlan k
          ((r.1.map fun res => (exist :: res.1, res.2)).mapError (exist :: ·), r.2) := by
  rw [normaliseLoopA, if_neg hstop]
  cases planNeedSplit exist.range newPlan.range with
  | some pos =>
    dsimp only
    obtain ⟨ok, k'⟩ := tryAllocs fails (dupAllocs exist) k
    cases ok with
    | false => rfl
    | true => cases planNeedSplit newPlan.range (planSplit exist pos).1.range <;> rfl
  | none => cases planNeedSplit newPlan.range exist.range <;> rfl

/-- A rest of the loop after allocations that succeeded. -/
theorem NormSpecA.after {head head₁ : List (Plan P V)} {newPlan newPlan₁ : Plan P V}
    {r : Except (List (Plan P V)) (List (Plan P V) × List (Plan P V)) × ℕ}
    {f : List (Plan P V) × List (Plan P V) → List (Plan P V) × List (Plan P V)}
    {g : List (Plan P V) → List (Plan P V)} (h : NormSpecA fails head₁ newPlan₁ k' r)
    (hle : k ≤ k') (hnot : ¬Failed fails k k')
    (hres : f (normaliseLoop head₁ newPlan₁) = normaliseLoop head newPlan)
    (hcut : ∀ head', Cut head₁ head' → Cut head (g head')) :
    NormSpecA fails head newPlan k ((r.1.map f).mapError g, r.2) := by
  refine ⟨hle.trans h.le, fun res hr => ?_, fun head' hr => ?_⟩
  · cases hr₁ : r.1 with
    | error e => rw [hr₁] at hr; exact absurd hr (by simp [Except.map, Except.mapError])
    | ok res₁ =>
      obtain ⟨hfail, rfl⟩ := h.ok res₁ hr₁
      rw [hr₁] at hr
      obtain rfl := Except.ok.inj hr
      refine ⟨?_, hres⟩
      rw [failed_trans hle h.le]
      exact not_or.mpr ⟨hnot, hfail⟩
  · cases hr₁ : r.1 with
    | ok res₁ => rw [hr₁] at hr; exact absurd hr (by simp [Except.map, Except.mapError])
    | error e =>
      obtain ⟨hfail, hcut₁⟩ := h.error e hr₁
      rw [hr₁] at hr
      obtain rfl := Except.error.inj hr
      exact ⟨(failed_trans hle h.le).mpr (Or.inr hfail), hcut e hcut₁⟩

theorem map_id {r : Except (List (Plan P V)) (List (Plan P V) × List (Plan P V))} :
    r.map (fun res => res) = r := by
  cases r <;> rfl

theorem mapError_id {r : Except (List (Plan P V)) (List (Plan P V) × List (Plan P V))} :
    r.mapError (fun head => head) = r := by
  cases r <;> rfl

theorem NormSpecA.failed {head head' : List (Plan P V)} {newPlan : Plan P V} (hle : k ≤ k')
    (hfail : Failed fails k k') (hcut : Cut head head') :
    NormSpecA fails head newPlan k (.error head', k') := by
  refine ⟨hle, fun res hr => absurd hr (by simp), fun e hr => ?_⟩
  obtain rfl := Except.error.inj hr
  exact ⟨hfail, hcut⟩

theorem NormSpecA.done {head : List (Plan P V)} {newPlan : Plan P V}
    (h : normaliseLoop head newPlan = (head, [newPlan])) :
    NormSpecA fails head newPlan k (.ok (head, [newPlan]), k) := by
  refine ⟨le_rfl, fun res hr => ⟨failed_self, ?_⟩, fun e hr => absurd hr (by simp)⟩
  rw [h]
  exact (Except.ok.inj hr).symm

/-- The normalisation loop meets its specification on every list, every new plan and whatever
    allocations fail. -/
theorem normaliseLoopA_spec (head : List (Plan P V)) (newPlan : Plan P V) :
    ∀ k, NormSpecA fails head newPlan k (normaliseLoopA fails head newPlan k) := by
  induction head, newPlan using normaliseLoop.induct with
  | case1 newPlan =>
    intro k
    rw [normaliseLoopA]
    exact NormSpecA.done (normaliseLoop_behind (by simp))
  | case2 newPlan exist rest hstop =>
    intro k
    rw [normaliseLoopA, if_pos hstop]
    exact NormSpecA.done (by rw [normaliseLoop, if_pos hstop])
  | case3 newPlan exist rest hstop pos he exist' rest' pos' hn ih =>
    -- both plans are split
    intro k
    obtain ⟨h1, h2, -⟩ := needSplit_inside he
    have hcut : ∀ head', Cut (exist' :: rest') head' → Cut (exist :: rest) head' := fun _ h =>
      .split h1 h2 h
    have hpure := normaliseLoop_cons exist rest newPlan hstop
    rw [he] at hpure
    dsimp only at hpure
    rw [hn] at hpure
    rw [normaliseLoopA_cons exist rest newPlan hstop, he]
    dsimp only
    rcases allocs_cases fails (dupAllocs exist) k with ⟨k', heq, hle, hnot⟩ | ⟨k', heq, hle, hfail⟩
    · rw [heq]
      dsimp only
      rw [hn]
      dsimp only
      rcases allocs_cases fails (dupAllocs newPlan) k' with
        ⟨k'', heq', hle', hnot'⟩ | ⟨k'', heq', hle', hfail'⟩
      · rw [heq']
        have hboth : ¬Failed fails k k'' := by
          rw [failed_trans hle hle']
          exact not_or.mpr ⟨hnot, hnot'⟩
        have hafter := (ih k'').after (f := fun res => (res.1, (planSplit newPlan pos').1 :: res.2))
          (g := fun head => head) (hle.trans hle') hboth hpure.symm hcut
        rwa [mapError_id] at hafter
      · rw [heq']
        exact NormSpecA.failed (hle.trans hle') ((failed_trans hle hle').mpr (Or.inr hfail'))
          (hcut _ (.refl _))
    · rw [heq]
      exact NormSpecA.failed hle hfail (.refl _)
  | case4 newPlan exist rest hstop pos he exist' rest' hn ih =>
    -- only the stored plan is split
    intro k
    obtain ⟨h1, h2, -⟩ := needSplit_inside he
    have hpure := normaliseLoop_cons exist rest newPlan hstop
    rw [he] at hpure
    dsimp only at hpure
    rw [hn] at hpure
    rw [normaliseLoopA_cons exist rest newPlan hstop, he]
    dsimp only
    rcases allocs_cases fails (dupAllocs exist) k with ⟨k', heq, hle, hnot⟩ | ⟨k', heq, hle, hfail⟩
    · rw [heq]
      dsimp only
      rw [hn]
      have hafter := (ih k').after (f := fun res => res) (g := fun head => head) hle hnot hpure.symm
        fun _ h => .split h1 h2 h
      rwa [mapError_id, map_id] at hafter
    · rw [heq]
      exact NormSpecA.failed hle hfail (.refl _)
  | case5 newPlan exist rest hstop he pos' hn ih =>
    -- only the new plan is split
    intro k
    have hpure := normaliseLoop_cons exist rest newPlan hstop
    rw [he, hn] at hpure
    rw [normaliseLoopA_cons exist rest newPlan hstop, he, hn]
    dsimp only
    rcases allocs_cases fails (dupAllocs newPlan) k with ⟨k', heq, hle, hnot⟩ |
      ⟨k', heq, hle, hfail⟩
    · rw [heq]
      have hafter := (ih k').after (f := fun res => (res.1, (planSplit newPlan pos').1 :: res.2))
        (g := fun head => head) hle hnot hpure.symm fun _ h => h
      rwa [mapError_id] at hafter
    · rw [heq]
      exact NormSpecA.failed hle hfail (.refl _)
  | case6 newPlan exist rest hstop he hn ih =>
    -- nothing is split
    intro k
    have hpure := normaliseLoop_cons exist rest newPlan hstop
    rw [he, hn] at hpure
    rw [normaliseLoopA_cons exist rest newPlan hstop, he, hn]
    exact (ih k).after (f := fun res => (exist :: res.1, res.2)) (g := fun head => exist :: head)
      le_rfl failed_self hpure.symm fun _ h => .cons exist h

/-! ### Lists -/

/-- What `plansAddOneA fails head plan k = r` achieves. -/
structure AddSpecA (fails : Allocs) (head : List (Plan P V)) (plan : Plan P V) (k : ℕ)
    (r : Except (List (Plan P V)) (List (Plan P V)) × ℕ) : Prop where
  le : k ≤ r.2
  ok : ∀ head', r.1 = .ok head' → ¬Failed fails k r.2 ∧ head' = plansAddOne head plan
  error : ∀ head', r.1 = .error head' → Failed fails k r.2 ∧ Cut head head'

theorem plansAddOneA_spec (head : List (Plan P V)) (plan : Plan P V) (k : ℕ) :
    AddSpecA fails head plan k (plansAddOneA fails head plan k) := by
  have h : NormSpecA fails head plan k _ := normaliseLoopA_spec head plan k
  rw [plansAddOneA]
  refine ⟨h.le, fun head' hr => ?_, fun head' hr => ?_⟩
  · cases hr₁ : (normaliseLoopA fails head plan k).1 with
    | error e => rw [hr₁] at hr; exact absurd hr (by simp [Except.map])
    | ok res =>
      obtain ⟨hfail, rfl⟩ := h.ok res hr₁
      rw [hr₁] at hr
      exact ⟨hfail, (Except.ok.inj hr).symm⟩
  · cases hr₁ : (normaliseLoopA fails head plan k).1 with
    | ok res => rw [hr₁] at hr; exact absurd hr (by simp [Except.map])
    | error e =>
      rw [hr₁] at hr
      exact Except.error.inj hr ▸ h.error e hr₁

/-- What `mergeLoopA fails head news k = r` achieves. -/
structure MergeSpecA (fails : Allocs) (head news : List (Plan P V)) (k : ℕ)
    (r : Option (List (Plan P V)) × ℕ) : Prop where
  le : k ≤ r.2
  ok : ∀ head', r.1 = some head' → ¬Failed fails k r.2 ∧
    head' = news.foldl (fun h newPlan => plansAddOne h (planDup newPlan)) head
  error : r.1 = none → Failed fails k r.2

theorem mergeLoopA_spec : ∀ (news head : List (Plan P V)) (k : ℕ),
    MergeSpecA fails head news k (mergeLoopA fails head news k)
  | [], head, k => by
    rw [mergeLoopA]
    refine ⟨le_rfl, fun head' hr => ?_, fun hr => absurd hr (by simp)⟩
    exact ⟨failed_self, (Option.some.inj hr).symm⟩
  | newPlan :: news, head, k => by
    rw [mergeLoopA]
    rcases allocs_cases fails (dupAllocs newPlan) k with ⟨k', heq, hle, hnot⟩ |
      ⟨k', heq, hle, hfail⟩
    · rw [heq]
      dsimp only
      have hadd : AddSpecA fails head (planDup newPlan) k' _ := plansAddOneA_spec head _ k'
      cases hr : plansAddOneA fails head (planDup newPlan) k' with
      | mk res k'' =>
        rw [hr] at hadd
        have hle' : k' ≤ k'' := hadd.le
        cases res with
        | error e =>
          refine ⟨hle.trans hle', fun head' hr => absurd hr (by simp), fun _ => ?_⟩
          exact (failed_trans hle hle').mpr (Or.inr (hadd.error e rfl).1)
        | ok head₁ =>
          obtain ⟨hnot', rfl⟩ := hadd.ok head₁ rfl
          have ih := mergeLoopA_spec news (plansAddOne head (planDup newPlan)) k''
          have hboth : ¬Failed fails k k'' := by
            rw [failed_trans hle hle']
            exact not_or.mpr ⟨hnot, hnot'⟩
          have hle'' := hle.trans hle'
          refine ⟨hle''.trans ih.le, fun head' hr => ?_, fun hr => ?_⟩
          · obtain ⟨hnot'', heq⟩ := ih.ok head' hr
            refine ⟨?_, heq⟩
            rw [failed_trans hle'' ih.le]
            exact not_or.mpr ⟨hboth, hnot''⟩
          · exact (failed_trans hle'' ih.le).mpr (Or.inr (ih.error hr))
    · rw [heq]
      exact ⟨hle, fun head' hr => absurd hr (by simp), fun _ => hfail⟩

end

/-! ### Containers -/

/-- Every list of a container keeps its order, its ranges and its fallback ranges. -/
def Plans.Ok (plans : Plans P V) : Prop := ∀ c m, HeadOk (plans.plans c m)

omit [DecidableEq P] [DecidableEq V] in
theorem Plans.Ok.set {plans : Plans P V} (h : plans.Ok) {c : CollType} {m : MemType}
    {head : List (Plan P V)} (hh : HeadOk head) : (plans.set c m head).Ok :=
  Plans.set_forall h hh

theorem Plans.Ok.add {plans plans' : Plans P V} {params : PlanParams P V} (hok : plans.Ok)
    (h : plansAdd plans params = .ok plans') : plans'.Ok := by
  have hcheck := planAttrCheck_of_add h
  unfold plansAdd at h
  split_ifs at h
  · obtain rfl := Except.ok.inj h
    exact hok
  · obtain rfl := Except.ok.inj h
    exact hok.set (plansCompactOne_spec (plansAddOne_headOk (hok _ _) (planCreate_valid hcheck))).1

theorem Plans.Ok.merge {dst src : Plans P V} (hd : dst.Ok) (hs : src.Ok) :
    (plansMerge dst src).Ok := by
  intro c m
  unfold plansMerge
  dsimp only
  split_ifs
  · exact HeadOk.nil
  · exact (plansCompactOne_spec (addDups_headOk (hs c m).valid (headOk_map_dup (hd c m)))).1

/-- An addition in which an allocation fails cuts stored plans at most; any other one is that of
    `plansAdd`. -/
theorem plansAddA_cases (fails : Allocs) (plans : Plans P V) (params : PlanParams P V) :
    (Failed fails 0 (plansAddA fails plans params).used ∧
      (plansAddA fails plans params).status = .errNoMemory ∧
      ∀ c m, Cut (plans.plans c m) ((plansAddA fails plans params).plans.plans c m)) ∨
    (¬Failed fails 0 (plansAddA fails plans params).used ∧
      (((plansAddA fails plans params).status = .ok ∧
        plansAdd plans params = .ok (plansAddA fails plans params).plans) ∨
      ((plansAddA fails plans params).status = .errInvalidParam ∧
        plansAdd plans params = .error .errInvalidParam ∧
        (plansAddA fails plans params).plans = plans))) := by
  unfold plansAddA plansAdd
  by_cases hbad : params.collType = .last ∨ params.memType = .unknown ∨
      planAttrCheck params.attr ≠ .ok
  · rw [if_pos hbad, if_pos hbad]
    exact Or.inr ⟨failed_self, Or.inr ⟨rfl, rfl, rfl⟩⟩
  rw [if_neg hbad, if_neg hbad]
  by_cases hdep : params.attr.deprecated = true
  · rw [if_pos hdep, if_pos hdep]
    exact Or.inr ⟨failed_self, Or.inl ⟨rfl, rfl⟩⟩
  rw [if_neg hdep, if_neg hdep]
  rcases allocs_cases fails 3 0 with ⟨k', heq, hle, hnot⟩ | ⟨k', heq, -, hfail⟩
  · rw [heq]
    dsimp only
    have hadd : AddSpecA fails (plans.plans params.collType params.memType)
      (planCreate params) k' _ :=
      plansAddOneA_spec _ _ k'
    cases hr : plansAddOneA fails (plans.plans params.collType params.memType) (planCreate params)
      k' with
    | mk res k'' =>
      rw [hr] at hadd
      cases res with
      | error head' =>
        obtain ⟨hfail, hcut⟩ := hadd.error head' rfl
        refine Or.inl ⟨(failed_trans hle hadd.le).mpr (Or.inr hfail), rfl, fun c m => ?_⟩
        unfold Plans.set
        dsimp only
        split_ifs with hcm
        · obtain ⟨rfl, rfl⟩ := hcm
          exact hcut
        · exact .refl _
      | ok head' =>
        obtain ⟨hnot', rfl⟩ := hadd.ok head' rfl
        refine Or.inr ⟨?_, Or.inl ⟨rfl, rfl⟩⟩
        rw [failed_trans hle hadd.le]
        exact not_or.mpr ⟨hnot, hnot'⟩
  · rw [heq]
    exact Or.inl ⟨hfail, rfl, fun c m => .refl _⟩

/-- What `mergeTypesA fails dst src types new k = r` achieves. -/
structure MergeTypesSpec (fails : Allocs) (dst src : Plans P V) (types : List (CollType × MemType))
    (new : Plans P V) (k : ℕ) (r : Option (Plans P V) × ℕ) : Prop where
  le : k ≤ r.2
  ok : ∀ new', r.1 = some new' → ¬Failed fails k r.2 ∧ ∀ c m, new'.plans c m =
    if (c, m) ∈ types then plansMergeOne ((dst.plans c m).map planDup) (src.plans c m)
    else new.plans c m
  error : r.1 = none → Failed fails k r.2

theorem mergeTypesA_spec {fails : Allocs} {dst src : Plans P V} :
    ∀ (types : List (CollType × MemType)) (new : Plans P V) (k : ℕ),
      MergeTypesSpec fails dst src types new k (mergeTypesA fails dst src types new k)
  | [], new, k => by
    rw [mergeTypesA]
    refine ⟨le_rfl, fun new' hr => ⟨failed_self, fun c m => ?_⟩, fun hr => absurd hr (by simp)⟩
    rw [if_neg List.not_mem_nil, Option.some.inj hr]
  | (c, m) :: types, new, k => by
    rw [mergeTypesA]
    rcases allocs_cases fails ((dst.plans c m).map dupAllocs).sum k with
      ⟨k', heq, hle, hnot⟩ | ⟨k', heq, hle, hfail⟩
    · rw [heq]
      dsimp only
      have hloop : MergeSpecA fails ((dst.plans c m).map planDup) (src.plans c m) k' _ :=
        mergeLoopA_spec _ _ k'
      cases hr : mergeLoopA fails ((dst.plans c m).map planDup) (src.plans c m) k' with
      | mk res k'' =>
        rw [hr] at hloop
        have hle' : k' ≤ k'' := hloop.le
        cases res with
        | none =>
          refine ⟨hle.trans hle', fun new' hr => absurd hr (by simp), fun _ => ?_⟩
          exact (failed_trans hle hle').mpr (Or.inr (hloop.error rfl))
        | some head =>
          obtain ⟨hnot', hhead⟩ := hloop.ok head rfl
          have ih : MergeTypesSpec fails dst src types (new.set c m (plansCompactOne head)) k'' _ :=
            mergeTypesA_spec types _ k''
          have hboth : ¬Failed fails k k'' := by
            rw [failed_trans hle hle']
            exact not_or.mpr ⟨hnot, hnot'⟩
          have hle'' := hle.trans hle'
          refine ⟨hle''.trans ih.le, fun new' hr => ?_, fun hr => ?_⟩
          · obtain ⟨hnot'', hplans⟩ := ih.ok new' hr
            refine ⟨?_, fun c' m' => ?_⟩
            · rw [failed_trans hle'' ih.le]
              exact not_or.mpr ⟨hboth, hnot''⟩
            · rw [hplans, Plans.set]
              dsimp only
              by_cases hmem : (c', m') ∈ types
              · rw [if_pos hmem, if_pos (List.mem_cons_of_mem _ hmem)]
              · rw [if_neg hmem]
                by_cases hcm : c' = c ∧ m' = m
                · obtain ⟨rfl, rfl⟩ := hcm
                  rw [if_pos ⟨rfl, rfl⟩, if_pos List.mem_cons_self, hhead, plansMergeOne]
                · rw [if_neg hcm, if_neg fun hh => hcm (by
                    rcases List.mem_cons.mp hh with heq | hh
                    · exact Prod.mk.inj heq
                    · exact absurd hh hmem)]
          · exact (failed_trans hle'' ih.le).mpr (Or.inr (ih.error hr))
    · rw [heq]
      exact ⟨hle, fun new' hr => absurd hr (by simp), fun _ => hfail⟩

theorem mem_collMemTypes {c : CollType} {m : MemType} :
    (c, m) ∈ collMemTypes ↔ ¬(c = .last ∨ m = .unknown) := by
  cases c <;> cases m <;> decide

/-- A merge in which an allocation fails leaves the destination as it was; any other one is that of
    `plansMerge`. -/
theorem plansMergeA_cases (fails : Allocs) (dst src : Plans P V) :
    (Failed fails 0 (plansMergeA fails dst src).used ∧
      (plansMergeA fails dst src).status = .errNoMemory ∧ (plansMergeA fails dst src).plans = dst) ∨
    (¬Failed fails 0 (plansMergeA fails dst src).used ∧ (plansMergeA fails dst src).status = .ok ∧
      (plansMergeA fails dst src).plans = plansMerge dst src) := by
  unfold plansMergeA
  rcases allocs_cases fails 1 0 with ⟨k', heq, hle, hnot⟩ | ⟨k', heq, -, hfail⟩
  · rw [heq]
    dsimp only
    have htypes : MergeTypesSpec fails dst src collMemTypes plansInit k' _ :=
      mergeTypesA_spec collMemTypes plansInit k'
    cases hr : mergeTypesA fails dst src collMemTypes plansInit k' with
    | mk res k'' =>
      rw [hr] at htypes
      cases res with
      | none =>
        exact Or.inl ⟨(failed_trans hle htypes.le).mpr (Or.inr (htypes.error rfl)), rfl, rfl⟩
      | some new =>
        obtain ⟨hnot', hplans⟩ := htypes.ok new rfl
        refine Or.inr ⟨?_, rfl, ?_⟩
        · rw [failed_trans hle htypes.le]
          exact not_or.mpr ⟨hnot, hnot'⟩
        · have hfun : new.plans = (plansMerge dst src).plans := by
            funext c m
            rw [hplans, plansMerge]
            dsimp only
            rw [if_congr mem_collMemTypes rfl rfl, ite_not]
            rfl
          dsimp only
          cases new
          exact congrArg Plans.mk hfun
  · rw [heq]
    exact Or.inl ⟨hfail, rfl, rfl⟩

/-! ### Runs -/

/-- Every container of the process keeps order, ranges and fallback ranges. -/
def Store.Ok (s : Store P V) : Prop := ∀ i plans, s i = some plans → plans.Ok

omit [DecidableEq P] [DecidableEq V] in
theorem Store.Ok.update {s : Store P V} (hs : s.Ok) {plans : Plans P V} (h : plans.Ok) (i : ℕ) :
    Store.Ok (Function.update s i (some plans)) := Store.update_forall hs h i

/-- One call, whatever allocations fail. -/
theorem Store.Ok.exec {s : Store P V} (hs : s.Ok) (call : Call P V) (fails : Allocs) :
    Store.Ok (call.execA fails s).2 := by
  cases call with
  | init i =>
    rw [Call.execA]
    rcases allocs_cases fails 1 0 with ⟨k', heq, -, -⟩ | ⟨k', heq, -, -⟩
    · rw [heq]
      exact hs.update (fun _ _ => HeadOk.nil) i
    · rw [heq]
      exact hs
  | add i params =>
    rw [Call.execA]
    cases hi : s i with
    | none => exact hs
    | some plans =>
      have hok := hs i plans hi
      refine hs.update ?_ i
      rcases plansAddA_cases fails plans params with ⟨-, -, hcut⟩ | ⟨-, ⟨-, hadd⟩ | ⟨-, -, heq⟩⟩
      · exact fun c m => (hcut c m).ok (hok c m)
      · exact hok.add hadd
      · rw [heq]
        exact hok
  | merge dst src =>
    rw [Call.execA]
    cases hd : s dst with
    | none => exact hs
    | some d =>
      cases hr : s src with
      | none => exact hs
      | some r =>
        dsimp only
        split_ifs
        · exact hs
        · refine hs.update ?_ dst
          rcases plansMergeA_cases fails d r with ⟨-, -, heq⟩ | ⟨-, -, heq⟩
          · rw [heq]
            exact hs dst d hd
          · rw [heq]
            exact (hs dst d hd).merge (hs src r hr)

/-- Every run, whatever calls and allocations fail. -/
theorem runCallsA_ok (calls : List (Call P V × Allocs)) : Store.Ok (runCallsA calls) := by
  induction calls using List.reverseRecOn with
  | nil => exact fun i plans hi => absurd hi (by simp [runCallsA])
  | append_singleton calls call ih =>
    rw [runCallsA, List.foldl_append]
    exact ih.exec call.1 call.2

/-- A list as it was, for all that can be seen: the sequences at all message sizes, the ranges and
    fallback ranges. All its nodes were there before, or were split off from one that was. -/
structure Unchanged (head head' : List (Plan P V)) : Prop where
  seq : ∀ n, seqAt head' n = seqAt head n
  ok : HeadOk head'
  cut : Cut head head'
  nodes : ∀ a ∈ nodes head', ∃ b ∈ nodes head, a.SameBut b

omit [DecidableEq P] [DecidableEq V] in
theorem Cut.unchanged {head head' : List (Plan P V)} (h : Cut head head') (hok : HeadOk head) :
    Unchanged head head' := ⟨h.seqAt hok, h.ok hok, h, h.nodes⟩

/-- Whatever calls came before, and whatever of them failed: if an allocation of an addition fails,
    the addition returns an error and changes nothing that can be seen, and no node of the failed
    plan stays behind. A merge that fails leaves its destination as it was. -/
theorem failed_registration (calls : List (Call P V × Allocs)) (fails : Allocs) (i : ℕ)
    (plans : Plans P V) (hi : runCallsA calls i = some plans) :
    (∀ params, Failed fails 0 (plansAddA fails plans params).used →
      (plansAddA fails plans params).status = .errNoMemory ∧
      ∀ c m, Unchanged (plans.plans c m) ((plansAddA fails plans params).plans.plans c m)) ∧
    ∀ j src, runCallsA calls j = some src →
      (Failed fails 0 (plansMergeA fails plans src).used →
        (plansMergeA fails plans src).status = .errNoMemory) ∧
      ((plansMergeA fails plans src).status ≠ .ok →
        (plansMergeA fails plans src).plans = plans) := by
  have hok := runCallsA_ok calls i plans hi
  refine ⟨fun params hfail => ?_, fun j src _ => ?_⟩
  · rcases plansAddA_cases fails plans params with ⟨-, hstatus, hcut⟩ | ⟨hnot, -⟩
    · exact ⟨hstatus, fun c m => (hcut c m).unchanged (hok c m)⟩
    · exact absurd hfail hnot
  · rcases plansMergeA_cases fails plans src with ⟨-, hstatus, hplans⟩ | ⟨hnot, hstatus, -⟩
    · exact ⟨fun _ => hstatus, fun _ => hplans⟩
    · exact ⟨fun hfail => absurd hfail hnot, fun hne => absurd hstatus hne⟩

/-- A container with one plan, filled without a failure. -/
def onePlan : List (Call ℕ ℕ × Allocs) :=
  [(.init 0, fun _ => false), (.add 0 (hostPlan 1 10 0 100), fun _ => false)]

/-- The fourth allocation of an addition is the first one of the split of the stored plan. -/
theorem failed_registration_split : ∃ plans, runCallsA onePlan 0 = some plans ∧
    (plansAddA (fun k => k == 3) plans (hostPlan 2 20 50 200)).status = .errNoMemory ∧
    ∀ c m, Unchanged (plans.plans c m)
      ((plansAddA (fun k => k == 3) plans (hostPlan 2 20 50 200)).plans.plans c m) := by
  have hplans : ∃ plans, runCallsA onePlan 0 = some plans ∧
      plans.plans .bcast .host = [planCreate (hostPlan 1 10 0 100)] := by
    refine ⟨_, rfl, ?_⟩
    simp [plansAddA, hostPlan, planAttrCheck, tryAllocs, plansAddOneA, normaliseLoopA, Except.map,
      plansInit, Plans.set, addLoop, plansCompactOne, compactFrom]
  obtain ⟨plans, hrun, hhead⟩ := hplans
  refine ⟨plans, hrun, (failed_registration onePlan (fun k => k == 3) 0 plans hrun).1 _ ?_⟩
  refine ⟨3, by omega, ?_, rfl⟩
  have hsplit : planNeedSplit (planCreate (hostPlan 1 10 0 100)).range
      (planCreate (hostPlan 2 20 50 200)).range = some 50 := by decide
  have hcheck : ¬((hostPlan 2 20 50 200).collType = .last ∨
      (hostPlan 2 20 50 200).memType = .unknown ∨
      planAttrCheck (hostPlan 2 20 50 200).attr ≠ .ok) := by decide
  have hcreate : tryAllocs (fun k => k == 3) 3 0 = (true, 3) := by decide
  have hdup : tryAllocs (fun k => k == 3) (dupAllocs (planCreate (hostPlan 1 10 0 100))) 3 =
    (false, 4) :=
    by decide
  rw [plansAddA, if_neg hcheck, if_neg (by decide), hcreate]
  have hcoll : (hostPlan 2 20 50 200).collType = .bcast := rfl
  have hmem : (hostPlan 2 20 50 200).memType = .host := rfl
  dsimp only
  rw [hcoll, hmem, hhead, plansAddOneA, normaliseLoopA_cons _ _ _ (by decide), hsplit]
  dsimp only
  rw [hdup]
  exact (by decide : 3 < 4)

end Kucg.Core
