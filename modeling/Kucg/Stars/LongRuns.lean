import Kucg.Stars.LongPlan

/-! What an offloaded long broadcast does, if its requests are those of the scatter and of the
    rolling allgather on numbered ranks. -/

namespace Kucg.Stars

open Kucg.Algo Kucg.Lib

/-- What a rank of the tree submits for a task of the scatter, or for the put in front of it. -/
def phaseOf (k v : ℕ) : StreamTask ℕ → LongPhase
  | .put w _ _ _ => if w = k then .first else .scatter
  | .wait _ => if v = k then .first else .scatter

/-- The requests of rank `v`. -/
noncomputable def longRequests (more : Bool) (k v : ℕ) : List (LongPhase × StreamTask ℕ) :=
  (scatterWith more k v).map (fun x => (phaseOf k v x, x)) ++
    rollingBy k (fun _ => true) (fun _ _ => LongPhase.ring) (fun _ _ => .ring) v

/-- The streams of the ranks. -/
def longStreams (submit : ℕ → Option (List (LongPhase × StreamTask Addr))) (p : ℕ) :
    List (StreamTask Addr) := ((submit p).getD []).map Prod.snd

/-- The phases of the puts of rank `p` that raise event `e` of rank `q`. -/
def putPhases (submit : ℕ → Option (List (LongPhase × StreamTask Addr))) (p q e : ℕ) :
    List LongPhase := (((submit p).getD []).filter fun x => x.2.raises q e).map Prod.fst

/-- The phases of the waits of rank `q` on it. -/
def waitPhases (submit : ℕ → Option (List (LongPhase × StreamTask Addr))) (q e : ℕ) :
    List LongPhase := (((submit q).getD []).filter fun x => x.2.awaits e).map Prod.fst

/-- Which of the `len` events of an entry a phase uses: the ring the last one, the others the
    first one. -/
def LongPhase.eid (len : ℕ) : LongPhase → ℕ
  | .ring => len - 1
  | _ => 0

/-- At first the root has everything. -/
def longOwn (args : BcastArgs) (p : ℕ) : Set Addr := {_c | p = args.root}

/-- What an offloaded long broadcast guarantees in every interleaving of the ranks. -/
structure LongDelivers {β : Type} (args : BcastArgs) (n : ℕ) (deps : ℕ → CommDep)
    (submit : ℕ → Option (List (LongPhase × StreamTask Addr))) (m₀ : ℕ → Addr → β) : Prop where
  /-- For every pair of ranks, one gets as many events as the other one raises. -/
  allotted : ∀ p < n, ∀ q < n,
    CommDep.events (deps p).getRanks q = CommDep.events (deps q).putRanks p
  /-- Every neighbour is found in the map. -/
  submits : ∀ p < n, (submit p).isSome
  /-- A put raises the event of its phase in the entry that the receiver has for the sender. -/
  put_slots : ∀ p < n, ∀ reqs, submit p = some reqs → ∀ phase q ev src dst,
    (phase, .put q ev src dst) ∈ reqs → q < n ∧ (phase = .ring → ev.isSome) ∧
      ∀ e, ev = some e → ∃ j len : ℕ, (deps q).getRanks[j]? = some ⟨p, len⟩ ∧
        e = (deps q).offsetCommon j + phase.eid len
  /-- A wait is for the event of its phase in an entry. -/
  wait_slots : ∀ q < n, ∀ reqs, submit q = some reqs → ∀ phase e, (phase, .wait e) ∈ reqs →
    ∃ j p len : ℕ, (deps q).getRanks[j]? = some ⟨p, len⟩ ∧
      e = (deps q).offsetCommon j + phase.eid len
  /-- An event is raised by one rank, once for each wait of its owner, in the same phases. -/
  matched : ∀ q < n, ∀ e, ∃ s < n, (∀ p < n, p ≠ s → putPhases submit p q e = []) ∧
    putPhases submit s q e = waitPhases submit q e
  ordered : ∀ F : Fabric Addr β, F.Reachable n (longStreams submit) m₀ → ∀ q e,
    consumed (longStreams submit) q e F.done ≤ raised n (longStreams submit) q e F.done
  drained : ∀ F : Fabric Addr β, F.Reachable n (longStreams submit) m₀ →
    F.Finished n (longStreams submit) → ∀ q < n, ∀ e, F.pending q e = 0
  /-- Before the end, some rank can go on. -/
  live : ∀ F : Fabric Addr β, F.Reachable n (longStreams submit) m₀ →
    ¬F.Finished n (longStreams submit) → ∃ p < n, (F.step n (longStreams submit) p).isSome
  /-- Only what a rank holds is put. -/
  held : SendsHeld n (longStreams submit) m₀ (longOwn args)
  /-- In the end the elements in the buffers are equal. -/
  equal : ∀ F : Fabric Addr β, F.Reachable n (longStreams submit) m₀ →
    F.Finished n (longStreams submit) → ∀ p < n, ∀ j < args.count, ∀ i < args.dtSize,
      F.mem p (.recv, (j * args.dtExtent + i : ℕ)) =
        m₀ args.root (.recv, (j * args.dtExtent + i : ℕ))

/-- The requests are those on numbered ranks, placed. -/
structure LongSubmits (args : BcastArgs) (more : Bool) (k : ℕ) (num real : ℕ → ℕ)
    (deps : ℕ → CommDep) (maps : ℕ → List (ℕ × ℕ))
    (submit : ℕ → Option (List (LongPhase × StreamTask Addr))) : Prop where
  plan : LongPlan more k real deps maps
  numbering : Numbering (scatterRanks more k) num real
  root : real 0 = args.root
  submits : ∀ v < scatterRanks more k, submit (real v) = some
    ((longRequests more k v).map (Prod.map id ((longPlacement args k num real).task v)))

/-! ### The phases of the requests -/

section Phases

variable {more : Bool} {k v w e : ℕ}

/-- Requests of which all have the same phase. -/
theorem phases_scatterWith {P : StreamTask ℕ → Bool} {phase : LongPhase}
    (h : ∀ x ∈ scatterWith more k v, P x = true → phaseOf k v x = phase) :
    (((scatterWith more k v).map fun x => (phaseOf k v x, x)).filter fun x => P x.2).map Prod.fst =
      List.replicate ((scatterWith more k v).countP P) phase := by
  rw [List.eq_replicate_iff, List.length_map, ← List.countP_eq_length_filter, List.countP_map]
  refine ⟨rfl, fun ph hph => ?_⟩
  obtain ⟨y, hy, rfl⟩ := List.mem_map.mp hph
  obtain ⟨hy, hP⟩ := List.mem_filter.mp hy
  obtain ⟨x, hx, rfl⟩ := List.mem_map.mp hy
  exact h x hx hP

theorem puts_longRequests : ((longRequests more k v).filter fun x => x.2.raises w e).map Prod.fst =
    List.replicate (if e = 0 ∧ 0 < w ∧ w < scatterRanks more k ∧ v < k ∧ v = scatterSrc k w
      then 1 else 0) (if w = k then LongPhase.first else .scatter) ++
    ((rollingBy k (fun _ => true) (fun _ _ => LongPhase.ring) (fun _ _ => .ring) v).filter
      fun x => x.2.raises w e).map Prod.fst := by
  have hcount : (scatterWith more k v).countP (fun x => x.raises w e) =
      if e = 0 ∧ 0 < w ∧ w < scatterRanks more k ∧ v < k ∧ v = scatterSrc k w then 1 else 0 := by
    by_cases he : e = 0
    · subst he
      rw [raises_scatterWith]
      exact if_congr (and_iff_right rfl).symm rfl rfl
    · rw [if_neg fun hh => he hh.1]
      refine List.countP_eq_zero.mpr fun x hx hr => he ?_
      obtain ⟨src, dst, rfl⟩ := StreamTask.raises_iff.mp hr
      exact (put_of_mem_scatterWith hx).2.1 e rfl
  rw [longRequests, List.filter_append, List.map_append, ← hcount,
    phases_scatterWith (P := fun x => x.raises w e)]
  intro x _ hr
  obtain ⟨src, dst, rfl⟩ := StreamTask.raises_iff.mp hr
  rfl

theorem waits_longRequests (hk : 0 < k) :
    ((longRequests more k w).filter fun x => x.2.awaits e).map Prod.fst =
    List.replicate (if e = 0 ∧ 0 < w ∧ w < scatterRanks more k then 1 else 0)
      (if w = k then LongPhase.first else .scatter) ++
    ((rollingBy k (fun _ => true) (fun _ _ => LongPhase.ring) (fun _ _ => .ring) w).filter
      fun x => x.2.awaits e).map Prod.fst := by
  have hcount : (scatterWith more k w).countP (fun x => x.awaits e) =
      if e = 0 ∧ 0 < w ∧ w < scatterRanks more k then 1 else 0 := by
    by_cases he : e = 0
    · subst he
      rw [awaits_scatterWith _ hk]
      exact if_congr (and_iff_right rfl).symm rfl rfl
    · rw [if_neg fun hh => he hh.1]
      refine List.countP_eq_zero.mpr fun x hx hr => he ?_
      rw [StreamTask.awaits_iff.mp hr] at hx
      exact wait_of_mem_scatterWith hx
  rw [longRequests, List.filter_append, List.map_append, ← hcount,
    phases_scatterWith (P := fun x => x.awaits e)]
  intro x _ hr
  rw [StreamTask.awaits_iff.mp hr]
  rfl

/-- Who raises an event. -/
theorem puts_longRequests_nil (hne : v ≠ rollSender k (scatterSrc k) w e) :
    ((longRequests more k v).filter fun x => x.2.raises w e).map Prod.fst = [] := by
  rw [puts_longRequests, List.append_eq_nil_iff]
  constructor
  · rw [if_neg, List.replicate_zero]
    rintro ⟨rfl, -, -, -, rfl⟩
    exact hne (by rw [rollSender, if_neg (by omega), if_neg (by omega)])
  · refine puts_rollingBy_nil (fun hc => hne ?_) fun hc => hne ?_
    · rw [rollSender, if_pos ⟨hc.1, hc.2.1⟩]
      exact hc.2.2
    · rw [rollSender, if_neg (by omega), if_pos ⟨hc.1, hc.2.1⟩]
      exact hc.2.2

/-- The phases in which an event is raised are those in which it is waited for. -/
theorem phases_eq (hk : 3 ≤ k) (hw : w < scatterRanks more k) :
    ((longRequests more k (rollSender k (scatterSrc k) w e)).filter fun x =>
      x.2.raises w e).map Prod.fst =
      ((longRequests more k w).filter fun x => x.2.awaits e).map Prod.fst := by
  rw [puts_longRequests, waits_longRequests (by omega)]
  by_cases he : w < k ∧ (e = 1 ∨ e = 2)
  · obtain ⟨hwk, he⟩ := he
    have hputs : ¬(e = 0 ∧ 0 < w ∧ w < scatterRanks more k ∧ rollSender k (scatterSrc k) w e < k ∧
        rollSender k (scatterSrc k) w e = scatterSrc k w) := fun hh => by omega
    have hwaits : ¬(e = 0 ∧ 0 < w ∧ w < scatterRanks more k) := fun hh => by omega
    rw [if_neg hputs, if_neg hwaits]
    congr 1
    rcases he with rfl | rfl
    · have hl := leftOf_lt (v := w) (by omega : 0 < k)
      have hlr := rightOf_leftOf hwk
      have hput := puts_rollingBy_right (fun _ => true) (fun _ _ => LongPhase.ring)
        (fun _ _ => LongPhase.ring) hk hl
      have hwait := waits_rollingBy_right (fun _ => true) (fun _ _ => LongPhase.ring)
        (fun _ _ => LongPhase.ring) hk hl
      rw [hlr] at hput hwait
      rw [rollSender, if_pos ⟨hwk, rfl⟩, hput, hwait]
    · rw [rollSender, if_neg (by omega), if_pos ⟨hwk, rfl⟩, puts_rollingBy_left hk hwk,
        waits_rollingBy_left hk hwk]
  · rw [rollSender_pre he, puts_rollingBy_nil (by omega) (by omega),
      waits_rollingBy_nil (by omega) (by omega)]
    congr 2
    refine if_congr ⟨fun hh => ⟨hh.1, hh.2.1, hh.2.2.1⟩, fun hh => ?_⟩ rfl rfl
    exact ⟨hh.1, hh.2.1, hh.2.2, scatterSrc_lt hh.2.1 hh.2.2, rfl⟩

/-- Without the phases these are the tasks of the scatter and of the ring. -/
theorem map_snd_longRequests {base : ℕ} : (longRequests more k v).map Prod.snd =
    tasks (rollAfter (scatterPre more k) k (fun _ => true) base) v := by
  rw [longRequests, tasks, rollAfter, List.map_append, List.map_append, scatterPre,
    map_snd_stampFrom, List.map_map, rolling, rollingBy, rollingBy]
  congr 1
  · exact List.map_id _
  · split_ifs with hv
    · rw [List.map_flatMap, List.map_flatMap]
      refine List.flatMap_congr fun t _ => ?_
      rw [map_snd_rollLabeled, map_snd_rollLabeled]
    · rfl

end Phases

/-! ### Delivery -/

namespace LongSubmits

variable {β : Type} {args : BcastArgs} {more : Bool} {k : ℕ} {num real : ℕ → ℕ}
  {deps : ℕ → CommDep} {maps : ℕ → List (ℕ × ℕ)}
  {submit : ℕ → Option (List (LongPhase × StreamTask Addr))} {m₀ : ℕ → Addr → β}
  {v w t s : ℕ} {phase : LongPhase}

/-- The scatter and the ring, with stamps. -/
noncomputable def stamped (more : Bool) (k : ℕ) : ℕ → List (ℕ × StreamTask ℕ) :=
  rollAfter (scatterPre more k) k (fun _ => true) ((k + 1) * (k + 2))

theorem prelude (h : LongSubmits args more k num real deps maps submit) :
    Prelude (scatterRanks more k) ((k + 1) * (k + 2)) (scatterPre more k) (scatterSrc k) :=
  prelude_scatter (by have := h.plan.three; omega)

theorem paired (h : LongSubmits args more k num real deps maps submit) :
    Paired (scatterRanks more k) (stamped more k) (rollSender k (scatterSrc k)) :=
  h.prelude.paired_rollAfter h.plan.three le_scatterRanks

theorem fits (h : LongSubmits args more k num real deps maps submit) :
    (longPlacement args k num real).Fits (scatterRanks more k) 3 (tasks (stamped more k)) :=
  .of_paired h.numbering h.paired (fun _ hv _ _ he => h.prelude.putsOf_nil hv he)
    fun _ hv _ he => h.prelude.waitsOf_nil hv he

theorem separated (h : LongSubmits args more k num real deps maps submit) :
    (longPlacement args k num real).Separated (scatterRanks more k) 3 (tasks (stamped more k)) :=
  Placement.separated_of_inj (fun _ _ _ _ _ _ heq => longSlot_inj heq) h.fits

theorem real_num (h : LongSubmits args more k num real deps maps submit) {p : ℕ}
    (hp : p < scatterRanks more k) : real (num p) = p :=
  (h.numbering.rank_eq_iff p hp _ (h.numbering.num_lt p hp)).mpr rfl

/-- The requests of a rank by its number. -/
theorem submit_eq (h : LongSubmits args more k num real deps maps submit) {p : ℕ}
    (hp : p < scatterRanks more k) : submit p = some
      ((longRequests more k (num p)).map
        (Prod.map id ((longPlacement args k num real).task (num p)))) := by
  rw [← h.submits _ (h.numbering.num_lt p hp), h.real_num hp]

/-- The streams are the scatter and the ring, placed. -/
theorem streams_eq (h : LongSubmits args more k num real deps maps submit) {p : ℕ}
    (hp : p < scatterRanks more k) : longStreams submit p =
      (longPlacement args k num real).place (tasks (stamped more k)) p := by
  have hnum : (longPlacement args k num real).num p = num p := rfl
  rw [longStreams, h.submit_eq hp, Option.getD_some, List.map_map, Placement.place, hnum, stamped,
    ← map_snd_longRequests, List.map_map]
  rfl

/-- What a put is. -/
theorem put_of_mem {ev : Option ℕ} {src dst : List ℕ}
    (hmem : (phase, .put w ev src dst) ∈ longRequests more k v) :
    v < k ∧ (phase = .first ∧ more = true ∧ v = 0 ∧ w = k ∨
      phase = .scatter ∧ w ∈ kntreeChildren k 2 v) ∧ (∀ e, ev = some e → e = 0) ∨
    v < k ∧ phase = .ring ∧ ∃ t, w = rollPeer k v t ∧
      ev = some (if (v + t) % 2 = 1 then 2 else 1) := by
  rw [longRequests, List.mem_append] at hmem
  rcases hmem with hmem | hmem
  · obtain ⟨x, hx, heq⟩ := List.mem_map.mp hmem
    obtain ⟨rfl, rfl⟩ := Prod.mk.inj heq
    obtain ⟨hv, hev, ⟨hmore, hv0, hwk, -⟩ | ⟨hchild, -⟩⟩ := put_of_mem_scatterWith hx
    · exact Or.inl ⟨hv, Or.inl ⟨if_pos hwk, hmore, hv0, hwk⟩, hev⟩
    · have hwk := (mem_kntreeRest.mp hchild).1
      exact Or.inl ⟨hv, Or.inr ⟨if_neg hwk.ne, hchild⟩, hev⟩
  · rw [rollingBy] at hmem
    split_ifs at hmem with hv
    · obtain ⟨t, -, hmem⟩ := List.mem_flatMap.mp hmem
      simp only [rollLabeled, rollPut, rollWait, if_true] at hmem
      refine Or.inr ⟨hv, ?_⟩
      split_ifs at hmem <;> simp at hmem <;> exact ⟨hmem.1, t, hmem.2.1, by simp [*]⟩
    · exact absurd hmem List.not_mem_nil

/-- What a wait is. -/
theorem wait_of_mem {e : ℕ} (hk : 0 < k) (hmem : (phase, .wait e) ∈ longRequests more k v) :
    e = 0 ∧ 0 < v ∧ (phase = .first ∧ more = true ∧ v = k ∨ phase = .scatter ∧ v < k) ∨
      v < k ∧ phase = .ring ∧ (e = 1 ∨ e = 2) := by
  rw [longRequests, List.mem_append] at hmem
  rcases hmem with hmem | hmem
  · obtain ⟨x, hx, heq⟩ := List.mem_map.mp hmem
    obtain ⟨rfl, rfl⟩ := Prod.mk.inj heq
    obtain rfl := wait_of_mem_scatterWith hx
    have hcount := awaits_scatterWith more (v := v) hk
    have hpos : 0 < (scatterWith more k v).countP fun x => x.awaits 0 :=
      List.countP_pos_iff.mpr ⟨_, hx, by simp⟩
    split_ifs at hcount with hv
    · refine Or.inl ⟨rfl, hv.1, ?_⟩
      by_cases hvk : v < k
      · exact Or.inr ⟨if_neg hvk.ne, hvk⟩
      · obtain ⟨hmore, hvk⟩ := LongPlan.eq_of_not_lt hv.2 hvk
        exact Or.inl ⟨if_pos hvk, hmore, hvk⟩
    · omega
  · rw [rollingBy] at hmem
    split_ifs at hmem with hv
    · obtain ⟨t, -, hmem⟩ := List.mem_flatMap.mp hmem
      simp only [rollLabeled, rollPut, rollWait, if_true] at hmem
      refine Or.inr ⟨hv, ?_⟩
      split_ifs at hmem <;> simp at hmem <;> simp [hmem]
    · exact absurd hmem List.not_mem_nil

/-- The entry for a put, at the rank that it goes to. -/
theorem slot_of_put (h : LongSubmits args more k num real deps maps submit) {ev : Option ℕ}
    {src dst : List ℕ} (hmem : (phase, .put w ev src dst) ∈ longRequests more k v) :
    w < scatterRanks more k ∧ (phase = .ring → ev.isSome) ∧ ∀ e, ev = some e →
      ∃ j len : ℕ, (deps (real w)).getRanks[j]? = some ⟨real v, len⟩ ∧
        longSlot k w e = (deps (real w)).offsetCommon j + phase.eid len := by
  have hthree := h.plan.three
  rcases put_of_mem hmem with ⟨hv, hcases, hev⟩ | ⟨hv, rfl, t, rfl, rfl⟩
  · rcases hcases with ⟨rfl, hmore, rfl, rfl⟩ | ⟨rfl, hchild⟩
    · have hentry := h.plan.entry_more hmore
      refine ⟨by rw [scatterRanks, if_pos hmore]; exact w.lt_succ_self, by simp, fun e he => ?_⟩
      refine ⟨0, 1, hentry.get, ?_⟩
      rw [hev e he, longSlot_last hv, hentry.offset]
      rfl
    · obtain ⟨hpos, hwk, hparent⟩ := (mem_kntreeChildren (by decide)).mp hchild
      obtain ⟨len, hentry⟩ := h.plan.entry_parent hwk hpos
      rw [← hparent] at hentry
      refine ⟨LongPlan.lt_ranks hwk, by simp, fun e he => ⟨_, len, hentry.get, ?_⟩⟩
      rw [hev e he, hentry.offset]
      rfl
  · have hpeer := h.plan.rollPeer_lt (v := v) (t := t)
    refine ⟨LongPlan.lt_ranks hpeer, fun _ => rfl, fun e he => ?_⟩
    obtain rfl := Option.some.inj he
    obtain ⟨⟨lenl, offl, hleft, hslotl⟩, lenr, offr, hright, hslotr⟩ := h.plan.entry_ring hpeer
    by_cases hpar : (v + t) % 2 = 1
    · have hback : rightOf k (rollPeer k v t) = v := by
        rw [rollPeer, if_pos hpar]
        exact rightOf_leftOf hv
      rw [hback] at hright
      exact ⟨_, lenr, hright.get, by rw [if_pos hpar, ← hslotr, hright.offset]; rfl⟩
    · have hback : leftOf k (rollPeer k v t) = v := by
        rw [rollPeer, if_neg hpar]
        exact leftOf_rightOf hv
      rw [hback] at hleft
      exact ⟨_, lenl, hleft.get, by rw [if_neg hpar, ← hslotl, hleft.offset]; rfl⟩

/-- The entry for a wait. -/
theorem slot_of_wait (h : LongSubmits args more k num real deps maps submit) {e : ℕ}
    (hmem : (phase, .wait e) ∈ longRequests more k v) :
    ∃ j p len : ℕ, (deps (real v)).getRanks[j]? = some ⟨p, len⟩ ∧
      longSlot k v e = (deps (real v)).offsetCommon j + phase.eid len := by
  have hthree := h.plan.three
  rcases wait_of_mem (by omega) hmem with ⟨rfl, hpos, ⟨rfl, hmore, rfl⟩ | ⟨rfl, hv⟩⟩ |
    ⟨hv, rfl, rfl | rfl⟩
  · have hentry := h.plan.entry_more hmore
    exact ⟨0, _, 1, hentry.get, by rw [longSlot_last hpos, hentry.offset]; rfl⟩
  · obtain ⟨len, hentry⟩ := h.plan.entry_parent hv hpos
    exact ⟨_, _, len, hentry.get, by rw [hentry.offset]; rfl⟩
  · obtain ⟨⟨len, off, hentry, hslot⟩, -⟩ := h.plan.entry_ring hv
    exact ⟨_, _, len, hentry.get, by rw [← hslot, hentry.offset]; rfl⟩
  · obtain ⟨-, len, off, hentry, hslot⟩ := h.plan.entry_ring hv
    exact ⟨_, _, len, hentry.get, by rw [← hslot, hentry.offset]; rfl⟩

/-- The puts of an event in a slot. -/
theorem putPhases_eq (h : LongSubmits args more k num real deps maps submit) {e : ℕ}
    (hv : v < scatterRanks more k) (hw : w < scatterRanks more k) :
    putPhases submit (real v) (real w) (longSlot k w e) =
      ((longRequests more k v).filter fun x => x.2.raises w e).map Prod.fst := by
  rw [putPhases, h.submits v hv, Option.getD_some]
  exact Placement.filter_raises (P := longPlacement args k num real) h.numbering hw
    (fun _ heq => longSlot_inj heq) fun _ _ _ _ _ hmem => (h.slot_of_put hmem).1

/-- In other slots there are none. -/
theorem putPhases_nil (h : LongSubmits args more k num real deps maps submit)
    (hv : v < scatterRanks more k) (hw : w < scatterRanks more k) (hs : ∀ e, longSlot k w e ≠ s) :
    putPhases submit (real v) (real w) s = [] := by
  rw [putPhases, h.submits v hv, Option.getD_some, List.map_eq_nil_iff, List.filter_eq_nil_iff]
  intro y hy hr
  obtain ⟨⟨ph, x⟩, hx, rfl⟩ := List.mem_map.mp hy
  have hpeer (w' : ℕ) (ev : Option ℕ) (src dst : List ℕ) (heq : x = .put w' ev src dst) :
      w' < scatterRanks more k := by
    subst heq
    exact (h.slot_of_put hx).1
  obtain ⟨e, he, -⟩ := (Placement.raises_task (P := longPlacement args k num real) (v := v)
    h.numbering hw hpeer).mp hr
  exact hs e he

theorem waitPhases_eq (h : LongSubmits args more k num real deps maps submit) {e : ℕ}
    (hw : w < scatterRanks more k) : waitPhases submit (real w) (longSlot k w e) =
      ((longRequests more k w).filter fun x => x.2.awaits e).map Prod.fst := by
  rw [waitPhases, h.submits w hw, Option.getD_some]
  exact Placement.filter_awaits (P := longPlacement args k num real) fun _ heq => longSlot_inj heq

theorem waitPhases_nil (h : LongSubmits args more k num real deps maps submit)
    (hw : w < scatterRanks more k) (hs : ∀ e, longSlot k w e ≠ s) :
    waitPhases submit (real w) s = [] := by
  rw [waitPhases, h.submits w hw, Option.getD_some, List.map_eq_nil_iff, List.filter_eq_nil_iff]
  intro y hy hr
  obtain ⟨⟨ph, x⟩, hx, rfl⟩ := List.mem_map.mp hy
  obtain ⟨e, he, -⟩ := (Placement.awaits_task (P := longPlacement args k num real)).mp hr
  exact hs e he

/-- Every byte of the buffer is in a block. -/
theorem exists_block {i : ℕ} (hk : 0 < k) (hi : i < args.count * args.dtExtent) :
    ∃ b < k, ((.recv, (i : ℤ)) : Addr) ∈ longBlock args k b := by
  have hmem (b : ℕ) (h₁ : b * (args.count / k) * args.dtExtent ≤ i)
      (h₂ : i < b * (args.count / k) * args.dtExtent + longCount args k b * args.dtExtent) :
      ((.recv, (i : ℤ)) : Addr) ∈ longBlock args k b :=
    mem_bytes.mpr ⟨rfl, Int.ofNat_le.mpr h₁, by dsimp only; exact_mod_cast h₂⟩
  have hcount := Nat.div_add_mod args.count k
  by_cases hlast : i < (k - 1) * (args.count / k * args.dtExtent)
  · -- a block of the quotient
    have hpos : 0 < args.count / k * args.dtExtent := by
      by_contra hzero
      rw [Nat.eq_zero_of_not_pos hzero, Nat.mul_zero] at hlast
      exact Nat.not_lt_zero i hlast
    have hb : i / (args.count / k * args.dtExtent) < k - 1 := Nat.div_lt_of_lt_mul (by
      rwa [Nat.mul_comm])
    refine ⟨i / (args.count / k * args.dtExtent), by omega, hmem _ ?_ ?_⟩
    · rw [Nat.mul_assoc]
      exact Nat.div_mul_le_self ..
    · rw [longCount, if_pos hb, Nat.mul_assoc]
      exact Nat.lt_div_mul_add hpos
  · refine ⟨k - 1, by omega, hmem _ ?_ ?_⟩
    · rw [Nat.mul_assoc]
      exact not_lt.mp hlast
    · rw [longCount, if_neg (lt_irrefl _), ← Nat.add_mul, ← Nat.add_assoc,
        show (k - 1) * (args.count / k) + args.count / k = k * (args.count / k) by
          rw [← Nat.succ_mul]; congr 1; omega, hcount]
      exact hi

/-- What is held in the end. -/
theorem mem_holds_stamped (h : LongSubmits args more k num real deps maps submit) {b : ℕ}
    {F : Fabric ℕ Unit} (hfin : F.Finished (scatterRanks more k) (tasks (stamped more k)))
    (hv : v < scatterRanks more k) (hb : b < k) :
    b ∈ holds (scatterRanks more k) (tasks (stamped more k)) scatterOwn F.done v := by
  have hthree := h.plan.three
  by_cases hvk : v < k
  · exact h.prelude.mem_holds hthree le_scatterRanks
      (fun v hv _ => start_scatter (by omega) hv) hfin hvk hb rfl
  · -- the rank that rank 0 serves first
    obtain ⟨hmore, rfl⟩ := LongPlan.eq_of_not_lt hv hvk
    have hmem : .put v (some 0) (List.range v) (List.range v) ∈ tasks (stamped more v) 0 := by
      rw [stamped, ← map_snd_longRequests, longRequests, List.map_append]
      refine List.mem_append_left _ ?_
      rw [List.map_map]
      refine List.mem_map.mpr ⟨_, ?_, rfl⟩
      rw [scatterWith, if_pos (by omega), if_pos ⟨hmore, rfl⟩]
      exact List.mem_cons_self
    exact mem_holds_of_finished hfin (LongPlan.lt_ranks (by omega)) hmem (List.mem_range.mpr hb)

theorem held (h : LongSubmits args more k num real deps maps submit) :
    SendsHeld (scatterRanks more k) (longStreams submit) m₀ (longOwn args) := by
  have hthree := h.plan.three
  have hheld : SendsHeld _ _ m₀ _ := Placement.sendsHeld h.fits h.separated
    (h.prelude.sendsHeld hthree le_scatterRanks
      (fun v _ t q ev srcs dst hmem b hb => src_scatter (by omega) hmem hb)
      fun v hv _ => start_scatter (by omega) hv)
  refine (hheld.mono fun p hp c hc => ?_).congr fun p hp => (h.streams_eq hp).symm
  obtain ⟨b, hzero, -⟩ := hc
  change p = args.root
  have hnum : num p = 0 := hzero
  rw [← h.root, ← hnum, h.real_num hp]

/-- A run of the streams is a run of the scatter and the ring. -/
theorem exists_numbered (h : LongSubmits args more k num real deps maps submit)
    {F : Fabric Addr β} (hF : F.Reachable (scatterRanks more k) (longStreams submit) m₀) :
    ∃ F₁ : Fabric ℕ Unit,
      F₁.Reachable (scatterRanks more k) (tasks (stamped more k)) (fun _ _ => ()) ∧
        (longPlacement args k num real).Sim (scatterRanks more k) 3 F F₁ :=
  Placement.exists_reachable h.fits h.separated (hF.congr fun _ hp => h.streams_eq hp)

theorem finished_numbered (h : LongSubmits args more k num real deps maps submit)
    {F : Fabric Addr β} (hfin : F.Finished (scatterRanks more k) (longStreams submit))
    {F₁ : Fabric ℕ Unit}
    (hsim : (longPlacement args k num real).Sim (scatterRanks more k) 3 F F₁) :
    F₁.Finished (scatterRanks more k) (tasks (stamped more k)) :=
  (hsim.finished h.numbering).mp (hfin.congr fun _ hp => h.streams_eq hp)

/-- No request moves anything to another place. -/
theorem src_eq_dst (h : LongSubmits args more k num real deps maps submit) {p q : ℕ}
    (hp : p < scatterRanks more k) {ev : Option ℕ} {src dst : List Addr}
    (hmem : .put q ev src dst ∈ longStreams submit p) : src = dst := by
  rw [longStreams, h.submit_eq hp, Option.getD_some, List.map_map] at hmem
  obtain ⟨⟨ph, x⟩, hx, heq⟩ := List.mem_map.mp hmem
  cases x with
  | wait e => cases heq
  | put w ev₀ srcs dsts =>
    have hsame : srcs = dsts := by
      rw [longRequests, List.mem_append] at hx
      rcases hx with hx | hx
      · obtain ⟨y, hy, hyeq⟩ := List.mem_map.mp hx
        obtain ⟨-, rfl⟩ := Prod.mk.inj hyeq
        obtain ⟨-, -, ⟨-, -, -, rfl, rfl⟩ | ⟨-, b, -, rfl, rfl⟩⟩ :=
          put_of_mem_scatterWith hy <;> rfl
      · rw [rollingBy] at hx
        split_ifs at hx
        · obtain ⟨t, -, hx⟩ := List.mem_flatMap.mp hx
          simp only [rollLabeled, rollPut, rollWait, if_true] at hx
          split_ifs at hx <;> simp at hx <;> rw [hx.2.2.2.1, hx.2.2.2.2]
        · exact absurd hx List.not_mem_nil
    subst hsame
    simp only [Function.comp_apply, Prod.map, Placement.task, StreamTask.put.injEq] at heq
    rw [← heq.2.2.1, ← heq.2.2.2]
    rfl

theorem equal (h : LongSubmits args more k num real deps maps submit) {F : Fabric Addr β}
    (hF : F.Reachable (scatterRanks more k) (longStreams submit) m₀)
    (hfin : F.Finished (scatterRanks more k) (longStreams submit)) {p i : ℕ}
    (hp : p < scatterRanks more k) (hi : i < args.count * args.dtExtent) :
    F.mem p (.recv, (i : ℤ)) = m₀ args.root (.recv, (i : ℤ)) := by
  have hthree := h.plan.three
  obtain ⟨F₁, hF₁, hsim⟩ := h.exists_numbered hF
  obtain ⟨b, hb, hcell⟩ := exists_block (by omega : 0 < k) hi
  have hheld := h.mem_holds_stamped (h.finished_numbered hfin hsim) (h.numbering.num_lt p hp) hb
  have hmem := Placement.mem_holds h.numbering hsim hp hheld hcell
  refine goal_of_mem_holds (y := fun _ => m₀ args.root) h.held (fun q _ c hc => ?_)
    (fun q hq w ev src dst hput => by rw [h.src_eq_dst hq hput]) hF p hp _ ?_
  · rw [show q = args.root from hc]
  · rw [holds_congr fun q hq => h.streams_eq hq]
    refine hmem.imp_left fun hown => ?_
    obtain ⟨b, hzero, -⟩ := hown
    have hnum : num p = 0 := hzero
    change p = args.root
    rw [← h.root, ← hnum, h.real_num hp]

/-- No event is raised again before its owner has waited for it. -/
theorem noOverrun (h : LongSubmits args more k num real deps maps submit) :
    NoOverrun (scatterRanks more k) (longStreams submit) m₀ :=
  (Placement.noOverrun h.fits (fun _ _ _ _ _ _ heq => longSlot_inj heq)
    (h.prelude.noOverrun h.plan.three le_scatterRanks answered_full)).congr fun _ hp =>
      (h.streams_eq hp).symm

theorem delivers (h : LongSubmits args more k num real deps maps submit)
    (hdt : args.dtExtent = args.dtSize) (m₀ : ℕ → Addr → β) :
    LongDelivers args (scatterRanks more k) deps submit m₀ where
  allotted p hp q hq := by
    have := h.plan.events_eq (h.numbering.num_lt q hq) (h.numbering.num_lt p hp)
    rwa [h.real_num hp, h.real_num hq] at this
  submits p hp := by rw [h.submit_eq hp]; rfl
  put_slots p hp reqs hreqs phase q ev src dst hmem := by
    rw [h.submit_eq hp, Option.some.injEq] at hreqs
    subst hreqs
    obtain ⟨⟨ph, x⟩, hx, heq⟩ := List.mem_map.mp hmem
    obtain ⟨rfl, hxput⟩ := Prod.mk.inj heq
    cases x with
    | wait e => cases hxput
    | put w ev₀ srcs dsts =>
      obtain ⟨hw, hring, hslot⟩ := h.slot_of_put hx
      rw [Placement.task, StreamTask.put.injEq] at hxput
      obtain ⟨rfl, rfl, -⟩ := hxput
      refine ⟨h.numbering.rank_lt w hw, fun hr => by rw [Option.isSome_map]; exact hring hr,
        fun e he => ?_⟩
      obtain ⟨e₀, he₀, rfl⟩ := Option.map_eq_some_iff.mp he
      obtain ⟨j, len, hget, heq⟩ := hslot e₀ he₀
      rw [h.real_num hp] at hget
      exact ⟨j, len, hget, heq⟩
  wait_slots q hq reqs hreqs phase e hmem := by
    rw [h.submit_eq hq, Option.some.injEq] at hreqs
    subst hreqs
    obtain ⟨⟨ph, x⟩, hx, heq⟩ := List.mem_map.mp hmem
    obtain ⟨rfl, hxwait⟩ := Prod.mk.inj heq
    cases x with
    | put w ev₀ srcs dsts => cases hxwait
    | wait e₀ =>
      rw [Placement.task, StreamTask.wait.injEq] at hxwait
      subst hxwait
      obtain ⟨j, p, len, hget, hslot⟩ := h.slot_of_wait hx
      rw [h.real_num hq] at hget hslot
      exact ⟨j, p, len, hget, hslot⟩
  matched q hq s := by
    have hw := h.numbering.num_lt q hq
    have hq' := h.real_num hq
    by_cases hs : ∃ e, longSlot k (num q) e = s
    · obtain ⟨e, rfl⟩ := hs
      have hsend := rollSender_lt (e := e) h.prelude h.plan.three le_scatterRanks hw
      refine ⟨real (rollSender k (scatterSrc k) (num q) e), h.numbering.rank_lt _ hsend,
        fun p hp hne => ?_, ?_⟩
      · have := h.putPhases_eq (e := e) (h.numbering.num_lt p hp) hw
        rw [h.real_num hp, hq'] at this
        rw [this]
        exact puts_longRequests_nil fun heq => hne (heq ▸ (h.real_num hp).symm)
      · have hput := h.putPhases_eq (e := e) hsend hw
        have hwait := h.waitPhases_eq (e := e) hw
        rw [hq'] at hput hwait
        rw [hput, hwait]
        exact phases_eq h.plan.three hw
    · have hs' : ∀ e, longSlot k (num q) e ≠ s := fun e he => hs ⟨e, he⟩
      have hput (p : ℕ) (hp : p < scatterRanks more k) : putPhases submit p q s = [] := by
        have := h.putPhases_nil (h.numbering.num_lt p hp) hw hs'
        rwa [h.real_num hp, hq'] at this
      have hwait := h.waitPhases_nil hw hs'
      rw [hq'] at hwait
      exact ⟨q, hq, fun p hp _ => hput p hp, by rw [hput q hq, hwait]⟩
  ordered F hF q e := hF.consumed_le_raised
  drained F hF hfin q hq s := by
    obtain ⟨F₁, hF₁, hsim⟩ := h.exists_numbered hF
    have hfin₁ := h.finished_numbered hfin hsim
    have hpend := hsim.pending_eq _ (h.numbering.num_lt q hq) s
    rw [show (longPlacement args k num real).rank (num q) = q from h.real_num hq] at hpend
    rw [hpend]
    exact Finset.sum_eq_zero fun e _ =>
      h.paired.pending_eq_zero hF₁ hfin₁ (h.numbering.num_lt q hq)
  live F hF hunfinished := by
    have hcongr (p : ℕ) (hp : p < scatterRanks more k) := h.streams_eq hp
    obtain ⟨p, hp, hstep⟩ := Placement.exists_enabled h.fits h.separated
      (fun F₁ hF₁ hun => h.paired.exists_enabled hF₁ hun) (hF.congr hcongr)
      fun hfin => hunfinished (hfin.congr fun p hp => (hcongr p hp).symm)
    exact ⟨p, hp, by rwa [Fabric.step_congr hcongr]⟩
  held := h.held
  equal F hF hfin p hp j hj i hi := h.equal hF hfin hp
    (calc j * args.dtExtent + i < (j + 1) * args.dtExtent := by
            rw [Nat.succ_mul]
            exact Nat.add_lt_add_left (hdt ▸ hi) _
      _ ≤ args.count * args.dtExtent := Nat.mul_le_mul_right _ hj)

end LongSubmits

end Kucg.Stars
