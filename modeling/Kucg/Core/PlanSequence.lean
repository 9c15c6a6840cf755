import Kucg.Core.PlanContents
import Kucg.Lib.Ranking
import Kucg.Lib.Segments

/-! The order of the plans that a container stores at a message size.

    At every message size a container keeps a ranked sequence of plans: the first-class plan, then
    its fallbacks (`seqAt`). An insertion joins the new plan into the sequences of its range
    (`plansAddOne_seqAt`) and a merge joins sequence with sequence; splitting and compaction leave
    all sequences alone. As for the bags, the sequence is first computed as what every stored plan
    has to say (`shares`). A compacted list is the maximal segmentation of its sequences, so the
    sequences determine it (`view_eq_of_seqAt`). -/

namespace Kucg.Core

open Lib Lib.Ranking

variable {P V : Type}

/-- What plans are ranked by. -/
abbrev Key.score (k : Key P V) : ℕ := k.2.2

/-- A first-class plan and its fallbacks, in order. -/
def Plan.seq (p : Plan P V) : List (Key P V) := p.attr.key :: p.fallback.map Attr.key

/-- The sequence found at message size `n`. -/
def seqAt (head : List (Plan P V)) (n : ℕ) : List (Key P V) :=
  match plansFind n head with
  | none => []
  | some plan => plan.seq

/-- What one stored plan has to say at `n`. -/
def Plan.share (p : Plan P V) (n : ℕ) : List (Key P V) := if p.range.Has n then p.seq else []

/-- What all stored plans have to say at `n`. -/
def shares (head : List (Plan P V)) (n : ℕ) : List (Key P V) := head.flatMap (·.share n)

@[simp] theorem shares_nil (n : ℕ) : shares ([] : List (Plan P V)) n = [] := rfl

@[simp] theorem shares_cons (p : Plan P V) (head : List (Plan P V)) (n : ℕ) :
    shares (p :: head) n = p.share n ++ shares head n := rfl

theorem share_pos {p : Plan P V} {n : ℕ} (h : p.range.Has n) : p.share n = p.seq := if_pos h

theorem share_neg {p : Plan P V} {n : ℕ} (h : ¬p.range.Has n) : p.share n = [] := if_neg h

theorem shares_before {head : List (Plan P V)} {n : ℕ} (h : ∀ p ∈ head, n < p.range.start) :
    shares head n = [] := by
  refine List.flatMap_eq_nil_iff.mpr fun p hp => share_neg fun hh => ?_
  have := h p hp
  exact absurd hh.1 (by omega)

/-- In an ordered list at most one plan has something to say, and the lookup finds it. -/
theorem seqAt_eq_shares (n : ℕ) : ∀ {head : List (Plan P V)}, HeadOk head →
    seqAt head n = shares head n
  | [], _ => rfl
  | p :: head, hok => by
    obtain ⟨hv, hb, hrest⟩ := headOk_cons.mp hok
    have hne := hv.nonempty
    rw [seqAt, plansFind]
    by_cases hlt : n < p.range.start
    · rw [if_pos hlt, shares_before]
      intro q hq
      rcases List.mem_cons.mp hq with rfl | hq
      · exact hlt
      · exact hlt.trans (hne.trans_le (hb q hq))
    · rw [if_neg hlt]
      by_cases hin : p.range.Has n
      · have hrest : shares head n = [] := shares_before fun q hq => hin.2.trans_le (hb q hq)
        rw [if_pos hin, shares_cons, hrest, List.append_nil, share_pos hin]
      · rw [if_neg hin, shares_cons, share_neg hin]
        exact seqAt_eq_shares n hrest

theorem keys_eq_seq (p : Plan P V) : p.keys = p.seq := rfl

theorem contentsAt_eq_seqAt (head : List (Plan P V)) (n : ℕ) :
    contentsAt head n = seqAt head n := by
  rw [contentsAt, seqAt]
  cases plansFind n head with
  | none => rfl
  | some plan => rfl

theorem Plan.Valid.ranked {p : Plan P V} (h : p.Valid) : Ranked Key.score p.seq := by
  have hs := h.sorted
  rw [Plan.scores] at hs
  have hmap : p.seq.map Key.score = p.attr.score :: p.fallback.map (·.score) := by
    simp [Plan.seq, Attr.key, Function.comp_def]
  rw [← hmap, List.pairwise_map] at hs
  exact hs

theorem plansFind_mem {n : ℕ} {p : Plan P V} : ∀ {head : List (Plan P V)},
    plansFind n head = some p → p ∈ head ∧ p.range.Has n
  | [], h => absurd h (by simp [plansFind])
  | q :: head, h => by
    rw [plansFind] at h
    split_ifs at h with hlt hin
    · obtain rfl := Option.some.inj h
      exact ⟨List.mem_cons_self, hin⟩
    · obtain ⟨hmem, hhas⟩ := plansFind_mem h
      exact ⟨List.mem_cons_of_mem q hmem, hhas⟩

theorem plansFind_eq_some {n : ℕ} {p : Plan P V} : ∀ {head : List (Plan P V)}, HeadOk head →
    p ∈ head → p.range.Has n → plansFind n head = some p
  | q :: head, hok, hp, hn => by
    obtain ⟨hv, hb, hrest⟩ := headOk_cons.mp hok
    have hne := hv.nonempty
    rw [plansFind]
    rcases List.mem_cons.mp hp with rfl | hp
    · rw [if_neg (by have := hn.1; omega), if_pos hn]
    · have hbefore : q.range.stop ≤ p.range.start := hb p hp
      have hstart := hn.1
      have hq : ¬q.range.Has n := fun hh => by
        have := hh.2
        omega
      rw [if_neg (by omega), if_neg hq]
      exact plansFind_eq_some hrest hp hn

/-- The stored sequences are ranked. -/
theorem ranked_seqAt {head : List (Plan P V)} (hok : HeadOk head) (n : ℕ) :
    Ranked Key.score (seqAt head n) := by
  rw [seqAt]
  cases h : plansFind n head with
  | none => exact .nil
  | some plan => exact (hok.valid plan (plansFind_mem h).1).ranked

/-! ### Plans on their own -/

/-- Changing all attributes of a plan alike keeps its sequence when it keeps the keys. -/
theorem seq_map (f : Attr P V → Attr P V) (hf : ∀ a, (f a).key = a.key) (p : Plan P V) :
    Plan.seq ⟨f p.attr, p.fallback.map f⟩ = p.seq := by
  have hcomp : Attr.key ∘ f = Attr.key := funext hf
  simp only [Plan.seq, hf, List.map_map, hcomp]

@[simp] theorem planDup_seq (p : Plan P V) : (planDup p).seq = p.seq :=
  seq_map planApplyAttr (fun _ => rfl) p

@[simp] theorem planDup_share (p : Plan P V) (n : ℕ) : (planDup p).share n = p.share n := by
  rw [Plan.share, planDup_seq, planDup_range]
  rfl

@[simp] theorem planSplit_fst_seq (p : Plan P V) (middle : ℕ) :
    (planSplit p middle).1.seq = p.seq :=
  seq_map (·.withStop middle) (fun _ => rfl) p

@[simp] theorem planSplit_snd_seq (p : Plan P V) (middle : ℕ) :
    (planSplit p middle).2.seq = p.seq :=
  (seq_map (·.withStart middle) (fun _ => rfl) (planDup p)).trans (planDup_seq p)

/-- Adjacent plans with the same sequence say what their union does. -/
theorem share_adjacent (r : Plan P V) (middle : ℕ) {p q : Plan P V}
    (hp : p.range = ⟨r.range.start, middle⟩) (hq : q.range = ⟨middle, r.range.stop⟩)
    (h1 : r.range.start ≤ middle) (h2 : middle ≤ r.range.stop) (hps : p.seq = r.seq)
    (hqs : q.seq = r.seq) (n : ℕ) : p.share n ++ q.share n = r.share n := by
  simp only [Plan.share, hp, hq, hps, hqs, Range.Has]
  by_cases hlt : n < middle
  · rw [if_neg (show ¬(middle ≤ n ∧ n < r.range.stop) by omega), List.append_nil]
    exact if_congr (by omega) rfl rfl
  · rw [if_neg (show ¬(r.range.start ≤ n ∧ n < middle) by omega), List.nil_append]
    exact if_congr (by omega) rfl rfl

theorem planSplit_share {p : Plan P V} {middle : ℕ} (h1 : p.range.start < middle)
    (h2 : middle < p.range.stop) (n : ℕ) :
    (planSplit p middle).1.share n ++ (planSplit p middle).2.share n = p.share n :=
  share_adjacent p middle (planSplit_fst_range p middle) (planSplit_snd_range p middle) h1.le h2.le
    (planSplit_fst_seq p middle) (planSplit_snd_seq p middle) n

theorem map_key_insertFallback (fb : Attr P V) : ∀ fbs : List (Attr P V),
    (insertFallback fb fbs).map Attr.key = insertRanked Key.score fb.key (fbs.map Attr.key)
  | [] => rfl
  | e :: fbs => by
    have hscore : fb.score > e.score ↔ e.key.score < fb.key.score := Iff.rfl
    rw [insertFallback, List.map_cons, insertRanked]
    split_ifs with h₁ h₂ h₂
    · rfl
    · exact absurd (hscore.mp h₁) h₂
    · exact absurd (hscore.mpr h₂) h₁
    · rw [List.map_cons, map_key_insertFallback fb fbs]

theorem map_key_insertFallbacks : ∀ news fbs : List (Attr P V),
    (news.foldl (fun fbs fb => insertFallback fb fbs) fbs).map Attr.key =
      insertAll Key.score (news.map Attr.key) (fbs.map Attr.key)
  | [], _ => rfl
  | fb :: news, fbs => by
    rw [List.foldl_cons, map_key_insertFallbacks news, map_key_insertFallback]
    rfl

/-- Demotion is the join of the sequences under the winner. -/
theorem planAddFallback_seq (plan planFb : Plan P V) : (planAddFallback plan planFb).seq =
    joinUnder Key.score plan.attr.key (plan.fallback.map Attr.key) planFb.attr.key
      (planFb.fallback.map Attr.key) := by
  rw [Plan.seq, planAddFallback, map_key_insertFallback, map_key_insertFallbacks]
  rfl

/-! ### The two loops of an insertion, and compaction -/

theorem normaliseLoop_shares (head : List (Plan P V)) (newPlan : Plan P V) (n : ℕ) :
    shares (normaliseLoop head newPlan).1 n = shares head n ∧
      shares (normaliseLoop head newPlan).2 n = newPlan.share n := by
  induction head, newPlan using normaliseLoop.induct with
  | case1 newPlan =>
    rw [normaliseLoop_behind (by simp)]
    exact ⟨rfl, by simp⟩
  | case2 newPlan exist rest hstop =>
    rw [normaliseLoop, if_pos hstop]
    exact ⟨rfl, by simp⟩
  | case3 newPlan exist rest hstop pos he exist' rest' pos' hn ih =>
    obtain ⟨h1, h2, -⟩ := needSplit_inside he
    obtain ⟨h1', h2', -⟩ := needSplit_inside hn
    simp only [normaliseLoop_cons exist rest newPlan hstop, he, exist', hn]
    simp only [exist', rest', shares_cons] at ih
    refine ⟨?_, ?_⟩
    · rw [ih.1, ← List.append_assoc, planSplit_share h1 h2, shares_cons]
    · rw [shares_cons, ih.2, planSplit_share h1' h2']
  | case4 newPlan exist rest hstop pos he exist' rest' hn ih =>
    obtain ⟨h1, h2, -⟩ := needSplit_inside he
    simp only [normaliseLoop_cons exist rest newPlan hstop, he, exist', hn]
    simp only [exist', rest', shares_cons] at ih
    refine ⟨?_, ih.2⟩
    rw [ih.1, ← List.append_assoc, planSplit_share h1 h2, shares_cons]
  | case5 newPlan exist rest hstop he pos' hn ih =>
    obtain ⟨h1', h2', -⟩ := needSplit_inside hn
    simp only [normaliseLoop_cons exist rest newPlan hstop, he, hn]
    refine ⟨ih.1, ?_⟩
    rw [shares_cons, ih.2, planSplit_share h1' h2']
  | case6 newPlan exist rest hstop he hn ih =>
    simp only [normaliseLoop_cons exist rest newPlan hstop, he, hn]
    refine ⟨?_, ih.2⟩
    rw [shares_cons, ih.1, shares_cons]

theorem shares_eq_nil_of_before {p : Plan P V} {head : List (Plan P V)} {n : ℕ}
    (h : ∀ q ∈ head, Before p q) (hn : p.range.Has n) : shares head n = [] :=
  shares_before fun q hq => hn.2.trans_le (h q hq)

/-- A plan in front of everything that is left to join. -/
theorem share_append_join {p : Plan P V} {head newHead : List (Plan P V)} {n : ℕ}
    (hb : ∀ q ∈ head, Before p q) (hb' : ∀ q ∈ newHead, Before p q) :
    p.share n ++ join Key.score (shares head n) (shares newHead n) =
        join Key.score (p.share n ++ shares head n) (shares newHead n) ∧
      p.share n ++ join Key.score (shares head n) (shares newHead n) =
        join Key.score (shares head n) (p.share n ++ shares newHead n) := by
  by_cases hn : p.range.Has n
  · rw [shares_eq_nil_of_before hb hn, shares_eq_nil_of_before hb' hn]
    simp only [List.append_nil, join_nil, nil_join, and_self]
  · rw [share_neg hn]
    exact ⟨rfl, rfl⟩

/-- Two plans on one range are joined, whichever wins. -/
theorem share_winner {exist newPlan : Plan P V} (hr : exist.range = newPlan.range) (n : ℕ) :
    (if newPlan.attr.score > exist.attr.score then planAddFallback newPlan exist
      else planAddFallback exist newPlan).share n =
      join Key.score (exist.share n) (newPlan.share n) := by
  by_cases hn : exist.range.Has n
  · have hn' : newPlan.range.Has n := hr ▸ hn
    rw [share_pos hn, share_pos hn', Plan.seq, Plan.seq, join]
    split_ifs with h₁ h₂ h₂
    · rw [share_pos (show (planAddFallback newPlan exist).range.Has n from hn'),
        planAddFallback_seq]
    · exact absurd h₁ h₂
    · exact absurd h₂ h₁
    · rw [share_pos (show (planAddFallback exist newPlan).range.Has n from hn), planAddFallback_seq]
  · have hn' : ¬newPlan.range.Has n := hr ▸ hn
    rw [share_neg hn, share_neg hn']
    split_ifs
    · exact share_neg hn'
    · exact share_neg hn

theorem addLoop_shares (n : ℕ) (head newHead : List (Plan P V)) (hok : HeadOk head)
    (hnew : HeadOk newHead) (hal : ∀ p ∈ head, ∀ q ∈ newHead, Aligned p q) :
    shares (addLoop head newHead) n = join Key.score (shares head n) (shares newHead n) := by
  -- two plans on one range, in front of all others
  have hpair {exist newPlan : Plan P V} {rest news : List (Plan P V)}
      (hr : exist.range = newPlan.range) (hb : ∀ q ∈ rest, Before exist q)
      (hb' : ∀ q ∈ news, Before newPlan q) :
      join Key.score (exist.share n) (newPlan.share n) ++
          join Key.score (shares rest n) (shares news n) =
        join Key.score (exist.share n ++ shares rest n) (newPlan.share n ++ shares news n) := by
    by_cases hn : exist.range.Has n
    · rw [shares_eq_nil_of_before hb hn, shares_eq_nil_of_before hb' (hr ▸ hn)]
      simp only [join_nil, List.append_nil]
    · rw [share_neg hn, share_neg (hr ▸ hn)]
      rfl
  induction head, newHead using addLoop.induct with
  | case1 news => rw [addLoop, shares_nil, nil_join]
  | case2 exist rest => rw [addLoop, shares_nil, join_nil]
  | case3 exist rest newPlan news hstart hscore ih =>
    obtain ⟨hv, hb, hrest⟩ := headOk_cons.mp hok
    obtain ⟨hv', hb', hnews⟩ := headOk_cons.mp hnew
    have hr := (hal exist (by simp) newPlan (by simp)).range_eq hv hv' hstart.symm
    have ih := ih hrest hnews fun p hp q hq => hal p (by simp [hp]) q (by simp [hq])
    have hwin := share_winner hr n
    rw [if_pos hscore] at hwin
    rw [addLoop, if_pos hstart, if_pos hscore, shares_cons, ih, hwin, hpair hr hb hb']
    rfl
  | case4 exist rest newPlan news hstart hscore ih =>
    obtain ⟨hv, hb, hrest⟩ := headOk_cons.mp hok
    obtain ⟨hv', hb', hnews⟩ := headOk_cons.mp hnew
    have hr := (hal exist (by simp) newPlan (by simp)).range_eq hv hv' hstart.symm
    have ih := ih hrest hnews fun p hp q hq => hal p (by simp [hp]) q (by simp [hq])
    have hwin := share_winner hr n
    rw [if_neg hscore] at hwin
    rw [addLoop, if_pos hstart, if_neg hscore, shares_cons, ih, hwin, hpair hr hb hb']
    rfl
  | case5 exist rest newPlan news hstart hlt ih =>
    obtain ⟨hv, hb, -⟩ := headOk_cons.mp hok
    obtain ⟨hv', hb', hnews⟩ := headOk_cons.mp hnew
    have hfront : Before newPlan exist :=
      (hal exist (by simp) newPlan (by simp)).symm.before hv' hv hlt
    have hbefore : ∀ q ∈ exist :: rest, Before newPlan q := by
      intro q hq
      rcases List.mem_cons.mp hq with rfl | hq
      · exact hfront
      · exact before_trans hv hfront (hb q hq)
    have ih := ih hok hnews fun p hp q hq => hal p hp q (by simp [hq])
    rw [addLoop, if_neg hstart, if_pos hlt, shares_cons, ih, shares_cons newPlan]
    exact (share_append_join hbefore hb').2
  | case6 exist rest newPlan news hstart hlt ih =>
    obtain ⟨hv, hb, hrest⟩ := headOk_cons.mp hok
    obtain ⟨hv', hb', -⟩ := headOk_cons.mp hnew
    have hfront : Before exist newPlan :=
      (hal exist (by simp) newPlan (by simp)).before hv hv' (by omega)
    have hbefore : ∀ q ∈ newPlan :: news, Before exist q := by
      intro q hq
      rcases List.mem_cons.mp hq with rfl | hq
      · exact hfront
      · exact before_trans hv' hfront (hb' q hq)
    have ih := ih hrest hnew fun p hp q hq => hal p (by simp [hp]) q hq
    rw [addLoop, if_neg hstart, if_neg hlt, shares_cons, ih, shares_cons exist]
    exact (share_append_join hb hbefore).1

/-- An insertion joins the new plan into the sequences of its range and changes no other. -/
theorem plansAddOne_seqAt {head : List (Plan P V)} {plan : Plan P V} (hok : HeadOk head)
    (hplan : plan.Valid) (n : ℕ) :
    seqAt (plansAddOne head plan) n = join Key.score (seqAt head n) (plan.share n) := by
  have hn := normaliseLoop_spec head plan hok hplan
  have hs := normaliseLoop_shares head plan n
  rw [seqAt_eq_shares n (plansAddOne_headOk hok hplan), seqAt_eq_shares n hok]
  unfold plansAddOne plansNormaliseOne
  rw [addLoop_shares n _ _ hn.ok hn.newOk hn.aligned, hs.1, hs.2]

section
variable [DecidableEq P] [DecidableEq V]

theorem seq_of_compactible {p1 p2 : Plan P V} (h : planIsCompactible p1 p2 = true) :
    p1.seq = p2.seq := by
  have hkey : ∀ {a b : Attr P V}, attrIsCompactible a b = true → a.key = b.key := by
    intro a b hab
    obtain ⟨hv, hp, hs, -⟩ := attrIsCompactible_iff.mp hab
    simp only [Attr.key, hv, hp, hs]
  obtain ⟨ha, hf⟩ := planIsCompactible_iff.mp h
  have hmap : p1.fallback.map Attr.key = p2.fallback.map Attr.key := by
    rw [← List.forall₂_eq_eq_eq, List.forall₂_map_left_iff, List.forall₂_map_right_iff]
    exact hf.imp fun _ _ => hkey
  rw [Plan.seq, Plan.seq, hkey ha, hmap]

/-- Valid neighbours with the same sequence can be joined. -/
theorem compactible_of_seq {p1 p2 : Plan P V} (h1 : p1.Valid) (h2 : p2.Valid)
    (hstop : p1.range.stop = p2.range.start) (hseq : p1.seq = p2.seq) :
    planIsCompactible p1 p2 = true := by
  have hattr {a b : Attr P V} (ha : a.range = p1.range) (hb : b.range = p2.range)
      (hkey : a.key = b.key) : attrIsCompactible a b = true := by
    obtain ⟨hp, hvs⟩ := Prod.mk.inj hkey
    obtain ⟨hv, hs⟩ := Prod.mk.inj hvs
    exact attrIsCompactible_iff.mpr ⟨hv, hp, hs, by rw [ha, hb, hstop]⟩
  obtain ⟨hhead, htail⟩ := List.cons.inj hseq
  refine planIsCompactible_iff.mpr ⟨hattr rfl rfl hhead, ?_⟩
  rw [← List.forall₂_eq_eq_eq, List.forall₂_map_left_iff, List.forall₂_map_right_iff] at htail
  refine (List.forall₂_iff_zip.mpr ⟨htail.length_eq, fun {a b} hab => ?_⟩)
  obtain ⟨ha, hb⟩ := List.of_mem_zip hab
  exact hattr (h1.fallbackRange a ha) (h2.fallbackRange b hb)
    ((List.forall₂_iff_zip.mp htail).2 hab)

omit [DecidableEq P] [DecidableEq V] in
theorem planCompact_seq {p1 p2 : Plan P V} (h : p1.fallback.length = p2.fallback.length) :
    (planCompact p1 p2).seq = p1.seq := by
  have hzip : ∀ {l1 l2 : List (Attr P V)}, l1.length = l2.length →
      (List.zipWith (fun a b => a.withStop b.range.stop) l1 l2).map Attr.key = l1.map Attr.key := by
    intro l1
    induction l1 with
    | nil => simp
    | cons a l1 ih =>
      intro l2 h
      cases l2 with
      | nil => exact absurd h (by simp)
      | cons b l2 =>
        simp only [List.zipWith_cons_cons, List.map_cons, ih (Nat.succ.inj h)]
        rfl
  simp only [Plan.seq, planCompact, hzip h]
  rfl

theorem planCompact_share {p1 p2 : Plan P V} (h1 : p1.Valid) (h2 : p2.Valid)
    (h : planIsCompactible p1 p2 = true) (n : ℕ) :
    p1.share n ++ p2.share n = (planCompact p1 p2).share n := by
  obtain ⟨ha, hf⟩ := planIsCompactible_iff.mp h
  have hstop : p1.range.stop = p2.range.start := (attrIsCompactible_iff.mp ha).2.2.2
  have hs := planCompact_seq hf.length_eq
  have hne := h1.nonempty
  have hne' := h2.nonempty
  refine share_adjacent (planCompact p1 p2) p1.range.stop rfl ?_ hne.le ?_ hs.symm
    ((seq_of_compactible h).symm.trans hs.symm) n
  · rw [hstop]
    rfl
  · rw [hstop]
    exact hne'.le

theorem compactFrom_shares (n : ℕ) : ∀ (l : List (Plan P V)) (plan : Plan P V),
    HeadOk (plan :: l) → shares (compactFrom plan l) n = shares (plan :: l) n
  | [], _, _ => rfl
  | next :: rest, plan, hok => by
    obtain ⟨hv, -, hrest⟩ := headOk_cons.mp hok
    obtain ⟨hv', hb', hrest'⟩ := headOk_cons.mp hrest
    unfold compactFrom
    split
    · rename_i hc
      rw [compactFrom_shares n rest (planCompact plan next)
        (headOk_cons.mpr ⟨planCompact_valid hv hv' hc, hb', hrest'⟩), shares_cons,
        ← planCompact_share hv hv' hc, shares_cons, shares_cons, List.append_assoc]
    · rw [shares_cons, compactFrom_shares n rest next hrest, shares_cons plan]

/-- Compaction leaves the sequences alone. -/
theorem plansCompactOne_seqAt {head : List (Plan P V)} (hok : HeadOk head) (n : ℕ) :
    seqAt (plansCompactOne head) n = seqAt head n := by
  rw [seqAt_eq_shares n (plansCompactOne_spec hok).1, seqAt_eq_shares n hok]
  cases head with
  | nil => rfl
  | cons plan rest => exact compactFrom_shares n rest plan hok

end

/-! ### A list is known by its sequences -/

/-- What of an attribute is compared, and its range. -/
def Attr.view (a : Attr P V) : Range × Key P V := (a.range, a.key)

/-- A plan up to the identifiers, names and domains. -/
def Plan.view (p : Plan P V) : (Range × Key P V) × List (Range × Key P V) :=
  (p.attr.view, p.fallback.map Attr.view)

/-- The range of a plan, with its sequence. -/
def Plan.segment (p : Plan P V) : Segment (List (Key P V)) := ⟨p.range.start, p.range.stop, p.seq⟩

theorem ordered_segments {head : List (Plan P V)} (hok : HeadOk head) :
    Segment.Ordered (head.map Plan.segment) where
  nonempty s hs := by
    obtain ⟨p, hp, rfl⟩ := List.mem_map.mp hs
    exact (hok.valid p hp).nonempty
  sorted := List.pairwise_map.mpr hok.sorted

theorem valueAt_segments (n : ℕ) : ∀ {head : List (Plan P V)}, HeadOk head →
    Segment.valueAt (head.map Plan.segment) n =
      if seqAt head n = [] then none else some (seqAt head n)
  | [], _ => rfl
  | p :: head, hok => by
    obtain ⟨-, hb, hrest⟩ := headOk_cons.mp hok
    have ih := valueAt_segments n hrest
    have hhas : p.segment.Has n ↔ p.range.Has n := Iff.rfl
    rw [seqAt_eq_shares n hrest] at ih
    rw [seqAt_eq_shares n hok, shares_cons, List.map_cons, Segment.valueAt]
    by_cases hn : p.range.Has n
    · rw [if_pos (hhas.mpr hn), share_pos hn, shares_eq_nil_of_before hb hn, List.append_nil,
        if_neg (show ¬p.seq = [] by simp [Plan.seq])]
      rfl
    · rw [if_neg (mt hhas.mp hn), share_neg hn, ih, List.nil_append]

theorem Plan.Valid.view_eq {p : Plan P V} (h : p.Valid) :
    p.view = ((p.range, p.attr.key), (p.fallback.map Attr.key).map (Prod.mk p.range)) := by
  rw [Plan.view, List.map_map]
  congr 1
  exact List.map_congr_left fun fb hfb => by rw [Attr.view, h.fallbackRange fb hfb]; rfl

theorem map_view_eq : ∀ {head head' : List (Plan P V)}, (∀ p ∈ head, p.Valid) →
    (∀ p ∈ head', p.Valid) → head.map Plan.segment = head'.map Plan.segment →
    head.map Plan.view = head'.map Plan.view
  | [], [], _, _, _ => rfl
  | [], _ :: _, _, _, h => absurd h (by simp)
  | _ :: _, [], _, _, h => absurd h (by simp)
  | p :: head, q :: head', hv, hv', h => by
    obtain ⟨hseg, h⟩ := List.cons.inj h
    obtain ⟨hp, hv⟩ := List.forall_mem_cons.mp hv
    obtain ⟨hq, hv'⟩ := List.forall_mem_cons.mp hv'
    rw [Plan.segment, Plan.segment, Segment.mk.injEq, Plan.seq, Plan.seq, List.cons.injEq] at hseg
    obtain ⟨hstart, hstop, hkey, hkeys⟩ := hseg
    have hrange : p.range = q.range := by
      cases hp : p.range
      cases hq : q.range
      simp_all
    rw [List.map_cons, List.map_cons, map_view_eq hv hv' h, hp.view_eq, hq.view_eq, hrange, hkey,
      hkeys]

variable [DecidableEq P] [DecidableEq V]

theorem maximal_segments {head : List (Plan P V)} (hok : HeadOk head) (hc : Compacted head) :
    Segment.Maximal (head.map Plan.segment) := by
  refine (List.isChain_map _).mpr ?_
  refine List.IsChain.imp_of_mem_imp (fun p q hp hq hcomp hjoin => ?_) hc
  rw [compactible_of_seq (hok.valid p hp) (hok.valid q hq) hjoin.1 hjoin.2] at hcomp
  exact absurd hcomp (by simp)

/-- Two compacted lists with the same sequences are equal up to identifiers, names and domains. -/
theorem view_eq_of_seqAt {head head' : List (Plan P V)} (hok : HeadOk head) (hok' : HeadOk head')
    (hc : Compacted head) (hc' : Compacted head') (h : ∀ n, seqAt head n = seqAt head' n) :
    head.map Plan.view = head'.map Plan.view := by
  refine map_view_eq hok.valid hok'.valid (Segment.eq_of_valueAt (ordered_segments hok)
    (ordered_segments hok') (maximal_segments hok hc) (maximal_segments hok' hc') fun n => ?_)
  rw [valueAt_segments n hok, valueAt_segments n hok', h]

end Kucg.Core
