import Kucg.Lib.Blocks
import Kucg.Lib.OneSided

/-! One-sided programs over numbered ranks, named events and blocks, run on the ranks of a group,
    their event slots and their memory.

    A placement says which rank has which number, in which slot of a rank a named event is, and
    which cells a block has. Every run of the placed program is a run of the program that is placed
    (`exists_reachable`), so that what cannot happen there cannot happen here. Several events may
    share a slot, provided that a rank that waits on one of them has no notification of the others
    pending. -/

namespace Kucg.Lib

open Finset

variable {κ ι β : Type}

/-- Where the numbered ranks, their events and their blocks are. -/
structure Placement (κ ι : Type) where
  num : ℕ → ℕ
  rank : ℕ → ℕ
  slot : ℕ → ℕ → ℕ
  cells : ℕ → κ → List ι

namespace Placement

variable (P : Placement κ ι)

/-- A task of the rank with number `v`. -/
def task (v : ℕ) : StreamTask κ → StreamTask ι
  | .put w ev src dst =>
    .put (P.rank w) (ev.map (P.slot w)) (src.flatMap (P.cells v)) (dst.flatMap (P.cells w))
  | .wait e => .wait (P.slot v e)

/-- The program of a rank. -/
def place (prog : ℕ → List (StreamTask κ)) (p : ℕ) : List (StreamTask ι) :=
  (prog (P.num p)).map (P.task (P.num p))

/-- The placement numbers the ranks of a group, and the program has `M` events. -/
structure Fits (n M : ℕ) (prog : ℕ → List (StreamTask κ)) : Prop where
  numbering : Numbering n P.num P.rank
  peer_lt : ∀ v < n, ∀ w ev src dst, .put w ev src dst ∈ prog v → w < n
  raised_lt : ∀ v < n, ∀ w e src dst, .put w (some e) src dst ∈ prog v → e < M
  awaited_lt : ∀ v < n, ∀ e, .wait e ∈ prog v → e < M

/-- The states correspond. -/
structure Sim (n M : ℕ) (F' : Fabric ι β) (F : Fabric κ Unit) : Prop where
  done_eq : ∀ p < n, F'.done p = F.done (P.num p)
  pending_eq : ∀ v < n, ∀ s,
    F'.pending (P.rank v) s = ∑ e ∈ range M with P.slot v e = s, F.pending v e

variable {P} {n M : ℕ} {prog : ℕ → List (StreamTask κ)}

theorem num_rank (h : Numbering n P.num P.rank) {v : ℕ} (hv : v < n) : P.num (P.rank v) = v :=
  ((h.rank_eq_iff _ (h.rank_lt v hv) v hv).mp rfl).symm

theorem rank_num (h : Numbering n P.num P.rank) {p : ℕ} (hp : p < n) : P.rank (P.num p) = p :=
  (h.rank_eq_iff p hp _ (h.num_lt p hp)).mpr rfl

theorem rank_inj (h : Numbering n P.num P.rank) {v w : ℕ} (hv : v < n) (hw : w < n) :
    P.rank v = P.rank w ↔ v = w :=
  ⟨fun heq => by rw [← num_rank h hv, heq, num_rank h hw], congrArg _⟩

theorem num_inj (h : Numbering n P.num P.rank) {p q : ℕ} (hp : p < n) (hq : q < n) :
    P.num p = P.num q ↔ p = q :=
  ⟨fun heq => by rw [← rank_num h hp, heq, rank_num h hq], congrArg _⟩

theorem getElem?_place {p i : ℕ} :
    (P.place prog p)[i]? = (prog (P.num p))[i]?.map (P.task (P.num p)) := by
  rw [place, List.getElem?_map]

theorem sum_raise {f g : ℕ → ℕ} {v w s : ℕ} {ev : Option ℕ} (hM : ∀ e, ev = some e → e < M)
    (hg : ∀ e, g e = if v = w ∧ ev = some e then f e + 1 else f e) :
    ∑ e ∈ range M with P.slot v e = s, g e =
      (∑ e ∈ range M with P.slot v e = s, f e) +
        if v = w ∧ ev.map (P.slot w) = some s then 1 else 0 := by
  have hone (e : ℕ) : g e = f e + if v = w ∧ ev = some e then 1 else 0 := by
    rw [hg]
    split_ifs <;> rfl
  simp only [hone, sum_add_distrib]
  congr 1
  cases ev with
  | none => simp
  | some e₀ =>
    by_cases h : v = w ∧ P.slot w e₀ = s
    · obtain ⟨rfl, rfl⟩ := h
      have he₀ : e₀ ∈ {e ∈ range M | P.slot v e = P.slot v e₀} :=
        mem_filter.mpr ⟨mem_range.mpr (hM e₀ rfl), rfl⟩
      rw [sum_eq_single_of_mem e₀ he₀ fun e _ hne =>
        if_neg fun h : v = v ∧ some e₀ = some e => hne (Option.some.inj h.2).symm]
      simp
    · rw [if_neg (by simpa using h)]
      refine sum_eq_zero fun e he => if_neg ?_
      rintro ⟨rfl, heq⟩
      obtain rfl := Option.some.inj heq
      exact h ⟨rfl, (mem_filter.mp he).2⟩

theorem sum_consume {f g : ℕ → ℕ} {v w s e₀ : ℕ} (hM : e₀ < M) (hpos : 0 < f e₀)
    (hg : ∀ e, g e = if v = w ∧ e = e₀ then f e - 1 else f e) :
    ∑ e ∈ range M with P.slot v e = s, g e =
      (∑ e ∈ range M with P.slot v e = s, f e) - if v = w ∧ s = P.slot w e₀ then 1 else 0 := by
  have hev : ∀ e, some e₀ = some e → e < M := fun e he => Option.some.inj he ▸ hM
  have hraise := sum_raise (P := P) (f := g) (g := f) (v := v) (w := w) (s := s) hev (fun e => by
      rw [hg]
      by_cases h : v = w ∧ e = e₀
      · obtain ⟨rfl, rfl⟩ := h
        rw [if_pos ⟨rfl, rfl⟩, if_pos ⟨rfl, rfl⟩]
        omega
      · rw [if_neg h, if_neg fun h' : v = w ∧ some e₀ = some e =>
          h ⟨h'.1, (Option.some.inj h'.2).symm⟩])
  have hiff : (v = w ∧ (some e₀).map (P.slot w) = some s) ↔ (v = w ∧ s = P.slot w e₀) :=
    and_congr_right fun _ => by rw [Option.map_some, Option.some.injEq, eq_comm]
  rw [hraise, if_congr hiff rfl rfl, Nat.add_sub_cancel]

variable {F' : Fabric ι β}

theorem Sim.finished {F : Fabric κ Unit} (h : P.Sim n M F' F) (hnum : Numbering n P.num P.rank) :
    F'.Finished n (P.place prog) ↔ F.Finished n prog := by
  constructor
  · intro hfin v hv
    have := hfin _ (hnum.rank_lt v hv)
    rwa [h.done_eq _ (hnum.rank_lt v hv), place, List.length_map, num_rank hnum hv] at this
  · intro hfin p hp
    rw [h.done_eq p hp, place, List.length_map]
    exact hfin _ (hnum.num_lt p hp)

/-- An event alone in its slot. -/
theorem Sim.pending_slot {F : Fabric κ Unit} (h : P.Sim n M F' F) {v e : ℕ} (hv : v < n)
    (he : e < M) (hinj : ∀ e < M, ∀ e' < M, P.slot v e = P.slot v e' → e = e') :
    F'.pending (P.rank v) (P.slot v e) = F.pending v e := by
  have hmem : e ∈ {e' ∈ range M | P.slot v e' = P.slot v e} :=
    mem_filter.mpr ⟨mem_range.mpr he, rfl⟩
  rw [h.pending_eq v hv, sum_eq_single_of_mem e hmem]
  intro e' he' hne
  have := mem_filter.mp he'
  exact absurd (hinj e' (mem_range.mp this.1) e he this.2) hne

/-- Tasks that raise the event in a slot, and tasks that wait for it. -/
theorem raises_task (hnum : Numbering n P.num P.rank) {v w s : ℕ} (hw : w < n) {x : StreamTask κ}
    (hx : ∀ w' ev src dst, x = .put w' ev src dst → w' < n) :
    (P.task v x).raises (P.rank w) s = true ↔ ∃ e, P.slot w e = s ∧ x.raises w e = true := by
  cases x with
  | wait e => simp [task]
  | put w' ev src dst =>
    simp only [task, StreamTask.raises_put, Option.map_eq_some_iff]
    rw [rank_inj hnum (hx w' ev src dst rfl) hw]
    constructor
    · rintro ⟨rfl, e, rfl, hs⟩
      exact ⟨e, hs, rfl, rfl⟩
    · rintro ⟨e, hs, rfl, rfl⟩
      exact ⟨rfl, e, rfl, hs⟩

theorem awaits_task {v s : ℕ} {x : StreamTask κ} :
    (P.task v x).awaits s = true ↔ ∃ e, P.slot v e = s ∧ x.awaits e = true := by
  cases x with
  | put w ev src dst => simp [task]
  | wait e => simp [task]

/-- With labels: the tasks of one event. -/
theorem filter_raises {α : Type} (hnum : Numbering n P.num P.rank) {v w e : ℕ} (hw : w < n)
    (hinj : ∀ e', P.slot w e' = P.slot w e → e' = e) {l : List (α × StreamTask κ)}
    (hl : ∀ a w' ev src dst, (a, .put w' ev src dst) ∈ l → w' < n) :
    ((l.map (Prod.map id (P.task v))).filter fun x =>
      x.2.raises (P.rank w) (P.slot w e)).map Prod.fst =
      (l.filter fun x => x.2.raises w e).map Prod.fst := by
  rw [List.filter_map, List.map_map]
  congr 1
  refine List.filter_congr fun y hy => Bool.eq_iff_iff.mpr ?_
  refine (raises_task hnum hw fun w' ev src dst heq => hl y.1 w' ev src dst (heq ▸ hy)).trans
    ⟨?_, fun hr => ⟨e, rfl, hr⟩⟩
  rintro ⟨e', hs, hr⟩
  exact hinj e' hs ▸ hr

theorem filter_awaits {α : Type} {v e : ℕ} (hinj : ∀ e', P.slot v e' = P.slot v e → e' = e)
    {l : List (α × StreamTask κ)} :
    ((l.map (Prod.map id (P.task v))).filter fun x => x.2.awaits (P.slot v e)).map Prod.fst =
      (l.filter fun x => x.2.awaits e).map Prod.fst := by
  rw [List.filter_map, List.map_map]
  congr 1
  refine List.filter_congr fun y _ => Bool.eq_iff_iff.mpr
    (awaits_task.trans ⟨?_, fun hr => ⟨e, rfl, hr⟩⟩)
  rintro ⟨e', hs, hr⟩
  exact hinj e' hs ▸ hr

/-- The cells of the blocks that a rank has at first. -/
def ownCells (P : Placement κ ι) (own : ℕ → Set κ) (p : ℕ) : Set ι :=
  {i | ∃ b ∈ own (P.num p), i ∈ P.cells (P.num p) b}

theorem mem_holds {own : ℕ → Set κ} {F : Fabric κ Unit} (hnum : Numbering n P.num P.rank)
    (hsim : P.Sim n M F' F) {p : ℕ} (hp : p < n) {b : κ}
    (hb : b ∈ holds n prog own F.done (P.num p)) {i : ι} (hi : i ∈ P.cells (P.num p) b) :
    i ∈ holds n (P.place prog) (P.ownCells own) F'.done p := by
  rcases hb with hb | ⟨v, hv, j, hj, ev, src, dst, hput, hmem⟩
  · exact Or.inl ⟨b, hb, hi⟩
  · refine Or.inr ⟨P.rank v, hnum.rank_lt v hv, j, ?_, ev.map (P.slot (P.num p)),
      src.flatMap (P.cells v), dst.flatMap (P.cells (P.num p)), ?_,
      List.mem_flatMap.mpr ⟨b, hmem, hi⟩⟩
    · rwa [hsim.done_eq _ (hnum.rank_lt v hv), num_rank hnum hv]
    · rw [getElem?_place, num_rank hnum hv, hput, Option.map_some, task, rank_num hnum hp]

/-- Stamped programs: there are no puts and waits for further events. -/
theorem Fits.of_paired {σ : ℕ → List (ℕ × StreamTask κ)} {sender : ℕ → ℕ → ℕ}
    (hnum : Numbering n P.num P.rank) (h : Paired n σ sender)
    (hputs : ∀ v < n, ∀ w e, M ≤ e → putsOf σ v w e = [])
    (hwaits : ∀ v < n, ∀ e, M ≤ e → waitsOf σ v e = []) : P.Fits n M (tasks σ) where
  numbering := hnum
  peer_lt v hv w ev src dst hmem := by
    obtain ⟨⟨t, x⟩, hx, rfl⟩ := List.mem_map.mp hmem
    exact h.peer_lt v hv t w ev src dst hx
  raised_lt v hv w e src dst hmem := by
    by_contra he
    obtain ⟨⟨t, x⟩, hx, rfl⟩ := List.mem_map.mp hmem
    have hput : t ∈ putsOf σ v w e := List.mem_map_of_mem (f := Prod.fst)
      (List.mem_filter.mpr ⟨hx, StreamTask.raises_put.mpr ⟨rfl, rfl⟩⟩)
    rw [hputs v hv w e (not_lt.mp he)] at hput
    exact List.not_mem_nil hput
  awaited_lt v hv e hmem := by
    by_contra he
    obtain ⟨⟨t, x⟩, hx, rfl⟩ := List.mem_map.mp hmem
    have hwait : t ∈ waitsOf σ v e := List.mem_map_of_mem (f := Prod.fst)
      (List.mem_filter.mpr ⟨hx, StreamTask.awaits_wait.mpr rfl⟩)
    rw [hwaits v hv e (not_lt.mp he)] at hwait
    exact List.not_mem_nil hwait

variable [DecidableEq κ]

/-- Whoever waits for an event has no notification of another event of its slot pending. -/
def Separated (P : Placement κ ι) (n M : ℕ) (prog : ℕ → List (StreamTask κ)) : Prop :=
  ∀ F : Fabric κ Unit, F.Reachable n prog (fun _ _ => ()) → ∀ v < n, ∀ e,
    (prog v)[F.done v]? = some (.wait e) → ∀ e' < M, e' ≠ e → P.slot v e' = P.slot v e →
      F.pending v e' = 0

/-- A slot for every event. -/
theorem separated_of_inj (h : ∀ v < n, ∀ e < M, ∀ e' < M, P.slot v e = P.slot v e' → e = e')
    (hfits : P.Fits n M prog) : P.Separated n M prog := by
  intro F _ v hv e hnext e' he' hne hslot
  have he := hfits.awaited_lt v hv e (List.mem_of_getElem? hnext)
  exact absurd (h v hv e' he' e he hslot) hne

variable [DecidableEq ι] {m₀ : ℕ → ι → β}

/-- A run of the placed program is a run of the program. -/
theorem exists_reachable (h : P.Fits n M prog) (hsep : P.Separated n M prog)
    (hF : F'.Reachable n (P.place prog) m₀) :
    ∃ F : Fabric κ Unit, F.Reachable n prog (fun _ _ => ()) ∧ P.Sim n M F' F := by
  have hnum := h.numbering
  induction hF with
  | init =>
    exact ⟨_, .init, fun _ _ => rfl, fun _ _ _ => (sum_eq_zero fun _ _ => rfl).symm⟩
  | @step F₁' F₂' p _ hs ih =>
    obtain ⟨F₁, hF₁, hsim⟩ := ih
    obtain ⟨hp, hcases⟩ := Fabric.step_cases hs
    have hv := hnum.num_lt p hp
    rw [hsim.done_eq p hp, getElem?_place] at hcases
    have hdone (d' : ℕ → ℕ) (hd' : d' = bump F₁'.done p) (q : ℕ) (hq : q < n) :
        d' q = bump F₁.done (P.num p) (P.num q) := by
      rw [hd']
      rcases eq_or_ne q p with rfl | hne
      · rw [bump_self, bump_self, hsim.done_eq q hp]
      · rw [bump_of_ne hne, bump_of_ne fun heq => hne ((num_inj hnum hq hp).mp heq),
          hsim.done_eq q hq]
    rcases hcases with ⟨q, ev, src, dst, ht, hd, hpend, -⟩ | ⟨s, ht, hpos, hd, hpend, -⟩
    · obtain ⟨t, hv₁, heq⟩ := Option.map_eq_some_iff.mp ht
      cases t with
      | wait e => cases heq
      | put w ev₀ src₀ dst₀ =>
        cases heq
        have hmem := List.mem_of_getElem? hv₁
        have hw := h.peer_lt _ hv _ _ _ _ hmem
        refine ⟨_, hF₁.step (r := P.num p) (by rw [Fabric.step, if_pos hv, hv₁]; rfl),
          hdone _ hd, fun v' hv' s => ?_⟩
        rw [hpend, hsim.pending_eq v' hv', sum_raise
          (fun e he => h.raised_lt _ hv w e src₀ dst₀ (he ▸ hmem)) fun e => rfl]
        simp only [rank_inj hnum hv' hw]
        split_ifs <;> rfl
    · obtain ⟨t, hv₁, heq⟩ := Option.map_eq_some_iff.mp ht
      cases t with
      | put w ev₀ src₀ dst₀ => cases heq
      | wait e =>
        cases heq
        have he := h.awaited_lt _ hv e (List.mem_of_getElem? hv₁)
        -- No other event of the slot is pending.
        have hpos₁ : 0 < F₁.pending (P.num p) e := by
          have hsum := hsim.pending_eq _ hv (P.slot (P.num p) e)
          have hmem : e ∈ {e' ∈ range M | P.slot (P.num p) e' = P.slot (P.num p) e} :=
            mem_filter.mpr ⟨mem_range.mpr he, rfl⟩
          rw [rank_num hnum hp, sum_eq_single_of_mem e hmem fun e' he' hne =>
            hsep F₁ hF₁ _ hv e hv₁ e' (mem_range.mp (mem_filter.mp he').1) hne
              (mem_filter.mp he').2] at hsum
          exact hsum ▸ hpos
        refine ⟨_, hF₁.step (r := P.num p) (by
            rw [Fabric.step, if_pos hv, hv₁, Option.bind_some, Fabric.exec, if_pos hpos₁]),
          hdone _ hd, fun v' hv' s => ?_⟩
        have hrank : P.rank v' = p ↔ v' = P.num p := hnum.rank_eq_iff p hp v' hv'
        rw [hpend, hsim.pending_eq v' hv']
        simp only [hrank]
        by_cases hv'p : v' = P.num p
        · subst hv'p
          rw [sum_consume he hpos₁ fun e' => rfl]
          split_ifs <;> rfl
        · rw [if_neg fun hh => hv'p hh.1]
          exact sum_congr rfl fun e' _ => (if_neg fun hh => hv'p hh.1).symm

/-- If some rank can go on in the program, so it can in the placed one. -/
theorem exists_enabled (h : P.Fits n M prog) (hsep : P.Separated n M prog)
    (hlive : ∀ F : Fabric κ Unit, F.Reachable n prog (fun _ _ => ()) → ¬F.Finished n prog →
      ∃ v < n, (F.step n prog v).isSome) (hF : F'.Reachable n (P.place prog) m₀)
    (hunfinished : ¬F'.Finished n (P.place prog)) :
    ∃ p < n, (F'.step n (P.place prog) p).isSome := by
  have hnum := h.numbering
  obtain ⟨F, hF₁, hsim⟩ := exists_reachable h hsep hF
  obtain ⟨v, hv, hstep⟩ := hlive F hF₁ fun hfin => hunfinished ((hsim.finished hnum).mpr hfin)
  obtain ⟨F₁, hstep⟩ := Option.isSome_iff_exists.mp hstep
  refine ⟨P.rank v, hnum.rank_lt v hv, ?_⟩
  rw [Fabric.step, if_pos (hnum.rank_lt v hv), getElem?_place, hsim.done_eq _ (hnum.rank_lt v hv),
    num_rank hnum hv]
  obtain ⟨-, ⟨w, ev, src, dst, ht, -⟩ | ⟨e, ht, hpos, -⟩⟩ := Fabric.step_cases hstep
  · rw [ht]
    rfl
  · have hmem : e ∈ {e' ∈ range M | P.slot v e' = P.slot v e} := mem_filter.mpr
      ⟨mem_range.mpr (h.awaited_lt v hv e (List.mem_of_getElem? ht)), rfl⟩
    have hpos' : 0 < F'.pending (P.rank v) (P.slot v e) := by
      rw [hsim.pending_eq v hv]
      exact hpos.trans_le (single_le_sum (f := F.pending v) (fun _ _ => Nat.zero_le _) hmem)
    rw [ht, Option.map_some, Option.bind_some, task, Fabric.exec, if_pos hpos']
    rfl

theorem noOverrun (h : P.Fits n M prog)
    (hinj : ∀ v < n, ∀ e < M, ∀ e' < M, P.slot v e = P.slot v e' → e = e')
    (hsafe : NoOverrun n prog (fun _ _ => ())) : NoOverrun n (P.place prog) m₀ := by
  intro F' hF p hp q s src dst hnext
  have hnum := h.numbering
  have hv := hnum.num_lt p hp
  obtain ⟨F, hF₁, hsim⟩ := exists_reachable h (separated_of_inj hinj h) hF
  rw [getElem?_place, hsim.done_eq p hp] at hnext
  obtain ⟨t, hnext₁, heq⟩ := Option.map_eq_some_iff.mp hnext
  cases t with
  | wait e => cases heq
  | put w ev src₀ dst₀ =>
    rw [task, StreamTask.put.injEq] at heq
    obtain ⟨rfl, hev, -⟩ := heq
    obtain ⟨e, rfl, rfl⟩ := Option.map_eq_some_iff.mp hev
    have hmem := List.mem_of_getElem? hnext₁
    have hw := h.peer_lt _ hv _ _ _ _ hmem
    rw [hsim.pending_slot hw (h.raised_lt _ hv _ _ _ _ hmem) (hinj w hw)]
    exact hsafe F hF₁ _ hv w e src₀ dst₀ hnext₁

theorem sendsHeld {own : ℕ → Set κ} (h : P.Fits n M prog) (hsep : P.Separated n M prog)
    (hheld : SendsHeld n prog (fun _ _ => ()) own) :
    SendsHeld n (P.place prog) m₀ (P.ownCells own) := by
  intro F' hF p hp q ev src dst hnext i hi
  have hnum := h.numbering
  obtain ⟨F, hF₁, hsim⟩ := exists_reachable h hsep hF
  rw [getElem?_place, hsim.done_eq p hp] at hnext
  obtain ⟨t, hnext₁, heq⟩ := Option.map_eq_some_iff.mp hnext
  cases t with
  | wait e => cases heq
  | put w ev₀ src₀ dst₀ =>
    rw [task, StreamTask.put.injEq] at heq
    obtain ⟨-, -, rfl, -⟩ := heq
    obtain ⟨b, hb, hib⟩ := List.mem_flatMap.mp hi
    exact mem_holds hnum hsim hp
      (hheld F hF₁ _ (hnum.num_lt p hp) w ev₀ src₀ dst₀ hnext₁ b hb) hib

end Placement

end Kucg.Lib
