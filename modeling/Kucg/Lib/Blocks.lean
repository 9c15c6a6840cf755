import Kucg.Lib.Gather

/-! Collectives that move blocks, every rank having each block at cells of its own.

    A schedule over blocks, in a numbering of the ranks, becomes a schedule over cells when every
    block is replaced by its cells (`Sched.expand`). If rounds over blocks bring every block to
    every rank (`Spreads`), the rounds over cells gather the memory that has the blocks in place
    (`Spreads.gathering`). -/

namespace Kucg.Lib

variable {ι κ β : Type}

/-! ### Stops -/

/-- Nothing but stops. -/
def Sched.Stops (cs : Sched ι β) : Prop := ∀ c ∈ cs, c = .wait ∨ c = .pause

section Stops

variable {cs : Sched ι β}

theorem Sched.Stops.sendsTo (h : cs.Stops) (r : ℕ) : cs.sendsTo r = [] := by
  refine List.filterMap_eq_nil_iff.mpr fun c hc => ?_
  obtain rfl | rfl := h c hc <;> rfl

theorem Sched.Stops.recvsFrom (h : cs.Stops) (s : ℕ) : cs.recvsFrom s = [] := by
  refine List.filterMap_eq_nil_iff.mpr fun c hc => ?_
  obtain rfl | rfl := h c hc <;> rfl

theorem Sched.Stops.gathers {y : ι → β} {Q : Set ι → List (List ι) → Prop} {has : Set ι} :
    ∀ {l : Sched ι β}, l.Stops → Q has [] → Sched.gathers y Q l has []
  | [], _, hQ => hQ
  | .wait :: cs, h, hQ | .pause :: cs, h, hQ =>
    Sched.Stops.gathers (l := cs) (fun c hc => h c (List.mem_cons_of_mem _ hc)) hQ
  | .send .. :: _, h, _ | .recv .. :: _, h, _ | .zip .. :: _, h, _ => by
    simpa using h _ (List.mem_cons_self ..)

/-- Receives that nothing is sent after, behind sends. -/
theorem batch_append {cs' : Sched ι β} (hcs' : ∀ d src, Cmd.send d src ∉ cs') :
    ∀ {l : Sched ι β}, (∀ h s dst, Cmd.recv h s dst ∉ l) → (l ++ cs').Batch
  | .recv .. :: _, h => absurd (List.mem_cons_self ..) (h _ _ _)
  | .wait :: cs, h | .pause :: cs, h | .send .. :: cs, h | .zip .. :: cs, h =>
    batch_append hcs' (l := cs) fun hd s dst hm => h hd s dst (List.mem_cons_of_mem _ hm)
  | [], _ => by
    rw [List.nil_append]
    induction cs' with
    | nil => trivial
    | cons c cs ih =>
      have hcs (d) (src) (hm : Cmd.send d src ∈ cs) := hcs' d src (List.mem_cons_of_mem _ hm)
      have hlate : Late 0 (Sched.stamp 0 cs) :=
        late_of_forall fun d src t' hm => absurd (mem_stamp.mp hm).1 (hcs d src)
      cases c with
      | recv hd s dst => exact ⟨hlate, ih hcs⟩
      | _ => exact ih hcs

/-- Messages in any order, and a wait for them. -/
theorem batch_wait : ∀ {l : Sched ι β}, (∀ c ∈ l, c ≠ .wait ∧ c ≠ .pause) →
    Sched.Batch (l ++ [.wait])
  | [], _ => trivial
  | .send .. :: cs, h | .zip .. :: cs, h =>
    batch_wait (l := cs) fun c hc => h c (List.mem_cons_of_mem _ hc)
  | .recv .. :: cs, h => by
    have hcs (c) (hc : c ∈ cs) := h c (List.mem_cons_of_mem _ hc)
    refine ⟨?_, batch_wait hcs⟩
    clear h
    induction cs with
    | nil => exact fun _ _ _ hm => absurd hm List.not_mem_nil
    | cons c cs ih =>
      rw [List.forall_mem_cons] at hcs
      cases c with
      | wait => exact absurd rfl hcs.1.1
      | pause => exact absurd rfl hcs.1.2
      | _ => exact ih hcs.2
  | .wait :: _, h => absurd rfl (h _ (List.mem_cons_self ..)).1
  | .pause :: _, h => absurd rfl (h _ (List.mem_cons_self ..)).2

theorem Sched.Stops.batch (h : cs.Stops) : cs.Batch := by
  rw [← List.append_nil cs]
  refine batch_append (fun d src => List.not_mem_nil) fun hd s dst hm => ?_
  simpa using h _ hm

end Stops

/-! ### A command that is there or not -/

section Ite

variable {p : Prop} [Decidable p] {q d s h : ℕ} {cells : List ι} {cs cs' : Sched ι β}

@[simp] theorem schedSendsTo_append :
    Sched.sendsTo q (cs ++ cs') = cs.sendsTo q ++ cs'.sendsTo q := List.filterMap_append

@[simp] theorem schedRecvsFrom_append :
    Sched.recvsFrom q (cs ++ cs') = cs.recvsFrom q ++ cs'.recvsFrom q := List.filterMap_append

@[simp] theorem sendsTo_ite_send : Sched.sendsTo q (if p then [.send d cells] else [] : Sched ι β) =
    if p ∧ d = q then [cells] else [] := by
  by_cases hp : p <;> by_cases hd : d = q <;> simp [Sched.sendsTo, Cmd.sentTo, hp, hd]

@[simp] theorem sendsTo_ite_recv :
    Sched.sendsTo q (if p then [.recv h s cells] else [] : Sched ι β) = [] := by
  split_ifs <;> rfl

@[simp] theorem sendsTo_ite_wait :
    Sched.sendsTo q (if p then [.wait] else [] : Sched ι β) = [] := by
  split_ifs <;> rfl

@[simp] theorem recvsFrom_ite_send :
    Sched.recvsFrom q (if p then [.send d cells] else [] : Sched ι β) = [] := by
  split_ifs <;> rfl

@[simp] theorem recvsFrom_ite_recv :
    Sched.recvsFrom q (if p then [.recv h s cells] else [] : Sched ι β) =
      if p ∧ s = q then [cells] else [] := by
  by_cases hp : p <;> by_cases hs : s = q <;> simp [Sched.recvsFrom, Cmd.receivedFrom, hp, hs]

@[simp] theorem recvsFrom_ite_wait :
    Sched.recvsFrom q (if p then [.wait] else [] : Sched ι β) = [] := by
  split_ifs <;> rfl

end Ite

/-! ### From blocks to cells -/

section Expand

variable (f : κ → List ι) (g : ℕ → ℕ)

/-- The command on the cells of the blocks, with the ranks that its numbers stand for. -/
def Cmd.expand : Cmd κ β → Cmd ι β
  | .send d src => .send (g d) (src.flatMap f)
  | .recv h s dst => .recv h (g s) (dst.flatMap f)
  | .zip op src dst => .zip op (src.flatMap f) (dst.flatMap f)
  | .wait => .wait
  | .pause => .pause

/-- The schedule on the cells of the blocks, with the ranks that its numbers stand for. -/
def Sched.expand (cs : Sched κ β) : Sched ι β := cs.map (Cmd.expand f g)

/-- The command moves blocks of `P` to or from one of `n` ranks, or stops. -/
def Cmd.Moves (n : ℕ) (P : Set κ) : Cmd κ β → Prop
  | .send d src => d < n ∧ ∀ b ∈ src, b ∈ P
  | .recv _ s dst => s < n ∧ ∀ b ∈ dst, b ∈ P
  | .zip .. => False
  | _ => True

variable {f g}

theorem Sched.Stops.moves {cs : Sched κ β} (h : cs.Stops) {n : ℕ} {P : Set κ} :
    ∀ c ∈ cs, c.Moves n P := by
  intro c hc
  obtain rfl | rfl := h c hc <;> trivial

@[simp] theorem expand_nil : Sched.expand f g ([] : Sched κ β) = [] := rfl

@[simp] theorem expand_cons (c : Cmd κ β) (cs : Sched κ β) :
    Sched.expand f g (c :: cs) = c.expand f g :: Sched.expand f g cs := rfl

@[simp] theorem expand_append (cs cs' : Sched κ β) :
    Sched.expand f g (cs ++ cs') = Sched.expand f g cs ++ Sched.expand f g cs' := List.map_append

theorem expand_flatMap {α : Type} (ks : List α) (h : α → Sched κ β) :
    Sched.expand f g (ks.flatMap h) = ks.flatMap fun k => (h k).expand f g := List.map_flatMap

theorem peerLt_expand {n : ℕ} {P : Set κ} {cs : Sched κ β} (hmoves : ∀ c ∈ cs, c.Moves n P)
    (hg : ∀ p < n, g p < n) : ∀ c ∈ cs.expand f g, c.PeerLt n := by
  intro c hc
  obtain ⟨c', hc', rfl⟩ := List.mem_map.mp hc
  have hmove := hmoves c' hc'
  cases c' with
  | send d src => exact hg d hmove.1
  | recv hd p dst => exact hg p hmove.1
  | _ => trivial

theorem sendsTo_expand {n r v : ℕ} {P : Set κ} {cs : Sched κ β}
    (hmoves : ∀ c ∈ cs, c.Moves n P) (hg : ∀ p < n, g p = r ↔ p = v) :
    (cs.expand f g).sendsTo r = (cs.sendsTo v).map (·.flatMap f) := by
  rw [Sched.sendsTo, Sched.expand, List.filterMap_map, Sched.sendsTo, List.map_filterMap]
  refine List.filterMap_congr fun c hc => ?_
  have hmove := hmoves c hc
  cases c with
  | send d src =>
    have hiff := hg d hmove.1
    simp only [Function.comp_apply, Cmd.expand, Cmd.sentTo, hiff]
    split_ifs <;> rfl
  | _ => rfl

theorem recvsFrom_expand {n s v : ℕ} {P : Set κ} {cs : Sched κ β}
    (hmoves : ∀ c ∈ cs, c.Moves n P) (hg : ∀ p < n, g p = s ↔ p = v) :
    (cs.expand f g).recvsFrom s = (cs.recvsFrom v).map (·.flatMap f) := by
  rw [Sched.recvsFrom, Sched.expand, List.filterMap_map, Sched.recvsFrom, List.map_filterMap]
  refine List.filterMap_congr fun c hc => ?_
  have hmove := hmoves c hc
  cases c with
  | recv hd p dst =>
    have hiff := hg p hmove.1
    simp only [Function.comp_apply, Cmd.expand, Cmd.receivedFrom, hiff]
    split_ifs <;> rfl
  | _ => rfl

/-- The blocks of a message. -/
theorem mem_of_sendsTo {n v : ℕ} {P : Set κ} {cs : Sched κ β} (hmoves : ∀ c ∈ cs, c.Moves n P)
    {src : List κ} (h : src ∈ cs.sendsTo v) : ∀ b ∈ src, b ∈ P := by
  obtain ⟨c, hc, hsent⟩ := List.mem_filterMap.mp h
  have hmove := hmoves c hc
  cases c with
  | send d src' =>
    rw [Cmd.sentTo] at hsent
    split_ifs at hsent
    exact Option.some.inj hsent ▸ hmove.2
  | _ => cases hsent

theorem late_expand {t k : ℕ} : ∀ {l : Sched κ β}, Late t (l.stamp k) →
    Late t ((l.expand f g).stamp k)
  | [], _ => trivial
  | .wait :: cs, h | .pause :: cs, h => by
    intro d src t' hm
    obtain ⟨hmem, rfl⟩ := mem_stamp.mp hm
    obtain ⟨c, hc, heq⟩ := List.mem_map.mp hmem
    cases c with
    | send d' src' => exact h d' src' t' (mem_stamp.mpr ⟨hc, rfl⟩)
    | _ => cases heq
  | .send .. :: cs, h | .recv .. :: cs, h | .zip .. :: cs, h => late_expand (l := cs) h

theorem batch_expand : ∀ {l : Sched κ β}, l.Batch → (l.expand f g).Batch
  | [], _ => trivial
  | .recv .. :: cs, h => ⟨late_expand h.1, batch_expand (l := cs) h.2⟩
  | .wait :: cs, h | .pause :: cs, h | .send .. :: cs, h | .zip .. :: cs, h =>
    batch_expand (l := cs) h

/-- The messages from one rank to another one have the same contents if they have the same
    blocks. -/
theorem matched_expand {f' : κ → List ι} {g' : ℕ → ℕ} {y y' : ι → β} {P : Set κ}
    {cs cs' : Sched κ β} {n r s v w : ℕ} (hmoves : ∀ c ∈ cs, c.Moves n P)
    (hmoves' : ∀ c ∈ cs', c.Moves n P) (hg : ∀ p < n, g p = r ↔ p = w)
    (hg' : ∀ p < n, g' p = s ↔ p = v) (hy : ∀ b ∈ P, (f b).map y = (f' b).map y')
    (h : cs.sendsTo w = cs'.recvsFrom v) : ((cs.expand f g).sendsTo r).map (·.map y) =
      ((cs'.expand f' g').recvsFrom s).map (·.map y') := by
  rw [sendsTo_expand hmoves hg, recvsFrom_expand hmoves' hg', ← h, List.map_map, List.map_map]
  refine List.map_congr_left fun src hsrc => ?_
  simp only [Function.comp_apply, List.map_flatMap]
  exact List.flatMap_congr fun b hb => hy b (mem_of_sendsTo hmoves hsrc b hb)

/-- What may be sent may be so on the cells. -/
theorem ready_expand {P has : Set κ} {has' : Set ι} {pend : List (List κ)} {src : List κ}
    (hdisj : ∀ a ∈ P, ∀ b ∈ P, a ≠ b → ∀ i ∈ f a, i ∉ f b)
    (hpend : ∀ dst ∈ pend, ∀ b ∈ dst, b ∈ P) (hsrcP : ∀ b ∈ src, b ∈ P)
    (hhas : ∀ b ∈ has, b ∈ P → ∀ i ∈ f b, i ∈ has')
    (hsrc : ∀ b ∈ src, b ∈ has ∧ ∀ dst ∈ pend, b ∉ dst) :
    ∀ i ∈ src.flatMap f, i ∈ has' ∧ ∀ dst ∈ pend.map (·.flatMap f), i ∉ dst := by
  intro i hi
  obtain ⟨b, hb, hib⟩ := List.mem_flatMap.mp hi
  refine ⟨hhas b (hsrc b hb).1 (hsrcP b hb) i hib, fun d hd hmem => ?_⟩
  obtain ⟨dst, hdst, rfl⟩ := List.mem_map.mp hd
  obtain ⟨c, hc, hic⟩ := List.mem_flatMap.mp hmem
  by_cases hbc : b = c
  · exact (hsrc b hb).2 dst hdst (hbc ▸ hc)
  · exact hdisj b (hsrcP b hb) c (hpend dst hdst c hc) hbc i hib hic

/-- A schedule that gathers the blocks of `P`, on cells of which the other ones are in place. -/
theorem gathers_expand {n : ℕ} {P : Set κ} (hdisj : ∀ a ∈ P, ∀ b ∈ P, a ≠ b → ∀ i ∈ f a, i ∉ f b)
    {x : κ → β} {y : ι → β} : ∀ {l : Sched κ β} {h : Set κ} {has' : Set ι} {d : List (List κ)},
      (∀ c ∈ l, c.Moves n P) → (∀ dst ∈ d, ∀ b ∈ dst, b ∈ P) →
      (∀ b ∈ h, b ∈ P → ∀ i ∈ f b, i ∈ has') → (∀ i, (∀ b ∈ P, i ∉ f b) → i ∈ has') →
      Sched.gathers x (fun has pend => pend = [] ∧ P ⊆ has) l h d →
      Sched.gathers y Gathered (l.expand f g) has' (d.map (·.flatMap f))
  | [], has, has', _, _, _, hhas, hrest, ⟨hpend, hP⟩ => by
    refine ⟨by rw [hpend]; rfl, fun i => ?_⟩
    by_cases hi : ∃ b ∈ P, i ∈ f b
    · obtain ⟨b, hb, hib⟩ := hi
      exact hhas b (hP hb) hb i hib
    · push Not at hi
      exact hrest i hi
  | .send d src :: cs, has, has', pend, hin, hpend, hhas, hrest, ⟨hsrc, h⟩ => by
    rw [List.forall_mem_cons] at hin
    exact ⟨ready_expand hdisj hpend hin.1.2 hhas hsrc,
      gathers_expand hdisj hin.2 hpend hhas hrest h⟩
  | .recv hd s dst :: cs, has, has', pend, hin, hpend, hhas, hrest, h => by
    rw [List.forall_mem_cons] at hin
    refine gathers_expand hdisj (h := has ∪ {b | b ∈ dst}) (d := dst :: pend) hin.2
      (List.forall_mem_cons.mpr ⟨hin.1.2, hpend⟩) (fun b hb hbP i hi => ?_)
      (fun i hi => Or.inl (hrest i hi)) h
    exact hb.imp (fun hb => hhas b hb hbP i hi) fun hb => List.mem_flatMap.mpr ⟨b, hb, hi⟩
  | .zip op src dst :: cs, _, _, _, hin, _, _, _, _ => (hin _ (List.mem_cons_self ..)).elim
  | .wait :: cs, has, has', pend, hin, hpend, hhas, hrest, h => by
    rw [List.forall_mem_cons] at hin
    exact gathers_expand hdisj (d := []) hin.2 (fun _ hd => absurd hd List.not_mem_nil) hhas
      hrest h
  | .pause :: cs, has, has', pend, hin, hpend, hhas, hrest, h => by
    rw [List.forall_mem_cons] at hin
    exact gathers_expand (l := cs) hdisj hin.2 hpend hhas hrest h

end Expand


/-! ### Rounds -/

/-- A round in which `n` ranks move blocks of `P`: what is sent is received, and no rank that waits
    has still to send in the round. -/
structure FitRound (n : ℕ) (P : Set κ) (R : ℕ → Sched κ β) : Prop where
  moves : ∀ v < n, ∀ c ∈ R v, c.Moves n P
  matched : ∀ v < n, ∀ w < n, (R v).sendsTo w = (R w).recvsFrom v
  batch : ∀ v < n, (R v).Batch

theorem FitRound.stops {n : ℕ} {P : Set κ} {R : ℕ → Sched κ β} (h : ∀ v < n, (R v).Stops) :
    FitRound n P R where
  moves v hv := (h v hv).moves
  matched v hv w hw := ((h v hv).sendsTo w).trans ((h w hw).recvsFrom v).symm
  batch v hv := (h v hv).batch

/-! ### Ranks under other numbers -/

section Renum

/-- The schedule with the ranks that its numbers stand for. -/
def Sched.renum (u : ℕ → ℕ) (cs : Sched κ β) : Sched κ β := cs.expand (fun b => [b]) u

/-- The round of ranks of which some are those of the round `R`, under the numbers of `u`; the other
    ones do nothing. -/
def embedRound (u : ℕ → ℕ) (d : ℕ → Option ℕ) (R : ℕ → Sched κ β) (v : ℕ) : Sched κ β :=
  match d v with
  | none => []
  | some k => (R k).renum u

variable {u : ℕ → ℕ} {d : ℕ → Option ℕ} {N n : ℕ} {P : Set κ} {R : ℕ → Sched κ β}

theorem expand_renum {f : κ → List ι} {g : ℕ → ℕ} (cs : Sched κ β) :
    (cs.renum u).expand f g = cs.expand f fun p => g (u p) := by
  rw [Sched.renum, Sched.expand, Sched.expand, List.map_map, Sched.expand]
  refine List.map_congr_left fun c _ => ?_
  cases c <;> simp [Cmd.expand, List.flatMap_singleton']

theorem expand_congr {f : κ → List ι} {g g' : ℕ → ℕ} {cs : Sched κ β}
    (hmoves : ∀ c ∈ cs, c.Moves N P) (hg : ∀ p < N, g p = g' p) :
    cs.expand f g = cs.expand f g' := by
  refine List.map_congr_left fun c hc => ?_
  have hmove := hmoves c hc
  cases c with
  | send p src => rw [Cmd.expand, Cmd.expand, hg p hmove.1]
  | recv h p dst => rw [Cmd.expand, Cmd.expand, hg p hmove.1]
  | _ => rfl

theorem gathers_renum {y : κ → β} {Q : Set κ → List (List κ) → Prop} : ∀ {l : Sched κ β}
    {has : Set κ} {pend : List (List κ)},
      Sched.gathers y Q (l.expand (fun b => [b]) u) has pend ↔ Sched.gathers y Q l has pend
  | [], _, _ => Iff.rfl
  | .send .. :: _, _, _ | .recv .. :: _, _, _ | .zip .. :: _, _, _ | .wait :: _, _, _
  | .pause :: _, _, _ => by
    simp only [expand_cons, Cmd.expand, List.flatMap_singleton', Sched.gathers, gathers_renum]

theorem embedRound_none {v : ℕ} (h : d v = none) : embedRound u d R v = [] := by
  rw [embedRound, h]

theorem embedRound_some {v k : ℕ} (h : d v = some k) :
    embedRound u d R v = (R k).renum u := by
  rw [embedRound, h]

/-- The embedded round fits if the round does. -/
theorem FitRound.embed (h : FitRound N P R) (hu : ∀ p < N, u p < n)
    (hd : ∀ v < n, ∀ k, d v = some k ↔ k < N ∧ u k = v) :
    FitRound n P (embedRound u d R) where
  moves v hv c hc := by
    cases hdv : d v with
    | none =>
      rw [embedRound_none hdv] at hc
      exact absurd hc List.not_mem_nil
    | some k =>
      rw [embedRound_some hdv] at hc
      obtain ⟨c', hc', rfl⟩ := List.mem_map.mp hc
      have hmove := h.moves k ((hd v hv k).mp hdv).1 c' hc'
      cases c' with
      | send p src => exact ⟨hu p hmove.1, by simpa [List.flatMap_singleton'] using hmove.2⟩
      | recv hd p dst => exact ⟨hu p hmove.1, by simpa [List.flatMap_singleton'] using hmove.2⟩
      | zip => exact hmove.elim
      | _ => trivial
  matched v hv w hw := by
    have hpeer {k q : ℕ} (hq : q < n) (hk : d q = some k) (p) (hp : p < N) : u p = q ↔ p = k := by
      constructor
      · intro heq
        exact Option.some.inj (((hd q hq p).mpr ⟨hp, heq⟩).symm.trans hk)
      · rintro rfl
        exact ((hd q hq p).mp hk).2
    -- a rank that is not in the round is nobody's peer
    have hnone {q : ℕ} (hq : q < n) (hn : d q = none) (p) (hp : p < N) : u p ≠ q := fun heq => by
      rw [(hd q hq p).mpr ⟨hp, heq⟩] at hn
      cases hn
    cases hdv : d v with
    | none =>
      rw [embedRound_none hdv]
      cases hdw : d w with
      | none => rw [embedRound_none hdw]; rfl
      | some l =>
        rw [embedRound_some hdw]
        refine (List.filterMap_eq_nil_iff.mpr fun c hc => ?_).symm
        obtain ⟨c', hc', rfl⟩ := List.mem_map.mp hc
        have hmove := h.moves l ((hd w hw l).mp hdw).1 c' hc'
        cases c' with
        | recv hd p dst => exact if_neg (hnone hv hdv p hmove.1)
        | _ => rfl
    | some k =>
      rw [embedRound_some hdv]
      cases hdw : d w with
      | none =>
        rw [embedRound_none hdw]
        refine List.filterMap_eq_nil_iff.mpr fun c hc => ?_
        obtain ⟨c', hc', rfl⟩ := List.mem_map.mp hc
        have hmove := h.moves k ((hd v hv k).mp hdv).1 c' hc'
        cases c' with
        | send p src => exact if_neg (hnone hw hdw p hmove.1)
        | _ => rfl
      | some l =>
        have hk := ((hd v hv k).mp hdv).1
        have hl := ((hd w hw l).mp hdw).1
        rw [embedRound_some hdw, Sched.renum, Sched.renum,
          sendsTo_expand (h.moves k hk) (hpeer hw hdw), recvsFrom_expand (h.moves l hl)
            (hpeer hv hdv), h.matched k hk l hl]
  batch v hv := by
    cases hdv : d v with
    | none => rw [embedRound_none hdv]; trivial
    | some k =>
      rw [embedRound_some hdv]
      exact batch_expand (h.batch k ((hd v hv k).mp hdv).1)

end Renum

/-! ### Rounds that spread blocks -/

/-- A numbering of the ranks below `n`. -/
structure Numbering (n : ℕ) (num rank : ℕ → ℕ) : Prop where
  num_lt : ∀ r < n, num r < n
  rank_lt : ∀ v < n, rank v < n
  rank_eq_iff : ∀ r < n, ∀ v < n, rank v = r ↔ v = num r

/-- Rounds that bring the blocks of `P` to all of `n` ranks, of which rank `v` has those of `own v`
    at first. The blocks stand for themselves: `x` says nothing. -/
structure Spreads (n : ℕ) (P : Set κ) (own : ℕ → Set κ) (x : κ → β)
    (rounds : List (ℕ → Sched κ β)) : Prop where
  round : ∀ R ∈ rounds, FitRound n P R
  gathers : ∀ v < n, Sched.gathers x (fun has pend => pend = [] ∧ P ⊆ has)
    (rounds.flatMap fun R => R v) (own v) []

/-- The rounds of the ranks on their cells. -/
def expandRounds (f : ℕ → κ → List ι) (num rank : ℕ → ℕ) (rounds : List (ℕ → Sched κ β)) :
    List (ℕ → Sched ι β) :=
  rounds.map fun R r => (R (num r)).expand (f r) rank

namespace Spreads

variable {n : ℕ} {P : Set κ} {own : ℕ → Set κ} {x : κ → β} {rounds : List (ℕ → Sched κ β)}
  {f : ℕ → κ → List ι} {num rank : ℕ → ℕ}

theorem flatMap_expandRounds (r : ℕ) : ((expandRounds f num rank rounds).flatMap fun R => R r) =
    Sched.expand (f r) rank (rounds.flatMap fun R => R (num r)) := by
  rw [expandRounds, List.flatMap_map, expand_flatMap]

theorem moves_all (h : Spreads n P own x rounds) {v : ℕ} (hv : v < n) :
    ∀ c ∈ rounds.flatMap fun R => R v, c.Moves n P := by
  intro c hc
  obtain ⟨R, hR, hc⟩ := List.mem_flatMap.mp hc
  exact (h.round R hR).moves v hv c hc

/-- In all rounds, what a rank sends to another one is what that one receives, block by block. -/
theorem matched_all (h : Spreads n P own x rounds) {v w : ℕ} (hv : v < n) (hw : w < n) :
    Sched.sendsTo w (rounds.flatMap fun R => R v) =
      Sched.recvsFrom v (rounds.flatMap fun R => R w) := by
  rw [sendsTo_flatMap, recvsFrom_flatMap]
  exact List.flatMap_congr fun R hR => (h.round R hR).matched v hv w hw

/-- On the cells of the ranks. -/
theorem matched_cells (h : Spreads n P own x rounds) (hnum : Numbering n num rank) {s r : ℕ}
    (hs : s < n) (hr : r < n) : ∃ msgs : List (List κ), (∀ blocks ∈ msgs, ∀ b ∈ blocks, b ∈ P) ∧
      Sched.sendsTo r ((expandRounds f num rank rounds).flatMap fun R => R s) =
        msgs.map (·.flatMap (f s)) ∧
      Sched.recvsFrom s ((expandRounds f num rank rounds).flatMap fun R => R r) =
        msgs.map (·.flatMap (f r)) := by
  have hmoves := h.moves_all (hnum.num_lt s hs)
  refine ⟨Sched.sendsTo (num r) (rounds.flatMap fun R => R (num s)),
    fun blocks => mem_of_sendsTo hmoves, ?_, ?_⟩
  · rw [flatMap_expandRounds, sendsTo_expand hmoves (hnum.rank_eq_iff r hr)]
  · rw [flatMap_expandRounds, recvsFrom_expand (h.moves_all (hnum.num_lt r hr))
      (hnum.rank_eq_iff s hs), h.matched_all (hnum.num_lt s hs) (hnum.num_lt r hr)]

/-- The rounds over cells, after a copy at every rank, lead from `m₀` to `y`, if `y` has the same
    blocks at all ranks, and the copy puts in place what a rank is to have at first and what is
    outside the blocks. -/
theorem gathering_copy (h : Spreads n P own x rounds) (hnum : Numbering n num rank)
    {m₀ y : ℕ → ι → β} {copy : ℕ → Sched ι β} (hzips : ∀ r < n, (copy r).Zips)
    (hdisj : ∀ r < n, ∀ a ∈ P, ∀ b ∈ P, a ≠ b → ∀ i ∈ f r a, i ∉ f r b)
    (hvals : ∀ s < n, ∀ r < n, ∀ b ∈ P, (f s b).map (y s) = (f r b).map (y r))
    (hcopy : ∀ r < n, Sched.gathers (y r) (fun has pend => pend = [] ∧
      (∀ b ∈ own (num r), b ∈ P → ∀ i ∈ f r b, i ∈ has) ∧ ∀ i, (∀ b ∈ P, i ∉ f r b) → i ∈ has)
      (copy r) {i | y r i = m₀ r i} []) :
    Gathering n m₀ y (copy :: expandRounds f num rank rounds) where
  peers := by
    refine List.forall_mem_cons.mpr ⟨fun r hr => (hzips r hr).peerLt n, ?_⟩
    rintro R' hR' r hr
    obtain ⟨R, hR, rfl⟩ := List.mem_map.mp hR'
    exact peerLt_expand ((h.round R hR).moves _ (hnum.num_lt r hr)) hnum.rank_lt
  matched := by
    refine List.forall_mem_cons.mpr ⟨fun s hs r hr => ?_, ?_⟩
    · rw [(hzips s hs).sendsTo, (hzips r hr).recvsFrom]
      rfl
    · rintro R' hR' s hs r hr
      obtain ⟨R, hR, rfl⟩ := List.mem_map.mp hR'
      exact matched_expand ((h.round R hR).moves _ (hnum.num_lt s hs))
        ((h.round R hR).moves _ (hnum.num_lt r hr))
        (hnum.rank_eq_iff r hr) (hnum.rank_eq_iff s hs) (hvals s hs r hr)
        ((h.round R hR).matched _ (hnum.num_lt s hs) _ (hnum.num_lt r hr))
  batch := by
    refine List.forall_mem_cons.mpr ⟨fun r hr => (hzips r hr).batch, ?_⟩
    rintro R' hR' r hr
    obtain ⟨R, hR, rfl⟩ := List.mem_map.mp hR'
    exact batch_expand ((h.round R hR).batch _ (hnum.num_lt r hr))
  gathers := by
    intro r hr
    rw [List.flatMap_cons, flatMap_expandRounds, gathers_append]
    refine gathers_imp ?_ (hcopy r hr)
    rintro has pend ⟨rfl, hown, hrest⟩
    exact gathers_expand (d := []) (hdisj r hr) (h.moves_all (hnum.num_lt r hr))
      (fun _ hd => absurd hd List.not_mem_nil) hown hrest (h.gathers _ (hnum.num_lt r hr))

/-- The rounds over cells lead from `m₀` to `y`, if `y` has the same blocks at all ranks, and is
    `m₀` at the blocks that a rank has at first and outside the blocks. -/
theorem gathering (h : Spreads n P own x rounds) (hnum : Numbering n num rank)
    {m₀ y : ℕ → ι → β}
    (hdisj : ∀ r < n, ∀ a ∈ P, ∀ b ∈ P, a ≠ b → ∀ i ∈ f r a, i ∉ f r b)
    (hvals : ∀ s < n, ∀ r < n, ∀ b ∈ P, (f s b).map (y s) = (f r b).map (y r))
    (hown : ∀ r < n, ∀ b ∈ own (num r), b ∈ P → ∀ i ∈ f r b, y r i = m₀ r i)
    (hrest : ∀ r < n, ∀ i, (∀ b ∈ P, i ∉ f r b) → y r i = m₀ r i) :
    Gathering n m₀ y (expandRounds f num rank rounds) := by
  have hall := h.gathering_copy hnum (fun _ _ => .nil) hdisj hvals
    fun r hr => ⟨rfl, hown r hr, hrest r hr⟩
  exact ⟨fun R hR => hall.peers R (List.mem_cons_of_mem _ hR),
    fun R hR => hall.matched R (List.mem_cons_of_mem _ hR),
    fun R hR => hall.batch R (List.mem_cons_of_mem _ hR), hall.gathers⟩

end Spreads

end Kucg.Lib
