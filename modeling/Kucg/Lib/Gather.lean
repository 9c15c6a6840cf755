import Kucg.Lib.Live

/-! Collectives that move data and do not combine it.

    Every rank `r` has a memory `y r` that it is to end with. A schedule gathers it when all that it
    sends or copies is in place already, and everything is in place at its end (`Sched.gathers`). If
    each rank's schedule does, and the schedules are made of rounds in which what is sent is what is
    received (`Gathering`), then every rank that finishes has the memory that it is to end with
    (`Gathering.finished`), cells that are right at first are right all the time
    (`Gathering.keeps`), and every run can be completed (`Gathering.live`). -/

namespace Kucg.Lib

variable {ι β σ : Type}

/-! ### Schedules that gather a memory -/

/-- The cells of a message to `r`. -/
def Cmd.sentTo (r : ℕ) : Cmd ι β → Option (List ι)
  | .send d src => if d = r then some src else none
  | _ => none

/-- The cells of a message from `s`. -/
def Cmd.receivedFrom (s : ℕ) : Cmd ι β → Option (List ι)
  | .recv _ p dst => if p = s then some dst else none
  | _ => none

/-- The cells of the messages to `r`. -/
def Sched.sendsTo (r : ℕ) (cs : Sched ι β) : List (List ι) := cs.filterMap (Cmd.sentTo r)

/-- The cells of the messages from `s`. -/
def Sched.recvsFrom (s : ℕ) (cs : Sched ι β) : List (List ι) := cs.filterMap (Cmd.receivedFrom s)

theorem sendsTo_posts (r : ℕ) (cs : Sched ι β) : Sched.sendsTo r cs.posts = cs.sendsTo r := by
  rw [Sched.sendsTo, Sched.posts, List.filterMap_filter, Sched.sendsTo]
  congr 1
  funext c
  cases c <;> rfl

theorem recvsFrom_posts (s : ℕ) (cs : Sched ι β) :
    Sched.recvsFrom s cs.posts = cs.recvsFrom s := by
  rw [Sched.recvsFrom, Sched.posts, List.filterMap_filter, Sched.recvsFrom]
  congr 1
  funext c
  cases c <;> rfl

theorem sendsTo_flatMap {κ : Type} (r : ℕ) (ks : List κ) (f : κ → Sched ι β) :
    Sched.sendsTo r (ks.flatMap f) = ks.flatMap fun k => (f k).sendsTo r := List.filterMap_flatMap

theorem recvsFrom_flatMap {κ : Type} (s : ℕ) (ks : List κ) (f : κ → Sched ι β) :
    Sched.recvsFrom s (ks.flatMap f) = ks.flatMap fun k => (f k).recvsFrom s :=
  List.filterMap_flatMap

/-- From a state in which the cells of `has` are as in `y`, or will be once the receives of `pend`
    are over, the schedule sends and copies only what is as in `y`, and ends with `Q`. -/
def Sched.gathers (y : ι → β) (Q : Set ι → List (List ι) → Prop) :
    Sched ι β → Set ι → List (List ι) → Prop
  | [], has, pend => Q has pend
  | .send _ src :: cs, has, pend =>
    (∀ i ∈ src, i ∈ has ∧ ∀ dst ∈ pend, i ∉ dst) ∧ Sched.gathers y Q cs has pend
  | .recv _ _ dst :: cs, has, pend => Sched.gathers y Q cs (has ∪ {i | i ∈ dst}) (dst :: pend)
  | .zip f src dst :: cs, has, pend => (∀ a b, f a b = a) ∧ src.map y = dst.map y ∧
    (∀ i ∈ src, i ∈ has ∧ ∀ dst ∈ pend, i ∉ dst) ∧
    Sched.gathers y Q cs (has ∪ {i | i ∈ dst}) pend
  | .wait :: cs, has, _ => Sched.gathers y Q cs has []
  | .pause :: cs, has, pend => Sched.gathers y Q cs has pend

section Gathers

variable {y : ι → β} {Q Q' : Set ι → List (List ι) → Prop}

@[simp] theorem gathers_append {cs' : Sched ι β} : ∀ {cs : Sched ι β} {has : Set ι}
    {pend : List (List ι)}, Sched.gathers y Q (cs ++ cs') has pend ↔
      Sched.gathers y (fun has pend => Sched.gathers y Q cs' has pend) cs has pend
  | [], _, _ => Iff.rfl
  | .send .. :: _, _, _ | .recv .. :: _, _, _ | .zip .. :: _, _, _ | .wait :: _, _, _
  | .pause :: _, _, _ => by simp only [List.cons_append, Sched.gathers, gathers_append]

theorem gathers_imp (hQ : ∀ has pend, Q has pend → Q' has pend) : ∀ {l : Sched ι β} {has : Set ι}
    {pend : List (List ι)}, Sched.gathers y Q l has pend → Sched.gathers y Q' l has pend
  | [], _, _, h => hQ _ _ h
  | .send .. :: _, _, _, ⟨hsrc, h⟩ => ⟨hsrc, gathers_imp hQ h⟩
  | .recv .. :: cs, _, _, h => gathers_imp hQ (l := cs) h
  | .zip .. :: _, _, _, ⟨hf, hvals, hsrc, h⟩ => ⟨hf, hvals, hsrc, gathers_imp hQ h⟩
  | .wait :: cs, _, _, h => gathers_imp hQ (l := cs) h
  | .pause :: cs, _, _, h => gathers_imp hQ (l := cs) h

/-- Rounds one after another, the cells `H k` being in place before the `k`-th. -/
theorem gathers_rounds {H : ℕ → Set ι} {round : ℕ → Sched ι β} (K : ℕ)
    (hround : ∀ k < K, ∀ has, H k ⊆ has →
      Sched.gathers y (fun has' pend => pend = [] ∧ H (k + 1) ⊆ has') (round k) has [])
    {has : Set ι} (h₀ : H 0 ⊆ has) : Sched.gathers y (fun has' pend => pend = [] ∧ H K ⊆ has')
      ((List.range K).flatMap round) has [] := by
  induction K with
  | zero => exact ⟨rfl, h₀⟩
  | succ K ih =>
    rw [List.range_succ, List.flatMap_append, gathers_append]
    refine gathers_imp ?_ (ih fun k hk => hround k (by omega))
    rintro has' pend ⟨rfl, hH⟩
    rw [List.flatMap_singleton]
    exact hround K (by omega) has' hH

end Gathers

/-! ### Memory that is right -/

section Memory

variable [DecidableEq ι] {y : ι → β}

/-- Writing the right values puts the written cells right. -/
theorem writeCells_map {i : ι} : ∀ {cs : List ι} {m : ι → β},
    i ∈ cs ∨ m i = y i → writeCells cs (cs.map y) m i = y i
  | [], _, h => h.resolve_left List.not_mem_nil
  | c :: cs, m, h => by
    rw [List.map_cons, writeCells]
    refine writeCells_map ?_
    rcases eq_or_ne i c with rfl | hic
    · exact Or.inr (Function.update_self ..)
    · rw [Function.update_of_ne hic]
      exact h.imp_left fun hmem => (List.mem_cons.mp hmem).resolve_left hic

/-- So does copying cells that are right. -/
theorem zipCells_map {f : β → β → β} (hf : ∀ a b, f a b = a) {i : ι} : ∀ {ss ds : List ι}
    {m : ι → β}, ss.map y = ds.map y → (∀ s ∈ ss, m s = y s) → i ∈ ds ∨ m i = y i →
      zipCells f ss ds m i = y i
  | [], [], _, _, _, h => h.resolve_left List.not_mem_nil
  | [], _ :: _, _, hvals, _, _ => absurd hvals (by simp)
  | _ :: _, [], _, hvals, _, _ => absurd hvals (by simp)
  | s :: ss, d :: ds, m, hvals, hss, h => by
    obtain ⟨hsd, hvals⟩ := List.cons.inj hvals
    rw [List.forall_mem_cons] at hss
    have hd : f (m s) (m d) = y d := by rw [hf, hss.1, hsd]
    rw [zipCells, hd]
    refine zipCells_map hf hvals (fun s' hs' => ?_) ?_
    · rcases eq_or_ne s' d with rfl | hne
      · exact Function.update_self ..
      · rw [Function.update_of_ne hne, hss.2 s' hs']
    · rcases eq_or_ne i d with rfl | hne
      · exact Or.inr (Function.update_self ..)
      · rw [Function.update_of_ne hne]
        exact h.imp_left fun hmem => (List.mem_cons.mp hmem).resolve_left hne

end Memory

/-! ### The invariant of a run -/

/-- Messages told apart by their contents. -/
def valueLabels (y : ℕ → ι → β) : Labels ι β (List β) :=
  ⟨Prod.fst, fun s src _ => src.map (y s), fun r dst _ => dst.map (y r)⟩

/-- Everything is in place. -/
def Gathered (has : Set ι) (pend : List (List ι)) : Prop := pend = [] ∧ ∀ i, i ∈ has

/-- A rank that is to end with `y`, having begun with `m₀`: cells that nothing is under way to are
    right, as far as its schedule counts on them; cells that were right at first are right. -/
structure SNode.Right (m₀ y : ι → β) (nd : SNode ι β) : Prop where
  keeps : ∀ i, y i = m₀ i → nd.mem i = y i
  gathers : ∃ has pend, (∀ i ∈ has, (∀ p ∈ nd.recvs, i ∉ p.1.dst) → nd.mem i = y i) ∧
    (∀ p ∈ nd.recvs, p.1.dst ∈ pend) ∧ Sched.gathers y Gathered (cmds nd.todo) has pend

/-- All ranks are right, and what is sent is what is waited for. -/
structure SNet.Right (m₀ y : ℕ → ι → β) (M : SNet ι β) : Prop where
  flow : M.Flow (valueLabels y)
  node : ∀ r, (M.node r).Right (m₀ r) (y r)

section Step

variable [DecidableEq ι] {n : ℕ} {m₀ y : ℕ → ι → β} {M M' : SNet ι β}

omit [DecidableEq ι] in
/-- What a rank sends is right. -/
theorem SNode.Right.send {m₀ y : ι → β} {nd : SNode ι β} (h : nd.Right m₀ y) {d t : ℕ}
    {src : List ι} {l : List (Cmd ι β × ℕ)} (htodo : nd.todo = (.send d src, t) :: l) :
    src.map nd.mem = src.map y := by
  obtain ⟨has, pend, hhas, hpend, hgathers⟩ := h.gathers
  rw [htodo] at hgathers
  refine List.map_congr_left fun i hi => ?_
  obtain ⟨hin, hout⟩ := hgathers.1 i hi
  exact hhas i hin fun p hp => hout _ (hpend p hp)

/-- Every step keeps the network right. -/
theorem SNet.Right.step (h : M.Right m₀ y) (hstep : SNet.Step n M M') : M'.Right m₀ y := by
  refine ⟨h.flow.step (fun r d src t l _ htodo => (h.node r).send htodo) hstep, ?_⟩
  cases hstep with
  | @pause r t l hr htodo =>
    obtain ⟨hkeeps, has, pend, hhas, hpend, hgathers⟩ := h.node r
    rw [htodo] at hgathers
    exact forall_setNode h.node ⟨hkeeps, has, pend, hhas, hpend, hgathers⟩
  | @wait r t l hr htodo hrecvs =>
    obtain ⟨hkeeps, has, pend, hhas, -, hgathers⟩ := h.node r
    rw [htodo] at hgathers
    refine forall_setNode h.node ⟨hkeeps, has, [], hhas, fun p hp => ?_, hgathers⟩
    exact absurd (hrecvs ▸ hp) List.not_mem_nil
  | @send r d t src l hr htodo =>
    obtain ⟨hkeeps, has, pend, hhas, hpend, hgathers⟩ := h.node r
    rw [htodo] at hgathers
    exact forall_setNode h.node ⟨hkeeps, has, pend, hhas, hpend, hgathers.2⟩
  | @recv r hd s t dst l hr htodo =>
    obtain ⟨hkeeps, has, pend, hhas, hpend, hgathers⟩ := h.node r
    rw [htodo] at hgathers
    refine forall_setNode h.node ⟨hkeeps, _, _, fun i hi hout => ?_, fun p hp => ?_, hgathers⟩
    · have hnew := hout (⟨hd, s, dst⟩, t) (List.mem_append_right _ (List.mem_singleton.mpr rfl))
      exact hhas i (hi.resolve_right hnew) fun p hp => hout p (List.mem_append_left _ hp)
    · rcases List.mem_append.mp hp with hp | hp
      · exact List.mem_cons_of_mem _ (hpend p hp)
      · rw [List.mem_singleton.mp hp]
        exact List.mem_cons_self ..
  | @zip r t f src dst l hr htodo =>
    obtain ⟨hkeeps, has, pend, hhas, hpend, hgathers⟩ := h.node r
    rw [htodo] at hgathers
    obtain ⟨hf, hvals, hsrc, hgathers⟩ := hgathers
    have hright (i) (hi : i ∈ src) : (M.node r).mem i = y r i :=
      hhas i (hsrc i hi).1 fun p hp => (hsrc i hi).2 _ (hpend p hp)
    refine forall_setNode h.node ⟨fun i hi => ?_, _, _, fun i hi hout => ?_, hpend, hgathers⟩
    · exact zipCells_map hf hvals hright (Or.inr (hkeeps i hi))
    · exact zipCells_map hf hvals hright (hi.symm.imp id fun hi => hhas i hi hout)
  | @deliver s r t vals msgs l₁ l₂ p hr hchan hrecvs hsrc hfirst =>
    obtain ⟨hkeeps, has, pend, hhas, hpend, hgathers⟩ := h.node r
    -- the message is the one that the receive waits for
    have hvals : vals = p.1.dst.map (y r) := by
      have hflow := h.flow s r
      have hnil : l₁.filter (·.1.src = s) = [] :=
        List.filter_eq_nil_iff.mpr fun x hx => by simpa using hfirst x hx
      simp only [Labels.toRecv, hrecvs, hchan, List.filter_append, hnil, List.filter_cons, hsrc,
        decide_true, if_true, List.nil_append, List.map_cons, List.cons_append,
        List.cons.injEq] at hflow
      exact hflow.1
    refine forall_setNode (M := M) h.node ⟨fun i hi => ?_, has, pend, fun i hi hout => ?_,
      fun q hq => hpend q ?_, hgathers⟩
    · dsimp only
      rw [hvals]
      exact writeCells_map (Or.inr (hkeeps i hi))
    · dsimp only
      rw [hvals]
      refine writeCells_map ?_
      by_cases hip : i ∈ p.1.dst
      · exact Or.inl hip
      · refine Or.inr (hhas i hi fun q hq => ?_)
        rw [hrecvs] at hq
        rcases List.mem_append.mp hq with hq | hq
        · exact hout q (List.mem_append_left _ hq)
        · rcases List.mem_cons.mp hq with rfl | hq
          · exact hip
          · exact hout q (List.mem_append_right _ hq)
    · rw [hrecvs]
      rcases List.mem_append.mp hq with hq | hq
      · exact List.mem_append_left _ hq
      · exact List.mem_append_right _ (List.mem_cons_of_mem _ hq)
  | @sent r k hr hk =>
    obtain ⟨hkeeps, has, pend, hhas, hpend, hgathers⟩ := h.node r
    exact forall_setNode h.node ⟨hkeeps, has, pend, hhas, hpend, hgathers⟩

theorem SNet.Right.steps (h : M.Right m₀ y) (hsteps : SNet.Steps n M M') : M'.Right m₀ y := by
  induction hsteps with
  | refl => exact h
  | tail _ hstep ih => exact ih.step hstep

end Step

/-! ### Schedules made of rounds -/

/-- A schedule whose commands all belong to round `k`. -/
def Sched.stamp (k : ℕ) (cs : Sched ι β) : List (Cmd ι β × ℕ) := cs.map fun c => (c, k)

/-- Nothing is sent after a stop if a receive has been posted before it. -/
def Sched.Batch (cs : Sched ι β) : Prop := Timed (cs.stamp 0)

/-- The peer of a command is one of `n` ranks. -/
def Cmd.PeerLt (n : ℕ) : Cmd ι β → Prop
  | .send d _ => d < n
  | .recv _ s _ => s < n
  | _ => True

/-- The commands of rank `r`, numbered by their rounds from `k` on. -/
def stamped (r : ℕ) : ℕ → List (ℕ → Sched ι β) → List (Cmd ι β × ℕ)
  | _, [] => []
  | k, R :: rounds => (R r).stamp k ++ stamped r (k + 1) rounds

/-- Rounds that lead every rank `r` below `n` from memory `m₀ r` to memory `y r`. -/
structure Gathering (n : ℕ) (m₀ y : ℕ → ι → β) (rounds : List (ℕ → Sched ι β)) : Prop where
  peers : ∀ R ∈ rounds, ∀ r < n, ∀ c ∈ R r, c.PeerLt n
  matched : ∀ R ∈ rounds, ∀ s < n, ∀ r < n,
    ((R s).sendsTo r).map (·.map (y s)) = ((R r).recvsFrom s).map (·.map (y r))
  batch : ∀ R ∈ rounds, ∀ r < n, (R r).Batch
  gathers : ∀ r < n,
    Sched.gathers (y r) Gathered (rounds.flatMap fun R => R r) {i | y r i = m₀ r i} []

section Stamped

theorem cmds_stamped (r : ℕ) : ∀ (k : ℕ) (rounds : List (ℕ → Sched ι β)),
    cmds (stamped r k rounds) = rounds.flatMap fun R => R r
  | _, [] => rfl
  | k, R :: rounds => by
    rw [stamped, cmds, List.map_append, List.flatMap_cons, Sched.stamp, List.map_map]
    exact congrArg₂ (· ++ ·) (List.map_id _) (cmds_stamped r (k + 1) rounds)

theorem mem_stamp {k t : ℕ} {cs : Sched ι β} {c : Cmd ι β} :
    (c, t) ∈ cs.stamp k ↔ c ∈ cs ∧ t = k := by
  simp [Sched.stamp, eq_comm]

theorem le_of_mem_stamped {r : ℕ} {c : Cmd ι β} {t : ℕ} : ∀ {k : ℕ} {rounds : List (ℕ → Sched ι β)},
    (c, t) ∈ stamped r k rounds → k ≤ t
  | _, [], h => absurd h List.not_mem_nil
  | k, R :: rounds, h => by
    rcases List.mem_append.mp h with h | h
    · exact (mem_stamp.mp h).2.ge
    · exact (Nat.le_succ k).trans (le_of_mem_stamped h)

theorem late_stamp_append {k : ℕ} {rest : List (Cmd ι β × ℕ)}
    (hrest : ∀ d src t, (Cmd.send d src, t) ∈ rest → k < t) : ∀ {l : Sched ι β},
    Late 0 (l.stamp 0) → Late k (l.stamp k ++ rest)
  | [], _ => late_of_forall hrest
  | .wait :: cs, h | .pause :: cs, h => by
    intro d src t hm
    rcases List.mem_append.mp hm with hm | hm
    · have := h d src 0 (mem_stamp.mpr ⟨(mem_stamp.mp hm).1, rfl⟩)
      omega
    · exact hrest d src t hm
  | .send .. :: cs, h | .recv .. :: cs, h | .zip .. :: cs, h =>
    late_stamp_append hrest (l := cs) h

theorem timed_stamp_append {k : ℕ} {rest : List (Cmd ι β × ℕ)}
    (hrest : ∀ d src t, (Cmd.send d src, t) ∈ rest → k < t) (htimed : Timed rest) :
    ∀ {l : Sched ι β}, l.Batch → Timed (l.stamp k ++ rest)
  | [], _ => htimed
  | .recv .. :: cs, h =>
      ⟨late_stamp_append hrest h.1, timed_stamp_append hrest htimed (l := cs) h.2⟩
  | .wait :: cs, h | .pause :: cs, h | .send .. :: cs, h | .zip .. :: cs, h =>
    timed_stamp_append hrest htimed (l := cs) h

theorem timed_stamped {r : ℕ} : ∀ {k : ℕ} {rounds : List (ℕ → Sched ι β)},
    (∀ R ∈ rounds, (R r).Batch) → Timed (stamped r k rounds)
  | _, [], _ => trivial
  | _, R :: _, h => timed_stamp_append (fun _ _ _ hm => le_of_mem_stamped hm)
    (timed_stamped fun R' hR' => h R' (List.mem_cons_of_mem _ hR')) (h R (List.mem_cons_self ..))

variable {L : Type} {lab : Labels ι β L} {s r k : ℕ}

theorem filterMap_sendTo_stamp (cs : Sched ι β) : (cs.stamp k).filterMap (lab.sendTo s r) =
    (cs.sendsTo r).map fun src => lab.send s src k := by
  rw [Sched.stamp, List.filterMap_map, Sched.sendsTo, List.map_filterMap]
  congr 1
  funext c
  cases c with
  | send d src => by_cases h : d = r <;> simp [Labels.sendTo, Cmd.sentTo, h]
  | _ => rfl

theorem filterMap_recvFrom_stamp (cs : Sched ι β) : (cs.stamp k).filterMap (lab.recvFrom s r) =
    (cs.recvsFrom s).map fun dst => lab.recv r dst k := by
  rw [Sched.stamp, List.filterMap_map, Sched.recvsFrom, List.map_filterMap]
  congr 1
  funext c
  cases c with
  | recv hd p dst => by_cases h : p = s <;> simp [Labels.recvFrom, Cmd.receivedFrom, h]
  | _ => rfl

/-- Rounds in which what is sent is what is received. -/
theorem filterMap_stamped : ∀ {k : ℕ} {rounds : List (ℕ → Sched ι β)},
    (∀ R ∈ rounds, ∀ k, ((R s).sendsTo r).map (fun src => lab.send s src k) =
      ((R r).recvsFrom s).map fun dst => lab.recv r dst k) →
    (stamped s k rounds).filterMap (lab.sendTo s r) =
      (stamped r k rounds).filterMap (lab.recvFrom s r)
  | _, [], _ => rfl
  | k, R :: rounds, h => by
    rw [stamped, stamped, List.filterMap_append, List.filterMap_append, filterMap_sendTo_stamp,
      filterMap_recvFrom_stamp, h R (List.mem_cons_self ..),
      filterMap_stamped fun R' hR' => h R' (List.mem_cons_of_mem _ hR')]

end Stamped

/-! ### Commands that only combine elements -/

/-- The schedule only combines elements in memory. -/
def Sched.Zips (cs : Sched ι β) : Prop := ∀ c ∈ cs, ∃ f src dst, c = .zip f src dst

namespace Sched.Zips

variable {cs : Sched ι β}

theorem nil : Sched.Zips ([] : Sched ι β) := fun _ hc => absurd hc List.not_mem_nil

theorem single {f : β → β → β} {src dst : List ι} : Sched.Zips [.zip f src dst] :=
  fun _ hc => ⟨f, src, dst, List.mem_singleton.mp hc⟩

theorem sendsTo (h : cs.Zips) (r : ℕ) : cs.sendsTo r = [] := by
  refine List.filterMap_eq_nil_iff.mpr fun c hc => ?_
  obtain ⟨f, src, dst, rfl⟩ := h c hc
  rfl

theorem recvsFrom (h : cs.Zips) (s : ℕ) : cs.recvsFrom s = [] := by
  refine List.filterMap_eq_nil_iff.mpr fun c hc => ?_
  obtain ⟨f, src, dst, rfl⟩ := h c hc
  rfl

theorem peerLt (h : cs.Zips) (n : ℕ) : ∀ c ∈ cs, c.PeerLt n := by
  intro c hc
  obtain ⟨f, src, dst, rfl⟩ := h c hc
  trivial

theorem batch (h : cs.Zips) : cs.Batch := by
  induction cs with
  | nil => trivial
  | cons c cs ih =>
    rw [Sched.Zips, List.forall_mem_cons] at h
    obtain ⟨⟨f, src, dst, rfl⟩, h⟩ := h
    exact ih h

end Sched.Zips

/-! ### Every run -/

namespace Gathering

variable [DecidableEq ι] {n : ℕ} {m₀ y : ℕ → ι → β} {rounds : List (ℕ → Sched ι β)}

/-- The commands of rank `r` in all rounds. -/
abbrev sched (n : ℕ) (rounds : List (ℕ → Sched ι β)) (r : ℕ) : Sched ι β :=
  if r < n then rounds.flatMap fun R => R r else []

/-- Before any rank has started. -/
def start (n : ℕ) (m₀ : ℕ → ι → β) (rounds : List (ℕ → Sched ι β)) : SNet ι β :=
  SNet.init m₀ fun r => if r < n then stamped r 0 rounds else []

omit [DecidableEq ι] in
/-- The messages of all rounds match if those of each round do. -/
theorem flow_rounds {L : Type} {lab : Labels ι β L}
    (hpeers : ∀ R ∈ rounds, ∀ r < n, ∀ c ∈ R r, c.PeerLt n)
    (hlab : ∀ R ∈ rounds, ∀ s < n, ∀ r < n, ∀ k, ((R s).sendsTo r).map (fun c => lab.send s c k) =
      ((R r).recvsFrom s).map fun c => lab.recv r c k) : (start n m₀ rounds).Flow lab := by
  intro s r
  have hnone {c : Cmd ι β × ℕ} {q : ℕ} (hq : q < n) (hc : c ∈ stamped q 0 rounds) :
      c.1.PeerLt n := by
    have hmem : c.1 ∈ cmds (stamped q 0 rounds) := List.mem_map_of_mem hc
    rw [cmds_stamped] at hmem
    obtain ⟨R, hR, hmem⟩ := List.mem_flatMap.mp hmem
    exact hpeers R hR q hq _ hmem
  change [] ++ List.filterMap _ (if s < n then stamped s 0 rounds else []) =
    [] ++ List.filterMap _ (if r < n then stamped r 0 rounds else [])
  rw [List.nil_append, List.nil_append]
  split_ifs with hs hr hr
  · exact filterMap_stamped fun R hR k => hlab R hR s hs r hr k
  · rw [List.filterMap_nil, List.filterMap_eq_nil_iff]
    rintro ⟨c, t⟩ hc
    have hpeer := hnone hs hc
    cases c with
    | send d src => exact if_neg fun heq : d = r => hr (heq ▸ hpeer)
    | _ => rfl
  · rw [List.filterMap_nil, eq_comm, List.filterMap_eq_nil_iff]
    rintro ⟨c, t⟩ hc
    have hpeer := hnone hr hc
    cases c with
    | recv hd p dst => exact if_neg fun heq : p = s => hs (heq ▸ hpeer)
    | _ => rfl
  · rfl

omit [DecidableEq ι] in
/-- Rounds in which as much is sent as is received. -/
theorem ordered_rounds (hpeers : ∀ R ∈ rounds, ∀ r < n, ∀ c ∈ R r, c.PeerLt n)
    (hcounts : ∀ R ∈ rounds, ∀ s < n, ∀ r < n,
      ((R s).sendsTo r).length = ((R r).recvsFrom s).length)
    (hbatch : ∀ R ∈ rounds, ∀ r < n, (R r).Batch) : (start n m₀ rounds).Ordered n where
  flow := flow_rounds hpeers fun R hR s hs r hr k => by
    change ((R s).sendsTo r).map (fun _ => k) = ((R r).recvsFrom s).map fun _ => k
    rw [List.map_const', List.map_const', hcounts R hR s hs r hr]
  timed r := by
    change Timed (if r < n then stamped r 0 rounds else [])
    split_ifs with hr
    · exact timed_stamped fun R hR => hbatch R hR r hr
    · trivial
  late _ _ hp := absurd hp List.not_mem_nil
  none r hr := if_neg (by omega)

omit [DecidableEq ι] in
theorem ordered_start (h : Gathering n m₀ y rounds) : (start n m₀ rounds).Ordered n := by
  refine ordered_rounds h.peers (fun R hR s hs r hr => ?_) h.batch
  have hlen := congrArg List.length (h.matched R hR s hs r hr)
  rwa [List.length_map, List.length_map] at hlen

/-- The memory that a rank is to end with; ranks from `n` on keep theirs. -/
def goal (n : ℕ) (m₀ y : ℕ → ι → β) (r : ℕ) : ι → β := if r < n then y r else m₀ r

omit [DecidableEq ι] in
theorem right_start (h : Gathering n m₀ y rounds) :
    (start n m₀ rounds).Right m₀ (goal n m₀ y) where
  flow := flow_rounds h.peers fun R hR s hs r hr k => by
    simpa only [valueLabels, goal, if_pos hs, if_pos hr] using h.matched R hR s hs r hr
  node r := by
    refine ⟨fun i hi => hi.symm, {i | goal n m₀ y r i = m₀ r i}, [], fun i hi _ => hi.symm,
      fun p hp => absurd hp List.not_mem_nil, ?_⟩
    change Sched.gathers _ _ (cmds (if r < n then stamped r 0 rounds else [])) _ _
    rw [goal]
    split_ifs with hr
    · rw [cmds_stamped]
      exact h.gathers r hr
    · exact ⟨rfl, fun i => rfl⟩

section Runs

variable {proc : ℕ → Proc ι β σ} {Rel : ℕ → σ → Sched ι β → Prop} {acts : List Act}
  {N : Net ι β σ} (h : Gathering n m₀ y rounds)
  (hruns : ∀ r < n, (proc r).Runs (Rel r) (sched n rounds r))
  (hrun : (Net.init m₀).run n proc acts = some N)
include h hruns hrun

omit h in
/-- The schedules are where the programs are. -/
theorem sim : ∃ M, SNet.Steps n (start n m₀ rounds) M ∧ Net.Sim n proc Rel (sched n rounds) N M ∧
    ∀ r, (sched n rounds r).posts =
      Net.posts n proc r (Net.init m₀) acts ++ (cmds (M.node r).todo).posts := by
  have hcmds (r) : cmds (if r < n then stamped r 0 rounds else []) = sched n rounds r := by
    rw [sched]
    split_ifs
    · exact cmds_stamped r 0 rounds
    · rfl
  have hinit : Net.Sim n proc Rel (sched n rounds) (Net.init m₀) (start n m₀ rounds) := .init hcmds
  obtain ⟨M, hsteps, hsim, hposts⟩ := hinit.run hruns hrun
  refine ⟨M, hsteps, hsim, fun r => ?_⟩
  rw [← hposts]
  exact congrArg Sched.posts (hcmds r).symm

/-- They are timed, and have the memory that they are to have. -/
theorem reached : ∃ M, Net.Sim n proc Rel (sched n rounds) N M ∧ M.Ordered n ∧
    M.Right m₀ (goal n m₀ y) ∧ ∀ r, (sched n rounds r).posts =
      Net.posts n proc r (Net.init m₀) acts ++ (cmds (M.node r).todo).posts := by
  obtain ⟨M, hsteps, hsim, hposts⟩ := sim hruns hrun
  exact ⟨M, hsim, h.ordered_start.steps hsteps, h.right_start.steps hsteps, hposts⟩

/-- A rank that has finished is done with its schedule and has the memory that it was to get. -/
theorem finished {r : ℕ} {st : σ} (hfin : N.FinishedIn r st) :
    Rel r st [] ∧ (proc r).active st = false ∧ (N.node r).mem = y r := by
  obtain ⟨M, hsim, -, hright, -⟩ := h.reached hruns hrun
  have hr : r < n := hsim.bound r (by rw [Net.Started, hfin]; simp)
  have hctl := hsim.ctl r
  rw [hfin] at hctl
  obtain ⟨hrel, hnil, hact⟩ := hctl
  obtain ⟨-, has, pend, hhas, hpend, hgathers⟩ := hright.node r
  rw [hnil] at hgathers
  obtain ⟨rfl, hall⟩ := hgathers
  refine ⟨hrel, hact, funext fun i => ?_⟩
  have hi := hhas i (hall i) fun p hp => absurd (hpend p hp) List.not_mem_nil
  rwa [hsim.mem, goal, if_pos hr] at hi

/-- Cells that are to keep their contents have them all the time. -/
theorem keeps {r : ℕ} (hr : r < n) {i : ι} (hi : y r i = m₀ r i) : (N.node r).mem i = m₀ r i := by
  obtain ⟨M, hsim, -, hright, -⟩ := h.reached hruns hrun
  have hkeeps := (hright.node r).keeps i
  rw [goal, if_pos hr] at hkeeps
  rw [← hsim.mem, hkeeps hi, hi]

/-- The run goes on to a state in which all ranks have finished. -/
theorem live : ∃ acts' N', N.run n proc acts' = some N' ∧ ∀ r < n, ∃ st, N'.FinishedIn r st := by
  obtain ⟨M, hsim, hord, -, -⟩ := h.reached hruns hrun
  exact live_of_sim hruns _ hsim hord rfl

/-- A rank that has finished has posted the messages of its schedule, in their order. -/
theorem posts {r : ℕ} {st : σ} (hfin : N.FinishedIn r st) :
    Net.posts n proc r (Net.init m₀) acts = Sched.posts (rounds.flatMap fun R => R r) := by
  obtain ⟨M, hsim, -, -, hposts⟩ := h.reached hruns hrun
  have hr : r < n := hsim.bound r (by rw [Net.Started, hfin]; simp)
  have hctl := hsim.ctl r
  rw [hfin] at hctl
  have hall := hposts r
  rw [hctl.2.1, sched, if_pos hr] at hall
  rw [hall]
  exact (List.append_nil _).symm

end Runs

end Gathering

end Kucg.Lib
