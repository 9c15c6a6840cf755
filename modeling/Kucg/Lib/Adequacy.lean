import Kucg.Lib.Network
import Mathlib.Tactic

/-! Every run of a network of ranks that follow matched traces keeps each rank's ghost state true:
    the invariant `Net.Ok`, its preservation by every action, and what it says of a rank that has
    finished. -/

namespace Kucg.Lib

variable {ι β σ : Type}

/-- A posted receive that has not arrived, with the message that its trace expects. -/
structure Promise (ι β : Type) where
  recv : Recv ι
  vals : List β
  know : Set ℕ

/-- The cells that the message fills. -/
def Promise.fills (p : Promise ι β) : List ι := p.recv.dst.take p.vals.length

/-- The receive as its rank sees it. -/
def Promise.pending (p : Promise ι β) : Pending ι := ⟨p.recv.handle, p.fills, p.know⟩

/-- The messages expected from `s`, in order. -/
def promisedFrom (s : ℕ) (ps : List (Promise ι β)) : List (List β × Set ℕ) :=
  (ps.filter (·.recv.src = s)).map fun p => (p.vals, p.know)

/-- Taking a receive takes its promise, the first one from `s`. -/
theorem takeFrom_promise {s : ℕ} {q : Recv ι} {qs : List (Recv ι)} :
    ∀ {ps : List (Promise ι β)}, takeFrom s (ps.map Promise.recv) = some (q, qs) →
      ∃ p l₁ l₂, ps = l₁ ++ p :: l₂ ∧ q = p.recv ∧ q.src = s ∧
        qs = (l₁ ++ l₂).map Promise.recv ∧
        (∀ s', promisedFrom s' ps = if s' = s then (p.vals, p.know) :: promisedFrom s' (l₁ ++ l₂)
          else promisedFrom s' (l₁ ++ l₂))
  | [], h => absurd h (by simp [takeFrom])
  | p :: ps, h => by
    rw [List.map_cons, takeFrom] at h
    split at h
    · next hsrc =>
      obtain ⟨rfl, rfl⟩ := Prod.mk.inj (Option.some.inj h)
      refine ⟨p, [], ps, rfl, rfl, hsrc, rfl, fun s' => ?_⟩
      rw [List.nil_append]
      split_ifs with hs
      · subst hs
        simp [promisedFrom, hsrc]
      · simp [promisedFrom, hsrc, Ne.symm hs]
    · next hsrc =>
      obtain ⟨⟨q', qs'⟩, htake, heq⟩ := Option.map_eq_some_iff.mp h
      obtain ⟨rfl, rfl⟩ := Prod.mk.inj heq
      obtain ⟨p', l₁, l₂, rfl, rfl, hs, rfl, hfrom⟩ := takeFrom_promise htake
      refine ⟨p', p :: l₁, l₂, rfl, rfl, hs, rfl, fun s' => ?_⟩
      have hcons (l : List (Promise ι β)) : promisedFrom s' (p :: l) =
          (if p.recv.src = s' then [(p.vals, p.know)] else []) ++ promisedFrom s' l := by
        rw [promisedFrom, List.filter_cons]
        split_ifs with hp <;> simp_all [promisedFrom]
      rw [hcons, hfrom, List.cons_append, hcons]
      split_ifs with h₁ h₂ <;> simp_all

variable [DecidableEq ι]

/-- A rank's memory and receives are as its ghost state says. -/
structure NodeOk (started : Set ℕ) (nd : Node ι β σ) (g : Ghost ι β)
    (ps : List (Promise ι β)) : Prop where
  recvs : nd.recvs = ps.map Promise.recv
  tracked : ∀ p ∈ ps, p.pending ∈ g.pend
  gone : ∀ e ∈ g.pend, (∃ p ∈ ps, p.pending = e) ∨ e.know ⊆ started
  arrived : ∀ i, (∀ p ∈ ps, i ∉ p.fills) → nd.mem i = g.mem i
  coming : ∀ p ∈ ps, ∀ m : ι → β, ∀ i ∈ p.fills, writeCells p.recv.dst p.vals m i = g.mem i
  apart : ps.Pairwise fun p q => ∀ i ∈ p.fills, i ∉ q.fills

namespace NodeOk

variable {started : Set ℕ} {nd nd' : Node ι β σ} {g : Ghost ι β} {ps : List (Promise ι β)}

theorem mono {started' : Set ℕ} (h : NodeOk started nd g ps) (hsub : started ⊆ started') :
    NodeOk started' nd g ps :=
  { h with gone := fun e he => (h.gone e he).imp_right fun hk => hk.trans hsub }

/-- Only memory and receives matter. -/
theorem of_eq (h : NodeOk started nd g ps) (hmem : nd'.mem = nd.mem)
    (hrecvs : nd'.recvs = nd.recvs) : NodeOk started nd' g ps :=
  { h with
    recvs := by rw [hrecvs, h.recvs]
    arrived := fun i hi => by rw [hmem, h.arrived i hi] }

/-- Free cells hold what the ghost memory says. -/
theorem mem_eq (h : NodeOk started nd g ps) {i : ι} (hi : g.Free i) : nd.mem i = g.mem i :=
  h.arrived i fun p hp => hi _ (h.tracked p hp)

theorem isend (h : NodeOk started nd g ps) (todo : List (Event β)) :
    NodeOk started nd { g with todo := todo } ps :=
  ⟨h.recvs, h.tracked, h.gone, h.arrived, h.coming, h.apart⟩

theorem irecv (h : NodeOk started nd g ps) {handle s : ℕ} {dst : List ι} {vals : List β}
    {know : Set ℕ} {todo : List (Event β)} (hfree : ∀ i ∈ dst, g.Free i)
    (hlen : vals.length ≤ dst.length) (hmem : nd'.mem = nd.mem)
    (hrecvs : nd'.recvs = nd.recvs ++ [⟨handle, s, dst⟩]) :
    NodeOk started nd'
      { g with
        mem := writeCells dst vals g.mem,
        pend := g.pend ++ [⟨handle, dst.take vals.length, know⟩], todo := todo }
      (ps ++ [⟨⟨handle, s, dst⟩, vals, know⟩]) := by
  have hold (p) (hp : p ∈ ps) (i) (hi : i ∈ p.fills) : i ∉ dst :=
    fun hdst => hfree i hdst _ (h.tracked p hp) hi
  refine ⟨by simp [hrecvs, h.recvs], fun p hp => ?_, fun e he => ?_, fun i hi => ?_, fun p hp => ?_,
    ?_⟩
  · rcases List.mem_append.mp hp with hp | hp
    · exact List.mem_append_left _ (h.tracked p hp)
    · rw [List.mem_singleton.mp hp]
      exact List.mem_append_right _ (List.mem_singleton.mpr rfl)
  · rcases List.mem_append.mp he with he | he
    · exact (h.gone e he).imp_left fun ⟨p, hp, hpe⟩ => ⟨p, List.mem_append_left _ hp, hpe⟩
    · exact Or.inl ⟨_, List.mem_append_right _ (List.mem_singleton.mpr rfl),
        (List.mem_singleton.mp he).symm⟩
  · have hi' : i ∉ dst.take vals.length :=
      hi _ (List.mem_append_right _ (List.mem_singleton.mpr rfl))
    rw [hmem, h.arrived i fun p hp => hi p (List.mem_append_left _ hp)]
    exact (writeCells_of_notMem_take hi').symm
  · intro m i hi
    rcases List.mem_append.mp hp with hp | hp
    · rw [h.coming p hp m i hi]
      exact (writeCells_of_notMem (hold p hp i hi)).symm
    · rw [List.mem_singleton.mp hp] at hi ⊢
      exact writeCells_congr_take m g.mem hlen hi
  · rw [List.pairwise_append]
    refine ⟨h.apart, List.pairwise_singleton _ _, fun p hp q hq i hi => ?_⟩
    rw [List.mem_singleton.mp hq]
    exact fun hfill => hold p hp i hi (List.mem_of_mem_take hfill)

theorem zip (h : NodeOk started nd g ps) {f : β → β → β} {src dst : List ι}
    (hsrc : ∀ i ∈ src, g.Free i) (hdst : ∀ i ∈ dst, g.Free i)
    (hmem : nd'.mem = zipCells f src dst nd.mem) (hrecvs : nd'.recvs = nd.recvs) :
    NodeOk started nd' { g with mem := zipCells f src dst g.mem } ps := by
  refine ⟨by rw [hrecvs, h.recvs], h.tracked, h.gone, fun i hi => ?_, fun p hp => ?_, h.apart⟩
  · have hfree {i} (hi : g.Free i) (p) (hp : p ∈ ps) : i ∉ p.fills :=
      hi _ (h.tracked p hp)
    rw [hmem]
    exact zipCells_congr (S := {i | ∀ p ∈ ps, i ∉ p.fills}) h.arrived
      (fun i hi => hfree (hsrc i hi)) (fun i hi => hfree (hdst i hi)) i hi
  · intro m i hi
    rw [h.coming p hp m i hi]
    exact (zipCells_of_notMem fun hd => hdst i hd _ (h.tracked p hp) hi).symm

/-- The promises of `h` are over when a test says so. -/
theorem done (h : NodeOk started nd g ps) {handle : ℕ}
    (hover : ∀ p ∈ nd.recvs, p.handle ≠ handle) : NodeOk started nd (g.done handle) ps := by
  refine ⟨h.recvs, fun p hp => ?_, fun e he => ?_, h.arrived, h.coming, h.apart⟩
  · refine List.mem_filter.mpr ⟨h.tracked p hp, ?_⟩
    have := hover p.recv (by rw [h.recvs]; exact List.mem_map_of_mem hp)
    exact decide_eq_true this
  · exact h.gone e (List.mem_of_mem_filter he)

theorem learn_done (h : NodeOk started nd g ps) {handle : ℕ} (hk : g.know ⊆ started)
    (hover : ∀ p ∈ nd.recvs, p.handle ≠ handle) : (g.done handle).know ⊆ started := by
  rintro q (hq | ⟨e, he, hq⟩)
  · exact hk hq
  · obtain ⟨he, hhandle⟩ := List.mem_filter.mp he
    rcases h.gone e he with ⟨p, hp, rfl⟩ | hsub
    · have := hover p.recv (by rw [h.recvs]; exact List.mem_map_of_mem hp)
      exact absurd (of_decide_eq_true hhandle) this
    · exact hsub hq

theorem doneAll (h : NodeOk started nd g ps) (hover : nd.recvs = []) :
    NodeOk started nd g.doneAll ps := by
  have hps : ps = [] := by rwa [h.recvs, List.map_eq_nil_iff] at hover
  subst hps
  exact ⟨h.recvs, fun p hp => absurd hp List.not_mem_nil, fun e he => absurd he List.not_mem_nil,
    h.arrived, h.coming, h.apart⟩

theorem learn_doneAll (h : NodeOk started nd g ps) (hk : g.know ⊆ started) (hover : nd.recvs = []) :
    g.doneAll.know ⊆ started := by
  have hps : ps = [] := by rwa [h.recvs, List.map_eq_nil_iff] at hover
  subst hps
  rintro q (hq | ⟨e, he, hq⟩)
  · exact hk hq
  · exact (h.gone e he).elim (fun ⟨p, hp, _⟩ => absurd hp List.not_mem_nil) fun hsub => hsub hq

/-- The oldest message promised by its sender arrives. -/
theorem deliver {l₁ l₂ : List (Promise ι β)} {p : Promise ι β}
    (h : NodeOk started nd g (l₁ ++ p :: l₂)) (hk : p.know ⊆ started)
    (hmem : nd'.mem = writeCells p.recv.dst p.vals nd.mem)
    (hrecvs : nd'.recvs = (l₁ ++ l₂).map Promise.recv) : NodeOk started nd' g (l₁ ++ l₂) := by
  have hperm : List.Perm (l₁ ++ p :: l₂) (p :: (l₁ ++ l₂)) := List.perm_middle
  have hsymm : ∀ {p q : Promise ι β}, (∀ i ∈ p.fills, i ∉ q.fills) →
      ∀ i ∈ q.fills, i ∉ p.fills := fun hpq i hq hp => hpq i hp hq
  have hapart := (hperm.pairwise_iff hsymm).mp h.apart
  have hmem' {q} (hq : q ∈ l₁ ++ l₂) : q ∈ l₁ ++ p :: l₂ :=
    hperm.symm.subset (List.mem_cons_of_mem _ hq)
  have hp : p ∈ l₁ ++ p :: l₂ := hperm.symm.subset (List.mem_cons_self ..)
  refine ⟨hrecvs, fun q hq => h.tracked q (hmem' hq), fun e he => ?_, fun i hi => ?_,
    fun q hq => h.coming q (hmem' hq), (List.pairwise_cons.mp hapart).2⟩
  · rcases h.gone e he with ⟨q, hq, rfl⟩ | hsub
    · rcases List.mem_cons.mp (hperm.subset hq) with rfl | hq
      · exact Or.inr hk
      · exact Or.inl ⟨q, hq, rfl⟩
    · exact Or.inr hsub
  · rw [hmem]
    by_cases hip : i ∈ p.fills
    · exact h.coming p hp nd.mem i hip
    · rw [writeCells_of_notMem_take hip]
      refine h.arrived i fun q hq => ?_
      rcases List.mem_cons.mp (hperm.subset hq) with rfl | hq
      · exact hip
      · exact hi q hq

end NodeOk

/-! ### The network -/

/-- The ranks below `size`, each with its procedure, memory, trace, invariant and postcondition. -/
structure Spec (ι β σ : Type) where
  size : ℕ
  proc : ℕ → Proc ι β σ
  mem : ℕ → ι → β
  trace : ℕ → List (Event β)
  inv : ℕ → σ → Ghost ι β → Prop
  post : ℕ → σ → (ι → β) → Set ℕ → Prop

/-- A message at one of its ends, without its contents. -/
inductive Side where
  | send (peer : ℕ)
  | recv (peer : ℕ)
  deriving DecidableEq, Repr

/-- The side of a message. -/
def Event.side : Event β → Side
  | .send p .. => .send p
  | .recv p .. => .recv p

omit [DecidableEq ι] in
/-- What the first command of a program posts. -/
def Prog.sides : Prog ι β σ → List Side
  | .isend d .. => [.send d]
  | .irecv _ s .. => [.recv s]
  | _ => []

omit [DecidableEq ι] in
/-- What an action posts for rank `q`. -/
def Net.sides (N : Net ι β σ) : Act → ℕ → List Side
  | .exec r, q => if q = r then
      match (N.node r).ctl with
      | .running p => p.sides
      | _ => []
    else []
  | _, _ => []

omit [DecidableEq ι] in
/-- How many messages the first command of a program posts. -/
def Prog.posts : Prog ι β σ → ℕ
  | .isend .. | .irecv .. => 1
  | _ => 0

omit [DecidableEq ι] in
/-- How many messages an action posts for rank `q`. -/
def Net.takes (N : Net ι β σ) : Act → ℕ → ℕ
  | .exec r, q => if q = r then
      match (N.node r).ctl with
      | .running p => p.posts
      | _ => 0
    else 0
  | _, _ => 0

omit [DecidableEq ι] in
theorem length_sides (p : Prog ι β σ) : p.sides.length = p.posts := by
  cases p <;> rfl

omit [DecidableEq ι] in
theorem length_net_sides (N : Net ι β σ) (a : Act) (q : ℕ) :
    (N.sides a q).length = N.takes a q := by
  cases a with
  | exec r =>
    rw [Net.sides, Net.takes]
    split_ifs
    · split
      · exact length_sides _
      · rfl
    · rfl
  | start | resume | deliver | sent => rfl

namespace Spec

variable (S : Spec ι β σ)

/-- A rank that has not started: it knows of its own start only. -/
def ghost (r : ℕ) : Ghost ι β := ⟨S.mem r, [], S.trace r, {r}⟩

/-- The control of a rank is as its ghost state says. -/
def CtlOk (started : Set ℕ) (r : ℕ) : Ctl ι β σ → Ghost ι β → Prop
  | .idle, g => g = S.ghost r
  | .running p, g => g.know ⊆ started ∧ p.wp ((S.proc r).post (S.inv r) (S.post r)) g
  | .waiting st, g => g.know ⊆ started ∧ S.inv r st g
  | .finished st, g => g.know ⊆ started ∧ g.todo = [] ∧ g.pend = [] ∧ S.post r st g.mem g.know

/-- The invariant of a run, for the ghost states and promises of the ranks and the messages in the
    channels with what they let know. -/
structure Ok (N : Net ι β σ) (gs : ℕ → Ghost ι β) (ps : ℕ → List (Promise ι β))
    (gc : ℕ → ℕ → List (List β × Set ℕ)) : Prop where
  bound : ∀ r, N.Started r → r < S.size
  node : ∀ r, NodeOk {q | N.Started q} (N.node r) (gs r) (ps r)
  ctl : ∀ r, S.CtlOk {q | N.Started q} r (N.node r).ctl (gs r)
  chan : ∀ s r, N.chan s r = (gc s r).map Prod.fst
  chanKnow : ∀ s r, ∀ msg ∈ gc s r, msg.2 ⊆ {q | N.Started q}
  flow : ∀ s r, gc s r ++ sendsTo r (gs s).todo = promisedFrom s (ps r) ++ recvsFrom s (gs r).todo

variable {S}

theorem CtlOk.mono {started started' : Set ℕ} {r : ℕ} {g : Ghost ι β}
    (hsub : started ⊆ started') : ∀ {c : Ctl ι β σ}, S.CtlOk started r c g → S.CtlOk started' r c g
  | .idle, h => h
  | .running _, h => ⟨h.1.trans hsub, h.2⟩
  | .waiting _, h => ⟨h.1.trans hsub, h.2⟩
  | .finished _, h => ⟨h.1.trans hsub, h.2⟩

theorem ok_init (hT : Matched S.trace) :
    S.Ok (Net.init S.mem) S.ghost (fun _ => []) fun _ _ => [] where
  bound _ h := absurd rfl h
  node _ := ⟨rfl, fun _ hp => absurd hp List.not_mem_nil, fun _ he => absurd he List.not_mem_nil,
    fun _ _ => rfl, fun _ hp => absurd hp List.not_mem_nil, List.Pairwise.nil⟩
  ctl _ := rfl
  chan _ _ := rfl
  chanKnow _ _ _ hmsg := absurd hmsg List.not_mem_nil
  flow := hT

section Update

variable {N N' : Net ι β σ} {gs : ℕ → Ghost ι β} {ps : ℕ → List (Promise ι β)}
  {gc gc' : ℕ → ℕ → List (List β × Set ℕ)}

omit [DecidableEq ι] in
theorem started_of_update {r : ℕ} {nd : Node ι β σ}
    (hnodes : N'.node = Function.update N.node r nd) (hstarted : N.Started r → nd.ctl ≠ .idle) :
    {q | N.Started q} ⊆ {q | N'.Started q} := by
  intro q hq
  change (N'.node q).ctl ≠ .idle
  rw [hnodes]
  rcases eq_or_ne q r with rfl | hqr
  · rw [Function.update_self]
    exact hstarted hq
  · rwa [Function.update_of_ne hqr]

/-- One rank takes a step; the other ones need nothing but that ranks stay started. -/
theorem Ok.update (h : S.Ok N gs ps gc) (N' : Net ι β σ) (r : ℕ) (nd : Node ι β σ) (g : Ghost ι β)
    (p : List (Promise ι β)) (gc' : ℕ → ℕ → List (List β × Set ℕ))
    (hnodes : N'.node = Function.update N.node r nd) (hstarted : N.Started r → nd.ctl ≠ .idle)
    (hbound : nd.ctl ≠ .idle → r < S.size) (hnode : NodeOk {q | N'.Started q} nd g p)
      (hctl : S.CtlOk {q | N'.Started q} r nd.ctl g)
    (hchan : ∀ s r, N'.chan s r = (gc' s r).map Prod.fst)
    (hknow : ∀ s r, ∀ msg ∈ gc' s r, msg.2 ⊆ {q | N'.Started q})
    (hflow : ∀ s r', gc' s r' ++ sendsTo r' (Function.update gs r g s).todo =
      promisedFrom s (Function.update ps r p r') ++ recvsFrom s (Function.update gs r g r').todo) :
    S.Ok N' (Function.update gs r g) (Function.update ps r p) gc' := by
  have hsub := started_of_update hnodes hstarted
  refine ⟨fun q hq => ?_, fun q => ?_, fun q => ?_, hchan, hknow, hflow⟩ <;>
    (try rw [Net.Started] at hq) <;> rw [hnodes] at * <;> rcases eq_or_ne q r with rfl | hqr
  · rw [Function.update_self] at hq
    exact hbound hq
  · rw [Function.update_of_ne hqr] at hq
    exact h.bound q hq
  · rwa [Function.update_self, Function.update_self, Function.update_self]
  · rw [Function.update_of_ne hqr, Function.update_of_ne hqr, Function.update_of_ne hqr]
    exact (h.node q).mono hsub
  · rwa [Function.update_self, Function.update_self]
  · rw [Function.update_of_ne hqr, Function.update_of_ne hqr]
    exact (h.ctl q).mono hsub

/-- A step that leaves the channels, the posted receives and the trace alone. -/
theorem Ok.local (h : S.Ok N gs ps gc) {N' : Net ι β σ} {r : ℕ} {nd : Node ι β σ} {g : Ghost ι β}
    (hnodes : N'.node = Function.update N.node r nd) (hchan : N'.chan = N.chan)
    (hstarted : N.Started r → nd.ctl ≠ .idle) (hbound : nd.ctl ≠ .idle → r < S.size)
    (hnode : NodeOk {q | N'.Started q} nd g (ps r))
    (hctl : S.CtlOk {q | N'.Started q} r nd.ctl g) (htodo : g.todo = (gs r).todo) :
    S.Ok N' (Function.update gs r g) ps gc := by
  have hsub := started_of_update hnodes hstarted
  have hsame (q) : (Function.update gs r g q).todo = (gs q).todo := by
    rcases eq_or_ne q r with rfl | hqr
    · rw [Function.update_self, htodo]
    · rw [Function.update_of_ne hqr]
  have hok := h.update N' r nd g (ps r) gc hnodes hstarted hbound hnode hctl
    (fun s r' => by rw [hchan, h.chan]) (fun s r' msg hmsg => (h.chanKnow s r' msg hmsg).trans hsub)
    fun s r' => by rw [hsame, hsame, Function.update_eq_self, h.flow]
  rwa [Function.update_eq_self] at hok

/-- Sending: the message moves from the trace of its sender to the channel. -/
theorem Ok.isend (h : S.Ok N gs ps gc) {r d : ℕ} {src : List ι} {next : Prog ι β σ}
    (hrun : (N.node r).ctl = .running (.isend d src next))
    (hnodes : N'.node = Function.update N.node r
      { N.node r with sends := (N.node r).sends + 1, ctl := .running next })
    (hchan : ∀ s r', N'.chan s r' =
      if s = r ∧ r' = d then N.chan r d ++ [src.map (N.node r).mem] else N.chan s r') :
    ∃ g' ps' gc', S.Ok N' (Function.update gs r g') ps' gc' ∧
      (gs r).todo.map Event.side = .send d :: g'.todo.map Event.side := by
  have hctl := h.ctl r
  rw [hrun] at hctl
  obtain ⟨hknow, hfree, know, rest, htodo, hsub, hwp⟩ := hctl
  have hr : r < S.size := h.bound r (by rw [Net.Started, hrun]; nofun)
  have hvals : src.map (N.node r).mem = src.map (gs r).mem :=
    List.map_congr_left fun i hi => (h.node r).mem_eq (hfree i hi)
  have hstart := started_of_update hnodes nofun
  have hnode : NodeOk {q | N'.Started q}
      { N.node r with sends := (N.node r).sends + 1, ctl := .running next }
      { gs r with todo := rest } (ps r) := (((h.node r).mono hstart).isend rest).of_eq rfl rfl
  refine ⟨_, _, _, h.update N' r _ { gs r with todo := rest } (ps r)
    (fun s r' => if s = r ∧ r' = d then gc r d ++ [(src.map (gs r).mem, know)] else gc s r')
    hnodes nofun (fun _ => hr) hnode ⟨hknow.trans hstart, hwp⟩ (fun s r' => ?_)
      (fun s r' msg hmsg => ?_)
    fun s r' => ?_, by rw [htodo]; rfl⟩
  · rw [hchan, hvals, h.chan, h.chan]
    split_ifs <;> simp
  · split_ifs at hmsg with hsr
    · rcases List.mem_append.mp hmsg with hmsg | hmsg
      · exact (h.chanKnow r d msg hmsg).trans hstart
      · rw [List.mem_singleton.mp hmsg]
        exact (hsub.trans hknow).trans hstart
    · exact (h.chanKnow s r' msg hmsg).trans hstart
  · have hrecvs (q) : recvsFrom s (Function.update gs r { gs r with todo := rest } q).todo =
        recvsFrom s (gs q).todo := by
      rcases eq_or_ne q r with rfl | hqr
      · rw [Function.update_self, htodo, recvsFrom_send]
      · rw [Function.update_of_ne hqr]
    rw [hrecvs, Function.update_eq_self, ← h.flow]
    rcases eq_or_ne s r with rfl | hsr
    · rw [Function.update_self, htodo, sendsTo_send]
      rcases eq_or_ne d r' with rfl | hdr
      · simp
      · rw [if_neg (fun hc => hdr hc.2.symm), if_neg hdr]
    · rw [Function.update_of_ne hsr, if_neg (fun hc => hsr hc.1)]

/-- Posting a receive: the message moves from the trace of its receiver to the promises. -/
theorem Ok.irecv (h : S.Ok N gs ps gc) {r handle s : ℕ} {dst : List ι} {next : Prog ι β σ}
    (hrun : (N.node r).ctl = .running (.irecv handle s dst next))
    (hnodes : N'.node = Function.update N.node r
      { N.node r with recvs := (N.node r).recvs ++ [⟨handle, s, dst⟩], ctl := .running next })
    (hchan : N'.chan = N.chan) : ∃ g' ps' gc', S.Ok N' (Function.update gs r g') ps' gc' ∧
      (gs r).todo.map Event.side = .recv s :: g'.todo.map Event.side := by
  have hctl := h.ctl r
  rw [hrun] at hctl
  obtain ⟨hknow, hfree, vals, know, rest, htodo, hlen, hwp⟩ := hctl
  have hr : r < S.size := h.bound r (by rw [Net.Started, hrun]; nofun)
  have hstart := started_of_update hnodes nofun
  refine ⟨_, _, _, h.update N' r _ _ (ps r ++ [⟨⟨handle, s, dst⟩, vals, know⟩]) gc hnodes nofun
    (fun _ => hr) (((h.node r).mono hstart).irecv hfree hlen rfl rfl) ⟨hknow.trans hstart, hwp⟩
    (fun s r' => by rw [hchan, h.chan])
      (fun s r' msg hmsg => (h.chanKnow s r' msg hmsg).trans hstart)
    fun s' r' => ?_, by rw [htodo]; rfl⟩
  have hsends (q) : sendsTo r' (Function.update gs r
      { gs r with
        mem := writeCells dst vals (gs r).mem,
        pend := (gs r).pend ++ [⟨handle, dst.take vals.length, know⟩], todo := rest } q).todo =
        sendsTo r' (gs q).todo := by
    rcases eq_or_ne q r with rfl | hqr
    · rw [Function.update_self, htodo, sendsTo_recv]
    · rw [Function.update_of_ne hqr]
  rw [hsends, h.flow]
  rcases eq_or_ne r' r with rfl | hr
  · rw [Function.update_self, Function.update_self, htodo, recvsFrom_recv]
    rcases eq_or_ne s s' with rfl | hs
    · simp [promisedFrom]
    · simp [promisedFrom, hs]
  · rw [Function.update_of_ne hr, Function.update_of_ne hr]

/-- A message arrives: it is what the receiver was promised. -/
theorem Ok.deliver (h : S.Ok N gs ps gc) {s r : ℕ} {vals : List β} {msgs : List (List β)}
    {q : Recv ι} {qs : List (Recv ι)} (hmsgs : N.chan s r = vals :: msgs)
    (htake : takeFrom s (N.node r).recvs = some (q, qs))
    (hnodes : N'.node = Function.update N.node r
      { N.node r with mem := writeCells q.dst vals (N.node r).mem, recvs := qs })
    (hchan : ∀ s' r', N'.chan s' r' = if s' = s ∧ r' = r then msgs else N.chan s' r') :
    ∃ ps' gc', S.Ok N' gs ps' gc' := by
  rw [(h.node r).recvs] at htake
  obtain ⟨p, l₁, l₂, hps, rfl, hsrc, rfl, hfrom⟩ := takeFrom_promise htake
  -- the head of the channel is the first promise from its sender
  have hgc := h.chan s r
  rw [hmsgs] at hgc
  obtain ⟨msg, rest, hmsg, rfl, rfl⟩ := List.map_eq_cons_iff.mp hgc.symm
  have hflow := h.flow s r
  rw [hmsg, hfrom, if_pos rfl, List.cons_append, List.cons_append, List.cons.injEq] at hflow
  obtain ⟨rfl, hrest⟩ := hflow
  have hstarted : N.Started r := by
    intro hidle
    have hghost := h.ctl r
    rw [hidle] at hghost
    have hp := (h.node r).tracked p (by rw [hps]; simp)
    rw [show gs r = S.ghost r from hghost] at hp
    exact List.not_mem_nil hp
  have hstart := started_of_update hnodes fun hs => hs
  have hnode := (h.node r).mono hstart
  rw [hps] at hnode
  have hknow : p.know ⊆ {q | N'.Started q} :=
    (h.chanKnow s r (p.vals, p.know) (by rw [hmsg]; simp)).trans hstart
  have hok := h.update N' r _ (gs r) (l₁ ++ l₂)
    (fun s' r' => if s' = s ∧ r' = r then rest else gc s' r') hnodes
    (fun hs => hs) (fun _ => h.bound r hstarted) (hnode.deliver hknow rfl rfl)
    ((h.ctl r).mono hstart) (fun s' r' => ?_) (fun s' r' msg hin => ?_) fun s' r' => ?_
  · rw [Function.update_eq_self] at hok
    exact ⟨_, _, hok⟩
  · rw [hchan, h.chan]
    split_ifs <;> rfl
  · refine (h.chanKnow s' r' msg ?_).trans hstart
    split_ifs at hin with hsr
    · rw [hsr.1, hsr.2, hmsg]
      exact List.mem_cons_of_mem _ hin
    · exact hin
  · rw [Function.update_eq_self]
    rcases eq_or_ne r' r with rfl | hr
    · rw [Function.update_self]
      rcases eq_or_ne s' s with rfl | hs
      · rw [if_pos ⟨rfl, rfl⟩, hrest]
      · rw [if_neg (fun hc => hs hc.1), h.flow, hfrom, if_neg hs]
    · rw [Function.update_of_ne hr, if_neg (fun hc => hr hc.2), h.flow]

/-- A command, one case each: it takes what it posts from the trace. -/
theorem Ok.exec (h : S.Ok N gs ps gc) {r : ℕ} (hr : r < S.size) :
    ∀ {p : Prog ι β σ}, (N.node r).ctl = .running p →
      ∃ g' ps' gc', S.Ok (N.exec (S.proc r).active r p) (Function.update gs r g') ps' gc' ∧
        (gs r).todo.map Event.side = p.sides ++ g'.todo.map Event.side
  | .pure st, hrun => by
    have hctl := h.ctl r
    rw [hrun] at hctl
    obtain ⟨hknow, hinv, hdone⟩ := hctl
    have hne : (if (S.proc r).active st then Ctl.waiting st else .finished st : Ctl ι β σ) ≠
        .idle := by split_ifs <;> nofun
    have hstart : {q | N.Started q} ⊆
        {q | (N.exec (S.proc r).active r (.pure st)).Started q} :=
      started_of_update rfl fun _ => hne
    refine ⟨_, _, _, h.local (g := gs r) rfl rfl (fun _ => hne) (fun _ => hr)
      (((h.node r).mono hstart).of_eq rfl rfl) ?_ rfl, rfl⟩
    by_cases hact : (S.proc r).active st = true
    · rw [if_pos hact]
      exact ⟨hknow.trans hstart, hinv⟩
    · rw [if_neg hact]
      exact ⟨hknow.trans hstart, hdone (Bool.eq_false_iff.mpr hact)⟩
  | .isend d src next, hrun => h.isend hrun rfl fun _ _ => rfl
  | .irecv handle s dst next, hrun => h.irecv hrun rfl rfl
  | .zip f src dst next, hrun => by
    have hctl := h.ctl r
    rw [hrun] at hctl
    obtain ⟨hknow, hsrc, hdst, hwp⟩ := hctl
    have hstart : {q | N.Started q} ⊆
        {q | (N.exec (S.proc r).active r (.zip f src dst next)).Started q} :=
      started_of_update rfl nofun
    exact ⟨_, _, _, h.local rfl rfl nofun (fun _ => hr)
      (((h.node r).mono hstart).zip hsrc hdst rfl rfl) ⟨hknow.trans hstart, hwp⟩ rfl, rfl⟩
  | .testall next, hrun => by
    have hctl := h.ctl r
    rw [hrun] at hctl
    obtain ⟨hknow, htrue, hfalse⟩ := hctl
    have hstart : {q | N.Started q} ⊆
        {q | (N.exec (S.proc r).active r (.testall next)).Started q} :=
      started_of_update rfl nofun
    have hnode := (h.node r).mono hstart
    by_cases hempty : ((N.node r).recvs.isEmpty && (N.node r).sends == 0) = true
    · have hrecvs : (N.node r).recvs = [] := by
        rw [Bool.and_eq_true] at hempty
        exact List.isEmpty_iff.mp hempty.1
      refine ⟨_, _, _, h.local rfl rfl nofun (fun _ => hr) ((hnode.doneAll hrecvs).of_eq rfl rfl)
        ⟨hnode.learn_doneAll (hknow.trans hstart) hrecvs, ?_⟩ rfl, rfl⟩
      rwa [hempty]
    · refine ⟨_, _, _, h.local rfl rfl nofun (fun _ => hr) (hnode.of_eq rfl rfl)
        ⟨hknow.trans hstart, ?_⟩ rfl, rfl⟩
      rwa [Bool.eq_false_iff.mpr hempty]
  | .test handle next, hrun => by
    have hctl := h.ctl r
    rw [hrun] at hctl
    obtain ⟨hknow, htrue, hfalse⟩ := hctl
    have hstart : {q | N.Started q} ⊆
        {q | (N.exec (S.proc r).active r (.test handle next)).Started q} :=
      started_of_update rfl nofun
    have hnode := (h.node r).mono hstart
    by_cases hall : ((N.node r).recvs.all (·.handle != handle)) = true
    · have hover : ∀ p ∈ (N.node r).recvs, p.handle ≠ handle := by simpa using hall
      refine ⟨_, _, _, h.local rfl rfl nofun (fun _ => hr) ((hnode.done hover).of_eq rfl rfl)
        ⟨hnode.learn_done (hknow.trans hstart) hover, ?_⟩ rfl, rfl⟩
      rwa [hall]
    · refine ⟨_, _, _, h.local rfl rfl nofun (fun _ => hr) (hnode.of_eq rfl rfl)
        ⟨hknow.trans hstart, ?_⟩ rfl, rfl⟩
      rwa [Bool.eq_false_iff.mpr hall]

end Update

/-- Every action keeps the invariant, and takes what it posts from the traces. -/
theorem Ok.step (hS : ∀ r < S.size, (S.proc r).Follows (S.inv r) (S.post r) (S.ghost r))
    {N N' : Net ι β σ} {gs : ℕ → Ghost ι β} {ps : ℕ → List (Promise ι β)}
    {gc : ℕ → ℕ → List (List β × Set ℕ)} (h : S.Ok N gs ps gc) :
    ∀ {a : Act}, N.step S.size S.proc a = some N' → ∃ gs' ps' gc', S.Ok N' gs' ps' gc' ∧
      ∀ q, (gs q).todo.map Event.side = N.sides a q ++ (gs' q).todo.map Event.side
  | .start r, hstep => by
    rw [Net.step] at hstep
    split at hstep
    · next hidle =>
      split at hstep
      · next hr =>
        cases hstep
        have hghost : gs r = S.ghost r := by simpa [hidle, CtlOk] using h.ctl r
        have hstart : {q | N.Started q} ⊆
            {q | (N.setCtl r (.running (S.proc r).trigger)).Started q} :=
          started_of_update rfl nofun
        have hself : r ∈ {q | (N.setCtl r (.running (S.proc r).trigger)).Started q} := by
          simp [Net.Started, Net.setCtl, Net.setNode]
        refine ⟨_, _, _, h.local (g := gs r) rfl rfl nofun (fun _ => hr)
          (((h.node r).mono hstart).of_eq rfl rfl) ⟨?_, ?_⟩ rfl, fun q => ?_⟩
        · rw [hghost]
          exact Set.singleton_subset_iff.mpr hself
        · rw [hghost]
          exact (hS r hr).trigger
        · rw [Function.update_eq_self]
          rfl
      · cases hstep
    · cases hstep
  | .exec r, hstep => by
    rw [Net.step] at hstep
    split at hstep
    · next p hrun =>
      cases hstep
      obtain ⟨g', ps', gc', hok, hlen⟩ := h.exec (h.bound r (by rw [Net.Started, hrun]; nofun)) hrun
      refine ⟨_, ps', gc', hok, fun q => ?_⟩
      rcases eq_or_ne q r with rfl | hq
      · rw [Function.update_self, hlen, Net.sides, if_pos rfl, hrun]
      · rw [Function.update_of_ne hq, Net.sides, if_neg hq, List.nil_append]
    · cases hstep
  | .resume r, hstep => by
    rw [Net.step] at hstep
    split at hstep
    · next st hwait =>
      cases hstep
      have hr : r < S.size := h.bound r (by rw [Net.Started, hwait]; nofun)
      have hctl := h.ctl r
      rw [hwait] at hctl
      obtain ⟨hknow, hinv⟩ := hctl
      have hstart : {q | N.Started q} ⊆
          {q | (N.setCtl r (.running ((S.proc r).progress st))).Started q} :=
        started_of_update rfl nofun
      refine ⟨_, _, _, h.local (g := gs r) rfl rfl nofun (fun _ => hr)
        (((h.node r).mono hstart).of_eq rfl rfl)
        ⟨hknow.trans hstart, (hS r hr).progress st _ hinv⟩ rfl, fun q => ?_⟩
      rw [Function.update_eq_self]
      rfl
    · cases hstep
  | .deliver s r, hstep => by
    rw [Net.step] at hstep
    split at hstep
    · next vals msgs q qs hmsgs htake =>
      obtain rfl := Option.some.inj hstep
      refine ⟨gs, ?_⟩
      simp only [Net.sides, List.nil_append, implies_true, and_true]
      exact h.deliver hmsgs htake rfl fun _ _ => rfl
    · cases hstep
  | .sent r, hstep => by
    rw [Net.step] at hstep
    split at hstep
    · next k hk =>
      cases hstep
      have hstart : {q | N.Started q} ⊆
          {q | (N.setNode r { N.node r with sends := k }).Started q} :=
        started_of_update rfl fun hs => hs
      refine ⟨_, _, _, h.local (g := gs r) rfl rfl (fun hs => hs) (h.bound r)
        (((h.node r).mono hstart).of_eq rfl rfl) ((h.ctl r).mono hstart) rfl, fun q => ?_⟩
      rw [Function.update_eq_self]
      rfl
    · cases hstep

omit [DecidableEq ι] in
/-- In numbers. -/
theorem length_todo {gs gs' : ℕ → Ghost ι β} {N : Net ι β σ} {a : Act} {q : ℕ}
    (h : (gs q).todo.map Event.side = N.sides a q ++ (gs' q).todo.map Event.side) :
    (gs q).todo.length = (gs' q).todo.length + N.takes a q := by
  have hlen := congrArg List.length h
  rw [List.length_append, List.length_map, List.length_map, length_net_sides] at hlen
  omega

/-- Every run keeps the invariant. -/
theorem Ok.run (hS : ∀ r < S.size, (S.proc r).Follows (S.inv r) (S.post r) (S.ghost r)) :
    ∀ {acts : List Act} {N N' : Net ι β σ} {gs : ℕ → Ghost ι β} {ps : ℕ → List (Promise ι β)}
      {gc : ℕ → ℕ → List (List β × Set ℕ)}, S.Ok N gs ps gc →
      N.run S.size S.proc acts = some N' → ∃ gs' ps' gc', S.Ok N' gs' ps' gc'
  | [], _, _, _, _, _, h, hrun => by
    cases hrun
    exact ⟨_, _, _, h⟩
  | a :: acts, N, N', _, _, _, h, hrun => by
    obtain ⟨N₁, hstep, hrun⟩ := Option.bind_eq_some_iff.mp hrun
    obtain ⟨_, _, _, h₁, -⟩ := h.step hS hstep
    exact h₁.run hS hrun

end Spec

/-- Ranks that follow matched traces: whenever one of them has finished, it has met its
    postcondition, and the ranks it knows to have started have started. -/
theorem finished_ok {n : ℕ} {proc : ℕ → Proc ι β σ} {mem : ℕ → ι → β}
    {trace : ℕ → List (Event β)} {post : ℕ → σ → (ι → β) → Set ℕ → Prop}
    (hmatch : Matched trace)
    (hmeets : ∀ r < n, (proc r).Meets (post r) ⟨mem r, [], trace r, {r}⟩) {acts : List Act}
    {N : Net ι β σ} (hrun : (Net.init mem).run n proc acts = some N) {r : ℕ} {st : σ}
    (hfin : N.FinishedIn r st) :
    ∃ know, post r st (N.node r).mem know ∧ ∀ q ∈ know, N.Started q := by
  choose! inv hinv using hmeets
  let S : Spec ι β σ := ⟨n, proc, mem, trace, inv, post⟩
  obtain ⟨gs, ps, gc, h⟩ := (Spec.ok_init (S := S) hmatch).run hinv hrun
  have hctl := h.ctl r
  rw [show (N.node r).ctl = .finished st from hfin] at hctl
  obtain ⟨hknow, -, hpend, hpost⟩ := hctl
  have hmem : (N.node r).mem = (gs r).mem := by
    funext i
    exact (h.node r).mem_eq fun p hp => absurd (hpend ▸ hp) List.not_mem_nil
  exact ⟨(gs r).know, by rwa [hmem], fun q hq => hknow hq⟩

end Kucg.Lib
