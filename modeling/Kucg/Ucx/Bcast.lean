import Kucg.Algo.Exchange
import Kucg.Ucx.PlanOp
import Kucg.Ucx.P2p

/-! Broadcasts that cut the buffer of the root into ranges and move these between the ranks.

    Ranks are numbered from the root on and the buffer is cut into blocks. A schedule of such a
    broadcast moves blocks; `BcastSpreads` says that it brings every block to every rank, and
    `BcastSpreads.meets` what the ranks do that execute it. -/

namespace Kucg.Ucx

open Kucg.Core Kucg.Lib Kucg.Algo

variable {B β : Type}

/-- `ucg_coll_bcast_args_t`. -/
structure BcastArgs (B : Type) where
  buffer : Cell B
  count : ℕ
  root : ℕ

/-- The element at an offset in the buffer. -/
def BcastArgs.cell (args : BcastArgs B) (off : ℕ) : Cell B := (args.buffer.1, args.buffer.2 + off)

/-- The `count` elements of the buffer from the offset `off` on. -/
def BcastArgs.part (args : BcastArgs B) (off count : ℕ) : List (Cell B) :=
  span (args.cell off) count

theorem BcastArgs.part_eq (args : BcastArgs B) (off count : ℕ) :
    args.part off count = (List.range' off count).map args.cell := by
  rw [BcastArgs.part, span, List.range'_eq_map_range, List.map_map]
  refine List.map_congr_left fun j _ => ?_
  simp [BcastArgs.cell, Nat.add_assoc]

theorem BcastArgs.cell_injective (args : BcastArgs B) : Function.Injective args.cell :=
  fun _ _ h => Nat.add_left_cancel (congrArg Prod.snd h)

/-! ### Ranks numbered from the root on -/

/-- The number of rank `r`. -/
def fromRoot (n root r : ℕ) : ℕ := (r + n - root) % n

/-- The rank that `v` stands for. -/
def toRank (n root v : ℕ) : ℕ := (v + root) % n

section Numbering

variable {n root r v : ℕ}

theorem fromRoot_lt (hroot : root < n) : fromRoot n root r < n := Nat.mod_lt _ (by omega)

theorem toRank_lt (hroot : root < n) : toRank n root v < n := Nat.mod_lt _ (by omega)

theorem toRank_eq_iff (hroot : root < n) (hr : r < n) (hv : v < n) :
    toRank n root v = r ↔ v = fromRoot n root r := by
  rw [toRank, fromRoot, mod_eq_ite (by omega), mod_eq_ite (by omega)]
  split_ifs <;> omega

theorem fromRoot_eq_zero_iff (hroot : root < n) (hr : r < n) :
    fromRoot n root r = 0 ↔ r = root := by
  rw [fromRoot, mod_eq_ite (by omega)]
  split_ifs <;> omega

theorem fromRoot_pos (hroot : root < n) (hr : r < n) (hne : r ≠ root) : 0 < fromRoot n root r :=
  Nat.pos_of_ne_zero fun hz => hne ((fromRoot_eq_zero_iff hroot hr).mp hz)

theorem toRank_fromRoot (hroot : root < n) (hr : r < n) : toRank n root (fromRoot n root r) = r :=
  (toRank_eq_iff hroot hr (fromRoot_lt hroot)).mpr rfl

theorem fromRoot_toRank (hroot : root < n) (hv : v < n) : fromRoot n root (toRank n root v) = v :=
  ((toRank_eq_iff hroot (toRank_lt hroot) hv).mp rfl).symm

theorem toRank_add_sub_mod (hroot : root < n) (hv : v < n) : (toRank n root v + n - root) % n = v :=
  fromRoot_toRank hroot hv

theorem toRank_zero (hroot : root < n) : toRank n root 0 = root := by
  rw [toRank, Nat.zero_add, Nat.mod_eq_of_lt hroot]

theorem toRank_eq_root_iff (hroot : root < n) (hv : v < n) : toRank n root v = root ↔ v = 0 := by
  rw [← fromRoot_eq_zero_iff hroot (toRank_lt hroot), fromRoot_toRank hroot hv]

theorem toRank_inj (hroot : root < n) {w : ℕ} (hv : v < n) (hw : w < n) :
    toRank n root v = toRank n root w ↔ v = w := by
  rw [toRank_eq_iff hroot (toRank_lt hroot) hv, fromRoot_toRank hroot hw]

/-- The neighbours of a rank are those of its number. -/
theorem rightOf_toRank : rightOf n (toRank n root v) = toRank n root (rightOf n v) := by
  rw [toRank, toRank, rightOf, rightOf, Nat.mod_add_mod, Nat.mod_add_mod]
  congr 1
  omega

theorem leftOf_toRank (hroot : root < n) (hv : v < n) :
    leftOf n (toRank n root v) = toRank n root (leftOf n v) := by
  rw [toRank, toRank, leftOf, leftOf, Nat.mod_add_mod, mod_eq_ite (by omega : v + root < 2 * n)]
  split_ifs with hlt
  · congr 1
    omega
  · rw [show v + root - n + n - 1 = v + root - 1 by omega,
      show v + n - 1 + root = v + root - 1 + n by omega, Nat.add_mod_right]

/-- The neighbours, by their numbers from the root. -/
theorem toRank_rightOf (hroot : root < n) (hr : r < n) :
    toRank n root (rightOf n (fromRoot n root r)) = rightOf n r := by
  rw [← rightOf_toRank, toRank_fromRoot hroot hr]

theorem toRank_leftOf (hroot : root < n) (hr : r < n) :
    toRank n root (leftOf n (fromRoot n root r)) = leftOf n r := by
  rw [← leftOf_toRank hroot (fromRoot_lt hroot), toRank_fromRoot hroot hr]

theorem numbering_fromRoot (hroot : root < n) : Numbering n (fromRoot n root) (toRank n root) where
  num_lt _ _ := fromRoot_lt hroot
  rank_lt _ _ := toRank_lt hroot
  rank_eq_iff _ hr _ hv := toRank_eq_iff hroot hr hv

end Numbering

/-! ### Blocks of the buffer -/

/-- `count` elements are cut into `K` blocks, block `b` being from `off b` to `off (b + 1)`. -/
structure Cut (count K : ℕ) (off : ℕ → ℕ) : Prop where
  mono : Monotone off
  zero : off 0 = 0
  last : off K = count

/-- The elements of a block. -/
def BcastArgs.blockCells (args : BcastArgs B) (off : ℕ → ℕ) (b : ℕ) : List (Cell B) :=
  args.part (off b) (off (b + 1) - off b)

section Blocks

variable {args : BcastArgs B} {count K : ℕ} {off : ℕ → ℕ}

/-- Blocks one after another. -/
theorem blockCells_range' (hmono : Monotone off) (a k : ℕ) :
    (List.range' a k).flatMap (args.blockCells off) =
      args.part (off a) (off (a + k) - off a) := by
  induction k with
  | zero => simp [BcastArgs.part, span]
  | succ k ih =>
    have h₁ : off a ≤ off (a + k) := hmono (Nat.le_add_right ..)
    have h₂ : off (a + k) ≤ off (a + k + 1) := hmono (Nat.le_succ _)
    rw [List.range'_concat, Nat.one_mul, List.flatMap_append, ih, List.flatMap_singleton,
      BcastArgs.blockCells, args.part_eq, args.part_eq, args.part_eq, ← List.map_append,
      show off (a + (k + 1)) - off a = off (a + k) - off a + (off (a + k + 1) - off (a + k)) by
        rw [← Nat.add_assoc]; omega,
      ← List.range'_append_1, show off a + (off (a + k) - off a) = off (a + k) by omega]

theorem mem_blockCells {b : ℕ} {i : Cell B} : i ∈ args.blockCells off b ↔
    ∃ j, off b ≤ j ∧ j < off (b + 1) ∧ i = args.cell j := by
  rw [BcastArgs.blockCells, args.part_eq, List.mem_map]
  simp only [List.mem_range'_1]
  constructor
  · rintro ⟨j, hj, rfl⟩
    exact ⟨j, by omega, by omega, rfl⟩
  · rintro ⟨j, h₁, h₂, rfl⟩
    exact ⟨j, by omega, rfl⟩

/-- Every element is in a block. -/
theorem exists_block (hzero : off 0 = 0) {j : ℕ} : ∀ {K : ℕ}, j < off K →
    ∃ b < K, off b ≤ j ∧ j < off (b + 1)
  | 0, h => by omega
  | K + 1, h => by
    rcases lt_or_ge j (off K) with hlt | hge
    · obtain ⟨b, hb, hj⟩ := exists_block hzero hlt
      exact ⟨b, by omega, hj⟩
    · exact ⟨K, K.lt_succ_self, hge, h⟩

/-- Two blocks have no element in common. -/
theorem blockCells_disjoint (hmono : Monotone off) {a b : ℕ} (hne : a ≠ b) :
    ∀ i ∈ args.blockCells off a, i ∉ args.blockCells off b := by
  intro i ha hb
  obtain ⟨j, h₁, h₂, rfl⟩ := mem_blockCells.mp ha
  obtain ⟨j', h₃, h₄, heq⟩ := mem_blockCells.mp hb
  obtain rfl := args.cell_injective heq
  rcases Nat.lt_or_gt_of_ne hne with hlt | hlt
  · have : off (a + 1) ≤ off b := hmono hlt
    omega
  · have : off (b + 1) ≤ off a := hmono hlt
    omega

end Blocks

/-! ### Schedules that spread a buffer -/

/-- Rounds that bring `K` blocks from number 0 to all of `n` ranks, which have the empty ones, with
    each message some blocks that are next to each other. -/
structure BcastSpreads (n K : ℕ) (off : ℕ → ℕ) (x : ℕ → β) (rounds : List (ℕ → Sched ℕ β)) :
    Prop extends
    Spreads n {b | b < K} (fun v => {b | v = 0 ∨ off (b + 1) ≤ off b}) x rounds where
  ranges : ∀ R ∈ rounds, ∀ v < n, ∀ w < n, ∀ src ∈ (R v).sendsTo w, ∃ a k, src = List.range' a k

/-- The memory of rank `r` when its buffer holds `x`. -/
def bcastGoal [DecidableEq B] (args : ℕ → BcastArgs B) (m : ℕ → Cell B → β) (x : ℕ → β) (r : ℕ)
    (i : Cell B) : β :=
  if i ∈ span (args r).buffer (args r).count then x (i.2 - (args r).buffer.2) else m r i

/-- The rounds of the ranks on their buffers. -/
def bcastRounds (n root : ℕ) (args : ℕ → BcastArgs B) (off : ℕ → ℕ)
    (rounds : List (ℕ → Sched ℕ β)) : List (ℕ → Sched (Cell B) β) :=
  expandRounds (fun r => (args r).blockCells off) (fromRoot n root) (toRank n root) rounds

/-- All ranks call for the broadcast of `count` elements from `root`, whose buffer holds `x`. -/
structure BcastCall (n count root : ℕ) (args : ℕ → BcastArgs B) (m : ℕ → Cell B → β)
    (x : ℕ → β) : Prop where
  root_lt : root < n
  same : ∀ r < n, (args r).count = count ∧ (args r).root = root
  input : Holds (m root) (args root).buffer count x

namespace BcastSpreads

variable [DecidableEq B] {n K count root : ℕ} {args : ℕ → BcastArgs B} {m : ℕ → Cell B → β}
  {x : ℕ → β} {off : ℕ → ℕ} {rounds : List (ℕ → Sched ℕ β)}

theorem bcastGoal_cell {r j : ℕ} (hcount : (args r).count = count) (hj : j < count) :
    bcastGoal args m x r ((args r).cell j) = x j := by
  have hmem : (args r).cell j ∈ span (args r).buffer (args r).count :=
    mem_span.mpr ⟨rfl, Nat.le_add_right .., by rw [hcount]; exact Nat.add_lt_add_left hj _⟩
  rw [bcastGoal, if_pos hmem]
  exact congrArg x (Nat.add_sub_cancel_left ..)

/-- The memory of the root is to stay as it is. -/
theorem bcastGoal_root (hcall : BcastCall n count root args m x) :
    bcastGoal args m x root = m root := by
  funext i
  rw [bcastGoal]
  split_ifs with hi
  · rw [(hcall.same root hcall.root_lt).1] at hi
    obtain ⟨h₁, h₂, h₃⟩ := mem_span.mp hi
    rw [← hcall.input _ (show i.2 - (args root).buffer.2 < count by omega)]
    exact congrArg (m root) (Prod.ext h₁.symm (by simp; omega))
  · rfl

theorem gathering (h : BcastSpreads n K off x rounds) (hcut : Cut count K off)
    (hcall : BcastCall n count root args m x) :
    Gathering n m (bcastGoal args m x) (bcastRounds n root args off rounds) := by
  have hle (b) (hb : b < K) : off (b + 1) ≤ count := hcut.last ▸ hcut.mono hb
  refine h.toSpreads.gathering (numbering_fromRoot hcall.root_lt)
    (fun r _ a _ b _ hne => blockCells_disjoint hcut.mono hne) (fun s hs r hr b hb => ?_)
    (fun r hr b hb _ i hi => ?_) (fun r hr i hi => if_neg fun hmem => ?_)
  · rw [BcastArgs.blockCells, BcastArgs.blockCells, BcastArgs.part_eq, BcastArgs.part_eq,
      List.map_map, List.map_map]
    refine List.map_congr_left fun j hj => ?_
    have hj : j < count := by
      have := hle b hb
      rw [List.mem_range'_1] at hj
      omega
    exact (bcastGoal_cell (hcall.same s hs).1 hj).trans (bcastGoal_cell (hcall.same r hr).1 hj).symm
  · rcases hb with hb | hb
    · obtain rfl := (fromRoot_eq_zero_iff hcall.root_lt hr).mp hb
      exact congrFun (bcastGoal_root hcall) i
    · obtain ⟨j, h₁, h₂, -⟩ := mem_blockCells.mp hi
      exact absurd (h₂.trans_le hb) h₁.not_gt
  · rw [(hcall.same r hr).1] at hmem
    obtain ⟨h₁, h₂, h₃⟩ := mem_span.mp hmem
    obtain ⟨b, hb, hj⟩ := exists_block hcut.zero (j := i.2 - (args r).buffer.2) (K := K)
      (by rw [hcut.last]; omega)
    refine hi b hb (mem_blockCells.mpr ⟨_, hj.1, hj.2, Prod.ext h₁ ?_⟩)
    simp only [BcastArgs.cell]
    omega

omit [DecidableEq B] in
/-- In all rounds, what a rank sends to another one is what that one receives, range by range. -/
theorem ranges_match (h : BcastSpreads n K off x rounds) (hmono : Monotone off)
    (hroot : root < n) {s r : ℕ} (hs : s < n) (hr : r < n) : ∃ ranges : List (ℕ × ℕ),
      Sched.sendsTo r ((bcastRounds n root args off rounds).flatMap fun R => R s) =
        ranges.map (fun p => (args s).part p.1 p.2) ∧
      Sched.recvsFrom s ((bcastRounds n root args off rounds).flatMap fun R => R r) =
        ranges.map (fun p => (args r).part p.1 p.2) := by
  have hnum := numbering_fromRoot hroot
  have hmoves := h.moves_all (hnum.num_lt s hs)
  -- the messages in numbers of blocks
  have hmsgs : Sched.sendsTo (fromRoot n root r) (rounds.flatMap fun R => R (fromRoot n root s)) ∈
      Set.range (List.map fun p : ℕ × ℕ => List.range' p.1 p.2) := by
    rw [Set.range_list_map, sendsTo_flatMap]
    intro src hsrc
    obtain ⟨R, hR, hsrc⟩ := List.mem_flatMap.mp hsrc
    obtain ⟨a, k, rfl⟩ := h.ranges R hR _ (hnum.num_lt s hs) _ (hnum.num_lt r hr) src hsrc
    exact ⟨(a, k), rfl⟩
  obtain ⟨msgs, hmsgs⟩ := hmsgs
  have hpart (q) : (List.map (fun p : ℕ × ℕ => List.range' p.1 p.2) msgs).map
      (·.flatMap ((args q).blockCells off)) =
        (msgs.map fun p => (off p.1, off (p.1 + p.2) - off p.1)).map
          fun p => (args q).part p.1 p.2 := by
    rw [List.map_map, List.map_map]
    exact List.map_congr_left fun p _ => blockCells_range' hmono p.1 p.2
  refine ⟨msgs.map fun p => (off p.1, off (p.1 + p.2) - off p.1), ?_, ?_⟩
  · rw [← hpart, hmsgs, bcastRounds, Spreads.flatMap_expandRounds,
      sendsTo_expand hmoves (hnum.rank_eq_iff r hr)]
  · rw [← hpart, hmsgs, bcastRounds, Spreads.flatMap_expandRounds,
      recvsFrom_expand (h.moves_all (hnum.num_lt r hr)) (hnum.rank_eq_iff s hs),
      h.matched_all (hnum.num_lt s hs) (hnum.num_lt r hr)]

end BcastSpreads

/-! ### Every run -/

section Runs

variable [DecidableEq B]

/-- What a broadcast does, in a state `N` that the actions `acts` lead to: a rank that has finished
    has the buffer of the root and nothing else has changed; the memory of the root is as it was;
    all ranks can finish; and when they have, the messages that one rank has sent to another one are
    those that this one has received, range by range. -/
structure BcastMeets {σ : Type} (n count root : ℕ) (args : ℕ → BcastArgs B) (m : ℕ → Cell B → β)
    (x : ℕ → β) (proc : ℕ → Proc (Cell B) β σ) (status : σ → Status) (acts : List Act)
    (N : Net (Cell B) β σ) : Prop where
  finished : ∀ r op, N.FinishedIn r op → status op = .ok ∧
    Holds (N.node r).mem (args r).buffer count x ∧
    ∀ i, i ∉ span (args r).buffer count → (N.node r).mem i = m r i
  root_mem : (N.node root).mem = m root
  live : ∃ acts' N', N.run n proc acts' = some N' ∧ ∀ r < n, ∃ op, N'.FinishedIn r op
  matched : (∀ r < n, ∃ op, N.FinishedIn r op) → ∀ s < n, ∀ r < n, ∃ ranges : List (ℕ × ℕ),
    Sched.sendsTo r (Net.posts n proc s (Net.init m) acts) =
      ranges.map (fun p => (args s).part p.1 p.2) ∧
    Sched.recvsFrom s (Net.posts n proc r (Net.init m) acts) =
      ranges.map (fun p => (args r).part p.1 p.2)

/-- Ranks whose operations execute schedules that spread the buffer. -/
theorem BcastSpreads.meets {O : Type} {n K count root id : ℕ} {args : ℕ → BcastArgs B}
    {m : ℕ → Cell B → β} {x : ℕ → β} {off : ℕ → ℕ} {rounds : List (ℕ → Sched ℕ β)}
    {f : OpFuncs (Prog (Cell B) β) O} {status : O → Status} {op₀ : ℕ → O}
    {Rel : ℕ → O → Sched (Cell B) β → Prop} (h : BcastSpreads n K off x rounds)
    (hcut : Cut count K off) (hcall : BcastCall n count root args m x)
    (hop : ∀ r < n, OpRuns f status id (op₀ r) (Rel r)
      (Sched.expand ((args r).blockCells off) (toRank n root)
        (rounds.flatMap fun R => R (fromRoot n root r))))
    {acts : List Act} {N : Net (Cell B) β O}
    (hrun : (Net.init m).run n (fun r => opProc f status (op₀ r) id) acts = some N) :
    BcastMeets n count root args m x (fun r => opProc f status (op₀ r) id) status acts N := by
  have hg := h.gathering hcut hcall
  have hruns (r) (hr : r < n) : (opProc f status (op₀ r) id).Runs
      (fun op cs => Rel r op cs ∧ (status op = .inprogress ∨ status op = .ok))
      (Gathering.sched n (bcastRounds n root args off rounds) r) := by
    rw [Gathering.sched, if_pos hr, bcastRounds, Spreads.flatMap_expandRounds]
    exact (hop r hr).runs
  have hbound (r) (op) (hfin : N.FinishedIn r op) : r < n := by
    obtain ⟨M, hsim, -⟩ := hg.reached hruns hrun
    exact hsim.bound r (by rw [Net.Started, hfin]; simp)
  refine ⟨fun r op hfin => ?_, funext fun i => ?_, hg.live hruns hrun, fun hall s hs r hr => ?_⟩
  · obtain ⟨⟨-, hst⟩, hact, hmem⟩ := hg.finished hruns hrun hfin
    have hcount := (hcall.same r (hbound r op hfin)).1
    refine ⟨hst.resolve_left (of_decide_eq_false hact), fun j hj => ?_, fun i hi => ?_⟩
    · rw [hmem]
      exact BcastSpreads.bcastGoal_cell hcount hj
    · rw [hmem]
      exact if_neg (by rwa [hcount])
  · exact hg.keeps hruns hrun hcall.root_lt (congrFun (BcastSpreads.bcastGoal_root hcall) i)
  · obtain ⟨op, hop⟩ := hall s hs
    obtain ⟨op', hop'⟩ := hall r hr
    rw [hg.posts hruns hrun hop, hg.posts hruns hrun hop', sendsTo_posts, recvsFrom_posts]
    exact h.ranges_match hcut.mono hcall.root_lt hs hr

/-- Two ranks that have finished have exchanged the messages of the rounds, on the cells of their
    buffers. -/
theorem BcastSpreads.messages {O : Type} {n K count root id : ℕ} {args : ℕ → BcastArgs B}
    {m : ℕ → Cell B → β} {x : ℕ → β} {off : ℕ → ℕ} {rounds : List (ℕ → Sched ℕ β)}
    {f : OpFuncs (Prog (Cell B) β) O} {status : O → Status} {op₀ : ℕ → O}
    {Rel : ℕ → O → Sched (Cell B) β → Prop} (h : BcastSpreads n K off x rounds)
    (hcut : Cut count K off) (hcall : BcastCall n count root args m x)
    (hop : ∀ r < n, OpRuns f status id (op₀ r) (Rel r)
      (Sched.expand ((args r).blockCells off) (toRank n root)
        (rounds.flatMap fun R => R (fromRoot n root r))))
    {acts : List Act} {N : Net (Cell B) β O}
    (hrun : (Net.init m).run n (fun r => opProc f status (op₀ r) id) acts = some N) {s r : ℕ}
    (hs : s < n) (hr : r < n) {op op' : O} (hfin : N.FinishedIn s op)
    (hfin' : N.FinishedIn r op') :
    let msgs := Sched.sendsTo (fromRoot n root r) (rounds.flatMap fun R => R (fromRoot n root s))
    Sched.sendsTo r (Net.posts n (fun r => opProc f status (op₀ r) id) s (Net.init m) acts) =
        msgs.map (·.flatMap ((args s).blockCells off)) ∧
      Sched.recvsFrom s (Net.posts n (fun r => opProc f status (op₀ r) id) r (Net.init m) acts) =
        msgs.map (·.flatMap ((args r).blockCells off)) := by
  have hg := h.gathering hcut hcall
  have hnum := numbering_fromRoot hcall.root_lt
  have hruns (r) (hr : r < n) : (opProc f status (op₀ r) id).Runs
      (fun op cs => Rel r op cs ∧ (status op = .inprogress ∨ status op = .ok))
      (Gathering.sched n (bcastRounds n root args off rounds) r) := by
    rw [Gathering.sched, if_pos hr, bcastRounds, Spreads.flatMap_expandRounds]
    exact (hop r hr).runs
  intro msgs
  rw [hg.posts hruns hrun hfin, hg.posts hruns hrun hfin', sendsTo_posts, recvsFrom_posts,
    bcastRounds, Spreads.flatMap_expandRounds, Spreads.flatMap_expandRounds,
    sendsTo_expand (h.moves_all (hnum.num_lt s hs)) (hnum.rank_eq_iff r hr),
    recvsFrom_expand (h.moves_all (hnum.num_lt r hr)) (hnum.rank_eq_iff s hs),
    ← h.matched_all (hnum.num_lt s hs) (hnum.num_lt r hr)]
  exact ⟨rfl, rfl⟩

end Runs

/-! Two ranks and two elements, from rank 0. -/

def pairArgs (_r : ℕ) : BcastArgs (Fin 1) := ⟨(0, 0), 2, 0⟩

def pairMem (r : ℕ) (c : Cell (Fin 1)) : ℕ := if r = 0 then c.2 + 5 else 0

theorem pairCall : BcastCall 2 2 0 pairArgs pairMem fun j => j + 5 where
  root_lt := by decide
  same _ _ := ⟨rfl, rfl⟩
  input j _ := by simp [pairMem, pairArgs]

end Kucg.Ucx
