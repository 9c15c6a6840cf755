import Kucg.Lib.Blocks
import Kucg.Ucx.P2p
import Kucg.Ucx.PlanOp

/-! Allgatherv: every rank contributes a block, and all blocks come to all ranks.

    The blocks lie in the receive buffer of a rank at displacements of its own. They are given here
    as lists of bytes, in the order in which the datatype packs them. An algorithm copies a rank's
    contribution to its place and then moves blocks between the ranks; `AllgathervCall.meets` says
    what comes of schedules that bring every block to every rank. -/

namespace Kucg.Ucx

open Kucg.Core Kucg.Lib

variable {B β : Type}

/-! ### Buffers of datatypes -/

/-- A byte: the buffer and an offset, which may be negative. -/
abbrev Addr (B : Type) := B × ℤ

/-- `ucg_dt_t`: the extent, and where the bytes of an element are, in the order of packing. -/
structure Dt where
  extent : ℤ
  bytes : List ℤ

/-- `ucg_dt_size`. -/
def Dt.size (dt : Dt) : ℕ := dt.bytes.length

/-- The bytes of `count` elements from `p` on. -/
def dtCells (p : Addr B) (count : ℕ) (dt : Dt) : List (Addr B) :=
  (List.range count).flatMap fun j => dt.bytes.map fun o => (p.1, p.2 + j * dt.extent + o)

@[simp] theorem length_dtCells (p : Addr B) (count : ℕ) (dt : Dt) :
    (dtCells p count dt).length = count * dt.size := by
  simp [dtCells, List.length_flatMap, Dt.size]

/-- `ucg_coll_allgatherv_args_t`; `UCG_IN_PLACE` is `none`. -/
structure AllgathervArgs (B : Type) where
  sendbuf : Option (Addr B)
  sendcount : ℕ
  sendtype : Dt
  recvbuf : Addr B
  recvcounts : ℕ → ℕ
  displs : ℕ → ℤ
  recvtype : Dt

/-- Where a block begins. -/
def AllgathervArgs.block (args : AllgathervArgs B) (b : ℕ) : Addr B :=
  (args.recvbuf.1, args.recvbuf.2 + args.displs b * args.recvtype.extent)

/-- The bytes of a block. -/
def AllgathervArgs.blockCells (args : AllgathervArgs B) (b : ℕ) : List (Addr B) :=
  dtCells (args.block b) (args.recvcounts b) args.recvtype

/-- `ucg_dt_memcpy` of a rank's own block, out of place. -/
def allgathervMemcpy (args : AllgathervArgs B) (myrank : ℕ) : Prog (Addr B) β Unit :=
  match args.sendbuf with
  | none => pure ()
  | some sendbuf =>
    dtMemcpy (args.blockCells myrank) (dtCells sendbuf args.sendcount args.sendtype)

/-- As commands. -/
def allgathervCopy (args : AllgathervArgs B) (myrank : ℕ) : Sched (Addr B) β :=
  match args.sendbuf with
  | none => []
  | some sendbuf =>
    [.zip (fun s _ => s) (dtCells sendbuf args.sendcount args.sendtype) (args.blockCells myrank)]

theorem zips_allgathervCopy {args : AllgathervArgs B} {r : ℕ} :
    (allgathervCopy args r : Sched (Addr B) β).Zips := by
  rw [allgathervCopy]
  split
  · exact .nil
  · exact .single

/-- The copy executes its commands. -/
theorem exec_allgathervMemcpy {args : AllgathervArgs B} {r : ℕ} {cs : Sched (Addr B) β}
    {K : Bool → Unit → Sched (Addr B) β → Prop} (h : K true () cs) :
    (allgathervMemcpy args r).Exec K true (allgathervCopy args r ++ cs) := by
  rw [allgathervMemcpy, allgathervCopy]
  split
  · exact h
  · exact ⟨cs, rfl, h⟩

/-! ### The memory that a rank is to end with -/

section Blocks

variable {ι : Type} [DecidableEq ι]

/-- The blocks `f` of `bs` get the contents `x`. -/
def writeBlocks (f : ℕ → List ι) (x : ℕ → List β) : List ℕ → (ι → β) → ι → β
  | [], m => m
  | b :: bs, m => writeBlocks f x bs (writeCells (f b) (x b) m)

variable {f : ℕ → List ι} {x : ℕ → List β}

theorem writeBlocks_of_notMem {i : ι} : ∀ {bs : List ℕ} {m : ι → β}, (∀ b ∈ bs, i ∉ f b) →
    writeBlocks f x bs m i = m i
  | [], _, _ => rfl
  | b :: bs, m, h => by
    rw [List.forall_mem_cons] at h
    rw [writeBlocks, writeBlocks_of_notMem h.2, writeCells_of_notMem h.1]

theorem map_writeCells {cs : List ι} {vs : List β} {m : ι → β} (hnodup : cs.Nodup)
    (hlen : cs.length = vs.length) : cs.map (writeCells cs vs m) = vs := by
  refine List.ext_getElem (by rw [List.length_map, hlen]) fun j h₁ h₂ => ?_
  rw [List.getElem_map]
  exact writeCells_getElem hnodup j (by rwa [List.length_map] at h₁) h₂

/-- Blocks that do not overlap keep what they get. -/
theorem map_writeBlocks : ∀ {bs : List ℕ} {m : ι → β}, (bs.flatMap f).Nodup →
    (∀ b ∈ bs, (f b).length = (x b).length) → ∀ b ∈ bs, (f b).map (writeBlocks f x bs m) = x b
  | [], _, _, _, _, hb => absurd hb List.not_mem_nil
  | c :: bs, m, hnodup, hlen, b, hb => by
    rw [List.flatMap_cons, List.nodup_append] at hnodup
    obtain ⟨hc, hbs, hdisj⟩ := hnodup
    rw [List.forall_mem_cons] at hlen
    rw [writeBlocks]
    by_cases hmem : b ∈ bs
    · exact map_writeBlocks hbs hlen.2 b hmem
    · obtain rfl := (List.mem_cons.mp hb).resolve_right hmem
      refine (List.map_congr_left fun i hi => writeBlocks_of_notMem fun b' hb' hi' => ?_).trans
        (map_writeCells hc hlen.1)
      exact hdisj i hi i (List.mem_flatMap.mpr ⟨b', hb', hi'⟩) rfl

end Blocks

/-! ### Every run -/

/-- All ranks call for the allgatherv of the blocks `x`, with the same counts and with types of the
    same size. No two bytes of a rank's blocks are at the same place, and a block that is not in
    place is outside the receive buffer. -/
structure AllgathervCall (n size : ℕ) (recvcounts : ℕ → ℕ) (args : ℕ → AllgathervArgs B)
    (m : ℕ → Addr B → β) (x : ℕ → List β) : Prop where
  counts : ∀ r < n, ∀ b < n, (args r).recvcounts b = recvcounts b
  size : ∀ r < n, (args r).recvtype.size = size
  types : ∀ r < n, (args r).sendtype = (args r).recvtype
  nodup : ∀ r < n, ((List.range n).flatMap (args r).blockCells).Nodup
  inPlace : ∀ r < n, (args r).sendbuf = none → ((args r).blockCells r).map (m r) = x r
  outOfPlace : ∀ r < n, ∀ sendbuf ∈ (args r).sendbuf, (args r).sendcount = recvcounts r ∧
    (dtCells sendbuf (args r).sendcount (args r).sendtype).map (m r) = x r ∧
    ∀ i ∈ dtCells sendbuf (args r).sendcount (args r).sendtype, ∀ b < n, i ∉ (args r).blockCells b

variable [DecidableEq B]

/-- What an allgatherv does in every run: a rank that has finished has every block at its own
    displacement; nothing else has ever changed; every message is received, with the length that it
    has been sent with; and from every state all ranks come to their end. -/
structure AllgathervMeets {σ : Type} (n : ℕ) (args : ℕ → AllgathervArgs B) (m : ℕ → Addr B → β)
    (x : ℕ → List β) (proc : ℕ → Proc (Addr B) β σ) (status : σ → Status) (acts : List Act)
    (N : Net (Addr B) β σ) : Prop where
  finished : ∀ r op, N.FinishedIn r op → status op = .ok ∧
    ∀ b < n, ((args r).blockCells b).map (N.node r).mem = x b
  untouched : ∀ r < n, ∀ i, (∀ b < n, i ∉ (args r).blockCells b) → (N.node r).mem i = m r i
  matched : ∀ s < n, ∀ r < n, ∀ op op', N.FinishedIn s op → N.FinishedIn r op' →
    (Sched.sendsTo r (Net.posts n proc s (Net.init m) acts)).map List.length =
      (Sched.recvsFrom s (Net.posts n proc r (Net.init m) acts)).map List.length
  live : ∃ acts' N', N.run n proc acts' = some N' ∧ ∀ r < n, ∃ op, N'.FinishedIn r op

namespace AllgathervCall

variable {n size : ℕ} {recvcounts : ℕ → ℕ} {args : ℕ → AllgathervArgs B}
  {m : ℕ → Addr B → β} {x : ℕ → List β} (h : AllgathervCall n size recvcounts args m x)

include h

omit [DecidableEq B] in
theorem length_block {r b : ℕ} (hr : r < n) (hb : b < n) :
    ((args r).blockCells b).length = recvcounts b * size := by
  rw [AllgathervArgs.blockCells, length_dtCells, h.counts r hr b hb, h.size r hr]

omit [DecidableEq B] in
theorem length_contents {b : ℕ} (hb : b < n) : (x b).length = recvcounts b * size := by
  cases hsb : (args b).sendbuf with
  | none => rw [← h.inPlace b hb hsb, List.length_map, h.length_block hb hb]
  | some sendbuf =>
    obtain ⟨hcount, hx, -⟩ := h.outOfPlace b hb sendbuf hsb
    rw [← hx, List.length_map, length_dtCells, hcount, h.types b hb, h.size b hb]

omit [DecidableEq B] in
theorem disjoint {r a b : ℕ} (hr : r < n) (ha : a < n) (hb : b < n) (hne : a ≠ b) :
    ∀ i ∈ (args r).blockCells a, i ∉ (args r).blockCells b := by
  have hpair := List.pairwise_iff_getElem.mp (List.nodup_flatMap.mp (h.nodup r hr)).2
  simp only [List.length_range, List.getElem_range] at hpair
  intro i hi hi'
  rcases Nat.lt_or_gt_of_ne hne with hlt | hlt
  · exact hpair a b ha hb hlt hi hi'
  · exact hpair b a hb ha hlt hi' hi

omit h in
variable (n args m x) in
/-- The memory of rank `r` with all blocks in place. -/
def goal (r : ℕ) : Addr B → β := writeBlocks (args r).blockCells x (List.range n) (m r)

theorem map_goal {r b : ℕ} (hr : r < n) (hb : b < n) :
    ((args r).blockCells b).map (goal n args m x r) = x b := by
  refine map_writeBlocks (h.nodup r hr) (fun b hb => ?_) b (List.mem_range.mpr hb)
  have hb := List.mem_range.mp hb
  rw [h.length_block hr hb, h.length_contents hb]

omit h in
theorem goal_rest {r : ℕ} {i : Addr B} (hi : ∀ b < n, i ∉ (args r).blockCells b) :
    goal n args m x r i = m r i :=
  writeBlocks_of_notMem fun b hb => hi b (List.mem_range.mp hb)

/-- The copy puts a rank's own block in place. -/
theorem gathers_copy {r : ℕ} (hr : r < n) : Sched.gathers (goal n args m x r)
    (fun has pend => pend = [] ∧ (∀ b ∈ ({r} : Set ℕ), b ∈ {b | b < n} →
      ∀ i ∈ (args r).blockCells b, i ∈ has) ∧
      ∀ i, (∀ b ∈ {b | b < n}, i ∉ (args r).blockCells b) → i ∈ has)
    (allgathervCopy (args r) r) {i | goal n args m x r i = m r i} [] := by
  rw [allgathervCopy]
  cases hsb : (args r).sendbuf with
  | none =>
    refine ⟨rfl, fun b hb _ i hi => ?_, fun i hi => goal_rest hi⟩
    obtain rfl := Set.mem_singleton_iff.mp hb
    have hsame := (h.map_goal hr hr).trans (h.inPlace b hr hsb).symm
    exact List.map_inj_left.mp hsame i hi
  | some sendbuf =>
    obtain ⟨-, hx, hout⟩ := h.outOfPlace r hr sendbuf hsb
    have hsrc (i) (hi : i ∈ dtCells sendbuf (args r).sendcount (args r).sendtype) :
        goal n args m x r i = m r i := goal_rest (hout i hi)
    refine ⟨fun _ _ => rfl, ?_, fun i hi => ⟨hsrc i hi, fun _ hd => absurd hd List.not_mem_nil⟩,
      rfl, fun b hb _ i hi => ?_, fun i hi => Or.inl (goal_rest hi)⟩
    · rw [h.map_goal hr hr, List.map_congr_left hsrc, hx]
    · rw [Set.mem_singleton_iff.mp hb] at hi
      exact Or.inr hi

/-- Ranks whose operations copy their own blocks and then execute schedules that bring every block
    to every rank. -/
theorem meets {O : Type} {id : ℕ} {rounds : List (ℕ → Sched ℕ β)}
    {f : OpFuncs (Prog (Addr B) β) O} {status : O → Status} {op₀ : ℕ → O}
    {Rel : ℕ → O → Sched (Addr B) β → Prop}
    (hspreads : ∀ y : ℕ → β, Spreads n {b | b < n} (fun v => {v}) y rounds)
    (hop : ∀ r < n, OpRuns f status id (op₀ r) (Rel r) (allgathervCopy (args r) r ++
      Sched.expand (args r).blockCells (fun q => q) (rounds.flatMap fun R => R r)))
    {acts : List Act} {N : Net (Addr B) β O}
    (hrun : (Net.init m).run n (fun r => opProc f status (op₀ r) id) acts = some N) :
    AllgathervMeets n args m x (fun r => opProc f status (op₀ r) id) status acts N := by
  replace hspreads := hspreads fun _ => m 0 (args 0).recvbuf
  have hnum : Numbering n (fun r => r) fun v => v :=
    ⟨fun _ h => h, fun _ h => h, fun r _ v _ => Iff.rfl⟩
  have hg : Gathering n m (goal n args m x) ((fun r => allgathervCopy (args r) r) ::
      expandRounds (fun r => (args r).blockCells) (fun r => r) (fun v => v) rounds) :=
    hspreads.gathering_copy hnum (fun _ _ => zips_allgathervCopy)
      (fun r hr a ha b hb hne => h.disjoint hr ha hb hne)
      (fun s hs r hr b hb => (h.map_goal hs hb).trans (h.map_goal hr hb).symm)
      fun r hr => h.gathers_copy hr
  have hruns (r) (hr : r < n) : (opProc f status (op₀ r) id).Runs
      (fun op cs => Rel r op cs ∧ (status op = .inprogress ∨ status op = .ok))
      (Gathering.sched n ((fun r => allgathervCopy (args r) r) ::
        expandRounds (fun r => (args r).blockCells) (fun r => r) (fun v => v) rounds) r) := by
    rw [Gathering.sched, if_pos hr, List.flatMap_cons, Spreads.flatMap_expandRounds]
    exact (hop r hr).runs
  have hbound (r) (op) (hfin : N.FinishedIn r op) : r < n := by
    obtain ⟨M, hsim, -⟩ := hg.reached hruns hrun
    exact hsim.bound r (by rw [Net.Started, hfin]; simp)
  refine ⟨fun r op hfin => ?_, fun r hr i hi => hg.keeps hruns hrun hr (goal_rest hi),
    fun s hs r hr op op' hfin hfin' => ?_, hg.live hruns hrun⟩
  · have hr := hbound r op hfin
    obtain ⟨⟨-, hst⟩, hact, hmem⟩ := hg.finished hruns hrun hfin
    refine ⟨hst.resolve_left (of_decide_eq_false hact), fun b hb => ?_⟩
    rw [hmem]
    exact h.map_goal hr hb
  · obtain ⟨msgs, hblocks, hsent, hrecvd⟩ := hspreads.matched_cells
      (f := fun r => (args r).blockCells) hnum hs hr
    rw [hg.posts hruns hrun hfin, hg.posts hruns hrun hfin', sendsTo_posts, recvsFrom_posts,
      List.flatMap_cons, List.flatMap_cons, schedSendsTo_append, schedRecvsFrom_append,
      zips_allgathervCopy.sendsTo, zips_allgathervCopy.recvsFrom, List.nil_append, List.nil_append,
      hsent, hrecvd, List.map_map, List.map_map]
    refine List.map_congr_left fun blocks hmem => ?_
    simp only [Function.comp_apply, List.length_flatMap]
    refine congrArg List.sum (List.map_congr_left fun b hb => ?_)
    have hb : b < n := hblocks blocks hmem b hb
    rw [h.length_block hs hb, h.length_block hr hb]

end AllgathervCall

/-! Two ranks contribute two elements and one. An element is a byte, with a gap behind it. Rank 1
    has the blocks in the other order, and its own one is not in place. -/

def twoArgs (r : ℕ) : AllgathervArgs ℕ where
  sendbuf := if r = 0 then none else some (1, 0)
  sendcount := 2 - r
  sendtype := ⟨2, [0]⟩
  recvbuf := (0, 0)
  recvcounts b := 2 - b
  displs b := if r = 0 then 2 * b else 1 - b
  recvtype := ⟨2, [0]⟩

def twoMem (r : ℕ) (c : Addr ℕ) : ℕ := if r = 0 then 5 + c.2.toNat else 9

theorem twoCall : AllgathervCall 2 1 (fun b => 2 - b) twoArgs twoMem
    fun b => if b = 0 then [5, 7] else [9] where
  counts _ _ _ _ := rfl
  size _ _ := rfl
  types _ _ := rfl
  nodup r hr := by interval_cases r <;> decide
  inPlace r hr hsb := by
    interval_cases r
    · decide
    · cases hsb
  outOfPlace r hr sendbuf hsb := by
    interval_cases r
    · cases hsb
    · cases hsb
      refine ⟨rfl, by decide, fun i hi b hb => ?_⟩
      interval_cases b <;> revert i <;> decide

end Kucg.Ucx
