import Kucg.Lib.Choreography
import Kucg.Lib.Paced

/-! The two rings of the HCCL allgatherv: `allgatherv_ring.c` and `allgatherv_ring_hpl.c`.

    `HcclSend` waits for its `HcclRecv`, so the order of the two at each rank decides whether the
    ring goes round. Both kernels are read off one choreography each: in the plain ring rank 0 sends
    first, and the messages of a step follow each other round the ring; in the other one neighbours
    exchange blocks in pairs. On an odd ring the last rank and rank 0 meet in different steps of
    theirs, between an even and an odd step of the others.

    Messages are known by the index of their block, from which both sides compute where it lies and
    how long it is. Products of counts and sizes are taken in `ℤ`. -/

namespace Kucg.Hccl
open Kucg.Choreography
open Kucg.Lib (flatMap_range_nil flatMap_range_single flatMap_range_pair)

variable {V : Type}

/-- The arguments of an allgatherv at all ranks, `recvcounts` being the same everywhere, and the
    memories before. The blocks of a receive buffer do not overlap. -/
structure AllgathervArgs (V : Type) where
  groupSize : ℕ
  dtSize : ℕ
  recvcounts : ℕ → ℕ
  displs : ℕ → ℕ → ℤ
  inPlace : ℕ → Bool
  sendcount : ℕ → ℕ
  sendbuf : ℕ → ℕ → V
  recvbuf : ℕ → ℤ → V
  sendcount_eq : ∀ r < groupSize, inPlace r = false → sendcount r = recvcounts r
  disjoint : ∀ r < groupSize, ∀ a < groupSize, ∀ b < groupSize, a ≠ b →
    ∀ i < recvcounts a * dtSize, ∀ j < recvcounts b * dtSize,
      displs r a * dtSize + (i : ℤ) ≠ displs r b * dtSize + (j : ℤ)

namespace AllgathervArgs

variable (args : AllgathervArgs V)

/-- Where a block lies in the receive buffer of a rank, in bytes. -/
def offset (r b : ℕ) : ℤ := args.displs r b * args.dtSize

/-- The length of a block in bytes. -/
def length (b : ℕ) : ℕ := args.recvcounts b * args.dtSize

/-- What a rank contributes: its send buffer, or its own block. -/
def contribution (b k : ℕ) : V :=
  if args.inPlace b then args.recvbuf b (args.offset b b + k) else args.sendbuf b k

end AllgathervArgs

/-- Memory with some bytes written. -/
def write (mem : ℤ → V) (off : ℤ) (len : ℕ) (bytes : ℕ → V) : ℤ → V := fun x =>
  if off ≤ x ∧ x < off + len then bytes (x - off).toNat else mem x

/-- `HcclSend` and `HcclRecv` of a block between two receive buffers, and `aclrtMemcpyAsync` of the
    send buffer into the own block. -/
def ringEffects (args : AllgathervArgs V) : Effects ℕ ℕ (ℤ → V) where
  transfer s a mem r b mem' :=
    write mem' (args.offset r b) (args.length b) fun k => mem (args.offset s a + k)
  act r b mem := write mem (args.offset r b) (args.sendcount r * args.dtSize) (args.sendbuf r)

/-! ### The kernels -/

/-- The commands of a rank for its own data. -/
def copyOps (args : AllgathervArgs V) (myRank : ℕ) : List (Op ℕ ℕ) :=
  if args.inPlace myRank then [] else [.act myRank]

/-- One step of `HcclAllgatherv`. -/
def ringStep (groupSize myRank i : ℕ) : List (Op ℕ ℕ) :=
  let sendto := (myRank + 1) % groupSize
  let recvfrom := (myRank + groupSize - 1) % groupSize
  let recvdatafrom := (myRank + groupSize - i - 1) % groupSize
  let senddatafrom := (myRank + groupSize - i) % groupSize
  if myRank = 0 then [.send sendto senddatafrom, .recv recvfrom recvdatafrom]
  else [.recv recvfrom recvdatafrom, .send sendto senddatafrom]

/-- `HcclAllgatherv` of `allgatherv_ring.c`. -/
def allgathervRing (args : AllgathervArgs V) (myRank : ℕ) : List (Op ℕ ℕ) :=
  copyOps args myRank ++
    (List.range (args.groupSize - 1)).flatMap (ringStep args.groupSize myRank)

/-- One step of `hccl_allgatherv_ring_hpl_kernel`. -/
def ringHplStep (groupSize myRank stepIdx : ℕ) : List (Op ℕ ℕ) :=
  let leftPeer := (myRank + groupSize - 1) % groupSize
  let rightPeer := (myRank + 1) % groupSize
  let peer := if (myRank + stepIdx) % 2 ≠ 0 then leftPeer else rightPeer
  let isLeft : Bool := if groupSize > 2 then peer == rightPeer else myRank == 0
  let sendIdx :=
    if peer = rightPeer then (myRank + groupSize - stepIdx / 2) % groupSize
    else (myRank + stepIdx / 2 + groupSize) % groupSize
  let recvIdx :=
    if peer = rightPeer then (peer + stepIdx / 2 + groupSize) % groupSize
    else (peer + groupSize - stepIdx / 2) % groupSize
  if isLeft then [.send peer sendIdx, .recv peer recvIdx]
  else [.recv peer recvIdx, .send peer sendIdx]

/-- `hccl_allgatherv_ring_hpl_kernel`. -/
def allgathervRingHpl (args : AllgathervArgs V) (myRank : ℕ) : List (Op ℕ ℕ) :=
  copyOps args myRank ++
    (List.range (args.groupSize - 1)).flatMap (ringHplStep args.groupSize myRank)

/-- All ranks before the first command of a kernel. -/
def ringStart (args : AllgathervArgs V) (kernel : ℕ → List (Op ℕ ℕ)) : Net ℕ ℕ (ℤ → V) :=
  ⟨fun r => if r < args.groupSize then kernel r else [], args.recvbuf⟩

/-- The kernel of all ranks is an allgatherv: however the ranks take turns, they do not get stuck
    and do not go on for ever; a send and a receive that meet are about the same block, of one
    length; and in the end every rank has all blocks. -/
structure Allgathers (args : AllgathervArgs V) (kernel : ℕ → List (Op ℕ ℕ)) : Prop where
  progress : ∀ k c, Steps (ringEffects args) k (ringStart args kernel) c →
    (∃ r, c.procs r ≠ []) → ∃ c', Step (ringEffects args) c c'
  bounded : ∃ bound, ∀ k c, Steps (ringEffects args) k (ringStart args kernel) c → k ≤ bound
  matched : ∀ k c, Steps (ringEffects args) k (ringStart args kernel) c →
    ∀ s r a b ps pr, c.procs s = .send r a :: ps → c.procs r = .recv s b :: pr → a = b
  gathered : ∀ k c, Steps (ringEffects args) k (ringStart args kernel) c →
    (∀ r, c.procs r = []) → ∀ r < args.groupSize, ∀ b < args.groupSize, ∀ i < args.length b,
      c.mem r (args.offset r b + i) = args.contribution b i

/-! ### From a choreography to an allgather -/

/-- A rank has a block where it belongs. -/
def Has (args : AllgathervArgs V) (r b : ℕ) (mem : ℤ → V) : Prop :=
  r < args.groupSize → b < args.groupSize →
    ∀ i < args.length b, mem (args.offset r b + i) = args.contribution b i

/-- What is known before: an own block that is already in place. -/
def ownBlocks (args : AllgathervArgs V) (r b : ℕ) : Prop := b = r ∧ args.inPlace r = true

theorem write_inside (mem : ℤ → V) (off : ℤ) {len k : ℕ} (hk : k < len) (bytes : ℕ → V) :
    write mem off len bytes (off + k) = bytes k := by
  rw [write, if_pos ⟨by omega, by omega⟩]
  congr
  omega

theorem write_outside (mem : ℤ → V) (off : ℤ) (len : ℕ) (bytes : ℕ → V) {x : ℤ}
    (h : ∀ k < len, off + (k : ℤ) ≠ x) : write mem off len bytes x = mem x := by
  rw [write, if_neg]
  rintro ⟨hlo, hhi⟩
  exact h (x - off).toNat (by omega) (by omega)

/-- Blocks that are written stay as they are where another one is written. -/
theorem has_write {args : AllgathervArgs V} {r b x : ℕ} (hr : r < args.groupSize)
    (hb : b < args.groupSize) (hne : x ≠ b) {mem : ℤ → V} (bytes : ℕ → V) (h : Has args r x mem) :
    Has args r x (write mem (args.offset r b) (args.length b) bytes) := by
  intro hr' hx i hi
  rw [write_outside]
  · exact h hr' hx i hi
  · intro k hk
    exact args.disjoint r hr b hb x hx hne.symm k hk i hi

theorem has_transfer (args : AllgathervArgs V) {s r b : ℕ} (hs : s < args.groupSize)
    (hr : r < args.groupSize) (hb : b < args.groupSize) (mem mem' : ℤ → V) (h : Has args s b mem) :
    Has args r b ((ringEffects args).transfer s b mem r b mem') ∧
      ∀ x, Has args r x mem' → Has args r x ((ringEffects args).transfer s b mem r b mem') := by
  have hnew : Has args r b ((ringEffects args).transfer s b mem r b mem') := by
    intro _ _ i hi
    simp only [ringEffects]
    rw [write_inside mem' _ hi]
    exact h hs hb i hi
  refine ⟨hnew, fun x hx => ?_⟩
  rcases eq_or_ne x b with rfl | hne
  · exact hnew
  · simp only [ringEffects]
    exact has_write hr hb hne _ hx

theorem has_act (args : AllgathervArgs V) {r : ℕ} (hr : r < args.groupSize)
    (hplace : args.inPlace r = false) (mem : ℤ → V) :
    Has args r r ((ringEffects args).act r r mem) ∧
      ∀ x, Has args r x mem → Has args r x ((ringEffects args).act r r mem) := by
  have hlen : args.sendcount r * args.dtSize = args.length r := by
    rw [args.sendcount_eq r hr hplace, AllgathervArgs.length]
  have hnew : Has args r r ((ringEffects args).act r r mem) := by
    intro _ _ i hi
    simp only [ringEffects, hlen]
    rw [write_inside mem _ hi, AllgathervArgs.contribution, hplace]
    rfl
  refine ⟨hnew, fun x hx => ?_⟩
  rcases eq_or_ne x r with rfl | hne
  · exact hnew
  · simp only [ringEffects, hlen]
    exact has_write hr hr hne _ hx

/-- A choreography of the kernel in which blocks spread to all ranks. -/
structure Spreads (args : AllgathervArgs V) (kernel : ℕ → List (Op ℕ ℕ))
    (es : List (Event ℕ ℕ)) : Prop where
  proj : ∀ r < args.groupSize, proj es r = kernel r
  acts : ∀ i a, Event.act i a ∈ es → a = i ∧ i < args.groupSize ∧ args.inPlace i = false
  comms : ∀ s r a b, Event.comm s r a b ∈ es →
    a = b ∧ s ≠ r ∧ s < args.groupSize ∧ r < args.groupSize ∧ b < args.groupSize
  sound : Sound (ownBlocks args) es
  all : ∀ r < args.groupSize, ∀ b < args.groupSize, known (ownBlocks args) es r b

theorem Spreads.proper {args : AllgathervArgs V} {kernel : ℕ → List (Op ℕ ℕ)}
    {es : List (Event ℕ ℕ)} (h : Spreads args kernel es) : ∀ e ∈ es, e.Proper := by
  intro e he
  cases e with
  | act i a => trivial
  | comm s r a b => exact (h.comms s r a b he).2.1

theorem Spreads.start {args : AllgathervArgs V} {kernel : ℕ → List (Op ℕ ℕ)}
    {es : List (Event ℕ ℕ)} (h : Spreads args kernel es) :
    ringStart args kernel = ⟨Choreography.proj es, args.recvbuf⟩ := by
  rw [ringStart]
  congr
  funext r
  split
  · next hr => exact (h.proj r hr).symm
  · next hr =>
    refine (proj_eq_nil fun e he => ?_).symm
    cases e with
    | act i a =>
      obtain ⟨-, hi, -⟩ := h.acts i a he
      rintro rfl
      exact hr hi
    | comm s r' a b =>
      obtain ⟨-, -, hs, hr', -⟩ := h.comms s r' a b he
      rintro (rfl | rfl)
      · exact hr hs
      · exact hr hr'

theorem Spreads.allgathers {args : AllgathervArgs V} {kernel : ℕ → List (Op ℕ ℕ)}
    {es : List (Event ℕ ℕ)} (h : Spreads args kernel es) : Allgathers args kernel := by
  refine ⟨?_, ⟨es.length, ?_⟩, ?_, ?_⟩
  · intro k c hrun hne
    rw [h.start] at hrun
    exact hrun.progress h.proper hne
  · intro k c hrun
    rw [h.start] at hrun
    exact hrun.bounded h.proper
  · intro k c hrun s r a b ps pr hs hr
    rw [h.start] at hrun
    exact (h.comms s r a b (hrun.matched h.proper hs hr)).1
  · intro k c hrun hdone r hr b hb i hi
    rw [h.start] at hrun
    rw [hrun.final h.proper hdone]
    suffices hhas : Has args r b (run (ringEffects args) es args.recvbuf r) from hhas hr hb i hi
    refine run_has (ringEffects args) ?_ ?_ ?_ h.sound r b (h.all r hr b hb)
    · intro i a he m
      obtain ⟨rfl, hi, hplace⟩ := h.acts i a he
      exact has_act args hi hplace m
    · intro s r a b he m m' hm
      obtain ⟨rfl, -, hs, hr, hb⟩ := h.comms s r a b he
      exact has_transfer args hs hr hb m m' hm
    · rintro i x ⟨rfl, hplace⟩ _ _ k hk
      rw [AllgathervArgs.contribution, if_pos hplace]

/-! ### Rounds over all ranks -/

/-- The ranks copy their own data. -/
def copies (args : AllgathervArgs V) : List (Event ℕ ℕ) :=
  (List.range args.groupSize).flatMap fun r => if args.inPlace r then [] else [.act r r]

theorem proj_flatMap {α : Type*} (l : List α) (g : α → List (Event ℕ ℕ)) (r : ℕ) :
    proj (l.flatMap g) r = l.flatMap fun x => proj (g x) r := List.flatMap_assoc

theorem proj_copies (args : AllgathervArgs V) {r : ℕ} (hr : r < args.groupSize) :
    proj (copies args) r = copyOps args r := by
  rw [copies, proj_flatMap, flatMap_range_single hr]
  · rw [copyOps]
    split <;> simp [proj, Event.ops]
  · intro k _ hne
    split
    · rfl
    · simp [proj, Event.ops, hne.symm]

theorem mem_copies {args : AllgathervArgs V} {e : Event ℕ ℕ} (h : e ∈ copies args) :
    ∃ r < args.groupSize, e = .act r r ∧ args.inPlace r = false := by
  simp only [copies, List.mem_flatMap, List.mem_range] at h
  obtain ⟨r, hr, he⟩ := h
  split at he
  · simp at he
  · next hplace =>
    exact ⟨r, hr, by simpa using he, by simpa using hplace⟩

/-- After the copies every rank knows its own block. -/
theorem known_copies (args : AllgathervArgs V) {r : ℕ} (hr : r < args.groupSize) :
    known (ownBlocks args) (copies args) r r := by
  cases hplace : args.inPlace r with
  | true => exact known_mono ⟨rfl, hplace⟩ _
  | false =>
    refine known_of_act ?_
    simp only [copies, List.mem_flatMap, List.mem_range]
    exact ⟨r, hr, by simp [hplace]⟩

/-- A choreography in rounds, by what every rank knows before each of them. -/
theorem spreads_of_rounds {args : AllgathervArgs V} (steps : ℕ → ℕ → List (Op ℕ ℕ))
    (rounds : ℕ → List (Event ℕ ℕ)) (inv : ℕ → (ℕ → ℕ → Prop) → Prop)
    (hproj : ∀ r < args.groupSize, proj ((List.range (args.groupSize - 1)).flatMap rounds) r =
      (List.range (args.groupSize - 1)).flatMap (steps r))
    (hcomms : ∀ i < args.groupSize - 1, ∀ e ∈ rounds i, ∃ s r b, e = .comm s r b b ∧ s ≠ r ∧
      s < args.groupSize ∧ r < args.groupSize ∧ b < args.groupSize)
    (hstart : ∀ K, (∀ r < args.groupSize, K r r) → inv 0 K)
    (hstep : ∀ i < args.groupSize - 1, ∀ K, inv i K →
      Sound K (rounds i) ∧ inv (i + 1) (known K (rounds i)))
    (hend : ∀ K, inv (args.groupSize - 1) K → ∀ r < args.groupSize, ∀ b < args.groupSize, K r b) :
    Spreads args (fun r => copyOps args r ++ (List.range (args.groupSize - 1)).flatMap (steps r))
      (copies args ++ (List.range (args.groupSize - 1)).flatMap rounds) := by
  have hround : ∀ e ∈ (List.range (args.groupSize - 1)).flatMap rounds, ∃ s r b,
      e = .comm s r b b ∧ s ≠ r ∧ s < args.groupSize ∧ r < args.groupSize ∧
        b < args.groupSize := by
    intro e he
    simp only [List.mem_flatMap, List.mem_range] at he
    obtain ⟨i, hi, he⟩ := he
    exact hcomms i hi e he
  obtain ⟨hsound, hinv⟩ := sound_rounds (hstart (known (ownBlocks args) (copies args))
    fun r hr => known_copies args hr) (args.groupSize - 1) hstep
  refine ⟨?_, ?_, ?_, ?_, ?_⟩
  · intro r hr
    rw [proj_append, proj_copies args hr, hproj r hr]
  · intro i a he
    rcases List.mem_append.mp he with he | he
    · obtain ⟨r, hr, heq, hplace⟩ := mem_copies he
      simp only [Event.act.injEq] at heq
      obtain ⟨rfl, rfl⟩ := heq
      exact ⟨rfl, hr, hplace⟩
    · obtain ⟨s, r, b, heq, -⟩ := hround _ he
      simp at heq
  · intro s r a b he
    rcases List.mem_append.mp he with he | he
    · obtain ⟨r', -, heq, -⟩ := mem_copies he
      simp at heq
    · obtain ⟨s', r', b', heq, hrest⟩ := hround _ he
      simp only [Event.comm.injEq] at heq
      obtain ⟨rfl, rfl, rfl, rfl⟩ := heq
      exact ⟨rfl, hrest⟩
  · rw [sound_append]
    refine ⟨sound_of_backed fun e he => ?_, hsound⟩
    obtain ⟨r, -, rfl, -⟩ := mem_copies he
    trivial
  · rw [known_append]
    exact hend _ hinv

/-! ### The plain ring -/

/-- Step `i` of the ring: a block goes from every rank to the next one, beginning with rank 0. -/
def ringRound (n i : ℕ) : List (Event ℕ ℕ) :=
  (List.range n).flatMap fun s => [.comm s ((s + 1) % n) ((s + n - i) % n) ((s + n - i) % n)]

/-- The rank before. -/
theorem pred_mod {n r : ℕ} (hr : r < n) :
    (r + n - 1) % n = if r = 0 then n - 1 else r - 1 := by
  split
  · next h =>
    rw [h, Nat.zero_add]
    exact Nat.mod_eq_of_lt (by omega)
  · rw [show r + n - 1 = (r - 1) + n by omega, Nat.add_mod_right]
    exact Nat.mod_eq_of_lt (by omega)

theorem succ_mod {n r : ℕ} (hr : r < n) : (r + 1) % n = if r = n - 1 then 0 else r + 1 := by
  split
  · next h => rw [h, Nat.sub_add_cancel (by omega), Nat.mod_self]
  · exact Nat.mod_eq_of_lt (by omega)

theorem proj_ringRound {n r i : ℕ} (hr : r < n) (hi : i < n - 1) :
    proj (ringRound n i) r = ringStep n r i := by
  have hops : ∀ s < n, proj [Event.comm s ((s + 1) % n) ((s + n - i) % n) ((s + n - i) % n)] r =
      if r = s then [.send ((s + 1) % n) ((s + n - i) % n)]
      else if r = (s + 1) % n then [.recv s ((s + n - i) % n)] else [] := by
    intro s _
    simp [proj, Event.ops]
  rw [ringRound, proj_flatMap, ringStep, pred_mod hr]
  rcases Nat.eq_zero_or_pos r with rfl | hpos
  · rw [flatMap_range_pair (show 0 < n - 1 by omega) (by omega), hops 0 (by omega),
      hops (n - 1) (by omega)]
    · have hlast : (n - 1 + 1) % n = 0 := by rw [Nat.sub_add_cancel (by omega), Nat.mod_self]
      have hidx : (n - 1 + n - i) % n = (0 + n - i - 1) % n := by
        rw [show n - 1 + n - i = 0 + n - i - 1 + n by omega, Nat.add_mod_right]
      have hne : (0 : ℕ) ≠ n - 1 := by omega
      rw [if_pos rfl, if_neg hne, hlast, if_pos rfl, if_pos rfl, if_pos rfl, hidx]
      rfl
    · intro k hk h₀ h₁
      rw [hops k hk, if_neg (Ne.symm h₀), succ_mod hk, if_neg h₁, if_neg (by omega)]
  · rw [flatMap_range_pair (show r - 1 < r by omega) hr, hops (r - 1) (by omega), hops r hr]
    · have hprev : (r - 1 + 1) % n = r := by rw [Nat.sub_add_cancel hpos, Nat.mod_eq_of_lt hr]
      have hne : r ≠ r - 1 := by omega
      have hzero : r ≠ 0 := by omega
      rw [if_neg hne, hprev, if_pos rfl, if_pos rfl, if_neg hzero, if_neg hzero,
        show r - 1 + n - i = r + n - i - 1 by omega]
      rfl
    · intro k hk h₀ h₁
      rw [hops k hk, if_neg (Ne.symm h₁), succ_mod hk]
      split
      · rw [if_neg (by omega)]
      · rw [if_neg (by omega)]

theorem spreads_ring (args : AllgathervArgs V) :
    ∃ es, Spreads args (allgathervRing args) es := by
  refine ⟨_, spreads_of_rounds (fun r => ringStep args.groupSize r) (ringRound args.groupSize)
    (fun i K => ∀ r < args.groupSize, ∀ j ≤ i,
      K r ((r + args.groupSize - j) % args.groupSize)) ?_ ?_ ?_ ?_ ?_⟩
  · intro r hr
    rw [proj_flatMap]
    exact List.flatMap_congr fun i hi => proj_ringRound hr (List.mem_range.mp hi)
  · intro i hi e he
    simp only [ringRound, List.mem_flatMap, List.mem_range, List.mem_singleton] at he
    obtain ⟨s, hs, rfl⟩ := he
    refine ⟨s, _, _, rfl, ?_, hs, Nat.mod_lt _ (by omega), Nat.mod_lt _ (by omega)⟩
    rw [succ_mod hs]
    split <;> omega
  · intro K hK r hr j hj
    obtain rfl : j = 0 := by omega
    rw [Nat.sub_zero, Nat.add_mod_right, Nat.mod_eq_of_lt hr]
    exact hK r hr
  · intro i hi K hinv
    constructor
    · refine sound_of_backed fun e he => ?_
      simp only [ringRound, List.mem_flatMap, List.mem_range, List.mem_singleton] at he
      obtain ⟨s, hs, rfl⟩ := he
      exact hinv s hs i le_rfl
    · intro r hr j hj
      rcases Nat.lt_or_ge i j with hlt | hge
      · -- the block that has just come from the rank before
        obtain rfl : j = i + 1 := by omega
        have hpred : (r + args.groupSize - 1) % args.groupSize < args.groupSize :=
          Nat.mod_lt _ (by omega)
        refine known_of_mem (s := (r + args.groupSize - 1) % args.groupSize)
          (a := (r + args.groupSize - (i + 1)) % args.groupSize) ?_
        simp only [ringRound, List.mem_flatMap, List.mem_range, List.mem_singleton]
        refine ⟨_, hpred, ?_⟩
        rw [succ_mod hpred, pred_mod hr]
        rcases Nat.eq_zero_or_pos r with rfl | hpos
        · rw [if_pos rfl, if_pos rfl,
            show args.groupSize - 1 + args.groupSize - i =
              0 + args.groupSize - (i + 1) + args.groupSize by omega, Nat.add_mod_right]
        · rw [if_neg (by omega), if_neg (by omega),
            show r - 1 + args.groupSize - i = r + args.groupSize - (i + 1) by omega,
            Nat.sub_add_cancel (by omega)]
      · exact known_mono (hinv r hr j hge) _
  · intro K hinv r hr b hb
    rcases Nat.lt_or_ge r b with hlt | hge
    · have h := hinv r hr (r + args.groupSize - b) (by omega)
      rwa [show r + args.groupSize - (r + args.groupSize - b) = b by omega,
        Nat.mod_eq_of_lt hb] at h
    · have h := hinv r hr (r - b) (by omega)
      rwa [show r + args.groupSize - (r - b) = b + args.groupSize by omega, Nat.add_mod_right,
        Nat.mod_eq_of_lt hb] at h

/-! ### The ring of pairs -/

/-- The commands of a rank towards its right neighbour, and towards its left one. -/
def rightOps (n r h : ℕ) : List (Op ℕ ℕ) :=
  [.send ((r + 1) % n) ((r + n - h) % n), .recv ((r + 1) % n) (((r + 1) % n + h + n) % n)]

def leftOps (n r h : ℕ) : List (Op ℕ ℕ) :=
  [.recv ((r + n - 1) % n) (((r + n - 1) % n + n - h) % n),
    .send ((r + n - 1) % n) ((r + h + n) % n)]

theorem ringHplStep_right {n r s : ℕ} (hn : 2 ≤ n) (hr : r < n) (hs : s < n - 1)
    (h : (r + s) % 2 = 0) : ringHplStep n r s = rightOps n r (s / 2) := by
  simp only [ringHplStep, rightOps, h, ne_eq, not_true_eq_false, if_false, if_true,
    beq_self_eq_true]
  -- with two ranks it is rank 0 that sends first
  split <;> simp
  omega

theorem ringHplStep_left {n r s : ℕ} (hn : 2 ≤ n) (hr : r < n) (hs : s < n - 1)
    (h : (r + s) % 2 ≠ 0) : ringHplStep n r s = leftOps n r (s / 2) := by
  rcases Nat.lt_or_ge 2 n with hlt | hge
  · have hne : (r + n - 1) % n ≠ (r + 1) % n := by
      rw [pred_mod hr, succ_mod hr]
      split <;> split <;> omega
    simp [ringHplStep, leftOps, h, hlt, hne]
  · -- two ranks: the neighbours are one rank, and there is one step
    obtain rfl : n = 2 := by omega
    obtain rfl : s = 0 := by omega
    obtain rfl : r = 1 := by omega
    decide

/-- Two neighbours exchange blocks: the left one sends first. -/
def edge (n h i : ℕ) : List (Event ℕ ℕ) :=
  [.comm i ((i + 1) % n) ((i + n - h) % n) ((i + n - h) % n),
    .comm ((i + 1) % n) i (((i + 1) % n + h + n) % n) (((i + 1) % n + h + n) % n)]

theorem succ_mod_ne {n i : ℕ} (hn : 2 ≤ n) (hi : i < n) : (i + 1) % n ≠ i := by
  rw [succ_mod hi]
  split <;> omega

theorem pred_succ_mod {n i : ℕ} (hi : i < n) : ((i + 1) % n + n - 1) % n = i := by
  rw [pred_mod (Nat.mod_lt _ (by omega)), succ_mod hi]
  split
  · rw [if_pos rfl]
    omega
  · rw [if_neg (by omega)]
    omega

theorem proj_edge {n i : ℕ} (hn : 2 ≤ n) (hi : i < n) (h r : ℕ) :
    proj (edge n h i) r =
      if r = i then rightOps n i h else if r = (i + 1) % n then leftOps n r h else [] := by
  have hne := succ_mod_ne hn hi
  split
  · next hr =>
    rw [hr]
    simp [proj, edge, Event.ops, rightOps, hne.symm]
  · next hri =>
    split
    · next hr =>
      rw [hr]
      simp [proj, edge, Event.ops, leftOps, hne, pred_succ_mod hi]
    · next hri' => simp [proj, edge, Event.ops, hri, hri']

/-- The exchanges of the ranks of one parity with their right neighbours, without the one between
    the last rank and rank 0. -/
def edges (n h p : ℕ) : List (Event ℕ ℕ) :=
  (List.range (n - 1)).flatMap fun i => if i % 2 = p then edge n h i else []

theorem proj_edges {n : ℕ} (hn : 2 ≤ n) (h p : ℕ) {r : ℕ} (hr : r < n) (hp : p < 2) :
    proj (edges n h p) r =
      if r % 2 = p then (if r + 1 < n then rightOps n r h else [])
      else if 0 < r then leftOps n r h else [] := by
  have hedge : ∀ i < n - 1, proj (if i % 2 = p then edge n h i else []) r =
      if i % 2 = p then (if r = i then rightOps n i h else if r = i + 1 then leftOps n r h else [])
      else [] := by
    intro i hi
    split
    · rw [proj_edge hn (by omega), Nat.mod_eq_of_lt (show i + 1 < n by omega)]
    · rfl
  rw [edges, proj_flatMap]
  split
  · next hrp =>
    split
    · rw [flatMap_range_single (show r < n - 1 by omega), hedge r (by omega), if_pos hrp,
        if_pos rfl]
      intro k hk hne
      rw [hedge k hk]
      split
      · rw [if_neg hne.symm, if_neg (by omega)]
      · rfl
    · refine flatMap_range_nil fun k hk => ?_
      rw [hedge k hk]
      split
      · rw [if_neg (by omega), if_neg (by omega)]
      · rfl
  · split
    · rw [flatMap_range_single (show r - 1 < n - 1 by omega), hedge (r - 1) (by omega),
        if_pos (by omega), if_neg (by omega), if_pos (by omega)]
      intro k hk hne
      rw [hedge k hk]
      split
      · rw [if_neg (by omega), if_neg (by omega)]
      · rfl
    · refine flatMap_range_nil fun k hk => ?_
      rw [hedge k hk]
      split
      · rw [if_neg (by omega), if_neg (by omega)]
      · rfl

/-- Step `s` of the pairs. In an odd step the last rank and rank 0 come first: on an odd ring this
    is the even step before for the last rank. -/
def hplRound (n s : ℕ) : List (Event ℕ ℕ) :=
  if s % 2 = 0 then edges n (s / 2) 0 else edge n (s / 2) (n - 1) ++ edges n (s / 2) 1

theorem proj_hplRound {n s r : ℕ} (hs : s < n - 1) (hr : r < n) (h : r ≠ n - 1 ∨ n % 2 = 0) :
    proj (hplRound n s) r = ringHplStep n r s := by
  have hn : 2 ≤ n := by omega
  rw [hplRound]
  split
  · next heven =>
    rw [proj_edges hn _ 0 hr (by omega)]
    split
    · next hp =>
      rw [if_pos (by omega), ringHplStep_right hn hr hs (by omega)]
    · next hp =>
      rw [if_pos (by omega), ringHplStep_left hn hr hs (by omega)]
  · next hodd =>
    have hlast : (n - 1 + 1) % n = 0 := by rw [Nat.sub_add_cancel (by omega), Nat.mod_self]
    rw [proj_append, proj_edge hn (by omega), hlast, proj_edges hn _ 1 hr (by omega)]
    split
    · next hp =>
      rw [if_pos (by omega), if_neg (by omega), List.append_nil,
        ringHplStep_right hn hr hs (by omega), hp]
    · next hp =>
      rcases Nat.eq_zero_or_pos r with rfl | hpos
      · rw [if_pos rfl, if_neg (by omega), if_neg (by omega), List.append_nil,
          ringHplStep_left hn hr hs (by omega)]
      · rw [if_neg (by omega), List.nil_append]
        split
        · rw [if_pos (by omega), ringHplStep_right hn hr hs (by omega)]
        · rw [ringHplStep_left hn hr hs (by omega)]

/-- The last rank of an odd ring: nothing in an even step, both its exchanges in an odd one. -/
theorem proj_hplRound_last {n k : ℕ} (hn : n % 2 = 1) (hk : 2 * k + 1 < n - 1) :
    proj (hplRound n (2 * k)) (n - 1) ++ proj (hplRound n (2 * k + 1)) (n - 1) =
      ringHplStep n (n - 1) (2 * k) ++ ringHplStep n (n - 1) (2 * k + 1) := by
  have hn' : 2 ≤ n := by omega
  rw [hplRound, if_pos (by omega), hplRound, if_neg (by omega),
    proj_edges hn' _ 0 (by omega) (by omega), if_pos (by omega), if_neg (by omega),
    List.nil_append, proj_append, proj_edge hn' (by omega), if_pos rfl,
    proj_edges hn' _ 1 (by omega) (by omega), if_neg (by omega), if_pos (by omega),
    ringHplStep_right hn' (by omega) (by omega) (by omega),
    ringHplStep_left hn' (by omega) (by omega) (by omega), show (2 * k + 1) / 2 = k by omega,
    show 2 * k / 2 = k by omega]

theorem flatMap_range_two_mul {α : Type*} (f : ℕ → List α) : ∀ m : ℕ,
    (List.range (2 * m)).flatMap f = (List.range m).flatMap fun k => f (2 * k) ++ f (2 * k + 1)
  | 0 => rfl
  | m + 1 => by
    rw [show 2 * (m + 1) = 2 * m + 1 + 1 by ring, List.range_succ, List.range_succ,
      List.flatMap_append, List.flatMap_append, flatMap_range_two_mul f m, List.range_succ,
      List.flatMap_append, List.flatMap_singleton, List.flatMap_singleton, List.flatMap_singleton,
      List.append_assoc]

theorem proj_hplRounds {n r : ℕ} (hr : r < n) :
    proj ((List.range (n - 1)).flatMap (hplRound n)) r =
      (List.range (n - 1)).flatMap (ringHplStep n r) := by
  rw [proj_flatMap]
  by_cases h : r ≠ n - 1 ∨ n % 2 = 0
  · exact List.flatMap_congr fun s hs => proj_hplRound (List.mem_range.mp hs) hr h
  · obtain ⟨rfl, hodd⟩ : r = n - 1 ∧ n % 2 = 1 := by omega
    rw [show List.range (n - 1) = List.range (2 * ((n - 1) / 2)) by congr 1; omega,
      flatMap_range_two_mul, flatMap_range_two_mul]
    refine List.flatMap_congr fun k hk => ?_
    have := List.mem_range.mp hk
    exact proj_hplRound_last hodd (by omega)

/-- How many blocks to the left a rank has got before step `s`. -/
def leftReach (r s : ℕ) : ℕ := if r % 2 = 1 then (s + 1) / 2 else s / 2

/-- How many blocks to the right. The last rank of an odd ring gets none in an even step. -/
def rightReach (n r s : ℕ) : ℕ :=
  if r % 2 = 0 ∧ ¬(r = n - 1 ∧ n % 2 = 1) then (s + 1) / 2 else s / 2

/-- What every rank knows before step `s`. -/
def Reached (n s : ℕ) (K : ℕ → ℕ → Prop) : Prop :=
  ∀ r < n, (∀ j ≤ leftReach r s, K r ((r + n - j) % n)) ∧
    ∀ j ≤ rightReach n r s, K r ((r + j) % n)

theorem half_le_leftReach (r s : ℕ) : s / 2 ≤ leftReach r s := by
  rw [leftReach]
  split <;> omega

theorem half_le_rightReach (n r s : ℕ) : s / 2 ≤ rightReach n r s := by
  rw [rightReach]
  split <;> omega

/-- The exchanges of a step, by their left ranks. -/
theorem mem_hplRound {n s : ℕ} {e : Event ℕ ℕ} (hn : 2 ≤ n) (h : e ∈ hplRound n s) :
    ∃ i < n, e ∈ edge n (s / 2) i := by
  have hedges : ∀ p, e ∈ edges n (s / 2) p → ∃ i < n, e ∈ edge n (s / 2) i := by
    intro p he
    simp only [edges, List.mem_flatMap, List.mem_range] at he
    obtain ⟨i, hi, he⟩ := he
    split at he
    · exact ⟨i, by omega, he⟩
    · simp at he
  rw [hplRound] at h
  split at h
  · exact hedges 0 h
  · rcases List.mem_append.mp h with h | h
    · exact ⟨n - 1, by omega, h⟩
    · exact hedges 1 h

/-- The left ranks of a step: those of its parity, and in an odd step the last one. -/
theorem edge_mem_hplRound {n s i : ℕ} (h : i % 2 = s % 2 ∧ i + 1 < n ∨ i = n - 1 ∧ s % 2 = 1)
    {e : Event ℕ ℕ} (he : e ∈ edge n (s / 2) i) : e ∈ hplRound n s := by
  have hedges : i % 2 = s % 2 → i + 1 < n → e ∈ edges n (s / 2) (s % 2) := by
    intro hp hi
    simp only [edges, List.mem_flatMap, List.mem_range]
    exact ⟨i, by omega, by rwa [if_pos hp]⟩
  rw [hplRound]
  rcases Nat.mod_two_eq_zero_or_one s with hs | hs
  · obtain ⟨hp, hi⟩ : i % 2 = s % 2 ∧ i + 1 < n := by omega
    rw [if_pos hs, ← hs]
    exact hedges hp hi
  · rw [if_neg (by omega), List.mem_append]
    rcases h with ⟨hp, hi⟩ | ⟨rfl, -⟩
    · exact .inr (hs ▸ hedges hp hi)
    · exact .inl he

/-- What an exchange brings: the left rank gets one block from the right, and the right one from the
    left. -/
theorem known_edge {n s i : ℕ} (hi : i < n) (hs : s / 2 < n)
    (h : i % 2 = s % 2 ∧ i + 1 < n ∨ i = n - 1 ∧ s % 2 = 1) (K : ℕ → ℕ → Prop) :
    known K (hplRound n s) i ((i + (s / 2 + 1)) % n) ∧
      known K (hplRound n s) ((i + 1) % n) (((i + 1) % n + n - (s / 2 + 1)) % n) := by
  refine ⟨?_, ?_⟩
  · have hmem : Event.comm ((i + 1) % n) i (((i + 1) % n + s / 2 + n) % n)
        (((i + 1) % n + s / 2 + n) % n) ∈ hplRound n s := edge_mem_hplRound h (by simp [edge])
    have := known_of_mem (K := K) hmem
    rwa [Nat.add_mod_right, Nat.mod_add_mod, show i + 1 + s / 2 = i + (s / 2 + 1) by ring] at this
  · have hmem : Event.comm i ((i + 1) % n) ((i + n - s / 2) % n) ((i + n - s / 2) % n) ∈
        hplRound n s := edge_mem_hplRound h (by simp [edge])
    have := known_of_mem (K := K) hmem
    have hidx : (i + n - s / 2) % n = ((i + 1) % n + n - (s / 2 + 1)) % n := by
      rw [succ_mod hi]
      split
      · rw [show i + n - s / 2 = 0 + n - (s / 2 + 1) + n by omega, Nat.add_mod_right]
      · congr 1
        omega
    rwa [hidx] at this

/-- A step of the pairs: every sender knows its block, and the ranks know more afterwards. -/
theorem Reached.step {n s : ℕ} {K : ℕ → ℕ → Prop} (hs : s < n - 1) (h : Reached n s K) :
    Sound K (hplRound n s) ∧ Reached n (s + 1) (known K (hplRound n s)) := by
  constructor
  · refine sound_of_backed fun e he => ?_
    obtain ⟨i, hi, he⟩ := mem_hplRound (by omega) he
    simp only [edge, List.mem_cons, List.not_mem_nil, or_false] at he
    rcases he with rfl | rfl
    · exact (h i hi).1 _ (half_le_leftReach i s)
    · have hsucc : (i + 1) % n < n := Nat.mod_lt _ (by omega)
      simpa only [Event.Backed, Nat.add_mod_right] using
        (h _ hsucc).2 _ (half_le_rightReach n _ s)
  · intro r hr
    constructor
    · intro j hj
      rcases Nat.lt_or_ge (leftReach r s) j with hlt | hge
      · -- the exchange with the left neighbour
        obtain ⟨hpar, rfl⟩ : r % 2 ≠ s % 2 ∧ j = s / 2 + 1 := by
          simp only [leftReach] at hj hlt
          split at hj <;> split at hlt <;> omega
        rcases Nat.eq_zero_or_pos r with rfl | hpos
        · have hnew := (known_edge (n := n) (i := n - 1) (s := s) (by omega) (by omega)
            (.inr ⟨rfl, by omega⟩) K).2
          rwa [Nat.sub_add_cancel (by omega), Nat.mod_self] at hnew
        · have hnew := (known_edge (n := n) (i := r - 1) (s := s) (by omega) (by omega)
            (.inl ⟨by omega, by omega⟩) K).2
          rwa [Nat.sub_add_cancel hpos, Nat.mod_eq_of_lt hr] at hnew
      · exact known_mono ((h r hr).1 j hge) _
    · intro j hj
      rcases Nat.lt_or_ge (rightReach n r s) j with hlt | hge
      · -- the exchange with the right neighbour
        obtain ⟨hcase, rfl⟩ : (r % 2 = s % 2 ∧ r + 1 < n ∨ r = n - 1 ∧ s % 2 = 1) ∧
            j = s / 2 + 1 := by
          simp only [rightReach] at hj hlt
          split at hj <;> split at hlt <;> omega
        exact (known_edge hr (by omega) hcase K).1
      · exact known_mono ((h r hr).2 j hge) _

/-- Before the step behind the last one every rank knows all blocks. -/
theorem Reached.all {n : ℕ} {K : ℕ → ℕ → Prop} (h : Reached n (n - 1) K) {r b : ℕ} (hr : r < n)
    (hb : b < n) : K r b := by
  have hreach : n - 1 ≤ leftReach r (n - 1) + rightReach n r (n - 1) := by
    simp only [leftReach, rightReach]
    split <;> split <;> omega
  obtain ⟨hleft, hright⟩ := h r hr
  -- the distance to the block, going to the right
  have hdist : ∃ d < n, b = (r + d) % n ∧ (d ≠ 0 → b = (r + n - (n - d)) % n) := by
    rcases Nat.lt_or_ge b r with hlt | hge
    · refine ⟨b + n - r, by omega, ?_, fun _ => ?_⟩
      · rw [show r + (b + n - r) = b + n by omega, Nat.add_mod_right, Nat.mod_eq_of_lt hb]
      · rw [show r + n - (n - (b + n - r)) = b + n by omega, Nat.add_mod_right,
          Nat.mod_eq_of_lt hb]
    · refine ⟨b - r, by omega, ?_, fun _ => ?_⟩
      · rw [show r + (b - r) = b by omega, Nat.mod_eq_of_lt hb]
      · rw [show r + n - (n - (b - r)) = b by omega, Nat.mod_eq_of_lt hb]
  obtain ⟨d, hd, hbr, hbl⟩ := hdist
  rcases Nat.lt_or_ge (rightReach n r (n - 1)) d with hlt | hge
  · rw [hbl (by omega)]
    exact hleft _ (by omega)
  · rw [hbr]
    exact hright d hge

theorem spreads_ringHpl (args : AllgathervArgs V) :
    ∃ es, Spreads args (allgathervRingHpl args) es := by
  refine ⟨_, spreads_of_rounds (fun r => ringHplStep args.groupSize r)
    (hplRound args.groupSize) (Reached args.groupSize) ?_ ?_ ?_ ?_ ?_⟩
  · exact fun r hr => proj_hplRounds hr
  · intro s hs e he
    obtain ⟨i, hi, he⟩ := mem_hplRound (by omega) he
    have hne := succ_mod_ne (show 2 ≤ args.groupSize by omega) hi
    have hlt : (i + 1) % args.groupSize < args.groupSize := Nat.mod_lt _ (by omega)
    simp only [edge, List.mem_cons, List.not_mem_nil, or_false] at he
    rcases he with rfl | rfl
    · exact ⟨_, _, _, rfl, hne.symm, hi, hlt, Nat.mod_lt _ (by omega)⟩
    · exact ⟨_, _, _, rfl, hne, hlt, hi, Nat.mod_lt _ (by omega)⟩
  · intro K hK r hr
    refine ⟨fun j hj => ?_, fun j hj => ?_⟩
    · obtain rfl : j = 0 := by
        simp only [leftReach] at hj
        split at hj <;> omega
      rw [Nat.sub_zero, Nat.add_mod_right, Nat.mod_eq_of_lt hr]
      exact hK r hr
    · obtain rfl : j = 0 := by
        simp only [rightReach] at hj
        split at hj <;> omega
      rw [Nat.add_zero, Nat.mod_eq_of_lt hr]
      exact hK r hr
  · exact fun s hs K hinv => hinv.step hs
  · exact fun K hinv r hr b hb => hinv.all hr hb

end Kucg.Hccl
