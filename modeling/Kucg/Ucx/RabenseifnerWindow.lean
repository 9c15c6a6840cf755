import Kucg.Ucx.ReduceScatter

/-! The window that a rank has after the reduce-scatter of the Rabenseifner allreduce.

    `rabWindow` splits the window once a step. The loop of `get_rd_args` follows it step by step. A
    step of the operation may be entered again while its messages are under way, and splits anew
    then: that changes nothing, since the index that the split reads is not the one it writes. What
    a rank has not sent away in the end is the last window (`getRdArgs_window`). -/

namespace Kucg.Ucx

open Kucg.Core Kucg.Lib

variable {B β : Type}

/-! ### Windows -/

/-- The ranks beyond a power of two. -/
def rabRem (n : ℕ) : ℕ := n - 2 ^ Nat.log2 n

/-- A rank that has no window. -/
def RabExtra (n v : ℕ) : Prop := v < 2 * rabRem n ∧ v % 2 = 1

instance (n v : ℕ) : Decidable (RabExtra n v) := inferInstanceAs (Decidable (_ ∧ _))

/-- The new rank of a proxy or a base rank. -/
def rabNew (n v : ℕ) : ℕ := if v < 2 * rabRem n then v / 2 else v - rabRem n

/-- The rank of a new rank. -/
def rabOld (n w : ℕ) : ℕ := if w < rabRem n then w * 2 else w + rabRem n

/-- The peer of rank `v` in step `k`. -/
def rabPeer (n v k : ℕ) : ℕ := rabOld n (rabNew n v ^^^ 2 ^ k)

/-- The start and the size of the window of rank `v` after `k` steps. -/
def rabWindow (n count v : ℕ) : ℕ → ℕ × ℕ
  | 0 => (0, count)
  | k + 1 =>
    let w := rabWindow n count v k
    if v < rabPeer n v k then (w.1, w.2 / 2) else (w.1 + w.2 / 2, w.2 - w.2 / 2)

theorem rabenseifnerPeer_eq (n v k : ℕ) :
    rabenseifnerPeer (n - 2 ^ Nat.log2 n) (Int.xor (rabNew n v) ((2 ^ k : ℕ) : ℤ)) =
      (rabPeer n v k : ℕ) := by
  change rabenseifnerPeer (rabRem n) ((rabNew n v ^^^ 2 ^ k : ℕ) : ℤ) = _
  rw [rabenseifnerPeer, rabPeer, rabOld]
  split_ifs <;> omega

theorem rabWindow_le (n count v : ℕ) :
    ∀ k, (rabWindow n count v k).1 + (rabWindow n count v k).2 ≤ count
  | 0 => by simp [rabWindow]
  | k + 1 => by
    have ih := rabWindow_le n count v k
    rw [rabWindow]
    split_ifs <;> dsimp only <;> omega

/-- Both loops: the parts of the window in a step, where `left` says which of them is kept. -/
def Windows.split (left : Prop) [Decidable left] (step wsize : ℕ) (w : Windows) : Windows :=
  if left then
    let rcount := Function.update w.recvCount step (wsize / 2)
    let scount := Function.update w.sendCount step (wsize - rcount step)
    let sindex := Function.update w.sendIndex step (w.recvIndex step + rcount step)
    ⟨sindex, w.recvIndex, scount, rcount⟩
  else
    let scount := Function.update w.sendCount step (wsize / 2)
    let rcount := Function.update w.recvCount step (wsize - scount step)
    let rindex := Function.update w.recvIndex step (w.sendIndex step + scount step)
    ⟨w.sendIndex, rindex, scount, rcount⟩

/-- Both loops: what the next step starts with. -/
def Windows.next (step : ℕ) (w : Windows) : Windows :=
  { w with
    recvIndex := Function.update w.recvIndex (step + 1) (w.recvIndex step)
    sendIndex := Function.update w.sendIndex (step + 1) (w.recvIndex step) }

/-- The index that the split of step `k` reads is the start of the window. -/
structure Windows.At (n count v k : ℕ) (w : Windows) : Prop where
  left : v < rabPeer n v k → w.recvIndex k = (rabWindow n count v k).1
  right : ¬v < rabPeer n v k → w.sendIndex k = (rabWindow n count v k).1

/-- Step `k` has been split. -/
structure Windows.SplitAt (n count v k : ℕ) (w : Windows) : Prop extends w.At n count v k where
  recvIndex : w.recvIndex k = (rabWindow n count v (k + 1)).1
  recvCount : w.recvCount k = (rabWindow n count v (k + 1)).2
  sendIndex : w.sendIndex k = if v < rabPeer n v k then
    (rabWindow n count v k).1 + (rabWindow n count v k).2 / 2 else (rabWindow n count v k).1
  sendCount : w.sendCount k = if v < rabPeer n v k then
    (rabWindow n count v k).2 - (rabWindow n count v k).2 / 2 else (rabWindow n count v k).2 / 2

section Windows

variable {n count v k : ℕ} {w : Windows}

theorem Windows.At.split (h : w.At n count v k) :
    (w.split (v < rabPeer n v k) k (rabWindow n count v k).2).SplitAt n count v k := by
  rw [Windows.split]
  split_ifs with hleft
  · have hstart := h.left hleft
    refine ⟨⟨fun _ => hstart, fun hr => absurd hleft hr⟩, ?_, ?_, ?_, ?_⟩ <;>
      simp [rabWindow, hleft, hstart]
  · have hstart := h.right hleft
    refine ⟨⟨fun hl => absurd hl hleft, fun _ => hstart⟩, ?_, ?_, ?_, ?_⟩ <;>
      simp [rabWindow, hleft, hstart]

theorem Windows.SplitAt.next (h : w.SplitAt n count v k) : (w.next k).At n count v (k + 1) := by
  constructor <;> simp [Windows.next, h.recvIndex]

end Windows

/-! ### The second computation -/

section Calculator

variable {n v : ℕ}

/-- The loop from step `k` on ends behind the last step. -/
theorem getRdArgsLoop_eq (count : ℕ) :
    ∀ (fuel : ℕ) {k : ℕ} {w : Windows}, k + (fuel + 1) = Nat.log2 n →
    w.At n count v k → ∃ w', getRdArgsLoop v (rabNew n v) (Nat.log2 n) (2 ^ Nat.log2 n)
      (n - 2 ^ Nat.log2 n) (fuel + 1) (2 ^ k) k (rabWindow n count v k).2 w =
        (Nat.log2 n - 1, w') ∧ w'.SplitAt n count v (Nat.log2 n - 1)
  | fuel, k, w, hk, hw => by
    have hmask : 2 ^ k < 2 ^ Nat.log2 n := Nat.pow_lt_pow_right (by norm_num) (by omega)
    have hpeer := rabenseifnerPeer_eq n v k
    rw [rabenseifnerPeer] at hpeer
    rw [getRdArgsLoop, if_pos hmask]
    simp only [hpeer, Nat.cast_lt]
    change ∃ w', (if k + 1 < Nat.log2 n then
        getRdArgsLoop v (rabNew n v) (Nat.log2 n) (2 ^ Nat.log2 n) (n - 2 ^ Nat.log2 n) fuel
          (2 ^ k * 2) (k + 1)
          ((w.split (v < rabPeer n v k) k (rabWindow n count v k).2).recvCount k)
          ((w.split (v < rabPeer n v k) k (rabWindow n count v k).2).next k)
      else getRdArgsLoop v (rabNew n v) (Nat.log2 n) (2 ^ Nat.log2 n) (n - 2 ^ Nat.log2 n) fuel
          (2 ^ k * 2) k (rabWindow n count v k).2
          (w.split (v < rabPeer n v k) k (rabWindow n count v k).2)) = _ ∧ _
    have hsplit := hw.split
    cases fuel with
    | zero =>
      rw [if_neg (by omega), getRdArgsLoop]
      obtain rfl : k = Nat.log2 n - 1 := by omega
      exact ⟨_, rfl, hsplit⟩
    | succ fuel =>
      rw [if_pos (by omega), hsplit.recvCount, ← Nat.pow_succ]
      exact getRdArgsLoop_eq count fuel (by omega) hsplit.next

/-- Given a group of two or more ranks and memory, a proxy or base rank gets its last window. -/
theorem allreduceGetRdArgs_eq {group : TopoGroup} (hstate : group.state = .enable)
    (hsize : group.size = n) (hrank : group.myrank = some v) (hn : 2 ≤ n) (hv : ¬RabExtra n v)
    (args : AllreduceArgs B) (extent : ℤ) (w : Windows) :
    allreduceGetRdArgs (some group) args extent true w =
      .ok ((rabWindow n args.count v (Nat.log2 n)).1 * extent,
        (rabWindow n args.count v (Nat.log2 n)).2) := by
  have hnew : (if (v : ℤ) < 2 * (n - 2 ^ Nat.log2 n : ℕ) then
      if (v : ℤ) % 2 = 0 then (v : ℤ) / 2 else -1 else (v : ℤ) - (n - 2 ^ Nat.log2 n : ℕ)) =
      (rabNew n v : ℕ) := by
    change (if (v : ℤ) < 2 * (rabRem n : ℕ) then
      if (v : ℤ) % 2 = 0 then (v : ℤ) / 2 else -1 else (v : ℤ) - (rabRem n : ℕ)) = _
    rw [RabExtra] at hv
    rw [rabNew]
    split_ifs <;> omega
  have hlog : 1 ≤ Nat.log2 n := (Nat.le_log2 (by omega)).mpr hn
  obtain ⟨fuel, hfuel⟩ : ∃ fuel, Nat.log2 n = fuel + 1 := ⟨Nat.log2 n - 1, by omega⟩
  obtain ⟨w', hloop, hsplit⟩ := getRdArgsLoop_eq (n := n) (v := v) args.count fuel
    (k := 0) (w := ⟨Function.update w.sendIndex 0 0, Function.update w.recvIndex 0 0, w.sendCount,
      Function.update w.recvCount 0 0⟩) (by omega) ⟨fun _ => rfl, fun _ => rfl⟩
  rw [← hfuel] at hloop
  have hlast : Nat.log2 n - 1 + 1 = Nat.log2 n := by omega
  rw [allreduceGetRdArgs]
  dsimp only
  rw [if_neg (by rw [hstate]; decide), hsize, hrank, Option.elim_some, if_neg (by simp), hnew]
  change Except.ok (ε := Status) _ = _
  rw [show rabWindow n args.count v 0 = (0, args.count) from rfl, Nat.pow_zero] at hloop
  simp only [hloop, hsplit.recvIndex, hsplit.recvCount, hlast]

end Calculator

/-! ### What a rank keeps for itself -/

/-- The elements of the receive buffer that a rank still has for itself: it gives away what it
    sends, and gets what it receives into the buffer. -/
def Post.own [DecidableEq B] (recvbuf : Cell B) (count : ℕ) (own : Set ℕ) :
    Post (Cell B) → Set ℕ
  | .send _ src => {i | i ∈ own ∧ recvbuf.at i ∉ src}
  | .recv _ dst => {i | i < count ∧ (i ∈ own ∨ recvbuf.at i ∈ dst)}

/-- What is left of the buffer after some posts. -/
def owned [DecidableEq B] (recvbuf : Cell B) (count : ℕ) (posts : List (Post (Cell B))) : Set ℕ :=
  posts.foldl (Post.own recvbuf count) {i | i < count}

section Owned

variable [DecidableEq B] {recvbuf staging : Cell B} {count : ℕ} {posts : List (Post (Cell B))}

omit [DecidableEq B] in
theorem at_mem_span {p : Cell B} {i s c : ℕ} : p.at i ∈ span (p.at s) c ↔ s ≤ i ∧ i < s + c := by
  simp only [mem_span, Cell.at, true_and]
  omega

theorem owned_nil : owned recvbuf count [] = Set.Ico 0 (0 + count) := by
  ext i
  simp [owned]

/-- Sending the right part of a window. -/
theorem owned_send_right {s c l : ℕ} (d : ℕ) (h : owned recvbuf count posts = Set.Ico s (s + c))
    (hl : l ≤ c) : owned recvbuf count (posts ++ [.send d (span (recvbuf.at (s + l)) (c - l))]) =
      Set.Ico s (s + l) := by
  rw [owned, List.foldl_append, ← owned, h]
  ext i
  simp only [List.foldl_cons, List.foldl_nil, Post.own, Set.mem_ofPred_eq, at_mem_span, Set.mem_Ico]
  omega

/-- Sending the left part of a window. -/
theorem owned_send_left {s c l : ℕ} (d : ℕ) (h : owned recvbuf count posts = Set.Ico s (s + c))
    (hl : l ≤ c) : owned recvbuf count (posts ++ [.send d (span (recvbuf.at s) l)]) =
      Set.Ico (s + l) (s + l + (c - l)) := by
  rw [owned, List.foldl_append, ← owned, h]
  ext i
  simp only [List.foldl_cons, List.foldl_nil, Post.own, Set.mem_ofPred_eq, at_mem_span, Set.mem_Ico]
  omega

/-- A receive into the staging area adds nothing. -/
theorem owned_recv_staging {a b s c : ℕ} (d : ℕ) (hap : Apart recvbuf count staging count)
    (h : owned recvbuf count posts = Set.Ico a b) (hb : b ≤ count) (hc : s + c ≤ count) :
    owned recvbuf count (posts ++ [.recv d (span (staging.at s) c)]) = Set.Ico a b := by
  rw [owned, List.foldl_append, ← owned, h]
  ext i
  simp only [List.foldl_cons, List.foldl_nil, Post.own, Set.mem_ofPred_eq, Set.mem_Ico, mem_span,
    Cell.at]
  rcases hap with hne | hlt | hlt
  · constructor
    · rintro ⟨-, hi | ⟨heq, -⟩⟩
      · exact hi
      · exact absurd heq hne
    · exact fun hi => ⟨by omega, Or.inl hi⟩
  · omega
  · omega

/-- The rest of the buffer is received into it. -/
theorem owned_recv_rest {l : ℕ} (d : ℕ) (h : owned recvbuf count posts = Set.Ico 0 l)
    (hl : l ≤ count) :
    owned recvbuf count (posts ++ [.recv d (span (recvbuf.at l) (count - l))]) =
      Set.Ico 0 (0 + count) := by
  rw [owned, List.foldl_append, ← owned, h]
  ext i
  simp only [List.foldl_cons, List.foldl_nil, Post.own, Set.mem_ofPred_eq, at_mem_span, Set.mem_Ico]
  omega

end Owned

/-! ### Runs of the operation -/

section Runs

variable [DecidableEq B] (vgroup : VGroup) (args : AllreduceArgs B) (staging : Cell B)

/-- What no call changes. -/
structure RabMade (op : RabenseifnerOp B) : Prop where
  vgroup_eq : op.vgroup = vgroup
  args_eq : op.args = args
  staging_eq : op.stagingArea = staging
  newRank_eq : op.newRank = rabNew vgroup.size vgroup.myrank
  role : op.rankType = .base ∨ op.rankType = .proxy

/-- The operation is in step `k` of the reduce-scatter. -/
structure RabStep (k : ℕ) (op : RabenseifnerOp B) : Prop
    extends RabMade vgroup args staging op where
  lt : k < Nat.log2 vgroup.size
  mask_eq : op.mask = 2 ^ k
  stepIndex_eq : op.stepIndex = k
  windowSize_eq : op.windowSize = (rabWindow vgroup.size args.count vgroup.myrank k).2
  windows_at : op.windows.At vgroup.size args.count vgroup.myrank k
  baseReduceScatter : op.flags.baseReduceScatter = true

/-- The elements of the window after `k` steps. -/
def rabOwn (k : ℕ) : Set ℕ :=
  let w := rabWindow vgroup.size args.count vgroup.myrank k
  Set.Ico w.1 (w.1 + w.2)

/-- Whether the messages of step `k` have been posted, and what the rank has for itself. -/
def RabPosts (k : ℕ) (op : RabenseifnerOp B) (posts : List (Post (Cell B))) : Prop :=
  (op.flags.baseReduceScatterSend = true ∧ op.flags.baseReduceScatterRecv = true ∧
    owned args.recvbuf args.count posts = rabOwn vgroup args k) ∨
  (op.flags.baseReduceScatterSend = false ∧ op.flags.baseReduceScatterRecv = false ∧
    owned args.recvbuf args.count posts = rabOwn vgroup args (k + 1))

/-- The loop is behind the last step. -/
structure RabEnd (op : RabenseifnerOp B) (posts : List (Post (Cell B))) : Prop
    extends RabMade vgroup args staging op where
  mask_eq : op.mask = 2 ^ Nat.log2 vgroup.size
  windows_split :
    op.windows.SplitAt vgroup.size args.count vgroup.myrank (Nat.log2 vgroup.size - 1)
  owned_eq : owned args.recvbuf args.count posts = rabOwn vgroup args (Nat.log2 vgroup.size)

/-- The window is the last one. -/
structure RabDone (op : RabenseifnerOp B) (posts : List (Post (Cell B))) : Prop
    extends RabMade vgroup args staging op where
  stepIndex_eq : op.stepIndex = Nat.log2 vgroup.size - 1
  windows_split :
    op.windows.SplitAt vgroup.size args.count vgroup.myrank (Nat.log2 vgroup.size - 1)
  owned_eq : owned args.recvbuf args.count posts = rabOwn vgroup args (Nat.log2 vgroup.size)

/-- The flags of a proxy. -/
def RabProxyFlags (send reduce : Bool) (op : RabenseifnerOp B) : Prop :=
  op.flags.proxySend = send ∧ op.flags.proxyRecv = send ∧ op.flags.proxyReduce = reduce ∧
    op.flags.proxyRecvResult = reduce

section Steps

variable {vgroup args staging} {k : ℕ} {op : RabenseifnerOp B} {posts : List (Post (Cell B))}

omit [DecidableEq B] in
theorem reduceScatterOpSplit_eq (op : RabenseifnerOp B) (peer : ℕ) :
    reduceScatterOpSplit op peer = { op with
      windows := op.windows.split (op.vgroup.myrank < peer) op.stepIndex op.windowSize } := by
  rw [reduceScatterOpSplit, Windows.split]
  simp only [Nat.cast_lt]
  split_ifs <;> rfl

omit [DecidableEq B] in
/-- The split of a step, for the first time or again. -/
theorem RabStep.split (h : RabStep vgroup args staging k op) :
    RabStep vgroup args staging k
      (reduceScatterOpSplit op (rabPeer vgroup.size vgroup.myrank k)) ∧
    (reduceScatterOpSplit op (rabPeer vgroup.size vgroup.myrank k)).flags = op.flags ∧
    (reduceScatterOpSplit op (rabPeer vgroup.size vgroup.myrank k)).windows.SplitAt vgroup.size
      args.count vgroup.myrank k := by
  have hsplit := h.windows_at.split
  rw [reduceScatterOpSplit_eq, h.stepIndex_eq, h.windowSize_eq, h.vgroup_eq]
  exact ⟨⟨⟨rfl, h.args_eq, h.staging_eq, h.newRank_eq, h.role⟩, h.lt, h.mask_eq, rfl, rfl,
    hsplit.toAt, h.baseReduceScatter⟩, rfl, hsplit⟩

theorem flags_posted {flags : RabenseifnerFlags} (hs : flags.baseReduceScatterSend = false)
    (hr : flags.baseReduceScatterRecv = false) :
    { flags with baseReduceScatterSend := false, baseReduceScatterRecv := false } = flags := by
  cases flags
  simp_all

/-- Sending the part that is not kept. -/
theorem owned_send_part {w : Windows} (hsplit : w.SplitAt vgroup.size args.count vgroup.myrank k)
    (hown : owned args.recvbuf args.count posts = rabOwn vgroup args k) (d : ℕ) :
    owned args.recvbuf args.count
      (posts ++ [.send d (span (args.recvbuf.at (w.sendIndex k)) (w.sendCount k))]) =
        rabOwn vgroup args (k + 1) := by
  have hhalf := Nat.div_le_self (rabWindow vgroup.size args.count vgroup.myrank k).2 2
  rw [hsplit.sendIndex, hsplit.sendCount, rabOwn, rabWindow]
  split_ifs
  · exact owned_send_right d hown hhalf
  · exact owned_send_left d hown hhalf

/-- The messages of a step, unless they are under way. -/
theorem RabStep.post (h : RabStep vgroup args staging k op)
    (hsplit : op.windows.SplitAt vgroup.size args.count vgroup.myrank k)
    (hposts : RabPosts vgroup args k op posts)
    (hap : Apart args.recvbuf args.count staging args.count) (peer : ℕ) :
    (reduceScatterOpPost op peer : Prog (Cell B) β _).Always (fun res posts =>
      res = ({ op with flags := { op.flags with
        baseReduceScatterSend := false, baseReduceScatterRecv := false } }, .ok) ∧
      owned args.recvbuf args.count posts = rabOwn vgroup args (k + 1)) posts := by
  rcases hposts with ⟨hs, hr, hown⟩ | ⟨hs, hr, hown⟩
  · simp only [reduceScatterOpPost, hs, hr, if_true, always_bind, always_p2pIsend, ne_eq,
      not_true_eq_false, if_false, always_p2pIrecv, always_pure, h.stepIndex_eq, h.args_eq,
      h.staging_eq, true_and]
    have hle := rabWindow_le vgroup.size args.count vgroup.myrank (k + 1)
    refine owned_recv_staging _ hap (owned_send_part hsplit hown _) hle ?_
    rw [hsplit.recvIndex, hsplit.recvCount]
    exact hle
  · simp only [reduceScatterOpPost, hs, hr, Bool.false_eq_true, if_false, always_pure]
    exact ⟨by rw [flags_posted hs hr], hown⟩

/-- The end of a step whose messages have been posted. -/
theorem RabStep.finish (h : RabStep vgroup args staging k op)
    (hsplit : op.windows.SplitAt vgroup.size args.count vgroup.myrank k)
    (hs : op.flags.baseReduceScatterSend = false ∧ op.flags.baseReduceScatterRecv = false)
    (hown : owned args.recvbuf args.count posts = rabOwn vgroup args (k + 1))
    (reduce : β → β → β) :
    (reduceScatterOpFinish reduce (Nat.log2 vgroup.size) op).Always (fun res posts =>
      (res = (op, .inprogress) ∧ RabPosts vgroup args k op posts) ∨
      (res.2 = .ok ∧ res.1.flags = { op.flags with
          baseReduceScatterSend := true, baseReduceScatterRecv := true } ∧
        ((k + 1 < Nat.log2 vgroup.size ∧ RabStep vgroup args staging (k + 1) res.1 ∧
            RabPosts vgroup args (k + 1) res.1 posts) ∨
          RabEnd vgroup args staging res.1 posts))) posts := by
  simp only [reduceScatterOpFinish, always_bind, always_p2pTestall]
  refine ⟨?_, ?_⟩
  · simp only [ne_eq, not_true_eq_false, if_false, always_bind, always_opReduce, h.stepIndex_eq]
    have hmask : op.mask * 2 = 2 ^ (k + 1) := by rw [h.mask_eq, Nat.pow_succ]
    split_ifs with hlast
    · refine Or.inr ⟨rfl, rfl, Or.inl ⟨hlast, ⟨⟨h.vgroup_eq, h.args_eq, h.staging_eq, h.newRank_eq,
        h.role⟩, hlast, hmask, rfl, hsplit.recvCount, hsplit.next, h.baseReduceScatter⟩,
        Or.inl ⟨rfl, rfl, hown⟩⟩⟩
    · have hk : k + 1 = Nat.log2 vgroup.size := by have := h.lt; omega
      refine Or.inr ⟨rfl, rfl, Or.inr ⟨⟨h.vgroup_eq, h.args_eq, h.staging_eq, h.newRank_eq,
        h.role⟩, hk ▸ hmask, ?_, hk ▸ hown⟩⟩
      rw [← hk, Nat.add_sub_cancel]
      exact hsplit
  · simp only [ne_eq, reduceCtorEq, not_false_eq_true, if_true, always_pure]
    exact Or.inl ⟨trivial, Or.inr ⟨hs.1, hs.2, hown⟩⟩

/-- The loop ends behind the last step. -/
theorem RabEnd.loop (h : RabEnd vgroup args staging op posts) (reduce : β → β → β) (fuel : ℕ) :
    (reduceScatterOpBaseProgress reduce fuel op : Prog (Cell B) β _) = .pure
      ({ op with mask := 2 ^ Nat.log2 vgroup.size / 2, stepIndex := Nat.log2 vgroup.size - 1 },
        .ok) := by
  rw [reduceScatterOpBaseProgress.eq_def]
  dsimp only
  rw [if_neg (by rw [h.mask_eq, h.vgroup_eq]; exact lt_irrefl _),
    h.vgroup_eq]
  rfl

variable (vgroup args staging) in
/-- Where a call of the loop ends: in a step whose messages are under way, or behind the last
one. -/
def RabLooped (res : RabenseifnerOp B × Status) (posts : List (Post (Cell B))) : Prop :=
  (res.2 = .inprogress ∧ ∃ k, RabStep vgroup args staging k res.1 ∧
      RabPosts vgroup args k res.1 posts) ∨
    (res.2 = .ok ∧ RabDone vgroup args staging res.1 posts)

/-- The loop of the reduce-scatter, from any step. -/
theorem RabStep.loop (hap : Apart args.recvbuf args.count staging args.count)
    (reduce : β → β → β) {send red : Bool} : ∀ (fuel : ℕ) {k : ℕ} {op : RabenseifnerOp B}
      {posts : List (Post (Cell B))}, Nat.log2 vgroup.size ≤ k + fuel →
      RabStep vgroup args staging k op → RabPosts vgroup args k op posts →
      RabProxyFlags send red op →
      (reduceScatterOpBaseProgress reduce fuel op).Always (fun res posts =>
        RabProxyFlags send red res.1 ∧ RabLooped vgroup args staging res posts) posts
  | 0, k, op, posts, hfuel, h, _, _ => absurd h.lt (by omega)
  | fuel + 1, k, op, posts, hfuel, h, hposts, hproxy => by
    have hpeer : (rabenseifnerPeer (op.vgroup.size - 2 ^ Nat.log2 op.vgroup.size)
        (Int.xor op.newRank op.mask)) = (rabPeer vgroup.size vgroup.myrank k : ℕ) := by
      rw [h.vgroup_eq, h.newRank_eq, h.mask_eq]
      exact rabenseifnerPeer_eq _ _ _
    have hmask : op.mask < 2 ^ Nat.log2 op.vgroup.size := by
      rw [h.mask_eq, h.vgroup_eq]
      exact Nat.pow_lt_pow_right (by norm_num) h.lt
    rw [reduceScatterOpBaseProgress]
    dsimp only
    rw [if_pos hmask]
    simp only [hpeer, Int.toNat_natCast, always_bind]
    obtain ⟨hstep, hflags, hsplit⟩ := h.split
    have hposts : RabPosts vgroup args k
        (reduceScatterOpSplit op (rabPeer vgroup.size vgroup.myrank k)) posts := by
      rwa [RabPosts, hflags]
    have hproxy : RabProxyFlags send red
        (reduceScatterOpSplit op (rabPeer vgroup.size vgroup.myrank k)) := by
      rwa [RabProxyFlags, hflags]
    refine (hstep.post hsplit hposts hap _).imp ?_
    rintro ⟨op₁, st⟩ posts₁ ⟨heq, hown⟩
    obtain ⟨rfl, rfl⟩ := Prod.mk.inj heq
    simp only [ne_eq, not_true_eq_false, if_false, always_bind]
    have hstep₁ : RabStep vgroup args staging k
        { reduceScatterOpSplit op (rabPeer vgroup.size vgroup.myrank k) with
          flags := { (reduceScatterOpSplit op (rabPeer vgroup.size vgroup.myrank k)).flags with
            baseReduceScatterSend := false, baseReduceScatterRecv := false } } :=
      ⟨⟨hstep.vgroup_eq, hstep.args_eq, hstep.staging_eq, hstep.newRank_eq, hstep.role⟩, hstep.lt,
        hstep.mask_eq, hstep.stepIndex_eq, hstep.windowSize_eq, hstep.windows_at,
        hstep.baseReduceScatter⟩
    rw [h.vgroup_eq]
    refine (hstep₁.finish hsplit ⟨rfl, rfl⟩ hown reduce).imp ?_
    rintro ⟨op₂, st⟩ posts₂ (⟨heq, hposts₂⟩ | ⟨rfl : st = .ok, hflags₂, hnext⟩)
    · obtain ⟨rfl, rfl⟩ := Prod.mk.inj heq
      simp only [reduceCtorEq, not_false_eq_true, if_true, always_pure]
      exact ⟨hproxy, Or.inl ⟨rfl, k, hstep₁, hposts₂⟩⟩
    · simp only [not_true_eq_false, if_false]
      have hproxy₂ : RabProxyFlags send red op₂ := by rwa [RabProxyFlags, hflags₂]
      rcases hnext with ⟨-, hstep₂, hposts₂⟩ | hend
      · exact RabStep.loop hap reduce fuel (by omega) hstep₂ hposts₂ hproxy₂
      · rw [hend.loop]
        exact ⟨hproxy₂, Or.inr ⟨rfl, ⟨⟨hend.vgroup_eq, hend.args_eq, hend.staging_eq,
          hend.newRank_eq, hend.role⟩, rfl, hend.windows_split, hend.owned_eq⟩⟩⟩

variable (vgroup args staging) in
/-- Between calls: a proxy has still to exchange halves with its extra, or has sent its half; a step
    is under way; the reduce-scatter is over. -/
inductive RabStage (op : RabenseifnerOp B) (posts : List (Post (Cell B))) : Prop
  | half (send : Bool) (h : RabStep vgroup args staging 0 op)
      (hbase : op.flags.baseReduceScatterSend = true ∧ op.flags.baseReduceScatterRecv = true)
      (hproxy : RabProxyFlags send true op) (hrole : op.rankType = .proxy)
      (hown : owned args.recvbuf args.count posts =
        Set.Ico 0 (if send then 0 + args.count else 0 + args.count / 2))
  | step (k : ℕ) (h : RabStep vgroup args staging k op) (hproxy : RabProxyFlags false false op)
      (hposts : RabPosts vgroup args k op posts)
  | done (h : RabDone vgroup args staging op posts) (hproxy : RabProxyFlags false false op)
      (hbase : op.flags.baseReduceScatter = false)

omit [DecidableEq B] in
theorem RabMade.status (h : RabMade vgroup args staging op) (st : Status) :
    RabMade vgroup args staging { op with status := st } :=
  ⟨h.vgroup_eq, h.args_eq, h.staging_eq, h.newRank_eq, h.role⟩

omit [DecidableEq B] in
theorem RabStep.status (h : RabStep vgroup args staging k op) (st : Status) :
    RabStep vgroup args staging k { op with status := st } :=
  ⟨h.toRabMade.status st, h.lt, h.mask_eq, h.stepIndex_eq, h.windowSize_eq, h.windows_at,
    h.baseReduceScatter⟩

theorem RabDone.status (h : RabDone vgroup args staging op posts) (st : Status) :
    RabDone vgroup args staging { op with status := st } posts :=
  ⟨h.toRabMade.status st, h.stepIndex_eq, h.windows_split, h.owned_eq⟩

theorem RabStage.status (h : RabStage vgroup args staging op posts) (st : Status) :
    RabStage vgroup args staging { op with status := st } posts := by
  cases h with
  | half send h hbase hproxy hrole hown => exact .half send (h.status st) hbase hproxy hrole hown
  | step k h hproxy hposts => exact .step k (h.status st) hproxy hposts
  | done h hproxy hbase => exact .done (h.status st) hproxy hbase

variable (vgroup args staging) in
/-- What a call leaves, with the status that it returns. -/
def RabCalled (res : RabenseifnerOp B × Status) (posts : List (Post (Cell B))) : Prop :=
  RabStage vgroup args staging res.1 posts ∧
    (res.2 = .inprogress ∨ res.2 = .ok ∧ RabDone vgroup args staging res.1 posts)

/-- The reduce-scatter of a rank that has nothing to exchange with an extra any more. -/
theorem RabStage.base (hap : Apart args.recvbuf args.count staging args.count)
    (reduce : β → β → β) (h : RabStage vgroup args staging op posts)
    (hproxy : RabProxyFlags false false op) :
    (reduceScatterOpBase reduce op).Always (fun res posts =>
      RabCalled vgroup args staging res posts ∧ RabProxyFlags false false res.1) posts := by
  rw [reduceScatterOpBase]
  cases h with
  | half send h hbase hproxy' => exact absurd (hproxy'.2.2.1.symm.trans hproxy.2.2.1) (by decide)
  | step k h _ hposts =>
    simp only [h.baseReduceScatter, if_true, always_bind]
    refine (h.loop hap reduce _ ?_ hposts hproxy).imp ?_
    · rw [h.vgroup_eq]
      exact Nat.le_add_left _ _
    · rintro ⟨op₁, st⟩ posts₁ ⟨hproxy₁, ⟨rfl : st = .inprogress, k₁, h₁, hposts₁⟩ |
        ⟨rfl : st = .ok, h₁⟩⟩
      · simp only [ne_eq, reduceCtorEq, not_false_eq_true, if_true, always_pure]
        exact ⟨⟨.step k₁ (h₁.status _) hproxy₁ hposts₁, Or.inl rfl⟩, hproxy₁⟩
      · simp only [ne_eq, not_true_eq_false, if_false, always_pure]
        have hdone : RabDone vgroup args staging { op₁ with
            status := .ok, flags := { op₁.flags with baseReduceScatter := false } } posts₁ :=
          ⟨⟨h₁.vgroup_eq, h₁.args_eq, h₁.staging_eq, h₁.newRank_eq, h₁.role⟩, h₁.stepIndex_eq,
            h₁.windows_split, h₁.owned_eq⟩
        exact ⟨⟨.done hdone hproxy₁ rfl, Or.inr ⟨rfl, hdone⟩⟩, hproxy₁⟩
  | done h _ hbase =>
    simp only [hbase, Bool.false_eq_true, if_false, always_pure]
    exact ⟨⟨.done (h.status _) hproxy hbase, Or.inr ⟨rfl, h.status _⟩⟩, hproxy⟩

/-- The halves that a proxy exchanges with its extra, unless they are under way. -/
theorem RabStage.proxyPost (hap : Apart args.recvbuf args.count staging args.count)
    (h : RabStage vgroup args staging op posts) :
    (reduceScatterOpProxyPost op : Prog (Cell B) β _).Always (fun res posts => res.2 = .ok ∧
      RabStage vgroup args staging res.1 posts ∧ res.1.flags.proxySend = false) posts := by
  have hhalf := Nat.div_le_self args.count 2
  cases h with
  | half send h hbase hproxy hrole hown =>
    cases send with
    | true =>
      simp only [reduceScatterOpProxyPost, hproxy.1, hproxy.2.1, if_true, always_bind,
        always_p2pIsend, ne_eq, not_true_eq_false, if_false, always_p2pIrecv, always_pure,
        h.args_eq, h.staging_eq, true_and]
      have hsent := owned_send_right (op.vgroup.rankMap (op.vgroup.myrank + 1)) hown hhalf
      rw [zero_add] at hsent
      have hrecv := owned_recv_staging (s := 0) (c := args.count / 2)
        (op.vgroup.rankMap (op.vgroup.myrank + 1)) hap hsent hhalf (by rwa [zero_add])
      refine ⟨.half false ?_ hbase ⟨rfl, rfl, hproxy.2.2⟩ hrole
        (hrecv.trans (by rw [if_neg (by decide), zero_add])), trivial⟩
      exact ⟨⟨h.vgroup_eq, rfl, rfl, h.newRank_eq, h.role⟩, h.lt, h.mask_eq, h.stepIndex_eq,
        h.windowSize_eq, h.windows_at, h.baseReduceScatter⟩
    | false =>
      simp only [reduceScatterOpProxyPost, hproxy.1, hproxy.2.1, Bool.false_eq_true, if_false,
        always_pure, true_and]
      exact ⟨.half false h hbase hproxy hrole hown, trivial⟩
  | step k h hproxy hposts =>
    simp only [reduceScatterOpProxyPost, hproxy.1, hproxy.2.1, Bool.false_eq_true, if_false,
      always_pure, true_and]
    exact ⟨.step k h hproxy hposts, trivial⟩
  | done h hproxy hbase =>
    simp only [reduceScatterOpProxyPost, hproxy.1, hproxy.2.1, Bool.false_eq_true, if_false,
      always_pure, true_and]
    exact ⟨.done h hproxy hbase, trivial⟩

/-- The reduction of the own half, and the receive of the other one. -/
theorem RabStage.proxyReduce (h : RabStage vgroup args staging op posts)
    (hsent : op.flags.proxySend = false) (reduce : β → β → β) :
    (reduceScatterOpProxyReduce reduce op).Always (fun res posts => res.2 = .ok ∧
      RabStage vgroup args staging res.1 posts ∧ RabProxyFlags false false res.1) posts := by
  have hhalf := Nat.div_le_self args.count 2
  cases h with
  | half send h hbase hproxy hrole hown =>
    obtain rfl : send = false := hproxy.1.symm.trans hsent
    simp only [reduceScatterOpProxyReduce, hproxy.2.2.1, hproxy.2.2.2, if_true, always_bind,
      always_opReduce, ne_eq, not_true_eq_false, if_false, always_p2pIrecv, always_pure, h.args_eq,
      true_and]
    have hrest := owned_recv_rest (op.vgroup.rankMap (op.vgroup.myrank + 1))
      (hown.trans (by rw [if_neg (by decide), zero_add])) hhalf
    refine ⟨.step 0 ?_ ⟨hproxy.1, hproxy.2.1, rfl, rfl⟩ (Or.inl ⟨hbase.1, hbase.2, hrest⟩),
      hproxy.1, hproxy.2.1, rfl, rfl⟩
    exact ⟨⟨h.vgroup_eq, rfl, h.staging_eq, h.newRank_eq, h.role⟩, h.lt, h.mask_eq, h.stepIndex_eq,
      h.windowSize_eq, h.windows_at, h.baseReduceScatter⟩
  | step k h hproxy hposts =>
    simp only [reduceScatterOpProxyReduce, hproxy.2.2.1, hproxy.2.2.2, Bool.false_eq_true, if_false,
      always_pure, true_and]
    exact ⟨.step k h hproxy hposts, hproxy⟩
  | done h hproxy hbase =>
    simp only [reduceScatterOpProxyReduce, hproxy.2.2.1, hproxy.2.2.2, Bool.false_eq_true, if_false,
      always_pure, true_and]
    exact ⟨.done h hproxy hbase, hproxy⟩

/-- A call of a proxy. -/
theorem RabStage.proxy (hap : Apart args.recvbuf args.count staging args.count)
    (reduce : β → β → β) (h : RabStage vgroup args staging op posts) :
    (reduceScatterOpProxy reduce op).Always (RabCalled vgroup args staging) posts := by
  simp only [reduceScatterOpProxy, always_bind]
  refine (h.proxyPost hap).imp ?_
  rintro ⟨op₁, st⟩ posts₁ ⟨rfl : st = .ok, h₁, hsent⟩
  simp only [ne_eq, not_true_eq_false, if_false, always_bind, always_p2pTestall]
  refine ⟨(h₁.proxyReduce hsent reduce).imp ?_, ?_⟩
  · rintro ⟨op₂, st⟩ posts₂ ⟨rfl : st = .ok, h₂, hproxy⟩
    simp only [not_true_eq_false, if_false, always_bind, always_p2pTestall]
    refine ⟨(h₂.base hap reduce hproxy).imp ?_, ?_⟩
    · rintro ⟨op₃, st⟩ posts₃ ⟨⟨h₃, (rfl : st = .inprogress) | ⟨rfl : st = .ok, hdone⟩⟩, -⟩
      · simp only [reduceCtorEq, not_false_eq_true, if_true, always_pure]
        exact ⟨h₃, Or.inl rfl⟩
      · simp only [not_true_eq_false, if_false, always_bind, always_p2pTestall, always_pure]
        exact ⟨⟨h₃, Or.inr ⟨rfl, hdone⟩⟩, h₃, Or.inl rfl⟩
    · simp only [reduceCtorEq, not_false_eq_true, if_true, always_pure]
      exact ⟨h₂, Or.inl rfl⟩
  · simp only [reduceCtorEq, not_false_eq_true, if_true, always_pure]
    exact ⟨h₁, Or.inl rfl⟩

/-- A progress call. -/
theorem RabStage.progress (hap : Apart args.recvbuf args.count staging args.count)
    (reduce : β → β → β) (h : RabStage vgroup args staging op posts) :
    (reduceScatterOpProgress reduce op).Always (fun res posts => res.2 = res.1.status ∧
      RabCalled vgroup args staging res posts) posts := by
  have hrole : op.rankType = .base ∨ op.rankType = .proxy := by
    cases h with
    | half _ h => exact h.role
    | step _ h => exact h.role
    | done h => exact h.role
  have hend (res : RabenseifnerOp B × Status) (posts : List (Post (Cell B)))
      (hcalled : RabCalled vgroup args staging res posts) :
      RabCalled vgroup args staging ({ res.1 with status := res.2 }, res.2) posts :=
    ⟨hcalled.1.status _, hcalled.2.imp_right fun hd => ⟨hd.1, hd.2.status _⟩⟩
  rcases hrole with hrole | hrole
  · simp only [reduceScatterOpProgress, hrole, always_bind, always_pure]
    have hproxy : RabProxyFlags false false op := by
      cases h with
      | half _ _ _ _ hrole' => exact absurd (hrole.symm.trans hrole') (by decide)
      | step _ _ hproxy => exact hproxy
      | done _ hproxy => exact hproxy
    exact (h.base hap reduce hproxy).imp fun res posts hres => ⟨trivial, hend res posts hres.1⟩
  · simp only [reduceScatterOpProgress, hrole, always_bind, always_pure]
    exact (h.proxy hap reduce).imp fun res posts hres => ⟨trivial, hend res posts hres⟩

/-- A trigger of an operation that has been made for a proxy or a base rank. -/
theorem RabMade.trigger (h : RabMade vgroup args staging op) (hn : 2 ≤ vgroup.size)
    (hap : Apart args.recvbuf args.count staging args.count) (reduce : β → β → β) (id : ℕ) :
    (reduceScatterOpTrigger reduce op id).Always (fun res posts =>
      RabStage vgroup args staging res.1 posts ∧
        (res.1.status = .inprogress ∨
          res.1.status = .ok ∧ RabDone vgroup args staging res.1 posts)) [] := by
  have hlog : 0 < Nat.log2 vgroup.size := (Nat.le_log2 (by omega)).mpr hn
  have hstart (flags : RabenseifnerFlags) (hbase : flags.baseReduceScatter = true) :
      RabStep vgroup args staging 0
        { rabenseifnerCommonOpReset { op with id := id, status := .inprogress } with
          flags := flags } :=
    ⟨⟨h.vgroup_eq, h.args_eq, h.staging_eq, h.newRank_eq, h.role⟩, hlog, rfl, rfl,
      congrArg AllreduceArgs.count h.args_eq, ⟨fun _ => rfl, fun _ => rfl⟩, hbase⟩
  have hnil : owned args.recvbuf args.count [] = Set.Ico 0 (0 + args.count) := owned_nil
  have hstage : RabStage vgroup args staging
      { rabenseifnerCommonOpReset { op with id := id, status := .inprogress } with
        flags := RabenseifnerFlags.ofRank op.rankType } [] := by
    rcases h.role with hrole | hrole
    · have hflags :
        RabenseifnerFlags.ofRank op.rankType = .of true false false := by rw [hrole]; rfl
      rw [hflags]
      exact .step 0 (hstart _ rfl) ⟨rfl, rfl, rfl, rfl⟩ (Or.inl ⟨rfl, rfl, hnil⟩)
    · have hflags : RabenseifnerFlags.ofRank op.rankType = .of true true false := by rw [hrole]; rfl
      rw [hflags]
      exact .half true (hstart _ rfl) ⟨rfl, rfl⟩ ⟨rfl, rfl, rfl, rfl⟩ hrole hnil
  have hcall := (hstage.progress hap reduce).imp
    fun res posts ⟨hst, hcalled⟩ => by rwa [RabCalled, hst] at hcalled
  simp only [reduceScatterOpTrigger]
  split
  · simp only [always_bind, always_dtMemcpy, always_pure]
    exact hcall
  · simp only [always_bind, always_pure]
    exact hcall

end Steps

variable {vgroup args staging}

omit [DecidableEq B] in
/-- The operation as it is made for a proxy or a base rank. -/
theorem rabMade_new (hv : ¬RabExtra vgroup.size vgroup.myrank) (windows : Windows) :
    RabMade vgroup args staging (reduceScatterOpNew vgroup args staging windows) := by
  rw [RabExtra, rabRem] at hv
  have hnew (rankType : RabenseifnerRank) (newRank : ℤ) (hnew : newRank = rabNew vgroup.size
      vgroup.myrank) (hrole : rankType = .base ∨ rankType = .proxy) :
      RabMade vgroup args staging (rabenseifnerCommonOpReset ⟨vgroup, args, .ok, 0,
        RabenseifnerFlags.of false false false, staging, rankType, newRank, 1, 0, args.count,
        windows⟩) := ⟨rfl, rfl, rfl, hnew, hrole⟩
  rw [reduceScatterOpNew]
  dsimp only
  split_ifs with hlt heven
  · refine hnew _ _ ?_ (Or.inr rfl)
    rw [rabNew, rabRem, if_pos hlt]
    rfl
  · omega
  · refine hnew _ _ ?_ (Or.inl rfl)
    rw [rabNew, rabRem, if_neg hlt]
    omega

/-- In every run of a proxy or a base rank that has completed, the window is the last one. -/
theorem rabDone_of_run {op : RabenseifnerOp B} {posts : List (Post (Cell B))} {windows : Windows}
    (hn : 2 ≤ vgroup.size) (hv : ¬RabExtra vgroup.size vgroup.myrank)
    (hap : Apart args.recvbuf args.count staging args.count) (reduce : β → β → β)
    (hrun : OpRun (reduceScatterFuncs reduce) RabenseifnerOp.status
      (reduceScatterOpNew vgroup args staging windows) op posts) (hok : op.status = .ok) :
    RabDone vgroup args staging op posts := by
  have hinv := hrun.invariant (I := RabMade vgroup args staging)
    (J := fun op posts => RabStage vgroup args staging op posts ∧
      (op.status = .inprogress ∨ op.status = .ok ∧ RabDone vgroup args staging op posts))
    (rabMade_new hv windows) ?_ (fun op id h => h.trigger hn hap reduce id) ?_
  · rcases hinv.2 with hin | ⟨-, hdone⟩
    · exact absurd (hok.symm.trans hin) (by decide)
    · exact hdone
  · rintro op posts ⟨hstage, -⟩
    cases hstage with
    | half _ h => exact h.toRabMade
    | step _ h => exact h.toRabMade
    | done h => exact h.toRabMade
  · rintro op posts ⟨hstage, -⟩ -
    refine (hstage.progress hap reduce).imp ?_
    rintro res posts ⟨hst, hcalled⟩
    rwa [RabCalled, hst] at hcalled

/-! When the tests find nothing in flight, an operation is over with its trigger. -/

section Completion

variable (reduce : β → β → β)

omit [DecidableEq B]

theorem can_reduceScatterOpPost (op : RabenseifnerOp B) (peer : ℕ) :
    (reduceScatterOpPost op peer : Prog (Cell B) β _).Can fun res =>
      res.2 = .ok ∧ res.1.mask = op.mask ∧ res.1.vgroup = op.vgroup := by
  cases hs : op.flags.baseReduceScatterSend <;> cases hr : op.flags.baseReduceScatterRecv <;>
    simp [reduceScatterOpPost, hs, hr]

theorem mask_reduceScatterOpSplit (op : RabenseifnerOp B) (peer : ℤ) :
    (reduceScatterOpSplit op peer).mask = op.mask ∧
      (reduceScatterOpSplit op peer).vgroup = op.vgroup := by
  rw [reduceScatterOpSplit]
  split_ifs <;> exact ⟨rfl, rfl⟩

theorem can_reduceScatterOpFinish (nstep : ℕ) (op : RabenseifnerOp B) :
    (reduceScatterOpFinish reduce nstep op).Can fun res =>
      res.2 = .ok ∧ res.1.mask = op.mask * 2 ∧ res.1.vgroup = op.vgroup := by
  simp only [reduceScatterOpFinish, can_bind]
  refine can_p2pTestall ?_
  simp only [ne_eq, not_true_eq_false, if_false, can_bind, can_opReduce]
  split_ifs <;> exact ⟨rfl, rfl, rfl⟩

theorem can_reduceScatterOpBaseProgress : ∀ (fuel : ℕ) (op : RabenseifnerOp B),
    2 ^ Nat.log2 op.vgroup.size ≤ op.mask * 2 ^ fuel →
    (reduceScatterOpBaseProgress reduce fuel op).Can fun res => res.2 = .ok := by
  intro fuel
  induction fuel with
  | zero =>
    intro op hfuel
    rw [reduceScatterOpBaseProgress, if_neg (by omega)]
    exact rfl
  | succ fuel ih =>
    intro op hfuel
    rw [reduceScatterOpBaseProgress]
    dsimp only
    split_ifs
    · simp only [can_bind]
      refine (can_reduceScatterOpPost _ _).imp ?_
      rintro ⟨op₁, st⟩ ⟨rfl : st = .ok, hmask₁, hgroup₁⟩
      simp only [ne_eq, not_true_eq_false, if_false, can_bind]
      refine (can_reduceScatterOpFinish reduce _ _).imp ?_
      rintro ⟨op₂, st⟩ ⟨rfl : st = .ok, hmask₂, hgroup₂⟩
      simp only [not_true_eq_false, if_false]
      refine ih op₂ ?_
      obtain ⟨hmask, hgroup⟩ := mask_reduceScatterOpSplit op
        (rabenseifnerPeer (op.vgroup.size - 2 ^ op.vgroup.size.log2) (op.newRank.xor op.mask))
      rw [hmask₂, hgroup₂, hmask₁, hgroup₁, hmask, hgroup, mul_assoc, ← Nat.pow_succ']
      exact hfuel
    · exact rfl

theorem can_reduceScatterOpBase {op : RabenseifnerOp B} (hmask : op.mask = 1) :
    (reduceScatterOpBase reduce op).Can fun res => res.2 = .ok := by
  rw [reduceScatterOpBase]
  cases hbase : op.flags.baseReduceScatter with
  | false => simp
  | true =>
    simp only [if_true, can_bind]
    refine (can_reduceScatterOpBaseProgress reduce _ op (by rw [hmask, one_mul])).imp ?_
    rintro ⟨op₁, st⟩ (rfl : st = .ok)
    simp

theorem can_reduceScatterOpProxyPost (op : RabenseifnerOp B) :
    (reduceScatterOpProxyPost op : Prog (Cell B) β _).Can fun res =>
      res.2 = .ok ∧ res.1.mask = op.mask := by
  cases hs : op.flags.proxySend <;> cases hr : op.flags.proxyRecv <;>
    simp [reduceScatterOpProxyPost, hs, hr]

theorem can_reduceScatterOpProxyReduce (op : RabenseifnerOp B) :
    (reduceScatterOpProxyReduce reduce op).Can fun res =>
      res.2 = .ok ∧ res.1.mask = op.mask := by
  cases hs : op.flags.proxyReduce <;> cases hr : op.flags.proxyRecvResult <;>
    simp [reduceScatterOpProxyReduce, hs, hr]

theorem can_reduceScatterOpProxy {op : RabenseifnerOp B} (hmask : op.mask = 1) :
    (reduceScatterOpProxy reduce op).Can fun res => res.2 = .ok := by
  simp only [reduceScatterOpProxy, can_bind]
  refine (can_reduceScatterOpProxyPost op).imp ?_
  rintro ⟨op₁, st⟩ ⟨rfl : st = .ok, hmask₁⟩
  simp only [ne_eq, not_true_eq_false, if_false, can_bind]
  refine can_p2pTestall ?_
  simp only [not_true_eq_false, if_false, can_bind]
  refine (can_reduceScatterOpProxyReduce reduce op₁).imp ?_
  rintro ⟨op₂, st⟩ ⟨rfl : st = .ok, hmask₂⟩
  simp only [not_true_eq_false, if_false, can_bind]
  refine can_p2pTestall ?_
  simp only [not_true_eq_false, if_false, can_bind]
  refine (can_reduceScatterOpBase reduce (hmask₂.trans (hmask₁.trans hmask))).imp ?_
  rintro ⟨op₃, st⟩ (rfl : st = .ok)
  simp only [not_true_eq_false, if_false, can_bind]
  exact can_p2pTestall rfl

/-- An operation of a proxy or a base rank can complete. -/
theorem exists_run {op₀ : RabenseifnerOp B} (h : RabMade vgroup args staging op₀) :
    ∃ op posts, OpRun (reduceScatterFuncs reduce) RabenseifnerOp.status op₀ op posts ∧
      op.status = .ok := by
  have hprogress (op : RabenseifnerOp B) (hmask : op.mask = 1)
      (hrole : op.rankType = .base ∨ op.rankType = .proxy) :
      (reduceScatterOpProgress reduce op).Can fun res => res.1.status = .ok := by
    rcases hrole with hrole | hrole
    · simp only [reduceScatterOpProgress, hrole, can_bind, can_pure]
      exact can_reduceScatterOpBase reduce hmask
    · simp only [reduceScatterOpProgress, hrole, can_bind, can_pure]
      exact can_reduceScatterOpProxy reduce hmask
  have htrigger : (reduceScatterOpTrigger reduce op₀ 0).Can fun res => res.1.status = .ok := by
    simp only [reduceScatterOpTrigger]
    split
    · simp only [can_bind, can_dtMemcpy, can_pure]
      exact hprogress _ rfl h.role
    · simp only [can_bind, can_pure]
      exact hprogress _ rfl h.role
  obtain ⟨⟨op, st⟩, posts, hyields, hok⟩ := htrigger.yields
  exact ⟨op, posts, .trigger 0 hyields, hok⟩

end Completion

end Runs

/-- For every proxy and base rank of a topology group, the offset and the count that are computed
    for the operations behind are those of the window that the reduce-scatter on the group leaves,
    in every run that completes; and it can complete. -/
theorem getRdArgs_window [DecidableEq B] (members : List ℕ) (r : ℕ) (group : TopoGroup)
    (hgroup : group.Lists members r)
    (hrole : ¬RabExtra (vgroupOf group).size (vgroupOf group).myrank) (args : AllreduceArgs B)
    (staging : Cell B) (hap : Apart args.recvbuf args.count staging args.count)
    (reduce : β → β → β) (extent : ℤ) (mem : Bool) (w windows : Windows) (offset : ℤ) (count : ℕ)
    (h : allreduceGetRdArgs (some group) args extent mem w = .ok (offset, count)) :
    (∃ op posts, OpRun (reduceScatterFuncs reduce) RabenseifnerOp.status
      (reduceScatterOpNew (vgroupOf group) args staging windows) op posts ∧ op.status = .ok) ∧
    ∀ op posts, OpRun (reduceScatterFuncs reduce) RabenseifnerOp.status
      (reduceScatterOpNew (vgroupOf group) args staging windows) op posts → op.status = .ok →
      ∃ start : ℕ, offset = start * extent ∧ op.windows.recvIndex op.stepIndex = start ∧
        op.windows.recvCount op.stepIndex = count ∧
        owned args.recvbuf args.count posts = Set.Ico start (start + count) := by
  have hstate : group.state = .enable := by
    rcases hgroup.state with hstate | hstate
    · exact hstate
    · rw [allreduceGetRdArgs, if_pos (Or.inr hstate)] at h
      cases h
  obtain ⟨hr, hlen⟩ := hgroup.enable_iff.mp hstate
  have hsize : group.size = members.length := hgroup.size hstate
  have hn : 2 ≤ (vgroupOf group).size := by rwa [vgroupOf, hsize]
  have hrank : group.myrank = some (vgroupOf group).myrank := by
    rw [vgroupOf, hgroup.myrank hstate, Option.getD_some]
  have hmem : mem = true := by
    cases mem with
    | true => rfl
    | false =>
      rw [allreduceGetRdArgs, if_neg (by rw [hstate]; decide)] at h
      cases h
  subst hmem
  rw [allreduceGetRdArgs_eq hstate rfl hrank hn hrole] at h
  obtain ⟨rfl, rfl⟩ := Prod.mk.inj (Except.ok.inj h)
  refine ⟨exists_run reduce (rabMade_new hrole windows), fun op posts hrun hok => ?_⟩
  have hdone := rabDone_of_run hn hrole hap reduce hrun hok
  have hlog : 0 < Nat.log2 (vgroupOf group).size := (Nat.le_log2 (by omega)).mpr hn
  have hlast : Nat.log2 (vgroupOf group).size - 1 + 1 = Nat.log2 (vgroupOf group).size := by omega
  refine ⟨_, rfl, ?_, ?_, hdone.owned_eq⟩
  · rw [hdone.stepIndex_eq, hdone.windows_split.recvIndex, hlast]
    rfl
  · rw [hdone.stepIndex_eq, hdone.windows_split.recvCount, hlast]
    rfl

/-- The last of three ranks keeps three of five elements. -/
theorem getRdArgs_window_three :
    let group := groupOf [4, 5, 6] 6
    let args : AllreduceArgs Bool := ⟨none, (true, 0), 5⟩
    let windows : Windows := ⟨fun _ => 0, fun _ => 0, fun _ => 0, fun _ => 0⟩
    ∀ op posts, OpRun (reduceScatterFuncs (· + · : ℕ → ℕ → ℕ)) RabenseifnerOp.status
      (reduceScatterOpNew (vgroupOf group) args (false, 0) windows) op posts → op.status = .ok →
      ∃ start : ℕ, (8 : ℤ) = start * 4 ∧ op.windows.recvIndex op.stepIndex = start ∧
        op.windows.recvCount op.stepIndex = 3 ∧
        owned args.recvbuf args.count posts = Set.Ico start (start + 3) :=
  (getRdArgs_window [4, 5, 6] 6 (groupOf [4, 5, 6] 6) (groupOf_lists _) (by decide)
    ⟨none, (true, 0), 5⟩ (false, 0) (Or.inl (by decide)) _ 4 true
    ⟨fun _ => 0, fun _ => 0, fun _ => 0, fun _ => 0⟩ _ 8 3 (by rfl)).2

end Kucg.Ucx
