import Kucg.Algo.Kntree
import Kucg.Ucx.BcastTree

/-! The k-nomial broadcast of `bcast_kntree.c`.

    If the tree is not rooted at the rank that has the buffer, that rank sends it to the root of the
    tree first. Then every rank receives from its parent and sends to its children; a progress call
    resumes at the step whose messages have been posted, which the flags and the iterator tell. -/

namespace Kucg.Ucx

open Kucg.Core Kucg.Lib Kucg.Algo

variable {B β : Type}

/-- The flags of the operation, a bit each. -/
structure BcastKntreeFlags where
  adjustRoot : Bool
  adjustRootSend : Bool
  adjustRootRecv : Bool
  recvFromParent : Bool
  recvFromParentRecv : Bool

/-- `ucg_planc_ucx_op_t` of a k-nomial broadcast. -/
structure BcastKntreeOp (B : Type) where
  vgroup : VGroup
  args : BcastArgs B
  status : Status
  id : ℕ
  flags : BcastKntreeFlags
  kntreeIter : KntreeIter

section Functions

/-- `ucg_planc_ucx_bcast_kntree_op_adjust_root`. -/
def bcastKntreeOpAdjustRoot (op : BcastKntreeOp B) : Prog (Cell B) β (BcastKntreeOp B × Status) :=
  let myrank := op.vgroup.myrank
  let iterRoot := op.kntreeIter.root
  if iterRoot = op.args.root ∨ (myrank ≠ op.args.root ∧ myrank ≠ iterRoot) then pure (op, .ok)
  else do
    let mut op := op
    if myrank = op.args.root ∧ op.flags.adjustRootSend then
      op := { op with flags := { op.flags with adjustRootSend := false } }
      let status ← p2pIsend (span op.args.buffer op.args.count) (some iterRoot) op.vgroup
      if status ≠ .ok then return (op, status)
    if myrank = iterRoot ∧ op.flags.adjustRootRecv then
      op := { op with flags := { op.flags with adjustRootRecv := false } }
      let status ← p2pIrecv (span op.args.buffer op.args.count) (some op.args.root) op.vgroup 0
      if status ≠ .ok then return (op, status)
    let status ← p2pTestall
    return (op, status)

/-- `ucg_planc_ucx_bcast_kntree_op_recv_from_parent`. -/
def bcastKntreeOpRecvFromParent (op : BcastKntreeOp B) :
    Prog (Cell B) β (BcastKntreeOp B × Status) :=
  match op.kntreeIter.parent with
  | none => pure (op, .ok)
  | some peer => do
    let mut op := op
    if op.flags.recvFromParentRecv then
      op := { op with flags := { op.flags with recvFromParentRecv := false } }
      let status ← p2pIrecv (span op.args.buffer op.args.count) (some peer) op.vgroup 0
      if status ≠ .ok then return (op, status)
    let status ← p2pTestall
    return (op, status)

/-- Step 1 of `ucg_planc_ucx_bcast_kntree_op_progress`. -/
def bcastKntreeOpAdjust (op : BcastKntreeOp B) : Prog (Cell B) β (BcastKntreeOp B × Status) :=
  if op.flags.adjustRoot then do
    let (op, status) ← bcastKntreeOpAdjustRoot op
    if status ≠ .ok then return (op, status)
    return ({ op with flags := { op.flags with adjustRoot := false } }, .ok)
  else pure (op, .ok)

/-- Step 2. -/
def bcastKntreeOpFromParent (op : BcastKntreeOp B) : Prog (Cell B) β (BcastKntreeOp B × Status) :=
  if op.flags.recvFromParent then do
    let (op, status) ← bcastKntreeOpRecvFromParent op
    if status ≠ .ok then return (op, status)
    return ({ op with flags := { op.flags with recvFromParent := false } }, .ok)
  else pure (op, .ok)

/-- The loop of step 3. The fuel bounds the number of iterations; a rank has fewer children than
    there are ranks. -/
def bcastKntreeOpSend : ℕ → BcastKntreeOp B → Prog (Cell B) β (BcastKntreeOp B × Status)
  | 0, op => pure (op, .inprogress)
  | fuel + 1, op =>
    match op.kntreeIter.child with
    | none => pure (op, .ok)
    | some peer => do
      let status ← p2pIsend (span op.args.buffer op.args.count) (some peer) op.vgroup
      if status ≠ .ok then return (op, status)
      bcastKntreeOpSend fuel { op with kntreeIter := op.kntreeIter.childInc }

/-- Step 3, with the test at its end. -/
def bcastKntreeOpToChildren (op : BcastKntreeOp B) : Prog (Cell B) β (BcastKntreeOp B × Status) :=
  do
  let (op, status) ← bcastKntreeOpSend (op.kntreeIter.size + 1) op
  if status ≠ .ok then return (op, status)
  let status ← p2pTestall
  return (op, status)

/-- `ucg_planc_ucx_bcast_kntree_op_progress`. -/
def bcastKntreeOpProgress (op : BcastKntreeOp B) : Prog (Cell B) β (BcastKntreeOp B × Status) := do
  let (op, status) ← bcastKntreeOpAdjust op
  if status ≠ .ok then return ({ op with status := status }, status)
  let (op, status) ← bcastKntreeOpFromParent op
  if status ≠ .ok then return ({ op with status := status }, status)
  let (op, status) ← bcastKntreeOpToChildren op
  return ({ op with status := status }, status)

/-- What `ucg_planc_ucx_bcast_kntree_op_trigger` sets. -/
def BcastKntreeOp.start (op : BcastKntreeOp B) (id : ℕ) : BcastKntreeOp B :=
  { op with
    id := id
    status := .inprogress
    kntreeIter := op.kntreeIter.reset
    flags := ⟨true, true, true, true, true⟩ }

/-- `ucg_planc_ucx_bcast_kntree_op_trigger`. -/
def bcastKntreeOpTrigger (op : BcastKntreeOp B) (id : ℕ) :
    Prog (Cell B) β (BcastKntreeOp B × Status) := do
  let (op, status) ← bcastKntreeOpProgress (op.start id)
  return (op, if status = .inprogress then .ok else status)

/-- The trigger and progress functions of the operation. -/
def bcastKntreeFuncs : OpFuncs (Prog (Cell B) β) (BcastKntreeOp B) where
  trigger := bcastKntreeOpTrigger
  progress := bcastKntreeOpProgress

/-- The two fields of `ucg_planc_ucx_bcast_config_t` that shape a tree. -/
structure BcastKntreeConfig where
  kntreeDegree : ℕ
  rootAdjust : Bool

/-- `ucg_planc_ucx_bcast_kntree_op_new`, when there is memory. -/
def bcastKntreeOpNew (vgroup : VGroup) (args : BcastArgs B) (config : BcastKntreeConfig) :
    BcastKntreeOp B where
  vgroup := vgroup
  args := args
  status := .ok
  id := 0
  flags := ⟨false, false, false, false, false⟩
  kntreeIter := KntreeIter.init vgroup.size config.kntreeDegree
    (if config.rootAdjust then 0 else args.root) vgroup.myrank true

end Functions

/-! ### The operation comes to its end -/

section Live

theorem busy_bcastAdjust {op : BcastKntreeOp B} :
    (bcastKntreeOpAdjust op : Prog (Cell B) β _).Busy fun res => res.2 = .ok := by
  rw [bcastKntreeOpAdjust, bcastKntreeOpAdjustRoot]
  split_ifs with hadjust hroot
  · simp
  · dsimp only
    split_ifs <;> simp
  · rfl

theorem busy_bcastFromParent {op : BcastKntreeOp B} :
    (bcastKntreeOpFromParent op : Prog (Cell B) β _).Busy fun res => res.2 = .ok := by
  rw [bcastKntreeOpFromParent, bcastKntreeOpRecvFromParent]
  split_ifs
  · cases op.kntreeIter.parent with
    | none => simp
    | some peer =>
      dsimp only
      split_ifs <;> simp
  · rfl

theorem busy_bcastToChildren {op : BcastKntreeOp B} :
    (bcastKntreeOpToChildren op : Prog (Cell B) β _).Busy fun res => res.2 = .ok := by
  rw [bcastKntreeOpToChildren, bcastKntreeOpSend]
  cases op.kntreeIter.child <;> simp

/-- A broadcast comes to its end: a call that finds nothing in flight goes through to the end, or to
    a step in which it posts a message. -/
theorem bcastKntree_lively (op : BcastKntreeOp B) (id : ℕ) :
    OpLively (bcastKntreeFuncs : OpFuncs (Prog (Cell B) β) _) BcastKntreeOp.status id op := by
  refine ⟨fun _ => True, ⟨fun op _ => ?_, fun op _ => ?_⟩, Prog.all_of_forall fun _ => trivial⟩
  · change (bcastKntreeOpProgress op).All _
    simp only [bcastKntreeOpProgress, all_bind]
    refine Prog.all_of_forall fun res => ?_
    split_ifs
    · exact ⟨rfl, trivial⟩
    · refine all_bind.mpr (Prog.all_of_forall fun res => ?_)
      split_ifs
      · exact ⟨rfl, trivial⟩
      · exact all_bind.mpr (Prog.all_of_forall fun res => ⟨rfl, trivial⟩)
  · change (bcastKntreeOpProgress op).Busy _
    rw [bcastKntreeOpProgress, busy_bind]
    refine busy_bcastAdjust.imp ?_
    rintro ⟨op, st⟩ ⟨rfl : st = .ok⟩
    simp only [ne_eq, not_true_eq_false, if_false, busy_bind]
    refine busy_bcastFromParent.imp ?_
    rintro ⟨op, st⟩ ⟨rfl : st = .ok⟩
    simp only [not_true_eq_false, if_false, busy_bind]
    exact busy_bcastToChildren.imp fun res hres => by simp [hres]

end Live

/-! ### What a rank posts -/

section Obeys

/-- The messages of a rank with the parent `up` and the children `kids`. -/
def bcastTrace (count : ℕ) (x : ℕ → β) (up : Option ℕ) (kids : List ℕ) : List (Event β) :=
  (up.toList.map fun peer => .recv peer (vec count x) ∅) ++
    kids.map fun peer => .send peer (vec count x) ∅

variable (vgroup : VGroup) (args : BcastArgs B) (up : Option ℕ) (kids : List ℕ) (x : ℕ → β)

/-- What does not change during a broadcast from the root of the tree. -/
structure BcastKeeps (op : BcastKntreeOp B) : Prop where
  vgroup_eq : op.vgroup = vgroup
  args_eq : op.args = args
  root_eq : op.kntreeIter.root = args.root
  parent_eq : op.kntreeIter.parent = up

/-- The rank has the buffer, or a receive of it in flight, and has to send it to `kids`. -/
structure BcastHolds (op : BcastKntreeOp B) (g : Ghost (Cell B) β) : Prop
    extends BcastKeeps vgroup args up op where
  adjust : op.flags.adjustRoot = false
  yields : op.kntreeIter.Yields kids
  length : kids.length ≤ op.kntreeIter.size
  buffer : Holds g.mem args.buffer args.count x
  todo : g.todo = (bcastTrace args.count x none kids).map (Event.mapPeer vgroup.rankMap)

/-- What a call leaves behind, by its status. -/
inductive BcastKntreeInv (op : BcastKntreeOp B) (g : Ghost (Cell B) β) : Prop
  | waits (hst : op.status = .inprogress) (h : BcastHolds vgroup args up kids x op g)
      (hup : up ≠ none) (hposted : op.flags.recvFromParentRecv = false)
      (hflag : op.flags.recvFromParent = true)
  | sent (hst : op.status = .inprogress) (h : BcastHolds vgroup args up [] x op g)
      (hflag : op.flags.recvFromParent = false)
  | done (hst : op.status = .ok) (h : BcastHolds vgroup args up [] x op g)
      (hflag : op.flags.recvFromParent = false) (hpend : g.pend = [])

variable {vgroup args up kids x} [DecidableEq B]

/-- The tree is rooted at the rank that has the buffer, so step 1 is skipped. -/
theorem wp_bcastAdjust {op : BcastKntreeOp B} {g : Ghost (Cell B) β}
    {Q : BcastKntreeOp B × Status → Ghost (Cell B) β → Prop}
      (hroot : op.kntreeIter.root = op.args.root)
    (h : Q ({ op with flags := { op.flags with adjustRoot := false } }, .ok) g) :
    (bcastKntreeOpAdjust op).wp Q g := by
  rw [bcastKntreeOpAdjust, bcastKntreeOpAdjustRoot]
  split_ifs with hflag hskip
  · exact h
  · exact absurd (Or.inl hroot) hskip
  · obtain ⟨vgroup, args, st, id, flags, iter⟩ := op
    obtain ⟨adjust, _, _, _, _⟩ := flags
    obtain rfl : adjust = false := Bool.eq_false_iff.mpr hflag
    exact h

/-- The sends to the children, when nothing is in flight. -/
theorem wp_bcastSend : ∀ {fuel : ℕ} {kids : List ℕ} {op : BcastKntreeOp B} {g : Ghost (Cell B) β},
    kids.length < fuel → (kids ≠ [] → ∀ i, g.Free i) → op.kntreeIter.Yields kids →
    Holds g.mem op.args.buffer op.args.count x →
    g.todo = (bcastTrace op.args.count x none kids).map (Event.mapPeer op.vgroup.rankMap) →
    (bcastKntreeOpSend fuel op).wp (fun res g' => res.2 = .ok ∧
      (∃ iter : KntreeIter, iter.toKntreeBase = op.kntreeIter.toKntreeBase ∧ iter.Yields [] ∧
        res.1 = { op with kntreeIter := iter }) ∧ g' = { g with todo := [] }) g
  | 0, _, _, _, hfuel, _, _, _, _ => absurd hfuel (Nat.not_lt_zero _)
  | fuel + 1, [], op, g, _, _, hyields, _, htodo => by
    rw [KntreeIter.Yields] at hyields
    rw [bcastKntreeOpSend, hyields]
    exact ⟨rfl, ⟨_, rfl, hyields, rfl⟩, by rw [← show g.todo = [] from htodo]⟩
  | fuel + 1, peer :: kids, op, g, hfuel, hfree, ⟨hchild, hyields⟩, hbuf, htodo => by
    simp only [bcastTrace, Option.toList_none, List.map_nil, List.nil_append, List.map_cons,
      Event.mapPeer] at htodo
    simp only [bcastKntreeOpSend, hchild, wp_bind, wp_p2pIsend, htodo, hbuf.map_span, ne_eq,
      not_true_eq_false, if_false]
    refine ⟨fun i _ => hfree (List.cons_ne_nil _ _) i, _, _, rfl, Set.empty_subset _, ?_⟩
    refine Prog.wp.imp ?_ (@wp_bcastSend fuel kids _ _ (Nat.lt_of_succ_lt_succ hfuel)
      (fun _ => hfree (List.cons_ne_nil _ _)) hyields hbuf rfl)
    rintro res g ⟨hst, ⟨iter, hbase, hend, hop⟩, hg⟩
    exact ⟨hst, ⟨iter, hbase.trans (KntreeIter.childInc_base _), hend, hop⟩, hg⟩

/-- Step 3, when the rank has the buffer. -/
theorem wp_bcastToChildren {op : BcastKntreeOp B} {g : Ghost (Cell B) β} {rest : List ℕ}
    (h : BcastHolds vgroup args up rest x op g) (hflag : op.flags.recvFromParent = false)
    (hfree : rest ≠ [] → ∀ i, g.Free i) :
    (bcastKntreeOpToChildren op).wp (fun res g =>
      BcastKntreeInv vgroup args up kids x { res.1 with status := res.2 } g) g := by
  obtain ⟨⟨rfl, rfl, hroot, hparent⟩, hadjust, hyields, hlen, hbuf, htodo⟩ := h
  rw [bcastKntreeOpToChildren, wp_bind]
  refine Prog.wp.imp ?_ (wp_bcastSend (Nat.lt_succ_of_le hlen) hfree hyields hbuf htodo)
  rintro ⟨op', st⟩ g ⟨rfl : st = .ok, ⟨iter, hbase, hend, rfl⟩, rfl⟩
  simp only [ne_eq, not_true_eq_false, if_false, wp_bind, wp_p2pTestall, wp_pure]
  have hroot' : iter.root = op.args.root := (congrArg KntreeBase.root hbase).trans hroot
  have hparent' : iter.parent = up := (congrArg KntreeBase.parent hbase).trans hparent
  exact ⟨.done rfl
    ⟨⟨rfl, rfl, hroot', hparent'⟩, hadjust, hend, Nat.zero_le _, hbuf, rfl⟩ hflag rfl,
    .sent rfl ⟨⟨rfl, rfl, hroot', hparent'⟩, hadjust, hend, Nat.zero_le _, hbuf, rfl⟩ hflag⟩

/-- A progress call, by what its step 2 does. -/
theorem wp_bcastProgress {op : BcastKntreeOp B} {g : Ghost (Cell B) β} (rest : List ℕ)
    (hroot : op.kntreeIter.root = op.args.root)
    (h : (bcastKntreeOpFromParent { op with flags := { op.flags with adjustRoot := false } }).wp
      (fun res g => (res.2 = .ok ∧ BcastHolds vgroup args up rest x res.1 g ∧
          res.1.flags.recvFromParent = false ∧ (rest ≠ [] → ∀ i, g.Free i)) ∨
        res.2 = .inprogress ∧ BcastKntreeInv vgroup args up kids x
          { res.1 with status := .inprogress } g) g) :
    (bcastKntreeOpProgress op).wp (fun res g => res.2 = res.1.status ∧
      BcastKntreeInv vgroup args up kids x res.1 g) g := by
  rw [bcastKntreeOpProgress, wp_bind]
  refine wp_bcastAdjust hroot ?_
  simp only [ne_eq, not_true_eq_false, if_false, wp_bind]
  refine h.imp ?_
  rintro ⟨op, st⟩ g (⟨rfl : st = .ok, hholds, hflag, hfree⟩ | ⟨rfl : st = .inprogress, hinv⟩)
  · simp only [not_true_eq_false, if_false, wp_bind, wp_pure]
    exact (wp_bcastToChildren hholds hflag hfree).imp fun res g hres => ⟨trivial, hres⟩
  · simp only [reduceCtorEq, not_false_eq_true, if_true, wp_pure]
    exact ⟨trivial, hinv⟩

/-- A progress call keeps the invariant. -/
theorem wp_bcastProgress_inv {op : BcastKntreeOp B} {g : Ghost (Cell B) β}
    (h : BcastKntreeInv vgroup args up kids x op g) :
    (bcastKntreeOpProgress op).wp (fun res g => res.2 = res.1.status ∧
      BcastKntreeInv vgroup args up kids x res.1 g) g := by
  cases h with
  | waits hst h hup hposted hflag =>
    have hroot : op.kntreeIter.root = op.args.root := by rw [h.root_eq, h.args_eq]
    refine wp_bcastProgress kids hroot ?_
    obtain ⟨peer, rfl⟩ := Option.ne_none_iff_exists'.mp hup
    simp only [bcastKntreeOpFromParent, bcastKntreeOpRecvFromParent, hflag, if_true, h.parent_eq,
      hposted, Bool.false_eq_true, if_false, wp_bind, wp_pure, wp_p2pTestall, ne_eq,
      not_true_eq_false, reduceCtorEq, not_false_eq_true]
    exact ⟨Or.inl ⟨trivial, { h with adjust := rfl }, trivial, fun _ i p hp =>
      absurd hp List.not_mem_nil⟩,
        Or.inr ⟨trivial, .waits rfl { h with adjust := rfl } hup rfl rfl⟩⟩
  | sent hst h hflag | done hst h hflag hpend =>
    have hroot : op.kntreeIter.root = op.args.root := by rw [h.root_eq, h.args_eq]
    refine wp_bcastProgress [] hroot ?_
    simp only [bcastKntreeOpFromParent, hflag, Bool.false_eq_true, if_false, wp_pure]
    exact Or.inl ⟨trivial, { h with adjust := rfl }, trivial, fun hne => absurd rfl hne⟩

/-- A broadcast of a rank that gets the buffer from its parent, or has it and no parent, obeys its
    trace. -/
theorem bcastKntree_obeys_of {op : BcastKntreeOp B} (hkeeps : BcastKeeps vgroup args up op)
    (hyields : op.kntreeIter.reset.Yields kids) (hsize : kids.length ≤ op.kntreeIter.size) (id : ℕ)
    {m : Cell B → β} {k : Set ℕ} (hbuf : up = none → Holds m args.buffer args.count x) :
    Obeys bcastKntreeFuncs BcastKntreeOp.status id op (BcastKntreeInv vgroup args up kids x)
      (fun m _ => Holds m args.buffer args.count x)
      ⟨m, [], (bcastTrace args.count x up kids).map (Event.mapPeer vgroup.rankMap), k⟩ where
  trigger := by
    obtain ⟨rfl, rfl, hroot, hparent⟩ := hkeeps
    have hbase : op.kntreeIter.reset.toKntreeBase = op.kntreeIter.toKntreeBase :=
      KntreeIter.reset_base _
    have hroot' : op.kntreeIter.reset.root = op.args.root :=
      (congrArg KntreeBase.root hbase).trans hroot
    have hparent' : op.kntreeIter.reset.parent = up :=
      (congrArg KntreeBase.parent hbase).trans hparent
    have hsize' : kids.length ≤ op.kntreeIter.reset.size :=
      hsize.trans_eq (congrArg KntreeBase.size hbase).symm
    change (bcastKntreeOpTrigger op id).wp _ _
    rw [bcastKntreeOpTrigger, wp_bind]
    refine Prog.wp.imp (fun res g hres => hres.2) (wp_bcastProgress kids hroot' ?_)
    have hfree (i) : (⟨m, [], (bcastTrace op.args.count x up kids).map
        (Event.mapPeer op.vgroup.rankMap), k⟩ : Ghost (Cell B) β).Free i :=
      fun p hp => absurd hp List.not_mem_nil
    cases up with
    | none =>
      simp only [BcastKntreeOp.start, bcastKntreeOpFromParent, bcastKntreeOpRecvFromParent, if_true,
        hparent', wp_bind, wp_pure, ne_eq, not_true_eq_false, if_false]
      exact Or.inl ⟨trivial, ⟨⟨rfl, rfl, hroot', hparent'⟩, rfl, hyields, hsize', hbuf rfl, rfl⟩,
        trivial, fun _ => hfree⟩
    | some peer =>
      have htodo : (bcastTrace op.args.count x (some peer) kids).map
          (Event.mapPeer op.vgroup.rankMap) =
          .recv (op.vgroup.rankMap peer) (vec op.args.count x) ∅ ::
            (bcastTrace op.args.count x none kids).map (Event.mapPeer op.vgroup.rankMap) := rfl
      rw [htodo]
      simp only [BcastKntreeOp.start, bcastKntreeOpFromParent, bcastKntreeOpRecvFromParent, if_true,
        hparent', wp_bind, wp_p2pIrecv, wp_p2pTestall, wp_pure, ne_eq, not_true_eq_false, if_false,
        reduceCtorEq, not_false_eq_true]
      refine ⟨fun i _ =>
        hfree i, _, _, _, rfl, by simp, Or.inl ⟨trivial, ?_, trivial, fun _ i p hp =>
        absurd hp List.not_mem_nil⟩,
          Or.inr ⟨trivial, .waits rfl ?_ (Option.some_ne_none _) rfl rfl⟩⟩
      · exact ⟨⟨rfl, rfl, hroot', hparent'⟩, rfl, hyields, hsize', holds_write _ _ _ _, rfl⟩
      · exact ⟨⟨rfl, rfl, hroot', hparent'⟩, rfl, hyields, hsize', holds_write _ _ _ _, rfl⟩
  progress op g h := wp_bcastProgress_inv h
  settled op g h := by
    cases h with
    | waits hst | sent hst => exact Or.inl hst
    | done hst h hflag hpend => exact Or.inr ⟨hst, h.todo, hpend, h.buffer⟩

end Obeys

/-! ### The tree -/

section Tree

/-- The tree on the numbers from the root on. -/
noncomputable def bcastKntreeParent (n degree : ℕ) : ℕ → ℕ :=
  kntreeParent (KntreeIter.initDegree n degree)

noncomputable def bcastKntreeChildren (n degree v : ℕ) : List ℕ :=
  KntreeIter.childrenOf n (KntreeIter.initDegree n degree) v true

theorem rankTree_bcast {n degree : ℕ} (hn : 2 ≤ n) :
    RankTree n (bcastKntreeParent n degree) (bcastKntreeChildren n degree) :=
  KntreeIter.rankTree_kntree (KntreeIter.one_lt_initDegree hn)

variable [DecidableEq B]

/-- A broadcast from the rank that the tree is rooted at obeys the messages of its rank. -/
theorem bcastKntree_obeys (vgroup : VGroup) (args : BcastArgs B) (config : BcastKntreeConfig)
    (x : ℕ → β) (hsize : 2 ≤ vgroup.size) (hr : vgroup.myrank < vgroup.size)
    (hroot : args.root < vgroup.size) (hadjust : config.rootAdjust = true → args.root = 0) (id : ℕ)
    {m : Cell B → β} {k : Set ℕ}
    (hbuf : vgroup.myrank = args.root → Holds m args.buffer args.count x) :
    ∃ inv, Obeys bcastKntreeFuncs BcastKntreeOp.status id (bcastKntreeOpNew vgroup args config) inv
      (fun m _ => Holds m args.buffer args.count x)
      ⟨m, [], (bcastTreeTrace vgroup.size args.root
        (bcastKntreeParent vgroup.size config.kntreeDegree)
        (bcastKntreeChildren vgroup.size config.kntreeDegree) args.count x vgroup.myrank).map
          (Event.mapPeer vgroup.rankMap), k⟩ := by
  have hd : 1 < KntreeIter.initDegree vgroup.size config.kntreeDegree :=
    KntreeIter.one_lt_initDegree hsize
  have hiter : (bcastKntreeOpNew vgroup args config).kntreeIter =
      KntreeIter.init vgroup.size config.kntreeDegree args.root vgroup.myrank true := by
    rw [bcastKntreeOpNew]
    split_ifs with hadj
    · rw [hadjust hadj]
    · rfl
  have hbase := KntreeIter.init_base args.root vgroup.myrank true hd (by omega)
  change _ = KntreeIter.baseOf _ _ _ (fromRoot vgroup.size args.root vgroup.myrank) _ at hbase
  rw [← hiter] at hbase
  have hyields := KntreeIter.reset_yields hd hbase
  set v := fromRoot vgroup.size args.root vgroup.myrank with hv
  let up : Option ℕ := if vgroup.myrank = args.root then none
    else some (toRank vgroup.size args.root (bcastKntreeParent vgroup.size config.kntreeDegree v))
  have hkeeps : BcastKeeps vgroup args up (bcastKntreeOpNew vgroup args config) := by
    refine ⟨rfl, rfl, congrArg KntreeBase.root hbase, (congrArg KntreeBase.parent hbase).trans ?_⟩
    simp only [KntreeIter.baseOf, hv, fromRoot_eq_zero_iff hroot hr]
    rfl
  have htrace : bcastTreeTrace vgroup.size args.root
      (bcastKntreeParent vgroup.size config.kntreeDegree)
      (bcastKntreeChildren vgroup.size config.kntreeDegree) args.count x vgroup.myrank =
      bcastTrace args.count x up
        ((bcastKntreeChildren vgroup.size config.kntreeDegree v).map
          (toRank vgroup.size args.root)) := by
    rw [bcastTreeTrace_eq hroot hr, bcastTrace, List.map_map]
    congr 1
    simp only [up]
    split_ifs <;> rfl
  rw [htrace]
  refine ⟨_, bcastKntree_obeys_of hkeeps hyields ?_ id fun hup => hbuf ?_⟩
  · rw [List.length_map]
    exact (KntreeIter.length_childrenOf_le _ _ _ (by omega)).trans_eq
      (congrArg KntreeBase.size hbase).symm
  · by_contra hne
    simp only [up, if_neg hne, reduceCtorEq] at hup

end Tree

end Kucg.Ucx
