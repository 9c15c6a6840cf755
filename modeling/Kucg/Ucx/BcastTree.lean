import Kucg.Lib.Numbered
import Kucg.Lib.Posted
import Kucg.Lib.RankTree
import Kucg.Ucx.Bcast
import Kucg.Ucx.OpLive

/-! Broadcasts in which every rank passes the whole buffer on: a rank receives from its parent and
    then sends to its children.

    `BcastRight` is what is asked of such a broadcast, in every run; `bcastTree_right` derives it
    for a tree on the ranks numbered from the root on. -/

namespace Kucg.Ucx

open Kucg.Core Kucg.Lib Kucg.Algo

variable {B β O : Type}

/-- Every rank but the root receives the buffer once, from a rank that sends it there once, and all
    of them get it from the root in the end; a rank that has finished has the buffer of the root,
    and from every state of a run all ranks come to their end. -/
def BcastRight [DecidableEq B] (n root count : ℕ) (args : ℕ → BcastArgs B) (x : ℕ → β)
    (m : ℕ → Cell B → β) (status : O → Status) (proc : ℕ → Proc (Cell B) β O) : Prop :=
  ∃ parent : ℕ → ℕ, (∀ r < n, ∃ k, parent^[k] r = root) ∧
    ∀ acts N, (Net.init m).run n proc acts = some N →
      (∀ r < n, ∀ op, N.FinishedIn r op → status op = .ok ∧
        Holds (N.node r).mem (args r).buffer count x ∧
        ∃ kids : List ℕ, kids.Nodup ∧ (∀ c, c ∈ kids ↔ c < n ∧ c ≠ root ∧ parent c = r) ∧
          Net.posted n proc r (Net.init m) acts =
            (if r = root then [] else [.recv (parent r)]) ++ kids.map Side.send) ∧
      ∃ acts' N', N.run n proc acts' = some N' ∧ ∀ r < n, ∃ op, N'.FinishedIn r op

/-- The messages of rank `r` of a tree on the numbers from the root on. -/
def bcastTreeTrace (n root : ℕ) (parent : ℕ → ℕ) (children : ℕ → List ℕ) (count : ℕ) (x : ℕ → β) :
    ℕ → List (Event β) :=
  numberedTrace n (fromRoot n root) (toRank n root)
    (downTrace n parent children fun _ => (vec count x, ∅))

section Tree

variable {n root : ℕ} {parent : ℕ → ℕ} {children : ℕ → List ℕ}

/-- Going from parent to parent leads to the root. -/
theorem iterate_parent (h : RankTree n parent children) (hroot : root < n) : ∀ {v : ℕ}, v < n →
    ∃ k, (fun r => toRank n root (parent (fromRoot n root r)))^[k] (toRank n root v) = root := by
  intro v
  induction v using Nat.strong_induction_on with
  | _ v ih =>
    intro hv
    rcases Nat.eq_zero_or_pos v with rfl | hpos
    · exact ⟨0, by rw [Function.iterate_zero, id, toRank, Nat.zero_add, Nat.mod_eq_of_lt hroot]⟩
    · have hlt := h.parent_lt v hpos hv
      obtain ⟨k, hk⟩ := ih _ hlt (by omega)
      exact ⟨k + 1, by rw [Function.iterate_succ_apply, fromRoot_toRank hroot hv, hk]⟩

variable {count : ℕ} {x : ℕ → β}

/-- The messages of a rank. -/
theorem bcastTreeTrace_eq {r : ℕ} (hroot : root < n) (hr : r < n) :
    bcastTreeTrace n root parent children count x r =
      (if r = root then []
        else [.recv (toRank n root (parent (fromRoot n root r))) (vec count x) ∅]) ++
      (children (fromRoot n root r)).map fun c => .send (toRank n root c) (vec count x) ∅ := by
  rw [bcastTreeTrace, numberedTrace, if_pos hr, downTrace, if_pos (fromRoot_lt hroot),
    List.map_append, List.map_map]
  simp only [fromRoot_eq_zero_iff hroot hr]
  congr 1
  split_ifs <;> rfl

theorem paced_bcastTreeTrace (h : RankTree n parent children) (hroot : root < n) :
    Paced n (bcastTreeTrace n root parent children count x) :=
  (paced_downTrace _ h).numbered (numbering_fromRoot hroot) fun _ e he => downTrace_peer h e he

theorem bcastTreeTrace_peer (h : RankTree n parent children) (hroot : root < n) {r : ℕ} :
    ∀ e ∈ bcastTreeTrace n root parent children count x r, e.peer < n :=
  numberedTrace_peer (numbering_fromRoot hroot) fun _ e he => downTrace_peer h e he

variable {args : ℕ → BcastArgs B} {m : ℕ → Cell B → β} [DecidableEq B]
  {f : OpFuncs (Prog (Cell B) β) O} {status : O → Status} {ops : ℕ → O} {id : ℕ}

/-- Ranks that pass the buffer on along a tree. -/
theorem bcastTree_right (h : RankTree n parent children) (hroot : root < n)
    (hobeys : ∀ r < n, ∃ inv, Obeys f status id (ops r) inv
      (fun m _ => Holds m (args r).buffer count x)
      ⟨m r, [], bcastTreeTrace n root parent children count x r, {r}⟩)
    (hlive : ∀ r < n, OpLively f status id (ops r)) :
    BcastRight n root count args x m status fun r => opProc f status (ops r) id := by
  have hmeets (r) (hr : r < n) : (opProc f status (ops r) id).Meets
      (fun op m _ => status op = .ok ∧ Holds m (args r).buffer count x)
      ⟨m r, [], bcastTreeTrace n root parent children count x r, {r}⟩ := by
    obtain ⟨inv, hinv⟩ := hobeys r hr
    exact hinv.meets
  have hpaced : Paced n (bcastTreeTrace n root parent children count x) :=
    paced_bcastTreeTrace h hroot
  refine ⟨fun r => toRank n root (parent (fromRoot n root r)), fun r hr => ?_,
    fun acts N hrun => ⟨fun r hr op hfin => ?_, ?_⟩⟩
  · have hiter := iterate_parent h hroot (fromRoot_lt hroot (r := r))
    rwa [toRank_fromRoot hroot hr] at hiter
  · obtain ⟨-, ⟨hok, hres⟩, -⟩ := finished_ok hpaced.matched hmeets hrun hfin
    have hposted := finished_posted hpaced.matched hmeets hrun hfin
    refine ⟨hok, hres, (children (fromRoot n root r)).map (toRank n root), ?_, fun c => ?_, ?_⟩
    · refine (h.nodup _).map_on fun v hv w hw heq => ?_
      rw [← fromRoot_toRank hroot ((h.mem _ v).mp hv).2.1, heq,
        fromRoot_toRank hroot ((h.mem _ w).mp hw).2.1]
    · rw [List.mem_map]
      constructor
      · rintro ⟨v, hv, rfl⟩
        obtain ⟨hpos, hlt, hpar⟩ := (h.mem _ v).mp hv
        have hv' := fromRoot_toRank hroot hlt
        refine ⟨toRank_lt hroot, fun heq => ?_, ?_⟩
        · rw [← fromRoot_eq_zero_iff hroot (toRank_lt hroot), hv'] at heq
          omega
        · dsimp only
          rw [hv', ← hpar, toRank_fromRoot hroot hr]
      · rintro ⟨hc, hne, rfl⟩
        refine ⟨fromRoot n root c, (h.mem _ _).mpr ⟨?_, fromRoot_lt hroot, ?_⟩,
          toRank_fromRoot hroot hc⟩
        · exact Nat.pos_of_ne_zero fun hz => hne ((fromRoot_eq_zero_iff hroot hc).mp hz)
        · refine fromRoot_toRank hroot ?_
          have hpos : 0 < fromRoot n root c :=
            Nat.pos_of_ne_zero fun hz => hne ((fromRoot_eq_zero_iff hroot hc).mp hz)
          exact (h.parent_lt _ hpos (fromRoot_lt hroot)).trans (fromRoot_lt hroot)
    · rw [hposted, bcastTreeTrace_eq hroot hr, List.map_append, List.map_map, List.map_map]
      congr 1
      split_ifs <;> rfl
  · choose! G hG using fun r (hr : r < n) => (hlive r hr).proc
    exact finished_live hpaced (fun r hr => if_neg (by omega)) hmeets hG hrun

end Tree

end Kucg.Ucx
