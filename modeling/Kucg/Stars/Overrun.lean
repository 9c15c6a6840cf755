import Kucg.Stars.AllgathervRolling
import Kucg.Stars.BcastLongM

/-! Whether an event is raised again before its owner has waited for it, on the circles of the
    offloaded allgather and of the long broadcasts.

    This can be seen without the cells that are put (`NoOverrun.of_bare`), so what the ranks pass is
    replaced by arguments without data, for which the requests are known to be steps on the
    circle. -/

namespace Kucg.Stars

open Kucg.Algo Kucg.Core Kucg.Lib

namespace Rolling

variable {β : Type} {n p : ℕ} {args : ℕ → AllgathervArgs} {m₀ : ℕ → Addr → β}

/-- The same counts, of elements without data. -/
def hollow (args : ℕ → AllgathervArgs) (p : ℕ) : AllgathervArgs where
  inPlace := (args p).inPlace
  sendcount := 0
  sendExtent := 0
  recvcounts := (args 0).recvcounts
  displs _ := 0
  recvSize := 0
  recvExtent := 0

theorem rollingArgs_hollow : RollingArgs n (hollow args) where
  counts _ _ _ _ := rfl
  displs _ _ _ _ := rfl
  size _ _ := rfl
  extent _ _ := rfl
  disjoint a _ b _ _ c hc := by simp [block, hollow, bytes] at hc
  sends _ _ _ := by simp [hollow]

/-- The counts decide what requests there are. -/
theorem bare_submitStep {iter : RingIter} (hn : 0 < n)
    (hcounts : ∀ b < n, (args p).recvcounts b = (args 0).recvcounts b) :
    (submitStep (args p) n p iter).map (fun x => x.2.bare) =
      (submitStep (hollow args p) n p iter).map fun x => x.2.bare := by
  have hput (idx : ℕ) : (ofdPutReqElem (args p) n p iter idx).map (fun x => x.2.bare) =
      (ofdPutReqElem (hollow args p) n p iter idx).map fun x => x.2.bare := by
    have hblock : ∀ b < n, (hollow args p).recvcounts b = (args p).recvcounts b := fun b hb =>
      (hcounts b hb).symm
    simp only [ofdPutReqElem]
    rw [hblock _ (by split_ifs <;> exact Nat.mod_lt _ hn)]
    split_ifs <;> rfl
  have hwait (idx : ℕ) : (ofdWaitReqElem (args p) n p iter idx).map (fun x => x.2.bare) =
      (ofdWaitReqElem (hollow args p) n p iter idx).map fun x => x.2.bare := by
    have hblock : ∀ b < n, (hollow args p).recvcounts b = (args p).recvcounts b := fun b hb =>
      (hcounts b hb).symm
    simp only [ofdWaitReqElem]
    rw [hblock _ (by split_ifs <;> exact Nat.mod_lt _ hn)]
  rw [submitStep, submitStep]
  split_ifs
  · rw [List.map_append, List.map_append, hput, hwait]
  · rw [List.map_append, List.map_append, hput, hwait]

theorem bare_streams (hp : p < n)
    (hcounts : ∀ b < n, (args p).recvcounts b = (args 0).recvcounts b) :
    (streams args n p).map StreamTask.bare = (streams (hollow args) n p).map StreamTask.bare := by
  have hself : (putSelfData (args p) n p).map (fun x => x.2.bare) =
      (putSelfData (hollow args p) n p).map fun x => x.2.bare := by
    have hblock : (hollow args p).recvcounts p = (args p).recvcounts p := (hcounts p hp).symm
    have hplace : (hollow args p).inPlace = (args p).inPlace := rfl
    rw [putSelfData, putSelfData, hblock, hplace]
    split_ifs <;> rfl
  rw [streams, streams, List.map_map, List.map_map, submitOp, submitOp]
  simp only [Function.comp_def, List.map_append, List.map_flatMap]
  rw [hself]
  congr 1
  exact List.flatMap_congr fun k _ => bare_submitStep (by omega) hcounts

/-- On the circle no event is raised twice, if messages are answered. -/
theorem noOverrun_streams (hn : 3 ≤ n)
    (hcounts : ∀ p < n, ∀ b < n, (args p).recvcounts b = (args 0).recvcounts b)
    (hans : Answered n (nonempty args)) : NoOverrun n (streams args n) m₀ := by
  have hhollow : NoOverrun n (streams (hollow args) n) m₀ :=
    (Placement.noOverrun (fits_placement (hollow args) hn)
      (fun v _ e he e' he' => slot_inj n (hollow args) (v := v) he he')
      (prelude_self.noOverrun hn le_rfl hans)).congr fun p hp =>
        (streams_eq_place hn hp rollingArgs_hollow).symm
  exact hhollow.of_bare fun p hp => (bare_streams hp (hcounts p hp)).symm

end Rolling

/-! ### The long broadcasts -/

/-- The same count, of elements without data. -/
def BcastArgs.hollow (args : BcastArgs) : BcastArgs := ⟨args.root, args.count, 0, 0⟩

section Long

variable {β : Type} {n : ℕ} {args : BcastArgs} {m₀ : ℕ → Addr → β}

/-- What is left of a loop whose rounds may fail. -/
theorem map_mapM_flatten {α γ : Type} {f f' : ℕ → Option (List α)} {g : α → γ}
    (h : ∀ t, (f t).map (List.map g) = (f' t).map (List.map g)) : ∀ {l : List ℕ},
    ((l.mapM f).map List.flatten).map (List.map g) =
      ((l.mapM f').map List.flatten).map (List.map g)
  | [] => rfl
  | t :: l => by
    have ih := map_mapM_flatten h (l := l)
    have ht := h t
    rw [List.mapM_cons, List.mapM_cons]
    cases hf : f t <;> cases hf' : f' t <;> rw [hf, hf'] at ht <;> simp at ht
    · rfl
    · cases hl : l.mapM f <;> cases hl' : l.mapM f' <;> rw [hl, hl'] at ih <;> simp at ih <;>
        simp [ht, ih]

/-- The counts decide what requests there are. -/
theorem bare_longAllgatherStep {vsize me vrank peerId : ℕ} {deps : ℕ → CommDep}
    {rankIdxMap : List (ℕ × ℕ)} {iter : RingIter} {peerVrank : ℕ → ℕ} :
    (longAllgatherStep args vsize deps rankIdxMap me vrank iter peerId peerVrank).map
        (List.map fun x => x.2.bare) =
      (longAllgatherStep args.hollow vsize deps rankIdxMap me vrank iter peerId peerVrank).map
        (List.map fun x => x.2.bare) := by
  rw [longAllgatherStep, longAllgatherStep]
  cases rankIdxMap.lookup peerId with
  | none => rfl
  | some idx =>
    simp only [Option.bind_eq_bind, Option.bind_some]
    split_ifs <;> rfl

theorem bare_longBntreePutReq {vsize me idx peerVrank childSize : ℕ} {deps : ℕ → CommDep} :
    (longBntreePutReq args vsize deps me idx peerVrank childSize).map (fun x => x.2.bare) =
      (longBntreePutReq args.hollow vsize deps me idx peerVrank childSize).map fun x =>
        x.2.bare := by
  rw [longBntreePutReq, longBntreePutReq, List.map_map, List.map_map]
  rfl

theorem bare_bcastLong {p : ℕ} :
    (BcastLong.submitOp args n p).map (List.map fun x => x.2.bare) =
      (BcastLong.submitOp args.hollow n p).map (List.map fun x => x.2.bare) := by
  have hring : (BcastLong.allgatherSubmit args n p).map (List.map fun x => x.2.bare) =
      (BcastLong.allgatherSubmit args.hollow n p).map (List.map fun x => x.2.bare) :=
    map_mapM_flatten fun t => bare_longAllgatherStep
  have hscatter : (BcastLong.scatterSubmit args n p).map (fun x => x.2.bare) =
      (BcastLong.scatterSubmit args.hollow n p).map fun x => x.2.bare := by
    rw [BcastLong.scatterSubmit, BcastLong.scatterSubmit, List.map_append, List.map_append,
      List.map_flatMap, List.map_flatMap]
    congr 1
    exact List.flatMap_congr fun i _ => bare_longBntreePutReq
  rw [BcastLong.submitOp, BcastLong.submitOp, Option.map_map, Option.map_map]
  simp only [Function.comp_def, List.map_append, hscatter]
  rw [← Function.comp_def, ← Option.map_map, hring, Option.map_map]

theorem bare_bcastLongM {p : ℕ} :
    (BcastLongM.submitOp args n p).map (List.map fun x => x.2.bare) =
      (BcastLongM.submitOp args.hollow n p).map (List.map fun x => x.2.bare) := by
  have hring : (BcastLongM.allgatherSubmit args n p).map (List.map fun x => x.2.bare) =
      (BcastLongM.allgatherSubmit args.hollow n p).map (List.map fun x => x.2.bare) :=
    map_mapM_flatten fun t => bare_longAllgatherStep
  have hscatter : (BcastLongM.scatterSubmit args n p).map (fun x => x.2.bare) =
      (BcastLongM.scatterSubmit args.hollow n p).map fun x => x.2.bare := by
    rw [BcastLongM.scatterSubmit, BcastLongM.scatterSubmit, List.map_append, List.map_append,
      List.map_flatMap, List.map_flatMap]
    congr 1
    exact List.flatMap_congr fun i _ => bare_longBntreePutReq
  rw [BcastLongM.submitOp, BcastLongM.submitOp]
  have hroot : args.hollow.root = args.root := rfl
  have hfirst : (BcastLongM.ofdFirstPutReq args n p).2.bare =
      (BcastLongM.ofdFirstPutReq args.hollow n p).2.bare := rfl
  rw [hroot]
  by_cases hnear : p = (args.root + 1) % n
  · rw [if_pos hnear, if_pos hnear]
    rfl
  · rw [if_neg hnear, if_neg hnear, Option.map_map, Option.map_map]
    simp only [Function.comp_def, List.map_append, hscatter]
    rw [← Function.comp_def, ← Option.map_map, hring, Option.map_map]
    split_ifs <;> simp [Function.comp_def, hfirst]

/-- The streams of a long broadcast, without cells. -/
theorem bare_longStreams {submit submit' : ℕ → Option (List (LongPhase × StreamTask Addr))} {p : ℕ}
    (h : (submit p).map (List.map fun x => x.2.bare) =
      (submit' p).map (List.map fun x => x.2.bare)) :
    (longStreams submit p).map StreamTask.bare = (longStreams submit' p).map StreamTask.bare := by
  rw [longStreams, longStreams]
  cases hs : submit p with
  | none => cases hs' : submit' p <;> simp_all
  | some l => cases hs' : submit' p <;> simp_all [Function.comp_def]

theorem noOverrun_bcastLong (hn : 3 ≤ n) (hroot : args.root < n) :
    NoOverrun n (longStreams (BcastLong.submitOp args n)) m₀ := by
  have hroot' : args.hollow.root < n := hroot
  have hhollow : NoOverrun n (longStreams (BcastLong.submitOp args.hollow n)) m₀ :=
    (BcastLong.longSubmits hn hroot' rfl).noOverrun
  exact hhollow.of_bare fun p _ => bare_longStreams bare_bcastLong.symm

theorem noOverrun_bcastLongM (hn : 4 ≤ n) (hroot : args.root < n) :
    NoOverrun n (longStreams (BcastLongM.submitOp args n)) m₀ := by
  have hroot' : args.hollow.root < n := hroot
  have hranks : scatterRanks true (n - 1) = n := by
    rw [scatterRanks, if_pos rfl]
    omega
  have hhollow : NoOverrun n (longStreams (BcastLongM.submitOp args.hollow n)) m₀ :=
    (congrArg (NoOverrun · (longStreams (BcastLongM.submitOp args.hollow n)) m₀) hranks).mp
      (BcastLongM.longSubmits hn hroot' rfl).noOverrun
  exact hhollow.of_bare fun p _ => bare_longStreams bare_bcastLongM.symm

end Long

/-- During a run no event is raised again before its owner has waited for it: on the circle of the
    allgather if messages are answered, and in the long broadcasts always. -/
theorem events_once {β : Type} {n : ℕ} (hn : 3 ≤ n) (m₀ : ℕ → Addr → β) :
    (∀ args : ℕ → AllgathervArgs,
      (∀ p < n, ∀ b < n, (args p).recvcounts b = (args 0).recvcounts b) →
      Answered n (Rolling.nonempty args) → NoOverrun n (Rolling.streams args n) m₀) ∧
    ∀ args : BcastArgs, args.root < n →
      NoOverrun n (longStreams (BcastLong.submitOp args n)) m₀ ∧
      (4 ≤ n → NoOverrun n (longStreams (BcastLongM.submitOp args n)) m₀) :=
  ⟨fun _ hcounts hans => Rolling.noOverrun_streams hn hcounts hans,
    fun _ hroot => ⟨noOverrun_bcastLong hn hroot, fun hn => noOverrun_bcastLongM hn hroot⟩⟩

/-- Blocks of one byte, some of which are empty. -/
def argsOf (nz : ℕ → Bool) (_p : ℕ) : AllgathervArgs where
  inPlace := true
  sendcount := 0
  sendExtent := 1
  recvcounts b := if nz b then 1 else 0
  displs b := b
  recvSize := 1
  recvExtent := 1

theorem events_once_four :
    NoOverrun 4 (Rolling.streams (argsOf fun _ => true) 4) (fun _ _ => ()) ∧
    NoOverrun 4 (longStreams (BcastLong.submitOp ⟨0, 4, 1, 1⟩ 4)) (fun _ _ => ()) ∧
    NoOverrun 4 (longStreams (BcastLongM.submitOp ⟨0, 4, 1, 1⟩ 4)) (fun _ _ => ()) := by
  have honce := events_once (n := 4) (by decide) fun _ _ => ()
  have hboth := honce.2 ⟨0, 4, 1, 1⟩ (by decide)
  exact ⟨honce.1 (argsOf fun _ => true) (fun p _ b _ => rfl) answered_full, hboth.1,
    hboth.2 (by decide)⟩

/-- Four ranks, of which the third one has no data. -/
def argsGap : ℕ → AllgathervArgs := argsOf fun b => b != 2

/-- Rank 0 puts its second block to rank 1, which has not waited for the first one: in between, rank
    0 would wait for the block that is empty. -/
theorem overrun_gap : ¬NoOverrun 4 (Rolling.streams argsGap 4) (fun _ _ => ()) := by
  intro h
  have hrun : ((Fabric.run 4 (Rolling.streams argsGap 4) (Fabric.init fun _ _ => ())
      [1, 0, 0, 3, 3, 0, 0]).map fun F => (F.done 0, F.pending 1 0)) = some (4, 1) := by decide
  obtain ⟨F, hF, heq⟩ := Option.map_eq_some_iff.mp hrun
  obtain ⟨hdone, hpending⟩ := Prod.mk.inj heq
  have hnext : (Rolling.streams argsGap 4 0)[F.done 0]? =
      some (.put 1 (some 0) [(.recv, 3)] [(.recv, 3)]) := by
    rw [hdone]
    rfl
  have hzero := h F (Fabric.Reachable.init.run hF) 0 (by decide) 1 0 _ _ hnext
  exact absurd (hpending.symm.trans hzero) (by decide)

end Kucg.Stars
