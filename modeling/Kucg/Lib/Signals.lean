import Kucg.Lib.Sched

/-! Messages without contents.

    Such a message tells that its sender has started, and whoever its sender has heard of. A rank
    may tell only what it knows, and knows what its messages tell when it has waited for them; when
    that is so of a list of signals (`Sound`), the commands that they stand for follow their trace,
    and what the rank knows in the end is known in every run. -/

namespace Kucg.Lib

/-- A message without contents at one of its two ends, or the wait for all messages so far. -/
inductive Signal where
  | tell (peer : ℕ) (know : Set ℕ)
  | hear (peer : ℕ) (know : Set ℕ)
  | rest

variable {ι β : Type}

/-- The command of a signal, in a group whose members have the ranks `rank`. -/
def Signal.cmd (rank : ℕ → ℕ) : Signal → Cmd ι β
  | .tell peer _ => .send (rank peer) []
  | .hear peer _ => .recv 0 (rank peer) []
  | .rest => .wait

/-- The message of a signal. -/
def Signal.event : Signal → Option (Event β)
  | .tell peer know => some (.send peer [] know)
  | .hear peer know => some (.recv peer [] know)
  | .rest => none

/-- The messages of a list of signals. -/
def signalTrace (ss : List Signal) : List (Event β) := ss.filterMap Signal.event

section Trace

variable {peer : ℕ} {know : Set ℕ} {ss ss' : List Signal}

@[simp] theorem signalTrace_nil : (signalTrace [] : List (Event β)) = [] := rfl

@[simp] theorem signalTrace_tell : (signalTrace (.tell peer know :: ss) : List (Event β)) =
    .send peer [] know :: signalTrace ss := rfl

@[simp] theorem signalTrace_hear : (signalTrace (.hear peer know :: ss) : List (Event β)) =
    .recv peer [] know :: signalTrace ss := rfl

@[simp] theorem signalTrace_rest : (signalTrace (.rest :: ss) : List (Event β)) =
    signalTrace ss := rfl

@[simp] theorem signalTrace_append : (signalTrace (ss ++ ss') : List (Event β)) =
    signalTrace ss ++ signalTrace ss' := List.filterMap_append

end Trace

/-- A rank that knows `known`, and is to hear `heard` when it has waited, tells what it knows; in
    the end it knows `goal` and waits for nothing. -/
def Sound (goal : Set ℕ) : List Signal → Set ℕ → List (Set ℕ) → Prop
  | [], known, heard => heard = [] ∧ goal ⊆ known
  | .tell _ know :: ss, known, heard => know ⊆ known ∧ Sound goal ss known heard
  | .hear _ know :: ss, known, heard => Sound goal ss known (heard ++ [know])
  | .rest :: ss, known, heard => Sound goal ss (known ∪ {q | ∃ know ∈ heard, q ∈ know}) []

variable {goal : Set ℕ}

/-- More may be known. -/
theorem Sound.mono : ∀ {ss : List Signal} {known known' : Set ℕ} {heard : List (Set ℕ)},
    Sound goal ss known heard → known ⊆ known' → Sound goal ss known' heard
  | [], _, _, _, h, hle => ⟨h.1, h.2.trans hle⟩
  | .tell _ _ :: _, _, _, _, h, hle => ⟨h.1.trans hle, h.2.mono hle⟩
  | .hear _ _ :: ss, _, _, _, h, hle => @Sound.mono ss _ _ _ h hle
  | .rest :: ss, _, _, _, h, hle => @Sound.mono ss _ _ _ h (Set.union_subset_union_left _ hle)

/-- A rank that waits for a message knows what it tells. -/
theorem Sound.rest {ss : List Signal} {known know : Set ℕ}
    (h : Sound goal ss (known ∪ know) []) : Sound goal (.rest :: ss) known [know] := by
  refine @Sound.mono goal ss _ _ _ h (Set.union_subset_union_right _ fun q hq => ?_)
  exact ⟨know, List.mem_singleton.mpr rfl, hq⟩

/-- Messages that are told one after another. -/
theorem sound_tells {know : Set ℕ} {ss : List Signal} {known : Set ℕ} {heard : List (Set ℕ)}
    (hle : know ⊆ known) (h : Sound goal ss known heard) : ∀ {peers : List ℕ},
      Sound goal (peers.map (fun peer => .tell peer know) ++ ss) known heard
  | [] => h
  | _ :: _ => ⟨hle, sound_tells hle h⟩

/-- Messages that are heard one after another. -/
theorem sound_hears {know : ℕ → Set ℕ} {ss : List Signal} {known : Set ℕ} :
    ∀ {peers : List ℕ} {heard : List (Set ℕ)}, Sound goal ss known (heard ++ peers.map know) →
      Sound goal (peers.map (fun peer => .hear peer (know peer)) ++ ss) known heard
  | [], _, h => by rwa [List.map_nil, List.append_nil] at h
  | peer :: peers, heard, h => by
    refine @sound_hears know ss known peers (heard ++ [know peer]) ?_
    rwa [List.append_assoc, List.singleton_append]

/-- What a rank comes to know, in the ghost state. -/
def Knows (goal : Set ℕ) (g : Ghost ι β) : Prop := g.todo = [] ∧ g.pend = [] ∧ goal ⊆ g.know

/-- Nothing is forgotten. -/
theorem stable_knows : Stable (Knows goal : Ghost ι β → Prop) := by
  rintro g g' hle ⟨htodo, hpend, hknow⟩
  refine ⟨hle.todo.trans htodo, List.eq_nil_iff_forall_not_mem.mpr fun p hp => ?_,
    hknow.trans hle.know⟩
  have hp' := hle.pend p hp
  rw [hpend] at hp'
  exact List.not_mem_nil hp'

variable [DecidableEq ι]

/-- The commands of sound signals follow their trace. -/
theorem Sound.wp {rank : ℕ → ℕ} : ∀ {ss : List Signal} {known : Set ℕ} {g : Ghost ι β},
    Sound goal ss known (g.pend.map Pending.know) → known ⊆ g.know →
    g.todo = (signalTrace ss).map (Event.mapPeer rank) →
    Sched.wp (Knows goal) (ss.map (Signal.cmd rank)) g
  | [], _, g, h, hknow, htodo => ⟨htodo, List.map_eq_nil_iff.mp h.1, h.2.trans hknow⟩
  | .tell peer know :: ss, _, g, h, hknow, htodo =>
    ⟨fun _ hi => absurd hi List.not_mem_nil, know, _, htodo, h.1.trans hknow,
      @Sound.wp rank ss _ { g with todo := _ } h.2 hknow rfl⟩
  | .hear peer know :: ss, known, g, h, hknow, htodo => by
    refine ⟨fun _ hi => absurd hi List.not_mem_nil, [], know, _, htodo, le_rfl, ?_⟩
    refine @Sound.wp rank ss known _ ?_ hknow rfl
    rw [List.map_append]
    exact h
  | .rest :: ss, known, g, h, hknow, htodo => by
    refine @Sound.wp rank ss _ g.doneAll h (Set.union_subset_union hknow fun q hq => ?_)
      htodo
    obtain ⟨know, hmem, hq⟩ := hq
    obtain ⟨p, hp, rfl⟩ := List.mem_map.mp hmem
    exact ⟨p, hp, hq⟩

end Kucg.Lib
