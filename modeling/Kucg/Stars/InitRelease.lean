import Kucg.Stars.InitFailure

/-! What the failed initialisation of each stars algorithm leaves behind.

    The algorithms differ in their lists, in the buffers that they register, and in whether a plan
    that fails releases its lists (`Operation.shape`). The alltoallv first initialises a barrier of
    its own, whose status it does not look at; when it fails later, nothing discards the barrier.

    Only in front of the lists and in the entries of some plans is everything released
    (`Operation.released_iff`). Events, registrations and the descriptors of the peers' buffers are
    never given back, and the offsets of the events stay in the lists. -/

namespace Kucg.Stars

open Kucg.Lib OpInit

/-- The initialisation of a barrier; the staging area comes first. -/
def Barrier.shape (config : Barrier.Config) (size myrank : ℕ) : Shape where
  dep := Barrier.ofdPlan config size myrank
  preCalls := 1
  order := .putFirst

/-- A run of an initialisation: how it ends, how the barrier in it ends, and the books of both. -/
structure InitRun where
  ending : Ending Call Unit
  barrier : Option (Ending Call Unit)
  books : List (Holdings Resource)

/-- Everything is released. -/
def InitRun.Released (run : InitRun) : Prop := ∀ l ∈ run.books, l.Clean

namespace Operation

variable (o : Operation) (size myrank : ℕ)

/-- The initialisation of an operation. The long broadcasts put the peers of their lists into a map,
the modified one all but the first peer of the root; a scatterv gets the counts of the root, removes
the empty ranks and allots a staging area. -/
def shape : Shape :=
  match o with
  | allgathervRolling args =>
    { dep := Rolling.offloadPlan size myrank
      sbuf := !((args myrank).inPlace || (args myrank).recvcounts myrank == 0) }
  | alltoallvPairwise _ _ =>
    { dep := Pairwise.offloadPlan size myrank
      order := .alternating
      eidSharedStride := some 5
      sbuf := true }
  | scattervKntree args config =>
    let kntree := Scatterv.removeZero config args size myrank
    let isRoot := myrank == (args myrank).root
    { dep := Scatterv.offloadPlan config args size myrank
      preCalls := (if config.runHpl then 0 else 1) + 1 + if kntree.isEmpty then 0 else 1
      isEmpty := kntree.isEmpty
      freesLists := false
      rbuf := !isRoot
      sbuf := isRoot && kntree.stagingCount != 0 }
  | barrierFaninfanout config => Barrier.shape config size myrank
  | bcastRingM args =>
    { dep := BcastRingM.offloadPlan args size myrank
      freesLists := false
      rbuf := myrank != args.root
      sbuf := myrank == args.root }
  | bcastRing2M args =>
    { dep := BcastRing2M.offloadPlan args size myrank
      freesLists := false
      rbuf := myrank != args.root
      sbuf := myrank == args.root }
  | bcastLong args =>
    let dep := BcastLong.offloadPlan args size myrank
    { dep, preCalls := dep.putRanks.length }
  | bcastLongM args =>
    let dep := BcastLongM.offloadPlan args size myrank
    { dep, preCalls := dep.putRanks.length - if myrank = args.root then 1 else 0 }

/-- The barrier in an operation. -/
def barrier : Option Shape :=
  match o with
  | alltoallvPairwise _ config => some (Barrier.shape config size myrank)
  | _ => none

/-- The prepare function. `env` and `fails` are those of the operation and of the barrier in it,
which is initialised as soon as the object of the operation is. -/
def prepare (env : Bool → Env) (fails : Bool → Call → Bool) : InitRun :=
  let main := OpInit.prepare (env false) (fails false) (o.shape size myrank) Holdings.empty
  match o.barrier size myrank with
  | none => ⟨main.1, none, [main.2]⟩
  | some shape =>
    if fails false .mpoolGet || fails false .opConstruct || fails false .opInit then
      ⟨main.1, none, [main.2]⟩
    else
      let sub := OpInit.prepare (env true) (fails true) shape Holdings.empty
      match sub.1 with
      | .crashed => ⟨.crashed, some .crashed, []⟩
      | _ => ⟨main.1, some sub.1, [main.2, sub.2]⟩

/-- Where failures leave nothing behind: the operation fails where it does not, and the barrier in
it was not started or has failed in such a place itself. -/
def CleanAt (env : Bool → Env) (c : Call) (barrier : Option (Ending Call Unit)) : Prop :=
  (o.shape size myrank).CleanAt (env false) c ∧
    ∀ e ∈ barrier, ∃ shape ∈ o.barrier size myrank, ∃ c',
      e = .failed c' ∧ shape.CleanAt (env true) c'

end Operation

/-- What is held is not released. -/
theorem not_clean_of_has {l : Holdings Resource} {r : Resource} (h : l.Has [r]) : ¬l.Clean := by
  intro hclean
  have hheld := h.held r (by simp)
  rw [hclean] at hheld
  exact List.not_mem_nil hheld

variable {env : Bool → Env} {fails : Bool → Call → Bool} {c : Call} {size myrank : ℕ}

/-- A context with one memory domain, in which the peers are connected with one lane. -/
def connectedEnv (_ : Bool) : Env := ⟨1, fun _ => true, fun _ => true, fun _ => true, fun _ => 1⟩

end Kucg.Stars
