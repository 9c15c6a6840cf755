import Kucg.Core.Status
import Mathlib.Tactic

/-! The memory pools of `ucg_mpool.c`, which wrap those of the library below.

    All pools give the library one table of callbacks, and `ucg_mpool_init` takes a wrapper out of
    it when the pool at hand has no callback to wrap. It is never put back, so what becomes of the
    objects of a pool depends on all the pools that there are (`mpools_right_iff`). -/

namespace Kucg.Core

/-- `ucg_mpool_ops_t`, with callbacks of type `F`; `NULL` is `none`. -/
structure MpoolOps (F : Type) where
  chunkAlloc : F
  chunkRelease : F
  objInit : Option F
  objCleanup : Option F

/-- `ucg_default_mpool_ops`, by the two functions that it refers to. -/
def ucgDefaultMpoolOps {F : Type} (hugetlbMalloc hugetlbFree : F) : MpoolOps F :=
  ⟨hugetlbMalloc, hugetlbFree, none, none⟩

/-- The wrapper functions. -/
inductive MpoolWrapper where
  | chunkAlloc | chunkRelease | objInit | objCleanup
  deriving DecidableEq, Repr

/-- `ucs_mpool_ops_t`. -/
structure UcsMpoolOps where
  chunkAlloc : Option MpoolWrapper
  chunkRelease : Option MpoolWrapper
  objInit : Option MpoolWrapper
  objCleanup : Option MpoolWrapper
  deriving DecidableEq, Repr

/-- `ucs_ops`, before any call. -/
def ucsOps : UcsMpoolOps :=
  ⟨some .chunkAlloc, some .chunkRelease, some .objInit, some .objCleanup⟩

/-- The table that all pools share, and the pools: the `ops` field of each, and whether its creation
    has succeeded. -/
structure Mpools (F : Type) where
  ucsOps : UcsMpoolOps
  ops : ℕ → Option (MpoolOps F)
  ready : ℕ → Bool

/-- Before any call. -/
def Mpools.init (F : Type) : Mpools F := ⟨Kucg.Core.ucsOps, fun _ => none, fun _ => false⟩

/-- A call of `ucg_mpool_init`. A null pointer is `none`; the calls of `ucs_mpool_init` and
    `ucg_lock_init` return the two statuses. -/
structure MpoolCall (F : Type) where
  mp : Option ℕ
  ops : Option (MpoolOps F)
  named : Bool
  ucsStatus : Status
  lockStatus : Status

variable {F : Type} (defaultOps : MpoolOps F)

/-- The ops that a call gives to its pool. -/
def MpoolCall.effective (call : MpoolCall F) : MpoolOps F := call.ops.getD defaultOps

/-- `ucg_mpool_init`. -/
def ucgMpoolInit (s : Mpools F) (call : MpoolCall F) : Mpools F × Status :=
  match call.mp, call.named with
  | some mp, true =>
    let ops := call.effective defaultOps
    let table := s.ucsOps
    let table := if ops.objInit.isNone then { table with objInit := none } else table
    let table := if ops.objCleanup.isNone then { table with objCleanup := none } else table
    let status := if call.ucsStatus ≠ .ok then call.ucsStatus else call.lockStatus
    (⟨table, Function.update s.ops mp (some ops), Function.update s.ready mp (status = .ok)⟩,
      status)
  | _, _ => (s, .errInvalidParam)

/-- The calls in their order. -/
def Mpools.after (s : Mpools F) (calls : List (MpoolCall F)) : Mpools F :=
  calls.foldl (fun s call => (ucgMpoolInit defaultOps s call).1) s

/-! ### What the library calls -/

/-- What becomes of an object. -/
inductive ObjCall (F : Type) where
  | nothing
  | user (callback : F)
  | null
  deriving DecidableEq, Repr

/-- The callback that a wrapper calls, through the `ops` of the pool. -/
def MpoolWrapper.call (ops : MpoolOps F) : MpoolWrapper → ObjCall F
  | .chunkAlloc => .user ops.chunkAlloc
  | .chunkRelease => .user ops.chunkRelease
  | .objInit => ops.objInit.elim .null .user
  | .objCleanup => ops.objCleanup.elim .null .user

/-- The library leaves an object alone when the table it was given has no entry. -/
def ucsCall (entry : Option MpoolWrapper) (ops : MpoolOps F) : ObjCall F :=
  entry.elim .nothing (·.call ops)

/-- What the ops of a pool ask for. -/
def wanted (callback : Option F) : ObjCall F := callback.elim .nothing .user

/-- A pool's objects get the callbacks that its own ops define. -/
structure MpoolRight (s : Mpools F) (mp : ℕ) : Prop where
  objInit : ∀ ops ∈ s.ops mp, ucsCall s.ucsOps.objInit ops = wanted ops.objInit
  objCleanup : ∀ ops ∈ s.ops mp, ucsCall s.ucsOps.objCleanup ops = wanted ops.objCleanup

/-! ### The state after some calls -/

/-- The call gets past its first check. -/
def MpoolCall.Valid (call : MpoolCall F) : Prop := call.mp.isSome = true ∧ call.named = true

instance (call : MpoolCall F) : Decidable call.Valid := inferInstanceAs (Decidable (_ ∧ _))

/-- The call makes its pool. -/
def MpoolCall.Succeeds (call : MpoolCall F) : Prop :=
  call.ucsStatus = .ok ∧ call.lockStatus = .ok

/-- The last call on a pool. -/
def lastCall (calls : List (MpoolCall F)) (mp : ℕ) : Option (MpoolCall F) :=
  (calls.filter fun call => call.Valid ∧ call.mp = some mp).getLast?

/-- The pool has been made with these ops. -/
def MpoolMade (calls : List (MpoolCall F)) (mp : ℕ) (ops : MpoolOps F) : Prop :=
  ∃ call ∈ lastCall calls mp, call.Succeeds ∧ call.effective defaultOps = ops

/-- All calls define the callback, or no pool that has been made does. -/
def Agree (calls : List (MpoolCall F)) (callback : MpoolOps F → Option F) : Prop :=
  (∀ mp ops, MpoolMade defaultOps calls mp ops → callback ops = none) ∨
    ∀ call ∈ calls, call.Valid → callback (call.effective defaultOps) ≠ none

/-- The state after some calls. -/
structure MpoolsOk (calls : List (MpoolCall F)) (s : Mpools F) : Prop where
  objInit : s.ucsOps.objInit = none ∧ (∃ call ∈ calls, call.Valid ∧
      (call.effective defaultOps).objInit = none) ∨
    s.ucsOps.objInit = some .objInit ∧ ∀ call ∈ calls, call.Valid →
      (call.effective defaultOps).objInit ≠ none
  objCleanup : s.ucsOps.objCleanup = none ∧ (∃ call ∈ calls, call.Valid ∧
      (call.effective defaultOps).objCleanup = none) ∨
    s.ucsOps.objCleanup = some .objCleanup ∧ ∀ call ∈ calls, call.Valid →
      (call.effective defaultOps).objCleanup ≠ none
  ops : ∀ mp, s.ops mp = (lastCall calls mp).map (·.effective defaultOps)
  ready : ∀ mp, s.ready mp = true ↔ ∃ call ∈ lastCall calls mp, call.Succeeds

variable {defaultOps}

theorem mpoolsOk_init : MpoolsOk defaultOps [] (Mpools.init F) where
  objInit := Or.inr ⟨rfl, fun _ hcall => absurd hcall List.not_mem_nil⟩
  objCleanup := Or.inr ⟨rfl, fun _ hcall => absurd hcall List.not_mem_nil⟩
  ops _ := rfl
  ready mp := by simp [lastCall, Mpools.init]

theorem lastCall_append (calls : List (MpoolCall F)) (call : MpoolCall F) (mp : ℕ) :
    lastCall (calls ++ [call]) mp =
      if call.Valid ∧ call.mp = some mp then some call else lastCall calls mp := by
  rw [lastCall, List.filter_append, List.filter_singleton]
  split_ifs with hcall
  · rw [decide_eq_true hcall]
    exact List.getLast?_concat ..
  · rw [decide_eq_false hcall, cond_false, List.append_nil, lastCall]

/-- A column of the table, after a call that may clear it. -/
theorem entry_append {entry : Option MpoolWrapper} {w : MpoolWrapper} {calls : List (MpoolCall F)}
    {call : MpoolCall F} (callback : MpoolOps F → Option F) (hvalid : call.Valid)
    (h : entry = none ∧ (∃ call ∈ calls, call.Valid ∧ callback (call.effective defaultOps) = none) ∨
      entry = some w ∧ ∀ call ∈ calls, call.Valid → callback (call.effective defaultOps) ≠ none) :
    let entry' := if (callback (call.effective defaultOps)).isNone then none else entry
    entry' = none ∧ (∃ c ∈ calls ++ [call], c.Valid ∧ callback (c.effective defaultOps) = none) ∨
      entry' = some w ∧ ∀ c ∈ calls ++ [call], c.Valid →
        callback (c.effective defaultOps) ≠ none := by
  intro entry'
  by_cases hnone : callback (call.effective defaultOps) = none
  · left
    exact ⟨if_pos (by rw [hnone]; rfl), call, by simp, hvalid, hnone⟩
  · have hentry : entry' = entry := if_neg (by rwa [Option.isNone_iff_eq_none])
    rw [hentry]
    refine h.imp (fun ⟨he, c, hc, hrest⟩ => ⟨he, c, List.mem_append_left _ hc, hrest⟩)
      fun ⟨he, hall⟩ => ⟨he, fun c hc hv => ?_⟩
    rcases List.mem_append.mp hc with hc | hc
    · exact hall c hc hv
    · rwa [List.mem_singleton.mp hc]

/-- One call. -/
theorem MpoolsOk.step {calls : List (MpoolCall F)} {s : Mpools F} (h : MpoolsOk defaultOps calls s)
    (call : MpoolCall F) :
    MpoolsOk defaultOps (calls ++ [call]) (ucgMpoolInit defaultOps s call).1 := by
  by_cases hvalid : call.Valid
  · obtain ⟨mp, hmp⟩ := Option.isSome_iff_exists.mp hvalid.1
    have hlast (q : ℕ) : lastCall (calls ++ [call]) q =
        if mp = q then some call else lastCall calls q := by
      rw [lastCall_append, hmp]
      simp only [hvalid, true_and, Option.some.injEq]
    have hinit := entry_append MpoolOps.objInit hvalid h.objInit
    have hcleanup := entry_append MpoolOps.objCleanup hvalid h.objCleanup
    rw [ucgMpoolInit, hmp, hvalid.2]
    refine ⟨?_, ?_, fun q => ?_, fun q => ?_⟩
    · convert hinit using 2 <;> (dsimp only; split_ifs <;> rfl)
    · convert hcleanup using 2 <;> (dsimp only; split_ifs <;> rfl)
    · rcases eq_or_ne mp q with rfl | hq
      · rw [hlast, if_pos rfl]
        exact Function.update_self ..
      · rw [hlast, if_neg hq]
        exact (Function.update_of_ne hq.symm ..).trans (h.ops q)
    · rcases eq_or_ne mp q with rfl | hq
      · rw [hlast, if_pos rfl]
        dsimp only
        rw [Function.update_self, decide_eq_true_eq]
        simp only [Option.mem_def, Option.some.injEq, exists_eq_left', MpoolCall.Succeeds]
        split_ifs with hucs
        · exact ⟨fun hst => absurd hst hucs, fun hst => hst.1⟩
        · exact ⟨fun hst => ⟨not_not.mp hucs, hst⟩, fun hst => hst.2⟩
      · rw [hlast, if_neg hq, ← h.ready q]
        dsimp only
        rw [Function.update_of_ne hq.symm]
  · have hsame : (ucgMpoolInit defaultOps s call).1 = s := by
      obtain ⟨mp, ops, named, ucsStatus, lockStatus⟩ := call
      cases mp with
      | none => rfl
      | some mp =>
        cases named with
        | false => rfl
        | true => exact absurd ⟨rfl, rfl⟩ hvalid
    have hlast (q : ℕ) : lastCall (calls ++ [call]) q = lastCall calls q := by
      rw [lastCall_append, if_neg fun hcall => hvalid hcall.1]
    rw [hsame]
    refine ⟨?_, ?_, fun q => by rw [hlast, h.ops], fun q => by rw [hlast, h.ready]⟩
    · simpa [hvalid, or_imp, forall_and] using h.objInit
    · simpa [hvalid, or_imp, forall_and] using h.objCleanup

theorem MpoolsOk.after : ∀ {calls' calls : List (MpoolCall F)} {s : Mpools F},
    MpoolsOk defaultOps calls s → MpoolsOk defaultOps (calls ++ calls') (s.after defaultOps calls')
  | [], calls, s, h => by rwa [List.append_nil]
  | call :: calls', calls, s, h => by
    rw [List.append_cons]
    exact (h.step call).after

/-! ### When the pools are right -/

/-- A column of the table gives the pools what they want exactly if it has not been cleared, or no
    pool wants anything. -/
theorem column_iff {calls : List (MpoolCall F)} {s : Mpools F} (h : MpoolsOk defaultOps calls s)
    {entry : Option MpoolWrapper} {w : MpoolWrapper} (callback : MpoolOps F → Option F)
    (hw : ∀ ops, w.call ops = (callback ops).elim .null .user)
    (hentry : entry = none ∧ (∃ call ∈ calls, call.Valid ∧
        callback (call.effective defaultOps) = none) ∨
      entry = some w ∧ ∀ call ∈ calls, call.Valid → callback (call.effective defaultOps) ≠ none) :
    (∀ mp, s.ready mp = true → ∀ ops ∈ s.ops mp, ucsCall entry ops = wanted (callback ops)) ↔
      Agree defaultOps calls callback := by
  have hmade {mp : ℕ} {ops : MpoolOps F} :
      MpoolMade defaultOps calls mp ops ↔ s.ready mp = true ∧ ops ∈ s.ops mp := by
    rw [h.ready, h.ops, MpoolMade]
    constructor
    · rintro ⟨call, hcall, hsucc, rfl⟩
      exact ⟨⟨call, hcall, hsucc⟩, Option.mem_map_of_mem _ hcall⟩
    · rintro ⟨⟨call, hcall, hsucc⟩, hops⟩
      rw [Option.mem_def.mp hcall] at hops
      exact ⟨call, hcall, hsucc, Option.some.inj hops⟩
  rcases hentry with ⟨rfl, call, hcall, hvalid, hnone⟩ | ⟨rfl, hall⟩
  · constructor
    · refine fun hright => Or.inl fun mp ops hops => ?_
      have hcalled := hright mp (hmade.mp hops).1 ops (hmade.mp hops).2
      cases hcb : callback ops with
      | none => rfl
      | some f =>
        rw [hcb] at hcalled
        cases hcalled
    · rintro (hnothing | hall) mp hready ops hops
      · rw [hnothing mp ops (hmade.mpr ⟨hready, hops⟩)]
        rfl
      · exact absurd hnone (hall call hcall hvalid)
  · refine ⟨fun _ => Or.inr hall, fun _ mp hready ops hops => ?_⟩
    obtain ⟨call, hcall, hsucc, rfl⟩ := hmade.mpr ⟨hready, hops⟩
    have hmem := List.mem_of_getLast? hcall
    obtain ⟨hmem, hvalid⟩ := List.mem_filter.mp hmem
    have hdef := hall call hmem (of_decide_eq_true hvalid).1
    obtain ⟨f, hf⟩ := Option.ne_none_iff_exists'.mp hdef
    change w.call _ = _
    rw [hw, hf]
    rfl

/-- The objects of every pool get the callbacks of its own ops exactly if all calls define the
    callback, or none of the pools does. -/
theorem mpools_right_iff (malloc free : F) (calls : List (MpoolCall F)) :
    let defaultOps := ucgDefaultMpoolOps malloc free
    (∀ mp, ((Mpools.init F).after defaultOps calls).ready mp = true →
      MpoolRight ((Mpools.init F).after defaultOps calls) mp) ↔
    Agree defaultOps calls MpoolOps.objInit ∧ Agree defaultOps calls MpoolOps.objCleanup := by
  intro defaultOps
  have h : MpoolsOk defaultOps calls ((Mpools.init F).after defaultOps calls) := mpoolsOk_init.after
  rw [← column_iff h _ (fun _ => rfl) h.objInit, ← column_iff h _ (fun _ => rfl) h.objCleanup]
  exact ⟨fun hright => ⟨fun mp hready => (hright mp hready).objInit,
    fun mp hready => (hright mp hready).objCleanup⟩,
    fun hright mp hready => ⟨hright.1 mp hready, hright.2 mp hready⟩⟩

/-- A pool whose objects are initialised, and one with the default ops. -/
def twoPools : List (MpoolCall ℕ) :=
  [⟨some 0, some ⟨1, 2, some 3, none⟩, true, .ok, .ok⟩, ⟨some 1, none, true, .ok, .ok⟩]

/-- The second call takes the initialisation from the first pool. -/
theorem mpools_not_right : ¬∀ (calls : List (MpoolCall ℕ)) (mp : ℕ),
    ((Mpools.init ℕ).after (ucgDefaultMpoolOps 0 1) calls).ready mp = true →
      MpoolRight ((Mpools.init ℕ).after (ucgDefaultMpoolOps 0 1) calls) mp := by
  intro h
  have hcall := (h twoPools 0 rfl).objInit ⟨1, 2, some 3, none⟩ rfl
  exact absurd hcall (by decide)

end Kucg.Core
