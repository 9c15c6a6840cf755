import Mathlib.Tactic

/-! Handles and locks in a log of events.

    A ledger follows a log (`Ledger.run`): it knows which handles are released, and which locks are
    held, the last one entered first. It stops at a use or a release of a released handle, and where
    a lock is left that is not the one entered last. A log that it follows to the end, with no lock
    held, is clean. -/

namespace Kucg.Handles

/-- What a program does with locks of type `L` and handles of type `H`. -/
inductive Event (L H : Type*) where
  | enter (lock : L)
  | leave (lock : L)
  | acquire (handle : H)
  | access (handle : H)
  | release (handle : H)
  deriving DecidableEq, Repr

/-- The released handles, and the locks held. -/
structure Ledger (L H : Type*) where
  dead : H → Bool
  locks : List L

variable {L H : Type*} [DecidableEq L] [DecidableEq H]

/-- No handle has been released, and no lock is held. -/
def Ledger.init : Ledger L H := ⟨fun _ => false, []⟩

/-- One event. -/
def Ledger.step (ledger : Ledger L H) : Event L H → Option (Ledger L H)
  | .enter lock => some { ledger with locks := lock :: ledger.locks }
  | .leave lock =>
    match ledger.locks with
    | [] => none
    | held :: rest => if lock = held then some { ledger with locks := rest } else none
  | .acquire h => some { ledger with dead := Function.update ledger.dead h false }
  | .access h => if ledger.dead h then none else some ledger
  | .release h =>
    if ledger.dead h then none
    else some { ledger with dead := Function.update ledger.dead h true }

/-- A log, event by event. -/
def Ledger.run (ledger : Ledger L H) (log : List (Event L H)) : Option (Ledger L H) :=
  log.foldlM Ledger.step ledger

/-- Every lock that is entered is left again, exactly once and before the locks around it, and no
    handle is used once it is released. -/
def Clean (log : List (Event L H)) : Prop :=
  ∃ ledger, (Ledger.init : Ledger L H).run log = some ledger ∧ ledger.locks = []

namespace Ledger

variable (ledger : Ledger L H) (log : List (Event L H))

@[simp] theorem run_nil : ledger.run [] = some ledger := rfl

theorem run_append (log' : List (Event L H)) :
    ledger.run (log ++ log') = (ledger.run log).bind fun l => l.run log' := by
  simp [run, List.foldlM_append]

@[simp] theorem run_enter (lock : L) :
    ledger.run (.enter lock :: log) = run { ledger with locks := lock :: ledger.locks } log := rfl

@[simp] theorem run_acquire (h : H) :
    ledger.run (.acquire h :: log) =
      run { ledger with dead := Function.update ledger.dead h false } log := rfl

@[simp] theorem run_leave (dead : H → Bool) (lock : L) (locks : List L) :
    run ⟨dead, lock :: locks⟩ (.leave lock :: log) = run ⟨dead, locks⟩ log := by
  simp [run, List.foldlM_cons, step]

theorem run_access {h : H} (hh : ledger.dead h = false) :
    ledger.run (.access h :: log) = ledger.run log := by
  simp [run, List.foldlM_cons, step, hh]

theorem run_access_dead {h : H} (hh : ledger.dead h = true) :
    ledger.run (.access h :: log) = none := by
  simp [run, List.foldlM_cons, step, hh]

theorem run_release {h : H} (hh : ledger.dead h = false) :
    ledger.run (.release h :: log) =
      run { ledger with dead := Function.update ledger.dead h true } log := by
  simp [run, List.foldlM_cons, step, hh]

end Ledger

end Kucg.Handles
