import Mathlib.Data.List.Basic
import Mathlib.Tactic.SplitIfs

/-! Programs that acquire and release resources, and that can fail at each of their calls.

    A call fails or not as an oracle says. The resources are kept in the books: what is held, and
    whether something was touched or released that was not held. When a program fails, its books are
    clean if all that it has acquired is released, each resource once (`Holdings.Clean`).

    `Sat` says what holds of the books when a program is done, and of the call and the books when it
    fails; its rules follow the program. -/

namespace Kucg.Lib

/-- How a program ends: it is done, a call has failed, or it has crashed. -/
inductive Ending (C α : Type) where
  | done (a : α)
  | failed (call : C)
  | crashed
  deriving DecidableEq

/-- The resources that are held. `misused`: one was touched or released that was not. -/
structure Holdings (R : Type) where
  held : List R
  misused : Bool
  deriving DecidableEq

variable {C R α β : Type}

/-- Nothing is held. -/
def Holdings.empty : Holdings R := ⟨[], false⟩

/-- All is released, each resource once, and none is touched after that. -/
def Holdings.Clean (l : Holdings R) : Prop := l = Holdings.empty

/-- A program over the books. -/
def Acquire (C R α : Type) := Holdings R → Ending C α × Holdings R

namespace Acquire

protected def pure (a : α) : Acquire C R α := fun l => (.done a, l)

protected def bind (m : Acquire C R α) (f : α → Acquire C R β) : Acquire C R β := fun l =>
  match m l with
  | (.done a, l) => f a l
  | (.failed c, l) => (.failed c, l)
  | (.crashed, l) => (.crashed, l)

instance : Monad (Acquire C R) where
  pure := Acquire.pure
  bind := Acquire.bind

/-- A call that fails if the oracle says so. -/
def call (fails : C → Bool) (c : C) : Acquire C R Unit := fun l =>
  if fails c then (.failed c, l) else (.done (), l)

/-- A resource is acquired. -/
def take (r : R) : Acquire C R Unit := fun l => (.done (), ⟨r :: l.held, l.misused⟩)

/-- The program crashes. -/
def crash : Acquire C R Unit := fun l => (.crashed, l)

/-- When the program fails, it is cleaned up, and fails. -/
def onFail (m : Acquire C R α) (cleanup : Acquire C R Unit) : Acquire C R α := fun l =>
  match m l with
  | (.failed c, l) => (.failed c, (cleanup l).2)
  | res => res

/-- A step that is left out under a condition. -/
def skipIf (p : Prop) [Decidable p] (m : Acquire C R Unit) : Acquire C R Unit :=
  if p then Acquire.pure () else m

/-- A loop over a list. -/
def each : List β → (β → Acquire C R Unit) → Acquire C R Unit
  | [], _ => Acquire.pure ()
  | x :: xs, f => Acquire.bind (f x) fun _ => each xs f

section Release

variable [DecidableEq R]

/-- A resource is touched. -/
def touch (r : R) : Acquire C R Unit := fun l => (.done (), ⟨l.held, l.misused || r ∉ l.held⟩)

/-- A resource is released. -/
def give (r : R) : Acquire C R Unit := fun l =>
  (.done (), ⟨l.held.erase r, l.misused || r ∉ l.held⟩)

end Release

/-! ### What holds at the end -/

/-- Started with the given books, the program ends with `P` or fails with `E`. -/
def Sat (m : Acquire C R α) (l : Holdings R) (P : α → Holdings R → Prop)
    (E : C → Holdings R → Prop) : Prop :=
  match m l with
  | (.done a, l) => P a l
  | (.failed c, l) => E c l
  | (.crashed, _) => True

variable {m : Acquire C R α} {l : Holdings R} {P P' : α → Holdings R → Prop}
  {E E' : C → Holdings R → Prop}

theorem Sat.imp (h : Sat m l P E) (hP : ∀ a l, P a l → P' a l) (hE : ∀ c l, E c l → E' c l) :
    Sat m l P' E' := by
  unfold Sat at h ⊢
  split at h
  · exact hP _ _ h
  · exact hE _ _ h
  · trivial

theorem Sat.of_failed {c : C} {l' : Holdings R} (h : Sat m l P E) (hm : m l = (.failed c, l')) :
    E c l' := by
  unfold Sat at h
  rwa [hm] at h

theorem Sat.of_done {a : α} {l' : Holdings R} (h : Sat m l P E) (hm : m l = (.done a, l')) :
    P a l' := by
  unfold Sat at h
  rwa [hm] at h

theorem sat_pure {a : α} (h : P a l) : Sat (pure a) l P E := h

theorem Sat.bind {f : α → Acquire C R β} {Q : β → Holdings R → Prop} (h : Sat m l P E)
    (hf : ∀ a l, P a l → Sat (f a) l Q E) : Sat (m >>= f) l Q E := by
  change Sat (Acquire.bind m f) l Q E
  unfold Sat at h
  unfold Sat Acquire.bind
  split at h
  · rename_i a l' _
    exact hf a l' h
  · exact h
  · trivial

theorem sat_call {fails : C → Bool} {c : C} {P : Unit → Holdings R → Prop} (hP : P () l)
    (hE : fails c = true → E c l) : Sat (call fails c) l P E := by
  unfold Sat call
  by_cases h : fails c = true
  · rw [if_pos h]
    exact hE h
  · rw [if_neg h]
    exact hP

theorem sat_take {r : R} {P : Unit → Holdings R → Prop} (h : P () ⟨r :: l.held, l.misused⟩) :
    Sat (take r) l P E := h

theorem sat_skipIf {p : Prop} [Decidable p] {m : Acquire C R Unit}
    {P : Unit → Holdings R → Prop} (h : p → P () l) (h' : ¬p → Sat m l P E) :
    Sat (skipIf p m) l P E := by
  unfold skipIf
  split_ifs with hp
  · exact sat_pure (h hp)
  · exact h' hp

theorem sat_crash {P : Unit → Holdings R → Prop} : Sat crash l P E := trivial

theorem Sat.onFail (E' : C → Holdings R → Prop) {cleanup : Acquire C R Unit} (h : Sat m l P E')
    (hc : ∀ c l, E' c l → E c (cleanup l).2) : Sat (onFail m cleanup) l P E := by
  rcases hm : m l with ⟨a | c | _, l'⟩
  · simpa only [Sat, Acquire.onFail, hm] using h
  · simp only [Sat, Acquire.onFail, hm] at h ⊢
    exact hc c l' h
  · simp only [Sat, Acquire.onFail, hm]

/-- An invariant of a loop. -/
theorem sat_each {f : β → Acquire C R Unit} (inv : Holdings R → Prop) : ∀ {xs : List β}
    {l : Holdings R}, (∀ x ∈ xs, ∀ l, inv l → Sat (f x) l (fun _ => inv) E) → inv l →
    Sat (each xs f) l (fun _ => inv) E
  | [], _, _, hinv => hinv
  | x :: xs, l, hf, hinv =>
    Sat.bind (hf x (by simp) l hinv) fun _ l hl =>
      sat_each inv (fun y hy => hf y (by simp [hy])) hl

end Acquire

/-! ### What stays held -/

/-- The given resources are held, and nothing was misused. -/
structure Holdings.Has (l : Holdings R) (rs : List R) : Prop where
  fine : l.misused = false
  held : ∀ r ∈ rs, r ∈ l.held

theorem Holdings.Has.take {l : Holdings R} {rs : List R} (h : l.Has rs) (r : R) :
    Holdings.Has ⟨r :: l.held, l.misused⟩ (r :: rs) := by
  refine ⟨h.fine, fun x hx => ?_⟩
  rcases List.mem_cons.mp hx with rfl | hx
  · exact List.mem_cons_self
  · exact List.mem_cons_of_mem _ (h.held x hx)

theorem Holdings.Has.mono {l : Holdings R} {rs rs' : List R} (h : l.Has rs)
    (hsub : ∀ r ∈ rs', r ∈ rs) : l.Has rs' := ⟨h.fine, fun r hr => h.held r (hsub r hr)⟩

variable [DecidableEq R]

/-- Releasing one of them keeps the others. -/
theorem Holdings.Has.give {l : Holdings R} {rs : List R} {r : R} (h : l.Has (r :: rs))
    (hr : r ∉ rs) : (Acquire.give (C := C) r l).2.Has rs := by
  refine ⟨?_, fun x hx => ?_⟩
  · have hheld := h.held r List.mem_cons_self
    simp [Acquire.give, h.fine, hheld]
  · have hne : x ≠ r := fun hxr => hr (hxr ▸ hx)
    exact (List.mem_erase_of_ne hne).mpr (h.held x (List.mem_cons_of_mem _ hx))

theorem Holdings.Has.touch {l : Holdings R} {rs : List R} {r : R} (h : l.Has rs) (hr : r ∈ rs) :
    Acquire.touch (C := C) r l = (.done (), l) := by
  have hheld := h.held r hr
  simp [Acquire.touch, hheld]

end Kucg.Lib
