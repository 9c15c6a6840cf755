import Kucg.Lib.Prog

/-! What a program can return, and what it posts on the way.

    `Prog.wp` says what a program does under a trace that it follows. Here nothing is said about the
    other ranks: every test may return either answer. `Prog.Always` holds if a property of result
    and posts holds whatever the tests return, `Prog.Can` if it holds for some answers. -/

namespace Kucg.Lib

variable {ι β α γ : Type}

/-- A message at its post, with the cells it is sent from or goes to. -/
inductive Post (ι : Type) where
  | send (dst : ℕ) (src : List ι)
  | recv (src : ℕ) (dst : List ι)
  deriving DecidableEq, Repr

/-- The program can return `a` after the posts `posts`. -/
def Prog.Yields : Prog ι β α → α → List (Post ι) → Prop
  | .pure a', a, posts => a = a' ∧ posts = []
  | .isend d src next, a, posts => ∃ rest, posts = .send d src :: rest ∧ next.Yields a rest
  | .irecv _ s dst next, a, posts => ∃ rest, posts = .recv s dst :: rest ∧ next.Yields a rest
  | .zip _ _ _ next, a, posts => next.Yields a posts
  | .testall next, a, posts => ∃ done, (next done).Yields a posts
  | .test _ next, a, posts => ∃ done, (next done).Yields a posts

/-- Whatever the tests return, the result and the posts, after those of `pre`, satisfy `Q`. -/
def Prog.Always : Prog ι β α → (α → List (Post ι) → Prop) → List (Post ι) → Prop
  | .pure a, Q, pre => Q a pre
  | .isend d src next, Q, pre => next.Always Q (pre ++ [.send d src])
  | .irecv _ s dst next, Q, pre => next.Always Q (pre ++ [.recv s dst])
  | .zip _ _ _ next, Q, pre => next.Always Q pre
  | .testall next, Q, pre => ∀ done, (next done).Always Q pre
  | .test _ next, Q, pre => ∀ done, (next done).Always Q pre

/-- For some answers of the tests, the result satisfies `Q`. -/
def Prog.Can : Prog ι β α → (α → Prop) → Prop
  | .pure a, Q => Q a
  | .isend _ _ next, Q => next.Can Q
  | .irecv _ _ _ next, Q => next.Can Q
  | .zip _ _ _ next, Q => next.Can Q
  | .testall next, Q => ∃ done, (next done).Can Q
  | .test _ next, Q => ∃ done, (next done).Can Q

theorem Prog.Always.of_yields {p : Prog ι β α} {Q : α → List (Post ι) → Prop} {a : α} :
    ∀ {pre posts : List (Post ι)}, p.Always Q pre → p.Yields a posts → Q a (pre ++ posts) := by
  induction p with
  | pure a' =>
    rintro pre posts h ⟨rfl, rfl⟩
    rwa [List.append_nil]
  | isend d src next ih =>
    rintro pre posts h ⟨rest, rfl, hrest⟩
    simpa using ih h hrest
  | irecv handle s dst next ih =>
    rintro pre posts h ⟨rest, rfl, hrest⟩
    simpa using ih h hrest
  | zip f src dst next ih => exact fun h hy => ih h hy
  | testall next ih => exact fun h ⟨done, hy⟩ => ih done (h done) hy
  | test handle next ih => exact fun h ⟨done, hy⟩ => ih done (h done) hy

theorem Prog.Can.yields {p : Prog ι β α} {Q : α → Prop} (h : p.Can Q) :
    ∃ a posts, p.Yields a posts ∧ Q a := by
  induction p with
  | pure a => exact ⟨a, [], ⟨rfl, rfl⟩, h⟩
  | isend d src next ih =>
    obtain ⟨a, posts, hy, hQ⟩ := ih h
    exact ⟨a, _, ⟨posts, rfl, hy⟩, hQ⟩
  | irecv handle s dst next ih =>
    obtain ⟨a, posts, hy, hQ⟩ := ih h
    exact ⟨a, _, ⟨posts, rfl, hy⟩, hQ⟩
  | zip f src dst next ih => exact ih h
  | testall next ih =>
    obtain ⟨done, h⟩ := h
    obtain ⟨a, posts, hy, hQ⟩ := ih done h
    exact ⟨a, posts, ⟨done, hy⟩, hQ⟩
  | test handle next ih =>
    obtain ⟨done, h⟩ := h
    obtain ⟨a, posts, hy, hQ⟩ := ih done h
    exact ⟨a, posts, ⟨done, hy⟩, hQ⟩

theorem Prog.Always.imp {p : Prog ι β α} {Q Q' : α → List (Post ι) → Prop}
    (hQ : ∀ a posts, Q a posts → Q' a posts) :
    ∀ {pre : List (Post ι)}, p.Always Q pre → p.Always Q' pre := by
  induction p with
  | pure a => exact fun h => hQ a _ h
  | isend d src next ih => exact fun h => ih h
  | irecv handle s dst next ih => exact fun h => ih h
  | zip f src dst next ih => exact fun h => ih h
  | testall next ih => exact fun h done => ih done (h done)
  | test handle next ih => exact fun h done => ih done (h done)

theorem Prog.Can.imp {p : Prog ι β α} {Q Q' : α → Prop} (hQ : ∀ a, Q a → Q' a) (h : p.Can Q) :
    p.Can Q' := by
  induction p with
  | pure a => exact hQ a h
  | isend d src next ih => exact ih h
  | irecv handle s dst next ih => exact ih h
  | zip f src dst next ih => exact ih h
  | testall next ih => exact Exists.imp (fun done => ih done) h
  | test handle next ih => exact Exists.imp (fun done => ih done) h

@[simp] theorem always_pure {a : α} {Q : α → List (Post ι) → Prop} {pre : List (Post ι)} :
    (pure a : Prog ι β α).Always Q pre ↔ Q a pre := Iff.rfl

@[simp] theorem always_bind {p : Prog ι β α} {f : α → Prog ι β γ} {Q : γ → List (Post ι) → Prop} :
    ∀ {pre : List (Post ι)},
      (p >>= f).Always Q pre ↔ p.Always (fun a pre => (f a).Always Q pre) pre := by
  change ∀ {pre}, (p.bind f).Always Q pre ↔ _
  induction p with
  | pure a => exact Iff.rfl
  | isend d src next ih => exact ih
  | irecv handle s dst next ih => exact ih
  | zip f src dst next ih => exact ih
  | testall next ih => simp only [Prog.bind, Prog.Always, ih, implies_true]
  | test handle next ih => simp only [Prog.bind, Prog.Always, ih, implies_true]

@[simp] theorem can_pure {a : α} {Q : α → Prop} : (pure a : Prog ι β α).Can Q ↔ Q a := Iff.rfl

@[simp] theorem can_bind {p : Prog ι β α} {f : α → Prog ι β γ} {Q : γ → Prop} :
    (p >>= f).Can Q ↔ p.Can fun a => (f a).Can Q := by
  change (p.bind f).Can Q ↔ _
  induction p with
  | pure a => exact Iff.rfl
  | isend d src next ih => exact ih
  | irecv handle s dst next ih => exact ih
  | zip f src dst next ih => exact ih
  | testall next ih => simp only [Prog.bind, Prog.Can, ih]
  | test handle next ih => simp only [Prog.bind, Prog.Can, ih]

end Kucg.Lib
