import Kucg.Lib.Trace

/-! Phases in which the members of groups tell each other what they know.

    The members of a group may tell their first one (gather), hear from it (scatter), or all tell
    each other (exchange). Groups of groups are built level by level: the first members of the
    groups of a level are the members of the groups of the next one. When all levels are gathered
    from the bottom to the top, the ranks at the top share what they have got, and all levels are
    scattered from the top to the bottom, then everybody knows everything (`Levels.all`). -/

namespace Kucg.Lib

/-- Who tells whom in a group. -/
inductive Telling where
  | gather | exchange | scatter
  deriving DecidableEq

/-- A phase: the group of every rank, and what its members do. -/
structure TellPhase where
  telling : Telling
  members : ℕ → List ℕ

variable {A : Type*}

/-- What the ranks of `S` know. -/
def allOf (S : Set ℕ) (K : ℕ → Set A) : Set A := {a | ∃ q ∈ S, a ∈ K q}

/-- The first member of a group. -/
def IsFirst (members : ℕ → List ℕ) (r : ℕ) : Prop := (members r).head? = some r

instance (members : ℕ → List ℕ) (r : ℕ) : Decidable (IsFirst members r) :=
  inferInstanceAs (Decidable (_ = _))

/-- What rank `r` knows after a phase. A rank outside of its own group takes no part. -/
def TellPhase.after (p : TellPhase) (K : ℕ → Set A) (r : ℕ) : Set A :=
  if r ∈ p.members r then
    match p.telling with
    | .gather => if IsFirst p.members r then allOf {q | q ∈ p.members r} K else K r
    | .exchange => allOf {q | q ∈ p.members r} K
    | .scatter => K r ∪ allOf {q | (p.members r).head? = some q} K
  else K r

/-- What is known after phases one after another. -/
def afterPhases : List TellPhase → (ℕ → Set A) → ℕ → Set A
  | [], K => K
  | p :: ps, K => afterPhases ps (p.after K)

@[simp] theorem afterPhases_append {ps' : List TellPhase} : ∀ {ps : List TellPhase} {K : ℕ → Set A},
    afterPhases (ps ++ ps') K = afterPhases ps' (afterPhases ps K)
  | [], _ => rfl
  | _ :: ps, _ => @afterPhases_append ps' ps _

/-- The groups of `gs`, level by level, from the ranks `S` at the bottom to the ranks `T` at the
    top. -/
inductive Levels : List (ℕ → List ℕ) → Set ℕ → Set ℕ → Prop
  | top (S : Set ℕ) : Levels [] S S
  | level {g : ℕ → List ℕ} {gs : List (ℕ → List ℕ)} {S T : Set ℕ} (hg : IsGrouping g)
      (hmem : ∀ r ∈ S, r ∈ g r) (hclosed : ∀ r ∈ S, ∀ q ∈ g r, q ∈ S)
      (hnext : Levels gs {r ∈ S | IsFirst g r} T) : Levels (g :: gs) S T

/-- A group has a first member. -/
theorem IsGrouping.exists_first {g : ℕ → List ℕ} (hg : IsGrouping g) {r : ℕ} (hr : r ∈ g r) :
    ∃ h ∈ g r, (g r).head? = some h ∧ g h = g r ∧ IsFirst g h := by
  obtain ⟨h, hhead⟩ : ∃ h, (g r).head? = some h :=
    Option.isSome_iff_exists.mp (List.isSome_head?.mpr (List.ne_nil_of_mem hr))
  have hmem : h ∈ g r := List.mem_of_head? hhead
  have hsame := hg.same r hr h hmem
  exact ⟨h, hmem, hhead, hsame, by rw [IsFirst, hsame, hhead]⟩

/-- Gathering loses nothing. -/
theorem allOf_gather {g : ℕ → List ℕ} {S : Set ℕ} (hg : IsGrouping g) (hmem : ∀ r ∈ S, r ∈ g r)
    (hclosed : ∀ r ∈ S, ∀ q ∈ g r, q ∈ S) (K : ℕ → Set A) :
    allOf S K ⊆ allOf {r ∈ S | IsFirst g r} (TellPhase.after ⟨.gather, g⟩ K) := by
  rintro a ⟨q, hq, ha⟩
  obtain ⟨h, hmemh, -, hsame, hfirst⟩ := hg.exists_first (hmem q hq)
  refine ⟨h, ⟨hclosed q hq h hmemh, hfirst⟩, ?_⟩
  have hself : h ∈ g h := hsame ▸ hmemh
  rw [TellPhase.after, if_pos hself]
  dsimp only
  rw [if_pos hfirst]
  exact ⟨q, hsame ▸ hmem q hq, ha⟩

/-- What the ranks at the top share comes to all ranks. -/
theorem Levels.all {gs : List (ℕ → List ℕ)} {S T : Set ℕ} (h : Levels gs S T) {mid : List TellPhase}
    (hmid : ∀ K : ℕ → Set A, ∀ r ∈ T, allOf T K ⊆ afterPhases mid K r) :
    ∀ (K : ℕ → Set A), ∀ r ∈ S, allOf S K ⊆
      afterPhases (gs.map (TellPhase.mk .gather) ++ mid ++
        gs.reverse.map (TellPhase.mk .scatter)) K r := by
  induction h with
  | top S => simpa using hmid
  | @level g gs S T hg hmem hclosed _ ih =>
    intro K r hr
    obtain ⟨h, hmemh, hhead, -, hfirst⟩ := hg.exists_first (hmem r hr)
    have hrest := ih hmid (TellPhase.after ⟨.gather, g⟩ K) h ⟨hclosed r hr h hmemh, hfirst⟩
    rw [List.map_cons, List.reverse_cons, List.map_append, List.cons_append, List.cons_append,
      ← List.append_assoc, List.map_singleton, afterPhases, afterPhases_append]
    refine (allOf_gather hg hmem hclosed K).trans (hrest.trans fun a ha => ?_)
    rw [afterPhases, afterPhases, TellPhase.after, if_pos (hmem r hr)]
    exact Or.inr ⟨h, hhead, ha⟩

/-- One rank at the top shares what it has got without more ado. -/
theorem allOf_subsingleton {T : Set ℕ} (h : T.Subsingleton) (K : ℕ → Set A) {r : ℕ} (hr : r ∈ T) :
    allOf T K ⊆ K r := by
  rintro a ⟨q, hq, ha⟩
  rwa [h hr hq]

/-- Ranks at the top that are in one group share what they have got by an exchange. -/
theorem allOf_exchange {g : ℕ → List ℕ} {T : Set ℕ} (hmem : ∀ r ∈ T, ∀ q ∈ T, q ∈ g r)
    (K : ℕ → Set A) {r : ℕ} (hr : r ∈ T) : allOf T K ⊆ TellPhase.after ⟨.exchange, g⟩ K r := by
  rw [TellPhase.after, if_pos (hmem r hr r hr)]
  rintro a ⟨q, hq, ha⟩
  exact ⟨q, hmem r hr q hq, ha⟩

end Kucg.Lib
