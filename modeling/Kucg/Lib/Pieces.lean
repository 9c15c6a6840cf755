import Mathlib.Tactic

/-! Pieces of a range, one behind the other.

    A piece is an offset and a length. Pieces that begin where the piece before ends tile the range
    of all their lengths (`tiles_pieces`). If the offset is kept in a word, it wraps; the pieces
    stay in order only if it never does (`lt_of_apart`). -/

namespace Kucg.Lib

/-- Pieces of the given lengths from `a` on. -/
def pieces : ℕ → List ℕ → List (ℕ × ℕ)
  | _, [] => []
  | a, l :: ls => (a, l) :: pieces (a + l) ls

/-- The same if the offset is less than `w` and wraps. -/
def wrapPieces (w : ℕ) : ℕ → List ℕ → List (ℕ × ℕ)
  | _, [] => []
  | a, l :: ls => (a, l) :: wrapPieces w ((a + l) % w) ls

/-- One piece ends before another one begins. -/
abbrev EndsBefore (p q : ℕ × ℕ) : Prop := p.1 + p.2 ≤ q.1

/-- The pieces are in order and cover exactly `[a, b)`. -/
structure Tiles (a b : ℕ) (ps : List (ℕ × ℕ)) : Prop where
  apart : ps.Pairwise EndsBefore
  cover : ∀ x, (∃ p ∈ ps, p.1 ≤ x ∧ x < p.1 + p.2) ↔ a ≤ x ∧ x < b

variable {a b c w : ℕ} {ls : List ℕ} {ps : List (ℕ × ℕ)}

theorem Tiles.nil : Tiles a a [] where
  apart := .nil
  cover x := by
    simp only [List.not_mem_nil, false_and, exists_false, false_iff]
    omega

theorem Tiles.cons {l : ℕ} (hab : a + l ≤ b) (h : Tiles (a + l) b ps)
    (hge : ∀ p ∈ ps, a + l ≤ p.1) :
    Tiles a b ((a, l) :: ps) where
  apart := List.pairwise_cons.mpr ⟨hge, h.apart⟩
  cover x := by
    simp only [List.exists_mem_cons_iff, h.cover]
    omega

/-- No range but one is covered. -/
theorem Tiles.end_eq (h : Tiles a b ps) (h' : Tiles a c ps) (hb : a ≤ b) (hc : a ≤ c) : b = c := by
  rcases lt_trichotomy b c with hlt | heq | hlt
  · have hx := (h.cover b).symm.trans (h'.cover b)
    omega
  · exact heq
  · have hx := (h.cover c).symm.trans (h'.cover c)
    omega

theorem le_of_mem_pieces : ∀ {ls : List ℕ} {a : ℕ}, ∀ p ∈ pieces a ls, a ≤ p.1
  | [], _, _, hp => absurd hp List.not_mem_nil
  | l :: ls, a, p, hp => by
    rcases List.mem_cons.mp hp with rfl | hp
    · exact le_rfl
    · have := le_of_mem_pieces p hp
      omega

theorem tiles_pieces : ∀ (ls : List ℕ) (a : ℕ), Tiles a (a + ls.sum) (pieces a ls)
  | [], _ => .nil
  | l :: ls, a => by
    have ih := tiles_pieces ls (a + l)
    rw [List.sum_cons, ← Nat.add_assoc]
    exact .cons (by omega) ih fun p hp => le_of_mem_pieces p hp

@[simp] theorem length_wrapPieces : ∀ (ls : List ℕ) (a : ℕ), (wrapPieces w a ls).length = ls.length
  | [], _ => rfl
  | _ :: ls, _ => by rw [wrapPieces, List.length_cons, length_wrapPieces ls, List.length_cons]

/-- The offset does not wrap before the last piece. -/
theorem wrapPieces_eq : ∀ {ls : List ℕ} {a last : ℕ}, a + ls.sum < w →
    wrapPieces w a (ls ++ [last]) = pieces a (ls ++ [last])
  | [], _, _, _ => rfl
  | l :: ls, a, last, h => by
    rw [List.sum_cons, ← Nat.add_assoc] at h
    rw [List.cons_append, wrapPieces, pieces, Nat.mod_eq_of_lt (by omega), wrapPieces_eq h]

/-- If the pieces are in order, it has not wrapped. -/
theorem lt_of_apart : ∀ {ls : List ℕ} {a last : ℕ}, a < w →
    (wrapPieces w a (ls ++ [last])).Pairwise EndsBefore → a + ls.sum < w
  | [], _, _, ha, _ => ha
  | l :: ls, a, last, ha, h => by
    rw [List.cons_append, wrapPieces, List.pairwise_cons] at h
    have hmem : ∃ p ∈ wrapPieces w ((a + l) % w) (ls ++ [last]), p.1 = (a + l) % w := by
      cases ls <;> exact ⟨_, List.mem_cons_self, rfl⟩
    obtain ⟨p, hp, hoff⟩ := hmem
    have hle : a + l ≤ (a + l) % w := hoff ▸ h.1 p hp
    have hlt : (a + l) % w < w := Nat.mod_lt _ (by omega)
    have hmod : (a + l) % w = a + l := le_antisymm (Nat.mod_le ..) hle
    rw [List.sum_cons, ← Nat.add_assoc]
    rw [hmod] at hlt h
    exact lt_of_apart hlt h.2

end Kucg.Lib
