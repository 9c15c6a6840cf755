import Mathlib.Data.List.TakeWhile
import Mathlib.Tactic

/-! Numbers in a text, as the formatted input of C reads them.

    A number is white space, one sign at most, and digits (`number`). What is read depends on the
    front of the text alone: a character that cannot stand in a number ends it (`number_append`),
    and the characters that were read are all of that kind (`number_used`). So a scanner that jumps
    over each number it reads finds the same numbers as one that tries every position
    (`occurrences_append`).

    What a number becomes in an object of a type that cannot hold it is not laid down. `Conversion`
    leaves it open and has the rest: a number that fits is kept. -/

namespace Kucg.Scanf

/-! ### Conversions -/

/-- How a number is stored in an object with values from `lo` to `hi`. -/
structure Conversion (lo hi : ℤ) where
  store : ℤ → ℤ
  fits : ∀ z, lo ≤ store z ∧ store z ≤ hi
  keeps : ∀ z, lo ≤ z → z ≤ hi → store z = z

/-- Only what fits is kept. -/
theorem Conversion.store_eq_iff {lo hi : ℤ} (conv : Conversion lo hi) (z : ℤ) :
    conv.store z = z ↔ lo ≤ z ∧ z ≤ hi := by
  constructor
  · intro h
    rw [← h]
    exact conv.fits z
  · rintro ⟨hlo, hhi⟩
    exact conv.keeps z hlo hhi

/-! ### Numbers -/

/-- The white space of the C locale. -/
def isSpace (c : Char) : Bool :=
  c == ' ' || c == '\t' || c == '\n' || c == '\x0b' || c == '\x0c' || c == '\r'

/-- A sign, if there is one: whether it is a minus, and the text behind it. -/
def sign : List Char → Bool × List Char
  | '-' :: text => (true, text)
  | '+' :: text => (false, text)
  | text => (false, text)

/-- The value of decimal digits. -/
def numeral (digits : List Char) : ℕ := digits.foldl (fun n c => 10 * n + (c.toNat - '0'.toNat)) 0

/-- The number at the front of a text, and the text behind it. -/
def number (text : List Char) : Option (ℤ × List Char) :=
  let signed := sign (text.dropWhile isSpace)
  let digits := signed.2.takeWhile Char.isDigit
  if digits = [] then none
  else some (if signed.1 then -(numeral digits : ℤ) else numeral digits,
    signed.2.dropWhile Char.isDigit)

/-- A character of a number, or of the white space before it. -/
def inNumber (c : Char) : Bool := isSpace c || c == '+' || c == '-' || c.isDigit

/-- The text is at its end, or goes on with a character that no number has. -/
def Stops (text : List Char) : Prop := ∀ c rest, text = c :: rest → inNumber c = false

theorem stops_nil : Stops [] := by
  intro c rest h
  simp at h

theorem stops_cons {c : Char} (text : List Char) (h : inNumber c = false) : Stops (c :: text) := by
  rintro c' rest heq
  obtain ⟨rfl, -⟩ := List.cons.inj heq
  exact h

/-- Behind a text the front of another one is skipped only where the first is used up. -/
theorem dropWhile_append_of {p : Char → Bool} {tail : List Char}
    (h : ∀ c rest, tail = c :: rest → p c = false) :
    ∀ text : List Char, (text ++ tail).dropWhile p = text.dropWhile p ++ tail
  | [] => by
    cases tail with
    | nil => rfl
    | cons c rest => simp [h c rest rfl]
  | c :: text => by
    rw [List.cons_append, List.dropWhile_cons, List.dropWhile_cons]
    split
    · exact dropWhile_append_of h text
    · rfl

theorem takeWhile_append_of {p : Char → Bool} {tail : List Char}
    (h : ∀ c rest, tail = c :: rest → p c = false) :
    ∀ text : List Char, (text ++ tail).takeWhile p = text.takeWhile p
  | [] => by
    cases tail with
    | nil => rfl
    | cons c rest => simp [h c rest rfl]
  | c :: text => by
    rw [List.cons_append, List.takeWhile_cons, List.takeWhile_cons]
    split
    · rw [takeWhile_append_of h text]
    · rfl

theorem Stops.not_space {tail : List Char} (h : Stops tail) :
    ∀ c rest, tail = c :: rest → isSpace c = false := by
  intro c rest heq
  have := h c rest heq
  simp only [inNumber, Bool.or_eq_false_iff] at this
  exact this.1.1.1

theorem Stops.not_digit {tail : List Char} (h : Stops tail) :
    ∀ c rest, tail = c :: rest → c.isDigit = false := by
  intro c rest heq
  have := h c rest heq
  simp only [inNumber, Bool.or_eq_false_iff] at this
  exact this.2

theorem sign_append {tail : List Char} (h : Stops tail) (text : List Char) :
    sign (text ++ tail) = ((sign text).1, (sign text).2 ++ tail) := by
  cases text with
  | cons c text => by_cases hm : c = '-' <;> by_cases hp : c = '+' <;> simp_all [sign]
  | nil =>
    cases tail with
    | nil => rfl
    | cons c rest =>
      have hc := h c rest rfl
      have hm : c ≠ '-' := by rintro rfl; simp [inNumber] at hc
      have hp : c ≠ '+' := by rintro rfl; simp [inNumber] at hc
      simp [sign, hm, hp]

/-- What is read does not depend on what stands behind a character that ends it. -/
theorem number_append {tail : List Char} (h : Stops tail) (text : List Char) :
    number (text ++ tail) = (number text).map fun r => (r.1, r.2 ++ tail) := by
  simp only [number, dropWhile_append_of h.not_space, sign_append h,
    takeWhile_append_of h.not_digit, dropWhile_append_of h.not_digit]
  split <;> rfl

theorem sign_used (text : List Char) :
    ∃ used, text = used ++ (sign text).2 ∧ ∀ c ∈ used, inNumber c = true := by
  cases text with
  | nil => exact ⟨[], rfl, by simp⟩
  | cons c text =>
    by_cases hm : c = '-'
    · subst hm
      exact ⟨['-'], rfl, by simp [inNumber]⟩
    by_cases hp : c = '+'
    · subst hp
      exact ⟨['+'], rfl, by simp [inNumber]⟩
    · exact ⟨[], by simp [sign, hm, hp], by simp⟩

/-- The characters read are those of a number. -/
theorem number_used {text rest : List Char} {z : ℤ} (h : number text = some (z, rest)) :
    ∃ used, text = used ++ rest ∧ ∀ c ∈ used, inNumber c = true := by
  simp only [number] at h
  split at h
  · simp at h
  simp only [Option.some.injEq, Prod.mk.injEq] at h
  obtain ⟨-, rfl⟩ := h
  obtain ⟨signs, hsigns, hmem⟩ := sign_used (text.dropWhile isSpace)
  set signed := (sign (text.dropWhile isSpace)).2
  refine ⟨text.takeWhile isSpace ++ (signs ++ signed.takeWhile Char.isDigit), ?_, ?_⟩
  · rw [List.append_assoc, List.append_assoc, List.takeWhile_append_dropWhile, ← hsigns,
      List.takeWhile_append_dropWhile]
  · intro c hc
    simp only [List.mem_append] at hc
    rcases hc with hspace | hsign | hdigit
    · simp [inNumber, List.mem_takeWhile_imp hspace]
    · exact hmem c hsign
    · simp [inNumber, List.mem_takeWhile_imp hdigit]

theorem number_length {text rest : List Char} {z : ℤ} (h : number text = some (z, rest)) :
    rest.length ≤ text.length := by
  obtain ⟨used, rfl, -⟩ := number_used h
  simp

/-! ### Every position -/

section Occurrences

variable {β : Type*} (read : List Char → Option β)

/-- What can be read at the positions of a text, in order. -/
def occurrences : List Char → List β
  | [] => []
  | c :: rest => (read (c :: rest)).toList ++ occurrences rest

/-- Nothing is found in characters at which nothing starts. -/
theorem occurrences_append (rest : List Char) :
    ∀ used : List Char, (∀ c ∈ used, ∀ text, read (c :: text) = none) →
      occurrences read (used ++ rest) = occurrences read rest
  | [], _ => rfl
  | c :: used, h => by
    rw [List.cons_append, occurrences, h c (by simp) _,
      occurrences_append rest used fun c' hc' => h c' (by simp [hc'])]
    rfl

end Occurrences

end Kucg.Scanf
