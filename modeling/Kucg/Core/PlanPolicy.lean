import Kucg.Core.PlanContainer
import Kucg.Lib.Scanf

/-! Policies from a description: `ucg_plan_policy_create`.

    A description is a text of items `I:<id>`, each with scores `S:<n>` and ranges `R:<m>-<n>`
    behind its id; every other character is skipped. Two scanners go over it: one counts the places
    with an `I:`, the other one reads an item from each of them, up to the next `I`. The result is
    an array that ends at the first entry with id -1.

    What was given is said without a scanner: the text of an item goes up to the next `I:`, and its
    score and its range are the last ones that stand anywhere in it (`given`). The item scanner
    jumps over the numbers it reads, which hides nothing, since no number has an `S`, an `R` or an
    `I` in it (`descLoop_spec`). What it does miss stands behind an `I` without a colon. -/

namespace Kucg.Core
open Kucg.Scanf

/-! ### The model -/

/-- `UCG_PLAN_SCORE_MAX`. -/
def scoreMax : ℕ := 2 ^ 32 - 1

/-- `UCG_PLAN_RANGE_MAX`. -/
def rangeMax : ℕ := 2 ^ 64 - 1

/-- `UCG_PLAN_INVALID_POLICY_ID`. -/
def invalidPolicyId : ℤ := -1

/-- `ucg_plan_policy_t`. -/
structure Policy where
  id : ℤ
  range : Range
  score : ℕ
  deriving DecidableEq, Repr

/-- `UCG_PLAN_POLICY_IS_LAST`. -/
def Policy.isLast (policy : Policy) : Bool := policy.id == invalidPolicyId

/-- `invalid_policy`. -/
def invalidPolicy : Policy := ⟨invalidPolicyId, ⟨0, 0⟩, 0⟩

/-- What the C library does with `%d`, `%u` and `%lu`. -/
structure Libc where
  int : Conversion (-2 ^ 31) (2 ^ 31 - 1)
  uint : Conversion 0 (2 ^ 32 - 1)
  ulong : Conversion 0 (2 ^ 64 - 1)

/-- `sscanf` with `I:%d%n`: the number, and the text from `skip` on. -/
def scanId : List Char → Option (ℤ × List Char)
  | 'I' :: ':' :: text => number text
  | _ => none

/-- `sscanf` with `S:%u%n`. -/
def scanScore : List Char → Option (ℤ × List Char)
  | 'S' :: ':' :: text => number text
  | _ => none

/-- The second half of `R:%lu-%lu%n`. -/
def scanStop : List Char → Option (ℤ × List Char)
  | '-' :: text => number text
  | _ => none

/-- `sscanf` with `R:%lu-%lu%n`. One number is read where there is a start only; `skip` is not set
    then. -/
def scanRange : List Char → Option (ℤ × Option (ℤ × List Char))
  | 'R' :: ':' :: text => (number text).map fun r => (r.1, scanStop r.2)
  | _ => none

theorem scanScore_length {text rest : List Char} {s : ℤ} (h : scanScore text = some (s, rest)) :
    rest.length < text.length := by
  unfold scanScore at h
  split at h
  · have := number_length h
    simp only [List.length_cons]
    omega
  · simp at h

theorem scanStop_length {text rest : List Char} {s : ℤ} (h : scanStop text = some (s, rest)) :
    rest.length < text.length := by
  unfold scanStop at h
  split at h
  · have := number_length h
    simp only [List.length_cons]
    omega
  · simp at h

theorem scanRange_length {text rest : List Char} {start stop : ℤ}
    (h : scanRange text = some (start, some (stop, rest))) : rest.length < text.length := by
  unfold scanRange at h
  split at h
  · simp only [Option.map_eq_some_iff, Prod.mk.injEq] at h
    obtain ⟨⟨z, mid⟩, hz, -, hmid⟩ := h
    have h₁ : mid.length ≤ _ := number_length hz
    have h₂ : rest.length < mid.length := scanStop_length hmid
    simp only [List.length_cons]
    omega
  · simp at h

/-- `ucg_plan_desc_to_policy`, the loop over the attributes of an item. -/
def descLoop (libc : Libc) (text : List Char) (range : Range) (score : ℕ) :
    Except Status (Range × ℕ) :=
  match text with
  | [] => .ok (range, score)
  | c :: rest =>
    if c = 'I' then .ok (range, score)
    else if c = 'S' then
      match _h : scanScore (c :: rest) with
      | none => .error .errInvalidParam
      | some (s, rest') => descLoop libc rest' range (libc.uint.store s).toNat
    else if c = 'R' then
      match _h : scanRange (c :: rest) with
      | none => .error .errInvalidParam
      | some (start, none) => descLoop libc rest ⟨(libc.ulong.store start).toNat, rangeMax⟩ score
      | some (start, some (stop, rest')) =>
        if (libc.ulong.store start).toNat ≥ (libc.ulong.store stop).toNat then
          .error .errInvalidParam
        else
          descLoop libc rest'
            ⟨(libc.ulong.store start).toNat, (libc.ulong.store stop).toNat⟩ score
    else descLoop libc rest range score
termination_by text.length
decreasing_by
  · exact scanScore_length _h
  · simp
  · exact scanRange_length _h
  · simp

/-- `ucg_plan_desc_to_policy`. -/
def descToPolicy (libc : Libc) (desc : List Char) : Except Status Policy :=
  match scanId desc with
  | none => .error .errInvalidParam
  | some (id, rest) =>
    (descLoop libc rest ⟨0, rangeMax⟩ scoreMax).map fun r => ⟨libc.int.store id, r.1, r.2⟩

/-- `ucg_plan_is_valid_policy_desc`. -/
def isValidPolicyDesc : List Char → Bool
  | c :: c' :: _ => c == 'I' && c' == ':'
  | _ => false

/-- `ucg_plan_get_num_policy`. -/
def getNumPolicy : List Char → ℕ
  | [] => 0
  | c :: rest => (if isValidPolicyDesc (c :: rest) then 1 else 0) + getNumPolicy rest

/-- The loop of `ucg_plan_policy_create` that fills the array. -/
def fillPolicies (libc : Libc) : List Char → Except Status (List Policy)
  | [] => .ok []
  | c :: rest =>
    if isValidPolicyDesc (c :: rest) then
      match descToPolicy libc (c :: rest) with
      | .error status => .error status
      | .ok policy => (fillPolicies libc rest).map (policy :: ·)
    else fillPolicies libc rest

/-- `ucg_plan_policy_create`: the status, and the array where `*policy` is set. `malloc` says
    whether there is memory. -/
def policyCreate (libc : Libc) (malloc : Bool) (desc : Option (List Char)) :
    Status × Option (List Policy) :=
  if getNumPolicy (desc.getD []) = 0 then (.ok, some [invalidPolicy])
  else if malloc = false then (.errNoMemory, none)
  else
    match fillPolicies libc (desc.getD []) with
    | .error status => (status, some [invalidPolicy])
    | .ok policies => (.ok, some (policies ++ [invalidPolicy]))

/-- The entries that a loop up to `UCG_PLAN_POLICY_IS_LAST` visits. -/
def visited (policies : List Policy) : List Policy := policies.takeWhile fun p => !p.isLast

/-! ### What was given -/

/-- The score at the front of a text. -/
def scoreAt (text : List Char) : Option ℤ := (scanScore text).map (·.1)

/-- The range at the front of a text: the start, and the end unless the range is open. -/
def rangeAt (text : List Char) : Option (ℤ × Option ℤ) :=
  (scanRange text).map fun r => (r.1, r.2.map (·.1))

/-- The scores anywhere in a text. -/
def scores (text : List Char) : List ℤ := occurrences scoreAt text

/-- The ranges anywhere in a text. -/
def ranges (text : List Char) : List (ℤ × Option ℤ) := occurrences rangeAt text

/-- The id of an item, and its score and range. -/
structure Given where
  id : ℤ
  score : ℤ
  range : ℤ × Option ℤ
  deriving DecidableEq, Repr

/-- What the text behind an `I:` gives: the last score and the last range of it count. By default
    the score is the greatest one and the range is open from 0. -/
def given (item : List Char) : Option Given :=
  (number item).map fun r =>
    ⟨r.1, (scores r.2).getLastD scoreMax, (ranges r.2).getLastD (0, none)⟩

/-- The text up to the next `I:`. -/
def itemText : List Char → List Char
  | [] => []
  | c :: rest => if isValidPolicyDesc (c :: rest) then [] else c :: itemText rest

/-- The items of a description, each without its `I:`. -/
def items : List Char → List (List Char)
  | [] => []
  | c :: rest =>
    if isValidPolicyDesc (c :: rest) then itemText (rest.drop 1) :: items rest else items rest

/-- A range has the ends that were given; an open one ends at the greatest message size. -/
def Range.Is (range : Range) (r : ℤ × Option ℤ) : Prop :=
  (range.start : ℤ) = r.1 ∧ (range.stop : ℤ) = r.2.getD rangeMax

/-- An entry has the id, the score and the range that were given, and the range is not empty. -/
def Policy.Matches (policy : Policy) (item : List Char) : Prop :=
  ∃ g, given item = some g ∧ policy.id = g.id ∧ (policy.score : ℤ) = g.score ∧
    policy.range.Is g.range ∧ policy.range.start < policy.range.stop

/-- The visited entries are the items, in order. -/
def Parsed (desc : List Char) (policies : List Policy) : Prop :=
  List.Forall₂ Policy.Matches (visited policies) (items desc)

/-! ### The item scanner -/

theorem descLoop_score {libc : Libc} {rest rest' : List Char} {s : ℤ}
    (h : scanScore ('S' :: rest) = some (s, rest')) (range : Range) (score : ℕ) :
    descLoop libc ('S' :: rest) range score =
      descLoop libc rest' range (libc.uint.store s).toNat := by
  rw [descLoop, if_neg (by decide), if_pos rfl]
  split <;> simp_all

theorem descLoop_open {libc : Libc} {rest : List Char} {start : ℤ}
    (h : scanRange ('R' :: rest) = some (start, none)) (range : Range) (score : ℕ) :
    descLoop libc ('R' :: rest) range score =
      descLoop libc rest ⟨(libc.ulong.store start).toNat, rangeMax⟩ score := by
  rw [descLoop, if_neg (by decide), if_neg (by decide), if_pos rfl]
  split <;> simp_all

/-- What the item scanner sees of a text: everything before an `I`. -/
def plain (text : List Char) : List Char := text.takeWhile fun c => c != 'I'

/-- The text is at its end, or goes on with an `I`. -/
def AtI (text : List Char) : Prop := ∀ c rest, text = c :: rest → c = 'I'

theorem AtI.stops {tail : List Char} (h : AtI tail) : Stops tail := by
  intro c rest heq
  obtain rfl := h c rest heq
  decide

theorem plain_append {tail : List Char} (h : AtI tail) (text : List Char) :
    plain (text ++ tail) = plain text := by
  refine takeWhile_append_of (fun c rest heq => ?_) text
  simp [h c rest heq]

theorem plain_cons {c : Char} (hc : c ≠ 'I') (text : List Char) :
    plain (c :: text) = c :: plain text := by
  simp [plain, hc]

theorem exists_plain (text : List Char) : ∃ tail, text = plain text ++ tail ∧ AtI tail := by
  refine ⟨text.dropWhile fun c => c != 'I', List.takeWhile_append_dropWhile.symm, ?_⟩
  intro c rest heq
  have := List.head?_dropWhile_not (fun c => c != 'I') text
  rw [heq] at this
  simpa using this

/-- The characters of an attribute behind its letter. -/
def filler (c : Char) : Bool := inNumber c || c == ':'

theorem filler_ne {c : Char} (h : filler c = true) : c ≠ 'S' ∧ c ≠ 'R' ∧ c ≠ 'I' := by
  refine ⟨?_, ?_, ?_⟩ <;> rintro rfl <;> exact absurd h (by decide)

theorem scoreAt_of_ne {c : Char} (hc : c ≠ 'S') (text : List Char) :
    scoreAt (c :: text) = none := by
  simp [scoreAt, scanScore, hc]

theorem rangeAt_of_ne {c : Char} (hc : c ≠ 'R') (text : List Char) :
    rangeAt (c :: text) = none := by
  simp [rangeAt, scanRange, hc]

theorem scores_skip {used : List Char} (h : ∀ c ∈ used, filler c = true) (rest : List Char) :
    scores (used ++ rest) = scores rest :=
  occurrences_append scoreAt rest used fun c hc => scoreAt_of_ne (filler_ne (h c hc)).1

theorem ranges_skip {used : List Char} (h : ∀ c ∈ used, filler c = true) (rest : List Char) :
    ranges (used ++ rest) = ranges rest :=
  occurrences_append rangeAt rest used fun c hc => rangeAt_of_ne (filler_ne (h c hc)).2.1

theorem plain_skip {used : List Char} (h : ∀ c ∈ used, filler c = true) (rest : List Char) :
    plain (used ++ rest) = used ++ plain rest := by
  refine List.takeWhile_append_of_pos fun c hc => ?_
  simpa using (filler_ne (h c hc)).2.2

theorem filler_of_number {used : List Char} (h : ∀ c ∈ used, inNumber c = true) :
    ∀ c ∈ used, filler c = true := by
  intro c hc
  simp [filler, h c hc]

theorem scanScore_used {text rest : List Char} {s : ℤ} (h : scanScore text = some (s, rest)) :
    ∃ used, text = 'S' :: (used ++ rest) ∧ ∀ c ∈ used, filler c = true := by
  unfold scanScore at h
  split at h
  · obtain ⟨used, rfl, hused⟩ := number_used h
    refine ⟨':' :: used, rfl, ?_⟩
    simp only [List.mem_cons, forall_eq_or_imp]
    exact ⟨by decide, filler_of_number hused⟩
  · simp at h

theorem scanRange_used {text rest : List Char} {start stop : ℤ}
    (h : scanRange text = some (start, some (stop, rest))) :
    ∃ used, text = 'R' :: (used ++ rest) ∧ ∀ c ∈ used, filler c = true := by
  unfold scanRange at h
  split at h
  · simp only [Option.map_eq_some_iff, Prod.mk.injEq] at h
    obtain ⟨⟨z, mid⟩, hz, -, hmid⟩ := h
    obtain ⟨used, rfl, hused⟩ := number_used hz
    dsimp only at hmid
    unfold scanStop at hmid
    split at hmid
    · obtain ⟨used', rfl, hused'⟩ := number_used hmid
      refine ⟨':' :: (used ++ '-' :: used'), by simp, ?_⟩
      simp only [List.mem_cons, List.mem_append, forall_eq_or_imp]
      refine ⟨by decide, ?_⟩
      rintro c (hc | rfl | hc)
      · exact filler_of_number hused c hc
      · decide
      · exact filler_of_number hused' c hc
    · simp at hmid
  · simp at h

/-- What can be read at a position does not depend on what stands behind an `I`. -/
theorem scoreAt_append {tail : List Char} (h : AtI tail) (text : List Char) :
    scoreAt (text ++ tail) = scoreAt text := by
  match text with
  | [] =>
    cases tail with
    | nil => rfl
    | cons c rest => exact scoreAt_of_ne (by rw [h c rest rfl]; decide) rest
  | [c] =>
    cases tail with
    | nil => rfl
    | cons c' rest =>
      obtain rfl := h c' rest rfl
      simp [scoreAt, scanScore]
  | c :: c' :: text =>
    by_cases hc : c = 'S' ∧ c' = ':'
    · obtain ⟨rfl, rfl⟩ := hc
      simp only [scoreAt, scanScore, List.cons_append, number_append h.stops, Option.map_map]
      rfl
    · simp_all [scoreAt, scanScore]

theorem scanStop_append {tail : List Char} (h : AtI tail) (text : List Char) :
    (scanStop (text ++ tail)).map (·.1) = (scanStop text).map (·.1) := by
  cases text with
  | nil =>
    cases tail with
    | nil => rfl
    | cons c rest =>
      obtain rfl := h c rest rfl
      rfl
  | cons c text =>
    by_cases hc : c = '-'
    · subst hc
      simp only [scanStop, List.cons_append, number_append h.stops, Option.map_map]
      rfl
    · simp [scanStop, hc]

theorem rangeAt_append {tail : List Char} (h : AtI tail) (text : List Char) :
    rangeAt (text ++ tail) = rangeAt text := by
  match text with
  | [] =>
    cases tail with
    | nil => rfl
    | cons c rest => exact rangeAt_of_ne (by rw [h c rest rfl]; decide) rest
  | [c] =>
    cases tail with
    | nil => rfl
    | cons c' rest =>
      obtain rfl := h c' rest rfl
      simp [rangeAt, scanRange]
  | c :: c' :: text =>
    by_cases hc : c = 'R' ∧ c' = ':'
    · obtain ⟨rfl, rfl⟩ := hc
      simp only [rangeAt, scanRange, List.cons_append, number_append h.stops, Option.map_map]
      refine congrArg₂ Option.map (funext fun r => ?_) rfl
      simp [scanStop_append h]
    · simp_all [rangeAt, scanRange]

theorem scoreAt_plain (text : List Char) : scoreAt (plain text) = scoreAt text := by
  obtain ⟨tail, htext, htail⟩ := exists_plain text
  conv_rhs => rw [htext]
  exact (scoreAt_append htail _).symm

theorem rangeAt_plain (text : List Char) : rangeAt (plain text) = rangeAt text := by
  obtain ⟨tail, htext, htail⟩ := exists_plain text
  conv_rhs => rw [htext]
  exact (rangeAt_append htail _).symm

theorem scores_plain_cons {c : Char} (hc : c ≠ 'I') (rest : List Char) :
    scores (plain (c :: rest)) = (scoreAt (c :: rest)).toList ++ scores (plain rest) := by
  rw [← scoreAt_plain (c :: rest), plain_cons hc]
  rfl

theorem ranges_plain_cons {c : Char} (hc : c ≠ 'I') (rest : List Char) :
    ranges (plain (c :: rest)) = (rangeAt (c :: rest)).toList ++ ranges (plain rest) := by
  rw [← rangeAt_plain (c :: rest), plain_cons hc]
  rfl

theorem plain_attribute {used : List Char} (h : ∀ c ∈ used, filler c = true) (rest : List Char) :
    scores (plain (used ++ rest)) = scores (plain rest) ∧
      ranges (plain (used ++ rest)) = ranges (plain rest) := by
  rw [plain_skip h]
  exact ⟨scores_skip h _, ranges_skip h _⟩

/-- How a range is stored. -/
def Libc.storeRange (libc : Libc) (r : ℤ × Option ℤ) : Range :=
  ⟨(libc.ulong.store r.1).toNat, (r.2.map fun e => (libc.ulong.store e).toNat).getD rangeMax⟩

/-- How a score is stored. -/
def Libc.storeScore (libc : Libc) (s : ℤ) : ℕ := (libc.uint.store s).toNat

/-- The loop keeps the last score and the last range before an `I`, and has compared the two ends of
    every range that has both. -/
theorem descLoop_spec (libc : Libc) (text : List Char) (range range' : Range) (score score' : ℕ)
    (h : descLoop libc text range score = .ok (range', score')) :
    range' = ((ranges (plain text)).map libc.storeRange).getLastD range ∧
      score' = ((scores (plain text)).map libc.storeScore).getLastD score ∧
      ∀ r ∈ ranges (plain text), r.2.isSome →
        (libc.storeRange r).start < (libc.storeRange r).stop := by
  fun_induction descLoop libc text range score with
  | case1 range score =>
    simp only [Except.ok.injEq, Prod.mk.injEq] at h
    obtain ⟨rfl, rfl⟩ := h
    exact ⟨rfl, rfl, by simp [plain, ranges, occurrences]⟩
  | case2 range score rest =>
    -- an `I` ends the item
    simp only [Except.ok.injEq, Prod.mk.injEq] at h
    obtain ⟨rfl, rfl⟩ := h
    exact ⟨rfl, rfl, by simp [plain, ranges, occurrences]⟩
  | case3 => simp at h
  | case4 range score rest s rest' hI hscan ih =>
    -- a score, which is stored at once
    obtain ⟨hrange, hscore, hends⟩ := ih h
    obtain ⟨used, htext, hused⟩ := scanScore_used hscan
    obtain rfl := (List.cons.inj htext).2
    obtain ⟨hs, hr⟩ := plain_attribute hused rest'
    have hat : scoreAt ('S' :: (used ++ rest')) = some s := by simp [scoreAt, hscan]
    rw [scores_plain_cons hI, ranges_plain_cons hI, hat, rangeAt_of_ne (by decide), hs, hr]
    refine ⟨hrange, ?_, hends⟩
    rw [hscore, Option.toList_some, List.singleton_append, List.map_cons, List.getLastD_cons]
    rfl
  | case5 => simp at h
  | case6 range score rest start hI hS hscan ih =>
    -- an open range; the scanner goes on right behind the letter
    obtain ⟨hrange, hscore, hends⟩ := ih h
    have hat : rangeAt ('R' :: rest) = some (start, none) := by simp [rangeAt, hscan]
    rw [scores_plain_cons hI, ranges_plain_cons hI, hat, scoreAt_of_ne hS]
    refine ⟨?_, hscore, ?_⟩
    · rw [hrange, Option.toList_some, List.singleton_append, List.map_cons, List.getLastD_cons]
      rfl
    · intro r hr hsome
      rcases List.mem_append.mp hr with hr | hr
      · obtain rfl : r = (start, none) := by simpa using hr
        simp at hsome
      · exact hends r hr hsome
  | case7 => simp at h
  | case8 range score rest start stop rest' hlt hI hS hscan ih =>
    -- a range with two ends, in order
    obtain ⟨hrange, hscore, hends⟩ := ih h
    obtain ⟨used, htext, hused⟩ := scanRange_used hscan
    obtain rfl := (List.cons.inj htext).2
    obtain ⟨hs, hr⟩ := plain_attribute hused rest'
    have hat : rangeAt ('R' :: (used ++ rest')) = some (start, some stop) := by
      simp [rangeAt, hscan]
    rw [scores_plain_cons hI, ranges_plain_cons hI, hat, scoreAt_of_ne hS, hs, hr]
    refine ⟨?_, hscore, ?_⟩
    · rw [hrange, Option.toList_some, List.singleton_append, List.map_cons, List.getLastD_cons]
      rfl
    · intro r hr hsome
      rcases List.mem_append.mp hr with hr | hr
      · obtain rfl : r = (start, some stop) := by simpa using hr
        simp only [Libc.storeRange, Option.map_some, Option.getD_some]
        omega
      · exact hends r hr hsome
  | case9 range score c rest hI hS hR ih =>
    rw [scores_plain_cons hI, ranges_plain_cons hI, scoreAt_of_ne hS, rangeAt_of_ne hR]
    exact ih h

/-! ### From items to entries -/

/-- How the values of an item are stored. -/
def Libc.store (libc : Libc) (g : Given) : Policy :=
  ⟨libc.int.store g.id, libc.storeRange g.range, libc.storeScore g.score⟩

/-- The entry that the item scanner makes of an item: what is given before an `I`, stored. A range
    with two ends is not empty. -/
def Policy.From (libc : Libc) (policy : Policy) (item : List Char) : Prop :=
  ∃ g, given (plain item) = some g ∧ policy = libc.store g ∧
    (g.range.2.isSome → policy.range.start < policy.range.stop)

theorem storeScore_scoreMax (libc : Libc) : libc.storeScore scoreMax = scoreMax := by
  have : libc.uint.store scoreMax = scoreMax :=
    libc.uint.keeps _ (by norm_num) (by norm_num [scoreMax])
  simp [Libc.storeScore, this]

theorem storeRange_default (libc : Libc) : libc.storeRange (0, none) = ⟨0, rangeMax⟩ := by
  have : libc.ulong.store 0 = 0 := libc.ulong.keeps _ (by norm_num) (by norm_num)
  simp [Libc.storeRange, this]

theorem getLastD_map {α β : Type*} (f : α → β) (d : α) :
    ∀ l : List α, (l.map f).getLastD (f d) = f (l.getLastD d)
  | [] => rfl
  | x :: l => by
    rw [List.map_cons, List.getLastD_cons, List.getLastD_cons]
    exact getLastD_map f x l

theorem mem_of_getLastD {α : Type*} {d x : α} : ∀ {l : List α}, l.getLastD d = x → x = d ∨ x ∈ l
  | [], h => .inl h.symm
  | y :: l, h => by
    rw [List.getLastD_cons] at h
    rcases mem_of_getLastD h with rfl | hx
    · exact .inr (by simp)
    · exact .inr (by simp [hx])

/-- An item's text ends at the next `I:`. -/
theorem exists_itemText : ∀ text : List Char, ∃ tail, text = itemText text ++ tail ∧ AtI tail
  | [] => ⟨[], rfl, by simp [AtI]⟩
  | c :: rest => by
    rw [itemText]
    split
    · next h =>
      refine ⟨c :: rest, rfl, ?_⟩
      rintro c' rest' heq
      obtain ⟨rfl, rfl⟩ := List.cons.inj heq
      cases rest with
      | nil => simp [isValidPolicyDesc] at h
      | cons c'' rest =>
        simp only [isValidPolicyDesc, Bool.and_eq_true, beq_iff_eq] at h
        exact h.1
    · obtain ⟨tail, htext, htail⟩ := exists_itemText rest
      refine ⟨tail, ?_, htail⟩
      conv_lhs => rw [htext]
      rfl

/-- The id at the front of a text stands before an `I`. -/
theorem number_plain {text rest : List Char} {z : ℤ} (h : number text = some (z, rest)) :
    number (plain text) = some (z, plain rest) := by
  obtain ⟨tail, htext, htail⟩ := exists_plain text
  obtain ⟨used, rfl, hused⟩ := number_used h
  have hplain := plain_skip (filler_of_number hused) rest
  rw [htext, number_append htail.stops, Option.map_eq_some_iff] at h
  obtain ⟨⟨z', mid⟩, hz, heq⟩ := h
  simp only [Prod.mk.injEq] at heq
  obtain ⟨rfl, hmid⟩ := heq
  obtain ⟨used', hused', -⟩ := number_used hz
  have hmidplain : plain mid = mid := by
    refine List.takeWhile_eq_self_iff.mpr fun c hc => ?_
    refine List.mem_takeWhile_imp (p := fun c => c != 'I') (l := used ++ rest) ?_
    have : c ∈ plain (used ++ rest) := by rw [hused']; simp [hc]
    exact this
  rw [hz, ← hmid, plain_append htail, hmidplain]

theorem plain_itemText (text : List Char) : plain (itemText text) = plain text := by
  obtain ⟨tail, htext, htail⟩ := exists_itemText text
  conv_rhs => rw [htext]
  exact (plain_append htail _).symm

theorem isValidPolicyDesc_iff {desc : List Char} :
    isValidPolicyDesc desc = true ↔ ∃ text, desc = 'I' :: ':' :: text := by
  constructor
  · intro h
    match desc, h with
    | c :: c' :: text, h =>
      simp only [isValidPolicyDesc, Bool.and_eq_true, beq_iff_eq] at h
      obtain ⟨rfl, rfl⟩ := h
      exact ⟨text, rfl⟩
  · rintro ⟨text, rfl⟩
    rfl

theorem descToPolicy_spec (libc : Libc) (text : List Char) (policy : Policy)
    (h : descToPolicy libc ('I' :: ':' :: text) = .ok policy) :
      policy.From libc (itemText text) := by
  unfold descToPolicy at h
  split at h
  · simp at h
  next id rest hid =>
  cases hloop : descLoop libc rest ⟨0, rangeMax⟩ scoreMax with
  | error status => simp [hloop, Except.map] at h
  | ok r =>
    obtain ⟨range, score⟩ := r
    simp only [hloop, Except.map, Except.ok.injEq] at h
    subst h
    obtain ⟨rfl, rfl, hends⟩ := descLoop_spec libc rest _ range _ score hloop
    refine ⟨_, by rw [plain_itemText, given, number_plain hid]; rfl, ?_, fun hsome => ?_⟩
    · simp only [Libc.store]
      rw [← getLastD_map libc.storeScore, ← getLastD_map libc.storeRange, storeScore_scoreMax,
        storeRange_default]
    · dsimp only at hsome ⊢
      rw [← storeRange_default libc, getLastD_map]
      rcases mem_of_getLastD (l := ranges (plain rest)) (d := (0, none)) rfl with hdef | hmem
      · rw [hdef] at hsome
        simp at hsome
      · exact hends _ hmem hsome

/-- The array has an entry for every item, in order. -/
theorem fillPolicies_spec (libc : Libc) : ∀ (desc : List Char) (policies : List Policy),
    fillPolicies libc desc = .ok policies →
      List.Forall₂ (fun policy item => policy.From libc item) policies (items desc)
  | [], policies, h => by
    simp only [fillPolicies, Except.ok.injEq] at h
    subst h
    exact .nil
  | c :: rest, policies, h => by
    rw [fillPolicies] at h
    rw [items]
    split at h
    · next hvalid =>
      rw [if_pos hvalid]
      obtain ⟨text, htext⟩ := isValidPolicyDesc_iff.mp hvalid
      obtain ⟨rfl, rfl⟩ := List.cons.inj htext
      cases hdesc : descToPolicy libc ('I' :: ':' :: text) with
      | error status => simp [hdesc] at h
      | ok policy =>
        cases hfill : fillPolicies libc (':' :: text) with
        | error status => simp [hdesc, hfill, Except.map] at h
        | ok others =>
          simp only [hdesc, hfill, Except.map, Except.ok.injEq] at h
          subst h
          exact .cons (descToPolicy_spec libc text policy hdesc)
            (fillPolicies_spec libc (':' :: text) others hfill)
    · next hvalid =>
      rw [if_neg hvalid]
      exact fillPolicies_spec libc rest policies h

theorem descLoop_error (libc : Libc) (text : List Char) (range : Range) (score : ℕ)
    {status : Status} (h : descLoop libc text range score = .error status) :
    status = .errInvalidParam := by
  fun_induction descLoop libc text range score with
  | case1 => simp at h
  | case2 => simp at h
  | case3 => simpa using h.symm
  | case4 _ _ _ _ _ _ _ ih => exact ih h
  | case5 => simpa using h.symm
  | case6 _ _ _ _ _ _ _ ih => exact ih h
  | case7 => simpa using h.symm
  | case8 _ _ _ _ _ _ _ _ _ _ ih => exact ih h
  | case9 _ _ _ _ _ _ _ ih => exact ih h

theorem descToPolicy_error (libc : Libc) (desc : List Char) {status : Status}
    (h : descToPolicy libc desc = .error status) : status = .errInvalidParam := by
  unfold descToPolicy at h
  split at h
  · simpa using h.symm
  next id rest hid =>
  cases hloop : descLoop libc rest ⟨0, rangeMax⟩ scoreMax with
  | ok r => simp [hloop, Except.map] at h
  | error status' =>
    simp only [hloop, Except.map, Except.error.injEq] at h
    rw [← h]
    exact descLoop_error libc rest _ _ hloop

/-- The only error of a description is that an item cannot be read. -/
theorem fillPolicies_error (libc : Libc) : ∀ (desc : List Char) {status : Status},
    fillPolicies libc desc = .error status → status = .errInvalidParam
  | [], status, h => by simp [fillPolicies] at h
  | c :: rest, status, h => by
    rw [fillPolicies] at h
    split at h
    · cases hdesc : descToPolicy libc (c :: rest) with
      | error status' =>
        simp only [hdesc, Except.error.injEq] at h
        rw [← h]
        exact descToPolicy_error libc _ hdesc
      | ok policy =>
        cases hfill : fillPolicies libc rest with
        | ok others => simp [hdesc, hfill, Except.map] at h
        | error status' =>
          simp only [hdesc, hfill, Except.map, Except.error.injEq] at h
          rw [← h]
          exact fillPolicies_error libc rest hfill
    · exact fillPolicies_error libc rest h

/-- The two scanners count the same items, so the array has exactly the room that is needed. -/
theorem getNumPolicy_eq : ∀ desc : List Char, getNumPolicy desc = (items desc).length
  | [] => rfl
  | c :: rest => by
    rw [getNumPolicy, items, getNumPolicy_eq rest]
    split
    · rw [List.length_cons]
      omega
    · omega

theorem fillPolicies_length (libc : Libc) (desc : List Char) (policies : List Policy)
    (h : fillPolicies libc desc = .ok policies) : policies.length = getNumPolicy desc := by
  rw [getNumPolicy_eq]
  exact (fillPolicies_spec libc desc policies h).length_eq

/-! ### Which items survive -/

/-- An item that is not lost or changed: its id fits its type and does not end the array; the score
    and the range that stand before an `I` are stored as the last ones of the item; and the range
    starts below the greatest message size. -/
def Admissible (libc : Libc) (item : List Char) : Prop :=
  ∃ g g', given item = some g ∧ given (plain item) = some g' ∧
    (-2 ^ 31 ≤ g.id ∧ g.id ≤ 2 ^ 31 - 1) ∧ g.id ≠ invalidPolicyId ∧
    (libc.storeScore g'.score : ℤ) = g.score ∧ (libc.storeRange g'.range).Is g.range ∧
    g.range.1 < rangeMax

theorem storeRange_stop_le (libc : Libc) (r : ℤ × Option ℤ) :
    (libc.storeRange r).stop ≤ rangeMax := by
  rcases r with ⟨start, _ | stop⟩
  · simp [Libc.storeRange]
  · have := (libc.ulong.fits stop).2
    simp only [Libc.storeRange, Option.map_some, Option.getD_some, rangeMax]
    omega

theorem given_plain {item : List Char} {g g' : Given} (h : given item = some g)
    (h' : given (plain item) = some g') : g'.id = g.id := by
  simp only [given, Option.map_eq_some_iff] at h
  obtain ⟨⟨z, rest⟩, hz, rfl⟩ := h
  rw [given, number_plain hz] at h'
  simp only [Option.map_some, Option.some.injEq] at h'
  rw [← h']

theorem Policy.From.matches_iff {libc : Libc} {policy : Policy} {item : List Char}
    (h : policy.From libc item) :
    policy.Matches item ∧ policy.id ≠ invalidPolicyId ↔ Admissible libc item := by
  obtain ⟨g', hg', rfl, hends⟩ := h
  constructor
  · rintro ⟨⟨g, hg, hid, hscore, hrange, hlt⟩, hlast⟩
    have hids := given_plain hg hg'
    refine ⟨g, g', hg, hg', ?_, ?_, hscore, hrange, ?_⟩
    · rw [← hid]
      exact libc.int.fits _
    · rwa [← hid]
    · have hle := storeRange_stop_le libc g'.range
      have hstart : ((libc.storeRange g'.range).start : ℤ) = g.range.1 := hrange.1
      have hlt' : (libc.storeRange g'.range).start < (libc.storeRange g'.range).stop := hlt
      omega
  · rintro ⟨g, g'', hg, hg'', hfits, hlast, hscore, hrange, hstart⟩
    obtain rfl : g' = g'' := Option.some.inj (hg'.symm.trans hg'')
    have hid : (libc.store g').id = g.id := by
      change libc.int.store g'.id = g.id
      rw [given_plain hg hg']
      exact libc.int.keeps _ hfits.1 hfits.2
    refine ⟨⟨g, hg, hid, hscore, hrange, ?_⟩, by rwa [hid]⟩
    cases hsome : g'.range.2 with
    | some stop => exact hends (by rw [hsome]; rfl)
    | none =>
      have hst : ((libc.storeRange g'.range).start : ℤ) = g.range.1 := hrange.1
      have hstop : (libc.storeRange g'.range).stop = rangeMax := by simp [Libc.storeRange, hsome]
      change (libc.storeRange g'.range).start < (libc.storeRange g'.range).stop
      omega

theorem forall₂_matches_iff {libc : Libc} {policies : List Policy} {texts : List (List Char)}
    (h : List.Forall₂ (fun policy item => policy.From libc item) policies texts) :
    (List.Forall₂ Policy.Matches policies texts ∧ ∀ p ∈ policies, p.id ≠ invalidPolicyId) ↔
      ∀ item ∈ texts, Admissible libc item := by
  induction h with
  | nil => simp
  | @cons policy item policies texts hfrom _ ih =>
    rw [List.forall₂_cons, List.forall_mem_cons, List.forall_mem_cons, ← ih, ← hfrom.matches_iff]
    tauto

theorem visited_append (policies : List Policy) :
    visited (policies ++ [invalidPolicy]) = visited policies := by
  induction policies with
  | nil => rfl
  | cons p policies ih =>
    simp only [visited, List.cons_append, List.takeWhile_cons] at ih ⊢
    rw [ih]

theorem visited_eq_self {policies : List Policy} :
    visited policies = policies ↔ ∀ p ∈ policies, p.id ≠ invalidPolicyId := by
  simp [visited, List.takeWhile_eq_self_iff, Policy.isLast]

/-- Without a stray `I` that says: every number fits its type. -/
theorem admissible_iff_fits (libc : Libc) {item : List Char} (h : plain item = item) :
    Admissible libc item ↔ ∃ g, given item = some g ∧
      (-2 ^ 31 ≤ g.id ∧ g.id ≤ 2 ^ 31 - 1) ∧ g.id ≠ invalidPolicyId ∧
      (0 ≤ g.score ∧ g.score ≤ scoreMax) ∧ (0 ≤ g.range.1 ∧ g.range.1 < rangeMax) ∧
      ∀ stop ∈ g.range.2, 0 ≤ stop ∧ stop ≤ rangeMax := by
  have hscore : ∀ s, (libc.storeScore s : ℤ) = s ↔ 0 ≤ s ∧ s ≤ scoreMax := by
    intro s
    have hs := libc.uint.store_eq_iff s
    have hfit := libc.uint.fits s
    simp only [Libc.storeScore, scoreMax]
    omega
  have hbound : ∀ s, ((libc.ulong.store s).toNat : ℤ) = s ↔ 0 ≤ s ∧ s ≤ rangeMax := by
    intro s
    have hs := libc.ulong.store_eq_iff s
    have hfit := libc.ulong.fits s
    simp only [rangeMax]
    omega
  have hrange : ∀ r : ℤ × Option ℤ, (libc.storeRange r).Is r ↔
      (0 ≤ r.1 ∧ r.1 ≤ rangeMax) ∧ ∀ stop ∈ r.2, 0 ≤ stop ∧ stop ≤ rangeMax := by
    rintro ⟨start, stop⟩
    cases stop with
    | none => simpa [Libc.storeRange, Range.Is] using hbound start
    | some stop => simpa [Libc.storeRange, Range.Is] using and_congr (hbound start) (hbound stop)
  rw [Admissible, h]
  constructor
  · rintro ⟨g, g', hg, hg', hid, hlast, hs, hr, hlt⟩
    obtain rfl : g = g' := Option.some.inj (hg.symm.trans hg')
    rw [hscore] at hs
    rw [hrange] at hr
    exact ⟨g, hg, hid, hlast, hs, ⟨hr.1.1, hlt⟩, hr.2⟩
  · rintro ⟨g, hg, hid, hlast, hs, ⟨hpos, hlt⟩, hstop⟩
    exact ⟨g, g, hg, hg, hid, hlast, (hscore _).mpr hs, (hrange _).mpr ⟨⟨hpos, hlt.le⟩, hstop⟩, hlt⟩

/-! ### A C library -/

/-- The conversions of a library that reads into a `long` first, and cuts off what does not fit. -/
def glibc : Libc where
  int :=
    { store := fun z => (max (-2 ^ 63) (min z (2 ^ 63 - 1))).bmod (2 ^ 32)
      fits := fun z => by
        have h₁ := @Int.le_bmod (max (-2 ^ 63) (min z (2 ^ 63 - 1))) (2 ^ 32) (by norm_num)
        have h₂ := @Int.bmod_lt (max (-2 ^ 63) (min z (2 ^ 63 - 1))) (2 ^ 32) (by norm_num)
        norm_num at h₁ h₂ ⊢
        omega
      keeps := fun z hlo hhi => by
        rw [min_eq_left (by omega), max_eq_right (by omega)]
        exact Int.bmod_eq_of_le (by norm_num; omega) (by norm_num; omega) }
  uint :=
    { store := fun z => (if z.natAbs < 2 ^ 64 then z else -1) % 2 ^ 32
      fits := fun z => by omega
      keeps := fun z hlo hhi => by rw [if_pos (by omega)]; omega }
  ulong :=
    { store := fun z => (if z.natAbs < 2 ^ 64 then z else -1) % 2 ^ 64
      fits := fun z => by omega
      keeps := fun z hlo hhi => by rw [if_pos (by omega)]; omega }

/-- Two items, the first one with a score and an open range. -/
def twoItems : List Char := ['I', ':', '1', 'S', ':', '9', 'R', ':', '4', '-', 'I', ':', '2']

theorem twoItems_policies : policyCreate glibc true (some twoItems) =
    (.ok, some [⟨1, ⟨4, rangeMax⟩, 9⟩, ⟨2, ⟨0, rangeMax⟩, scoreMax⟩, invalidPolicy]) := by
  have hscore : scanScore (twoItems.drop 3) = some (9, twoItems.drop 6) := by decide
  have hrange : scanRange (twoItems.drop 6) = some (4, none) := by decide
  have hnine : (glibc.uint.store 9).toNat = 9 := by decide
  have hfour : (glibc.ulong.store 4).toNat = 4 := by decide
  have hloop : descLoop glibc (twoItems.drop 3) ⟨0, rangeMax⟩ scoreMax =
    .ok (⟨4, rangeMax⟩, 9) := by
    simp only [twoItems, List.drop_succ_cons, List.drop_zero] at hscore hrange ⊢
    rw [descLoop_score hscore, descLoop_open hrange, hnine, hfour]
    simp [descLoop]
  have h₁ : descToPolicy glibc twoItems = .ok ⟨1, ⟨4, rangeMax⟩, 9⟩ := by
    rw [descToPolicy, show scanId twoItems = some (1, twoItems.drop 3) by decide]
    dsimp only
    rw [hloop]
    rfl
  have h₂ : descToPolicy glibc (twoItems.drop 10) = .ok ⟨2, ⟨0, rangeMax⟩, scoreMax⟩ := by
    rw [descToPolicy, show scanId (twoItems.drop 10) = some (2, []) by decide]
    simp only [descLoop]
    rfl
  have hfill : fillPolicies glibc twoItems =
      .ok [⟨1, ⟨4, rangeMax⟩, 9⟩, ⟨2, ⟨0, rangeMax⟩, scoreMax⟩] := by
    simp only [twoItems, List.drop_succ_cons, List.drop_zero] at h₁ h₂ ⊢
    simp [fillPolicies, isValidPolicyDesc, h₁, h₂, Except.map]
  rw [policyCreate, if_neg (by decide), if_neg (by decide), Option.getD_some, hfill]
  rfl

/-- A description is parsed as it says exactly where all its items are admissible. -/
theorem parsed_iff (libc : Libc) (malloc : Bool) (desc : Option (List Char))
    (policies : List Policy) (h : policyCreate libc malloc desc = (.ok, some policies)) :
    Parsed (desc.getD []) policies ↔ ∀ item ∈ items (desc.getD []), Admissible libc item := by
  set text := desc.getD [] with htext
  unfold policyCreate at h
  rw [← htext] at h
  split at h
  · next hzero =>
    -- no item at all: the array is the terminator
    have hnil : items text = [] := List.length_eq_zero_iff.mp (getNumPolicy_eq text ▸ hzero)
    simp only [Prod.mk.injEq, Option.some.injEq, true_and] at h
    subst h
    rw [Parsed, hnil]
    simp [visited, invalidPolicy, Policy.isLast]
  split at h
  · simp at h
  cases hfill : fillPolicies libc text with
  | error status =>
    rw [hfill] at h
    simp only [Prod.mk.injEq] at h
    obtain ⟨rfl, -⟩ := h
    exact absurd (fillPolicies_error libc text hfill) (by decide)
  | ok filled =>
    rw [hfill] at h
    simp only [Prod.mk.injEq, Option.some.injEq, true_and] at h
    subst h
    have hfrom := fillPolicies_spec libc text filled hfill
    rw [Parsed, visited_append, ← forall₂_matches_iff hfrom, ← visited_eq_self]
    constructor
    · intro hmatches
      have hall : visited filled = filled := by
        refine (List.takeWhile_prefix _).eq_of_length ?_
        exact hmatches.length_eq.trans hfrom.length_eq.symm
      exact ⟨hall ▸ hmatches, hall⟩
    · rintro ⟨hmatches, hall⟩
      rwa [hall]

theorem parsed_iff_twoItems : Parsed twoItems
    [⟨1, ⟨4, rangeMax⟩, 9⟩, ⟨2, ⟨0, rangeMax⟩, scoreMax⟩, invalidPolicy] := by
  refine (parsed_iff glibc true (some twoItems) _ twoItems_policies).mpr ?_
  intro item hitem
  have hitems : items twoItems = [twoItems.extract 2 10, ['2']] := by decide
  rw [Option.getD_some, hitems] at hitem
  simp only [List.mem_cons, List.not_mem_nil, or_false] at hitem
  rcases hitem with rfl | rfl
  · exact (admissible_iff_fits glibc (by decide)).mpr ⟨⟨1, 9, (4, none)⟩, by decide⟩
  · exact (admissible_iff_fits glibc (by decide)).mpr ⟨⟨2, scoreMax, (0, none)⟩, by decide⟩

/-- An id that reads as the end of the array: none of the items is visited. -/
def endsEarly : List Char := ['I', ':', '-', '1', 'I', ':', '2']

theorem endsEarly_lost : ∃ policies,
    policyCreate glibc true (some endsEarly) = (.ok, some policies) ∧
      visited policies = [] ∧ ¬Parsed endsEarly policies := by
  have h₁ : descToPolicy glibc endsEarly = .ok ⟨-1, ⟨0, rangeMax⟩, scoreMax⟩ := by
    rw [descToPolicy, show scanId endsEarly = some (-1, endsEarly.drop 4) by decide]
    simp only [endsEarly, List.drop_succ_cons, List.drop_zero, descLoop]
    rfl
  have h₂ : descToPolicy glibc (endsEarly.drop 4) = .ok ⟨2, ⟨0, rangeMax⟩, scoreMax⟩ := by
    rw [descToPolicy, show scanId (endsEarly.drop 4) = some (2, []) by decide]
    simp only [descLoop]
    rfl
  have hfill : fillPolicies glibc endsEarly =
      .ok [⟨-1, ⟨0, rangeMax⟩, scoreMax⟩, ⟨2, ⟨0, rangeMax⟩, scoreMax⟩] := by
    simp only [endsEarly, List.drop_succ_cons, List.drop_zero] at h₁ h₂ ⊢
    simp [fillPolicies, isValidPolicyDesc, h₁, h₂, Except.map]
  refine ⟨[⟨-1, ⟨0, rangeMax⟩, scoreMax⟩, ⟨2, ⟨0, rangeMax⟩, scoreMax⟩, invalidPolicy],
    ?_, rfl, ?_⟩
  · rw [policyCreate, if_neg (by decide), if_neg (by decide), Option.getD_some, hfill]
    rfl
  · intro h
    have hlen := h.length_eq
    have hitems : (items endsEarly).length = 2 := by decide
    rw [hitems] at hlen
    simp [visited, Policy.isLast, invalidPolicyId] at hlen

end Kucg.Core
