import Mathlib.Data.List.Sort
import Mathlib.Data.List.Perm.Basic
import Mathlib.Tactic

/-! Lists ranked by a score, the highest first.

    An element is inserted behind its equals (`insertRanked`), so insertion alone is stable. Two
    ranked lists are joined by inserting the one whose first element loses into the other one: its
    tail first, its first element last (`join`). With distinct scores only the elements matter
    (`eq_of_perm`). With ties the order of arrival shows (`stable_iff`): the first of several equals
    is inserted behind them at the moment a higher score takes the lead. -/

namespace Kucg.Lib.Ranking

variable {α : Type} (f : α → ℕ)

/-- Insertion in front of the first element with a strictly smaller score. -/
def insertRanked (a : α) : List α → List α
  | [] => [a]
  | b :: l => if f b < f a then a :: b :: l else b :: insertRanked a l

/-- Insertion of several elements, one after the other. -/
def insertAll (news l : List α) : List α := news.foldl (fun l a => insertRanked f a l) l

/-- The loser's elements are inserted behind the winner's first element. -/
def joinUnder (a : α) (l : List α) (b : α) (news : List α) : List α :=
  a :: insertRanked f b (insertAll f news l)

/-- The join of two lists; of equal scores in front, the first list wins. -/
def join : List α → List α → List α
  | [], ys => ys
  | x :: xs, [] => x :: xs
  | x :: xs, y :: ys => if f x < f y then joinUnder f y ys x xs else joinUnder f x xs y ys

/-- Elements joined one by one. -/
def arrange (l : List α) : List α := l.foldl (fun xs a => join f xs [a]) []

/-- Scores do not increase. -/
abbrev Ranked (l : List α) : Prop := l.Pairwise fun a b => f b ≤ f a

variable {f} {a b : α} {l l' news : List α} {s : ℕ}

@[simp] theorem join_nil : join f l [] = l := by cases l <;> rfl

@[simp] theorem nil_join : join f [] l = l := rfl

/-! ### The elements -/

theorem insertRanked_perm : ∀ {l : List α}, (insertRanked f a l).Perm (a :: l)
  | [] => .refl _
  | b :: l => by
    rw [insertRanked]
    split_ifs
    · exact .refl _
    · exact (insertRanked_perm.cons b).trans (.swap a b l)

theorem insertAll_perm : ∀ {news l : List α}, (insertAll f news l).Perm (news ++ l)
  | [], _ => .refl _
  | a :: news, l => by
    have ih : (insertAll f news (insertRanked f a l)).Perm (news ++ insertRanked f a l) :=
      insertAll_perm
    exact ih.trans ((insertRanked_perm.append_left news).trans List.perm_middle)

theorem joinUnder_perm : (joinUnder f a l b news).Perm (a :: l ++ b :: news) := by
  have h : (insertRanked f b (insertAll f news l)).Perm (l ++ b :: news) :=
    (insertRanked_perm.trans (insertAll_perm.cons b)).trans
      (List.perm_append_comm : (b :: news ++ l).Perm (l ++ b :: news))
  exact h.cons a

theorem join_perm : (join f l l').Perm (l ++ l') := by
  cases l with
  | nil => exact .refl _
  | cons x xs =>
    cases l' with
    | nil => rw [join_nil, List.append_nil]
    | cons y ys =>
      rw [join]
      split_ifs
      · exact joinUnder_perm.trans List.perm_append_comm
      · exact joinUnder_perm

theorem arrange_append_singleton : arrange f (l ++ [a]) = join f (arrange f l) [a] := by
  rw [arrange, List.foldl_append]
  rfl

theorem arrange_perm : (arrange f l).Perm l := by
  induction l using List.reverseRecOn with
  | nil => exact .refl _
  | append_singleton l a ih =>
    rw [arrange_append_singleton]
    exact join_perm.trans (ih.append_right [a])

/-! ### The order -/

theorem ranked_cons : Ranked f (a :: l) ↔ (∀ b ∈ l, f b ≤ f a) ∧ Ranked f l := List.pairwise_cons

theorem Ranked.insertRanked : ∀ {l : List α}, Ranked f l → Ranked f (insertRanked f a l)
  | [], _ => List.pairwise_singleton ..
  | b :: l, h => by
    obtain ⟨hb, hl⟩ := ranked_cons.mp h
    rw [Ranking.insertRanked]
    split_ifs with hlt
    · refine ranked_cons.mpr ⟨fun c hc => ?_, h⟩
      rcases List.mem_cons.mp hc with rfl | hc
      · exact hlt.le
      · exact (hb c hc).trans hlt.le
    · refine ranked_cons.mpr ⟨fun c hc => ?_, hl.insertRanked⟩
      rcases List.mem_cons.mp (insertRanked_perm.mem_iff.mp hc) with rfl | hc
      · exact not_lt.mp hlt
      · exact hb c hc

theorem Ranked.insertAll : ∀ {news l : List α}, Ranked f l → Ranked f (insertAll f news l)
  | [], _, h => h
  | a :: news, l, h => by
    change Ranked f (Ranking.insertAll f news (Ranking.insertRanked f a l))
    exact h.insertRanked.insertAll

theorem Ranked.joinUnder (h : Ranked f (a :: l)) (h' : Ranked f (b :: news)) (hle : f b ≤ f a) :
    Ranked f (joinUnder f a l b news) := by
  obtain ⟨ha, hl⟩ := ranked_cons.mp h
  obtain ⟨hb, -⟩ := ranked_cons.mp h'
  refine ranked_cons.mpr ⟨fun c hc => ?_, hl.insertAll.insertRanked⟩
  rcases List.mem_cons.mp (insertRanked_perm.mem_iff.mp hc) with rfl | hc
  · exact hle
  · rcases List.mem_append.mp (insertAll_perm.mem_iff.mp hc) with hc | hc
    · exact (hb c hc).trans hle
    · exact ha c hc

theorem Ranked.join (h : Ranked f l) (h' : Ranked f l') : Ranked f (join f l l') := by
  cases l with
  | nil => exact h'
  | cons x xs =>
    cases l' with
    | nil => exact h
    | cons y ys =>
      rw [Ranking.join]
      split_ifs with hlt
      · exact h'.joinUnder h hlt.le
      · exact h.joinUnder h' (not_lt.mp hlt)

theorem ranked_arrange : Ranked f (arrange f l) := by
  induction l using List.reverseRecOn with
  | nil => exact .nil
  | append_singleton l a ih =>
    rw [arrange_append_singleton]
    exact ih.join (List.pairwise_singleton ..)

/-- With distinct scores, a ranked list is known by its elements. -/
theorem Ranked.eq_of_perm (h : Ranked f l) (h' : Ranked f l') (hperm : l.Perm l')
    (hnodup : (l.map f).Nodup) : l = l' := by
  refine hperm.eq_of_pairwise (fun a b ha hb hab hba => ?_) h h'
  exact List.inj_on_of_nodup_map hnodup ha (hperm.mem_iff.mpr hb) (hba.antisymm hab)

/-! ### Equals -/

/-- The elements of score `s`, in order. -/
def tied (f : α → ℕ) (s : ℕ) (l : List α) : List α := l.filter fun a => f a = s

theorem tied_append : tied f s (l ++ l') = tied f s l ++ tied f s l' := List.filter_append ..

theorem tied_cons : tied f s (a :: l) = tied f s [a] ++ tied f s l :=
  tied_append (l := [a])

theorem mem_tied : a ∈ tied f s l ↔ a ∈ l ∧ f a = s := by simp [tied]

theorem tied_eq_nil (h : ∀ b ∈ l, f b ≠ s) : tied f s l = [] :=
  List.filter_eq_nil_iff.mpr fun b hb => by simpa using h b hb

theorem tied_singleton_ne (h : f a ≠ s) : tied f s [a] = [] :=
  tied_eq_nil fun _ hb => List.mem_singleton.mp hb ▸ h

@[simp] theorem tied_singleton_self : tied f (f a) [a] = [a] := by simp [tied]

/-- An element is inserted behind its equals. -/
theorem tied_insertRanked : ∀ {l : List α}, Ranked f l →
    tied f s (insertRanked f a l) = tied f s l ++ tied f s [a]
  | [], _ => rfl
  | b :: l, h => by
    obtain ⟨hb, hl⟩ := ranked_cons.mp h
    rw [insertRanked]
    split_ifs with hlt
    · rw [tied_cons]
      by_cases ha : f a = s
      · -- all others score less
        have hnil : tied f s (b :: l) = [] := tied_eq_nil fun c hc => by
          rcases List.mem_cons.mp hc with rfl | hc
          · omega
          · have := hb c hc
            omega
        rw [hnil, List.append_nil, List.nil_append]
      · rw [tied_singleton_ne ha, List.append_nil, List.nil_append]
    · rw [tied_cons, tied_insertRanked hl, tied_cons (a := b) (l := l), List.append_assoc]

theorem insertAll_append_singleton :
    insertAll f (news ++ [a]) l = insertRanked f a (insertAll f news l) := by
  rw [insertAll, List.foldl_append]
  rfl

theorem insertRanked_of_le : ∀ {l : List α}, (∀ b ∈ l, f a ≤ f b) → insertRanked f a l = l ++ [a]
  | [], _ => rfl
  | b :: l, h => by
    have hb := h b List.mem_cons_self
    have hl : ∀ c ∈ l, f a ≤ f c := fun c hc => h c (List.mem_cons_of_mem b hc)
    rw [insertRanked, if_neg (by omega), insertRanked_of_le hl]
    rfl

/-- A ranked list is inserted as it is. -/
theorem insertAll_nil (h : Ranked f l) : insertAll f l [] = l := by
  induction l using List.reverseRecOn with
  | nil => rfl
  | append_singleton l a ih =>
    obtain ⟨hl, -, hle⟩ := List.pairwise_append.mp h
    rw [insertAll_append_singleton, ih hl, insertRanked_of_le]
    exact fun b hb => hle b hb a List.mem_cons_self

/-- A new element that does not win comes behind its equals. -/
theorem tied_join_of_le (h : Ranked f l) (hle : ∃ b ∈ l, f a ≤ f b) :
    tied f s (join f l [a]) = tied f s l ++ tied f s [a] := by
  cases l with
  | nil =>
    obtain ⟨b, hb, -⟩ := hle
    exact absurd hb List.not_mem_nil
  | cons x xs =>
    obtain ⟨hx, hxs⟩ := ranked_cons.mp h
    have hax : ¬f x < f a := by
      obtain ⟨b, hb, hle⟩ := hle
      rcases List.mem_cons.mp hb with rfl | hb
      · omega
      · have := hx b hb
        omega
    have hins : tied f s (insertRanked f a xs) = tied f s xs ++ tied f s [a] :=
      tied_insertRanked hxs
    rw [join, if_neg hax, joinUnder, tied_cons]
    change tied f s [x] ++ tied f s (insertRanked f a xs) = _
    rw [hins, tied_cons (a := x) (l := xs), List.append_assoc]

/-- A new element that wins sends the first element behind its equals. -/
theorem tied_join_of_lt {x : α} {xs : List α} (h : Ranked f (x :: xs)) (hlt : f x < f a) :
    tied f s (join f (x :: xs) [a]) = tied f s [a] ++ (tied f s xs ++ tied f s [x]) := by
  obtain ⟨-, hxs⟩ := ranked_cons.mp h
  rw [join, if_pos hlt, joinUnder, insertAll_nil hxs, tied_cons, tied_insertRanked hxs]

/-- The elements of the highest score have never been overtaken. -/
theorem tied_arrange_of_le (h : ∀ b ∈ l, f b ≤ s) : tied f s (arrange f l) = tied f s l := by
  induction l using List.reverseRecOn with
  | nil => rfl
  | append_singleton l a ih =>
    have hl : ∀ b ∈ l, f b ≤ s := fun b hb => h b (List.mem_append_left _ hb)
    have ha : f a ≤ s := h a (List.mem_append_right _ List.mem_cons_self)
    rw [arrange_append_singleton, tied_append, ← ih hl]
    by_cases hle : ∃ b ∈ arrange f l, f a ≤ f b
    · exact tied_join_of_le ranked_arrange hle
    · -- all others score less than the new element
      push Not at hle
      cases hx : arrange f l with
      | nil => rfl
      | cons x xs =>
        rw [hx] at hle
        have hlow : ∀ b ∈ x :: xs, f b ≠ s := fun b hb => ((hle b hb).trans_le ha).ne
        have hranked : Ranked f (x :: xs) := hx ▸ ranked_arrange
        rw [tied_join_of_lt hranked (hle x List.mem_cons_self), tied_eq_nil hlow,
          tied_eq_nil fun b hb => hlow b (List.mem_cons_of_mem x hb),
          tied_singleton_ne (hlow x List.mem_cons_self), List.append_nil, List.append_nil,
          List.nil_append]

/-- All elements of the highest score are the same. -/
def SoleLeader (f : α → ℕ) (l : List α) : Prop :=
  ∀ b ∈ l, ∀ c ∈ l, (∀ d ∈ l, f d ≤ f b) → (∀ d ∈ l, f d ≤ f c) → b = c

/-- Whenever a higher score takes the lead, the leaders so far were all the same. -/
def SoleLeaders (f : α → ℕ) (l : List α) : Prop :=
  ∀ before a after, l = before ++ a :: after → (∀ b ∈ before, f b < f a) → SoleLeader f before

theorem soleLeaders_append_singleton :
    SoleLeaders f (l ++ [a]) ↔ SoleLeaders f l ∧ ((∀ b ∈ l, f b < f a) → SoleLeader f l) := by
  constructor
  · intro h
    refine ⟨fun before x after heq => ?_, h l a [] rfl⟩
    exact h before x (after ++ [a]) (by rw [heq, List.append_assoc, List.cons_append])
  · rintro ⟨h, hlast⟩ before x after heq
    induction after using List.reverseRecOn with
    | nil =>
      obtain ⟨rfl, hx⟩ := List.append_inj' heq rfl
      obtain rfl := List.singleton_inj.mp hx
      exact hlast
    | append_singleton after y =>
      rw [← List.cons_append, ← List.append_assoc] at heq
      obtain ⟨rfl, -⟩ := List.append_inj' heq rfl
      exact h before x after rfl

theorem append_singleton_eq_cons_iff {x : α} : ∀ {l : List α}, l ++ [x] = x :: l ↔ ∀ b ∈ l, b = x
  | [] => by simp
  | b :: l => by
    rw [List.cons_append, List.cons.injEq, List.forall_mem_cons]
    refine and_congr_right fun hb => ?_
    rw [hb]
    exact append_singleton_eq_cons_iff

/-- The first leader may go behind the others exactly if they are the same. -/
theorem soleLeader_iff {x : α} {xs : List α} (h : Ranked f (x :: xs)) :
    SoleLeader f (x :: xs) ↔ tied f (f x) xs ++ [x] = x :: tied f (f x) xs := by
  obtain ⟨hx, -⟩ := ranked_cons.mp h
  have hmax : ∀ d ∈ x :: xs, f d ≤ f x := by
    simpa using hx
  rw [append_singleton_eq_cons_iff]
  constructor
  · intro hsole b hb
    obtain ⟨hb, hfb⟩ := mem_tied.mp hb
    exact hsole b (List.mem_cons_of_mem x hb) x List.mem_cons_self (hfb ▸ hmax) hmax
  · intro hsame
    have heq : ∀ d ∈ x :: xs, (∀ e ∈ x :: xs, f e ≤ f d) → d = x := by
      intro d hd hdmax
      rcases List.mem_cons.mp hd with rfl | hd
      · rfl
      · exact hsame d (mem_tied.mpr ⟨hd, (hx d hd).antisymm (hdmax x List.mem_cons_self)⟩)
    intro b hb c hc hbmax hcmax
    rw [heq b hb hbmax, heq c hc hcmax]

theorem SoleLeader.perm (hperm : l.Perm l') : SoleLeader f l ↔ SoleLeader f l' := by
  simp only [SoleLeader, hperm.mem_iff]

/-- Elements of equal score stay in the order of their arrival exactly if, whenever a higher score
    takes the lead, the leaders so far were all the same. -/
theorem stable_iff : (∀ s, tied f s (arrange f l) = tied f s l) ↔ SoleLeaders f l := by
  induction l using List.reverseRecOn with
  | nil =>
    refine ⟨fun _ before a after heq => ?_, fun _ _ => rfl⟩
    exact absurd heq (by simp)
  | append_singleton l a ih =>
    rw [soleLeaders_append_singleton, ← ih]
    simp only [arrange_append_singleton, tied_append]
    have hmem {c : α} : c ∈ arrange f l ↔ c ∈ l := arrange_perm.mem_iff
    by_cases hle : ∃ b ∈ arrange f l, f a ≤ f b
    · -- no new leader
      have hno : ¬∀ b ∈ l, f b < f a := by
        obtain ⟨b, hb, hle⟩ := hle
        exact fun h => absurd (h b (hmem.mp hb)) (by omega)
      simp only [tied_join_of_le ranked_arrange hle, List.append_left_inj, hno, false_imp_iff,
        and_true]
    · push Not at hle
      have hlow : ∀ b ∈ l, f b < f a := fun b hb => hle b (hmem.mpr hb)
      rw [imp_iff_right hlow, SoleLeader.perm arrange_perm.symm]
      cases hx : arrange f l with
      | nil =>
        have hnil : l = [] := List.perm_nil.mp (hx ▸ arrange_perm.symm)
        subst hnil
        simp [SoleLeader, tied]
      | cons x xs =>
        have hranked : Ranked f (x :: xs) := hx ▸ ranked_arrange
        have hmax : ∀ b ∈ l, f b ≤ f x := fun b hb => by
          rcases List.mem_cons.mp (hx ▸ hmem.mpr hb) with rfl | hb
          · exact le_rfl
          · exact (ranked_cons.mp hranked).1 b hb
        have htop : x :: tied f (f x) xs = tied f (f x) l := by
          rw [← tied_arrange_of_le hmax, hx, tied_cons, tied_singleton_self]
          rfl
        have hnone : tied f (f a) l = [] := tied_eq_nil fun b hb => (hlow b hb).ne
        rw [hx] at hle
        have hax := hle x List.mem_cons_self
        have hcons (s : ℕ) : tied f s (x :: xs) = tied f s [x] ++ tied f s xs := tied_cons
        simp only [tied_join_of_lt hranked hax, soleLeader_iff hranked, hcons]
        constructor
        · intro h
          have hfirst := h (f x)
          rw [tied_singleton_ne hax.ne', List.nil_append, List.append_nil, tied_singleton_self,
            ← htop] at hfirst
          refine ⟨fun s => ?_, hfirst⟩
          by_cases hs : f x = s
          · rw [← hs, tied_singleton_self, ← htop]
            rfl
          · have hrest := h s
            rw [tied_singleton_ne hs, List.append_nil] at hrest
            rw [tied_singleton_ne hs, List.nil_append]
            by_cases ha : f a = s
            · rw [← ha, hnone, tied_eq_nil fun b hb => (hle b (List.mem_cons_of_mem x hb)).ne]
            · rwa [tied_singleton_ne ha, List.append_nil, List.nil_append] at hrest
        · rintro ⟨h, hfirst⟩ s
          rw [← h s]
          by_cases hs : f x = s
          · rw [← hs, tied_singleton_ne hax.ne', tied_singleton_self, List.nil_append,
              List.append_nil, hfirst]
            rfl
          · rw [tied_singleton_ne hs, List.append_nil, List.nil_append]
            by_cases ha : f a = s
            · have hnil : tied f s xs = [] := tied_eq_nil fun b hb =>
                ha ▸ (hle b (List.mem_cons_of_mem x hb)).ne
              rw [hnil, List.append_nil, List.nil_append]
            · rw [tied_singleton_ne ha, List.append_nil, List.nil_append]

end Kucg.Lib.Ranking
