import Kucg.Lib.Trace

/-! Programs of one rank that post and test point-to-point messages, and their weakest
    preconditions.

    A program works on a memory of cells `ι` with contents `β`. A posted message carries the
    contents that its cells have at the post. A posted receive writes its cells at some later time,
    known to be over only when a test says so; a message with fewer elements than the receive has
    cells fills the first ones.

    The precondition `Prog.wp` runs the program on a `Ghost` state: the memory as it will be when
    all posted receives have arrived, the receives not yet known to be over, the trace of messages
    still to come, and the ranks known to have started. A program that meets it follows its trace,
    whatever the tests return. -/

namespace Kucg.Lib

/-- A program that ends with a result of type `α`. Receives are posted under a handle. -/
inductive Prog (ι β α : Type) where
  | pure (a : α)
  | isend (dst : ℕ) (src : List ι) (next : Prog ι β α)
  | irecv (handle src : ℕ) (dst : List ι) (next : Prog ι β α)
  | zip (f : β → β → β) (src dst : List ι) (next : Prog ι β α)
  | testall (next : Bool → Prog ι β α)
  | test (handle : ℕ) (next : Bool → Prog ι β α)

variable {ι β α γ : Type}

/-- Sequential composition. -/
def Prog.bind : Prog ι β α → (α → Prog ι β γ) → Prog ι β γ
  | .pure a, f => f a
  | .isend d src next, f => .isend d src (next.bind f)
  | .irecv h s dst next, f => .irecv h s dst (next.bind f)
  | .zip op src dst next, f => .zip op src dst (next.bind f)
  | .testall next, f => .testall fun b => (next b).bind f
  | .test h next, f => .test h fun b => (next b).bind f

instance : Monad (Prog ι β) where
  pure := Prog.pure
  bind := Prog.bind

/-! ### Memory -/

section Memory

variable [DecidableEq ι]

/-- Write values to cells, from the first to the last. -/
def writeCells : List ι → List β → (ι → β) → ι → β
  | c :: cs, v :: vs, m => writeCells cs vs (Function.update m c v)
  | _, _, m => m

/-- Combine each source cell into its target cell, from the first to the last. -/
def zipCells (f : β → β → β) : List ι → List ι → (ι → β) → ι → β
  | s :: ss, d :: ds, m => zipCells f ss ds (Function.update m d (f (m s) (m d)))
  | _, _, m => m

theorem writeCells_of_notMem {i : ι} :
    ∀ {cs : List ι} {vs : List β} {m : ι → β}, i ∉ cs → writeCells cs vs m i = m i
  | [], _, _, _ => rfl
  | _ :: _, [], _, _ => rfl
  | c :: cs, v :: vs, m, h => by
    rw [List.mem_cons, not_or] at h
    rw [writeCells, writeCells_of_notMem h.2, Function.update_of_ne h.1]

/-- What a written cell holds does not depend on the memory before. -/
theorem writeCells_congr {i : ι} :
    ∀ {cs : List ι} {vs : List β} (m m' : ι → β), vs.length = cs.length → i ∈ cs ∨ m i = m' i →
      writeCells cs vs m i = writeCells cs vs m' i
  | [], _, _, _, _, h => h.resolve_left (List.not_mem_nil)
  | c :: cs, v :: vs, m, m', hlen, h => by
    rw [writeCells, writeCells]
    refine writeCells_congr _ _ (Nat.succ.inj hlen) ?_
    rcases eq_or_ne i c with rfl | hic
    · exact Or.inr (by rw [Function.update_self, Function.update_self])
    · rw [Function.update_of_ne hic, Function.update_of_ne hic]
      exact h.imp_left fun hmem => (List.mem_cons.mp hmem).resolve_left hic

/-- Values fill as many cells as they are. -/
theorem writeCells_take :
    ∀ {cs : List ι} {vs : List β} (m : ι → β), writeCells (cs.take vs.length) vs m =
      writeCells cs vs m
  | [], vs, m => by rw [List.take_nil]
  | _ :: _, [], _ => rfl
  | c :: cs, v :: vs, m => writeCells_take (Function.update m c v)

theorem writeCells_of_notMem_take {i : ι} {cs : List ι} {vs : List β} {m : ι → β}
    (h : i ∉ cs.take vs.length) : writeCells cs vs m i = m i := by
  rw [← writeCells_take, writeCells_of_notMem h]

theorem writeCells_congr_take {i : ι} {cs : List ι} {vs : List β} (m m' : ι → β)
    (hlen : vs.length ≤ cs.length) (h : i ∈ cs.take vs.length) :
    writeCells cs vs m i = writeCells cs vs m' i := by
  rw [← writeCells_take m, ← writeCells_take m']
  exact writeCells_congr m m' (by rw [List.length_take_of_le hlen]) (Or.inl h)

theorem zipCells_of_notMem {f : β → β → β} {i : ι} :
    ∀ {ss ds : List ι} {m : ι → β}, i ∉ ds → zipCells f ss ds m i = m i
  | [], _, _, _ => rfl
  | _ :: _, [], _, _ => rfl
  | s :: ss, d :: ds, m, h => by
    rw [List.mem_cons, not_or] at h
    rw [zipCells, zipCells_of_notMem h.2, Function.update_of_ne h.1]

/-- Distinct cells hold the values written to them. -/
theorem writeCells_getElem : ∀ {cs : List ι} {vs : List β} {m : ι → β}, cs.Nodup →
    ∀ i (h : i < cs.length) (h' : i < vs.length), writeCells cs vs m cs[i] = vs[i]
  | c :: cs, v :: vs, m, hnd, 0, _, _ => by
    rw [writeCells, List.getElem_cons_zero, writeCells_of_notMem (List.nodup_cons.mp hnd).1,
      Function.update_self, List.getElem_cons_zero]
  | c :: cs, v :: vs, m, hnd, i + 1, h, h' =>
    writeCells_getElem (List.nodup_cons.mp hnd).2 i (Nat.lt_of_succ_lt_succ h)
      (Nat.lt_of_succ_lt_succ h')

/-- Distinct cells, apart from the sources, hold the combined values. -/
theorem zipCells_getElem {f : β → β → β} : ∀ {ss ds : List ι} {m : ι → β}, ds.Nodup →
    (∀ s ∈ ss, s ∉ ds) → ∀ i (h : i < ds.length) (h' : i < ss.length),
      zipCells f ss ds m ds[i] = f (m ss[i]) (m ds[i])
  | s :: ss, d :: ds, m, hnd, _, 0, _, _ => by
    rw [zipCells, List.getElem_cons_zero, zipCells_of_notMem (List.nodup_cons.mp hnd).1,
      Function.update_self, List.getElem_cons_zero]
  | s :: ss, d :: ds, m, hnd, hap, i + 1, h, h' => by
    obtain ⟨hd, hnd⟩ := List.nodup_cons.mp hnd
    have hap' (s') (hs' : s' ∈ ss) : s' ≠ d ∧ s' ∉ ds := by
      have := hap s' (List.mem_cons_of_mem _ hs')
      rwa [List.mem_cons, not_or] at this
    have hi : i < ds.length := Nat.lt_of_succ_lt_succ h
    have hi' : i < ss.length := Nat.lt_of_succ_lt_succ h'
    have hne : ds[i] ≠ d := fun heq => hd (heq ▸ List.getElem_mem hi)
    rw [zipCells, List.getElem_cons_succ, List.getElem_cons_succ,
      zipCells_getElem hnd (fun s' hs' => (hap' s' hs').2) i hi hi',
      Function.update_of_ne (hap' _ (List.getElem_mem hi')).1, Function.update_of_ne hne]

/-- Memories that agree on the source cells and elsewhere still agree there. -/
theorem zipCells_congr {f : β → β → β} {S : Set ι} :
    ∀ {ss ds : List ι} {m m' : ι → β}, (∀ i ∈ S, m i = m' i) → (∀ i ∈ ss, i ∈ S) →
      (∀ i ∈ ds, i ∈ S) → ∀ i ∈ S, zipCells f ss ds m i = zipCells f ss ds m' i
  | [], _, _, _, h, _, _ => h
  | _ :: _, [], _, _, h, _, _ => h
  | s :: ss, d :: ds, m, m', h, hss, hds => by
    rw [List.forall_mem_cons] at hss hds
    simp only [zipCells]
    refine zipCells_congr (fun i hi => ?_) hss.2 hds.2
    rw [h s hss.1, h d hds.1]
    rcases eq_or_ne i d with rfl | hid
    · rw [Function.update_self, Function.update_self]
    · rw [Function.update_of_ne hid, Function.update_of_ne hid, h i hi]

end Memory

/-! ### Weakest preconditions -/

/-- A posted receive that is not known to be over, with the cells that its message fills. -/
structure Pending (ι : Type) where
  handle : ℕ
  dst : List ι
  know : Set ℕ

/-- What a rank can count on: see the head of the file. -/
structure Ghost (ι β : Type) where
  mem : ι → β
  pend : List (Pending ι)
  todo : List (Event β)
  know : Set ℕ

namespace Ghost

/-- The cell is not written by a receive that may still be under way. -/
def Free (g : Ghost ι β) (i : ι) : Prop := ∀ p ∈ g.pend, i ∉ p.dst

/-- What is known once the receives of `ps` are over. -/
def learn (g : Ghost ι β) (ps : List (Pending ι)) : Set ℕ := g.know ∪ {q | ∃ p ∈ ps, q ∈ p.know}

/-- All receives are over. -/
def doneAll (g : Ghost ι β) : Ghost ι β := { g with pend := [], know := g.learn g.pend }

/-- The receives under a handle are over. -/
def done (g : Ghost ι β) (h : ℕ) : Ghost ι β :=
  { g with
    pend := g.pend.filter (·.handle ≠ h), know := g.learn (g.pend.filter (·.handle = h)) }

@[simp] theorem learn_nil (g : Ghost ι β) : g.learn [] = g.know := by
  ext q
  simp [learn]

theorem know_subset_learn (g : Ghost ι β) (ps : List (Pending ι)) : g.know ⊆ g.learn ps :=
  Set.subset_union_left

/-- What a new receive will tell is learnt with it. -/
theorem subset_learn_append (g : Ghost ι β) (ps : List (Pending ι)) (handle : ℕ) (dst : List ι)
    (know : Set ℕ) : know ⊆ g.learn (ps ++ [⟨handle, dst, know⟩]) :=
  fun _ hq => Or.inr ⟨_, List.mem_append_right _ (List.mem_singleton.mpr rfl), hq⟩

/-- A test adds nothing to what its receives tell. -/
@[simp] theorem learn_doneAll (g : Ghost ι β) : g.doneAll.learn g.doneAll.pend = g.learn g.pend :=
  learn_nil _

end Ghost

variable [DecidableEq ι]

/-- The program follows the trace of the ghost state and ends with `Q`. -/
def Prog.wp : Prog ι β α → (α → Ghost ι β → Prop) → Ghost ι β → Prop
  | .pure a, Q, g => Q a g
  | .isend d src next, Q, g => (∀ i ∈ src, g.Free i) ∧ ∃ know rest,
      g.todo = .send d (src.map g.mem) know :: rest ∧ know ⊆ g.know ∧
      next.wp Q { g with todo := rest }
  | .irecv h s dst next, Q, g => (∀ i ∈ dst, g.Free i) ∧ ∃ vals know rest,
      g.todo = .recv s vals know :: rest ∧ vals.length ≤ dst.length ∧
      next.wp Q { g with
        mem := writeCells dst vals g.mem, pend := g.pend ++ [⟨h, dst.take vals.length, know⟩],
        todo := rest }
  | .zip f src dst next, Q, g => (∀ i ∈ src, g.Free i) ∧ (∀ i ∈ dst, g.Free i) ∧
      next.wp Q { g with mem := zipCells f src dst g.mem }
  | .testall next, Q, g => (next true).wp Q g.doneAll ∧ (next false).wp Q g
  | .test h next, Q, g => (next true).wp Q (g.done h) ∧ (next false).wp Q g

@[simp] theorem wp_pure {a : α} {Q : α → Ghost ι β → Prop} {g : Ghost ι β} :
    (pure a : Prog ι β α).wp Q g ↔ Q a g := Iff.rfl

@[simp] theorem wp_bind {p : Prog ι β α} {f : α → Prog ι β γ} {Q : γ → Ghost ι β → Prop} :
    ∀ {g : Ghost ι β}, (p >>= f).wp Q g ↔ p.wp (fun a g => (f a).wp Q g) g := by
  change ∀ {g}, (p.bind f).wp Q g ↔ _
  induction p with
  | pure a => exact Iff.rfl
  | isend d src next ih => simp only [Prog.bind, Prog.wp, ih, implies_true]
  | irecv h s dst next ih => simp only [Prog.bind, Prog.wp, ih, implies_true]
  | zip op src dst next ih => simp only [Prog.bind, Prog.wp, ih, implies_true]
  | testall next ih => simp only [Prog.bind, Prog.wp, ih, implies_true]
  | test h next ih => simp only [Prog.bind, Prog.wp, ih, implies_true]

theorem Prog.wp.imp {p : Prog ι β α} {Q Q' : α → Ghost ι β → Prop} (hQ : ∀ a g, Q a g → Q' a g) :
    ∀ {g : Ghost ι β}, p.wp Q g → p.wp Q' g := by
  induction p with
  | pure a => exact fun h => hQ a _ h
  | isend d src next ih => exact fun ⟨hf, k, rest, ht, hk, h⟩ => ⟨hf, k, rest, ht, hk, ih h⟩
  | irecv h s dst next ih => exact fun ⟨hf, v, k, rest, ht, hl, h⟩ => ⟨hf, v, k, rest, ht, hl, ih h⟩
  | zip op src dst next ih => exact fun ⟨hs, hd, h⟩ => ⟨hs, hd, ih h⟩
  | testall next ih => exact fun ⟨h, h'⟩ => ⟨ih _ h, ih _ h'⟩
  | test h next ih => exact fun ⟨h, h'⟩ => ⟨ih _ h, ih _ h'⟩

/-- A trace that goes on is followed as far. -/
theorem Prog.wp.more {p : Prog ι β α} {Q : α → Ghost ι β → Prop} (more : List (Event β)) :
    ∀ {g : Ghost ι β}, p.wp Q g →
      p.wp (fun a g' => ∃ t, g'.todo = t ++ more ∧ Q a { g' with todo := t })
        { g with todo := g.todo ++ more } := by
  induction p with
  | pure a => exact fun h => ⟨_, rfl, h⟩
  | isend d src next ih =>
    rintro g ⟨hf, k, rest, ht, hk, h⟩
    exact ⟨hf, k, rest ++ more, by rw [ht]; rfl, hk, ih h⟩
  | irecv h s dst next ih =>
    rintro g ⟨hf, v, k, rest, ht, hl, h⟩
    exact ⟨hf, v, k, rest ++ more, by rw [ht]; rfl, hl, ih h⟩
  | zip op src dst next ih => exact fun ⟨hs, hd, h⟩ => ⟨hs, hd, ih h⟩
  | testall next ih => exact fun ⟨h, h'⟩ => ⟨ih _ h, ih _ h'⟩
  | test h next ih => exact fun ⟨h, h'⟩ => ⟨ih _ h, ih _ h'⟩

end Kucg.Lib
