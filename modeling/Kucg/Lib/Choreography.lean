import Mathlib.Tactic

/-! Ranks that exchange messages by rendezvous: a send waits for its receive.

    A choreography is one list of events for all ranks, and a rank's program is what the list says
    about that rank (`proj`). If the programs of all ranks come from one choreography, there is no
    deadlock, in any order of execution: the first event of what remains can always take place
    (`step_of_ne_nil`). And every order ends in the same memories, because an event that is taken
    before its turn has no rank in common with the events it overtakes (`Follows.step`). -/

namespace Kucg.Choreography

/-- What a rank does next: meet another rank, or something on its own. -/
inductive Op (I A : Type*) where
  | send (dst : I) (a : A)
  | recv (src : I) (a : A)
  | act (a : A)
  deriving DecidableEq, Repr

/-- An event of a choreography. Both sides of a message say what they send or expect. -/
inductive Event (I A : Type*) where
  | comm (src dst : I) (a b : A)
  | act (i : I) (a : A)

variable {I A M : Type*} [DecidableEq I]

namespace Event

/-- What an event is for one rank. -/
def ops (i : I) : Event I A → List (Op I A)
  | comm src dst a b => if i = src then [.send dst a] else if i = dst then [.recv src b] else []
  | act j a => if i = j then [.act a] else []

/-- The rank takes part in the event. -/
def Touches (e : Event I A) (i : I) : Prop :=
  match e with
  | comm src dst _ _ => i = src ∨ i = dst
  | act j _ => i = j

/-- A rank does not meet itself. -/
def Proper : Event I A → Prop
  | comm src dst _ _ => src ≠ dst
  | act _ _ => True

theorem ops_eq_nil {e : Event I A} {i : I} (h : ¬e.Touches i) : e.ops i = [] := by
  cases e with
  | comm src dst a b =>
    simp only [Touches, not_or] at h
    simp [ops, h.1, h.2]
  | act j a =>
    simp only [Touches] at h
    simp [ops, h]

theorem exists_ops {e : Event I A} {i : I} (h : e.Touches i) : ∃ op, e.ops i = [op] := by
  cases e with
  | comm src dst a b =>
    by_cases hs : i = src
    · exact ⟨.send dst a, if_pos hs⟩
    · exact ⟨.recv src b, (if_neg hs).trans (if_pos (h.resolve_left hs))⟩
  | act j a => exact ⟨.act a, if_pos h⟩

theorem touches_of_ops {e : Event I A} {i : I} {op : Op I A} (h : e.ops i = [op]) :
    e.Touches i := by
  by_contra hnot
  simp [ops_eq_nil hnot] at h

theorem eq_comm_of_send {e : Event I A} {s r : I} {a : A} (h : e.ops s = [.send r a]) :
    ∃ b, e = comm s r a b := by
  cases e with
  | comm src dst a' b =>
    simp only [ops] at h
    split at h
    · next hs =>
      simp only [List.cons.injEq, Op.send.injEq, and_true] at h
      obtain ⟨rfl, rfl⟩ := h
      exact ⟨b, by rw [hs]⟩
    · split at h <;> simp at h
  | act j a' => simp only [ops] at h; split at h <;> simp at h

theorem eq_comm_of_recv {e : Event I A} {s r : I} {b : A} (h : e.ops r = [.recv s b]) :
    ∃ a, e = comm s r a b := by
  cases e with
  | comm src dst a b' =>
    simp only [ops] at h
    split at h
    · simp at h
    · split at h
      · next hr =>
        simp only [List.cons.injEq, Op.recv.injEq, and_true] at h
        obtain ⟨rfl, rfl⟩ := h
        exact ⟨a, by rw [hr]⟩
      · simp at h
  | act j a => simp only [ops] at h; split at h <;> simp at h

theorem eq_act_of_ops {e : Event I A} {i : I} {a : A} (h : e.ops i = [.act a]) :
    e = act i a := by
  cases e with
  | comm src dst a' b =>
    simp only [ops] at h
    split at h
    · simp at h
    · split at h <;> simp at h
  | act j a' =>
    simp only [ops] at h
    split at h
    · next hj =>
      simp only [List.cons.injEq, Op.act.injEq, and_true] at h
      rw [h, hj]
    · simp at h

end Event

/-- The program of a rank. -/
def proj (es : List (Event I A)) (i : I) : List (Op I A) := es.flatMap (Event.ops i)

@[simp] theorem proj_append (es es' : List (Event I A)) (i : I) :
    proj (es ++ es') i = proj es i ++ proj es' i := List.flatMap_append

theorem proj_cons (e : Event I A) (es : List (Event I A)) (i : I) :
    proj (e :: es) i = e.ops i ++ proj es i := List.flatMap_cons

theorem proj_eq_nil {es : List (Event I A)} {i : I} (h : ∀ e ∈ es, ¬e.Touches i) :
    proj es i = [] := by
  simp only [proj, List.flatMap_eq_nil_iff]
  exact fun e he => Event.ops_eq_nil (h e he)

/-- The first command of a rank comes from the first event that it takes part in. -/
theorem first_event : ∀ {es : List (Event I A)} {i : I} {op : Op I A} {rest : List (Op I A)},
    proj es i = op :: rest → ∃ x e y, es = x ++ e :: y ∧ (∀ e' ∈ x, ¬e'.Touches i) ∧
      e.ops i = [op] ∧ proj y i = rest
  | [], _, _, _, h => by simp [proj] at h
  | e :: es, i, op, rest, h => by
    rw [proj_cons] at h
    by_cases ht : e.Touches i
    · obtain ⟨op', hop⟩ := Event.exists_ops ht
      rw [hop, List.singleton_append, List.cons.injEq] at h
      obtain ⟨rfl, hrest⟩ := h
      exact ⟨[], e, es, rfl, by simp, hop, hrest⟩
    · rw [Event.ops_eq_nil ht, List.nil_append] at h
      obtain ⟨x, e', y, rfl, hx, hop, hrest⟩ := first_event h
      refine ⟨e :: x, e', y, rfl, ?_, hop, hrest⟩
      simp only [List.mem_cons, forall_eq_or_imp]
      exact ⟨ht, hx⟩

/-! ### Execution -/

/-- What a message and a command do to the memory of a rank: a message writes into the memory of its
    receiver. -/
structure Effects (I A M : Type*) where
  transfer : I → A → M → I → A → M → M
  act : I → A → M → M

/-- The commands ahead of every rank, and its memory. -/
structure Net (I A M : Type*) where
  procs : I → List (Op I A)
  mem : I → M

variable (fx : Effects I A M)

/-- A rank does something on its own, or a send meets its receive. -/
inductive Step : Net I A M → Net I A M → Prop
  | act {c : Net I A M} {i : I} {a : A} {rest : List (Op I A)} (h : c.procs i = .act a :: rest) :
      Step c ⟨Function.update c.procs i rest, Function.update c.mem i (fx.act i a (c.mem i))⟩
  | comm {c : Net I A M} {s r : I} {a b : A} {ps pr : List (Op I A)} (hne : s ≠ r)
      (hs : c.procs s = .send r a :: ps) (hr : c.procs r = .recv s b :: pr) :
      Step c ⟨Function.update (Function.update c.procs s ps) r pr,
        Function.update c.mem r (fx.transfer s a (c.mem s) r b (c.mem r))⟩

/-- The memories after an event. -/
def Event.run (mem : I → M) : Event I A → I → M
  | comm s r a b => Function.update mem r (fx.transfer s a (mem s) r b (mem r))
  | act i a => Function.update mem i (fx.act i a (mem i))

/-- The memories after a choreography, event by event. -/
def run (es : List (Event I A)) (mem : I → M) : I → M := es.foldl (Event.run fx) mem

theorem run_append (es es' : List (Event I A)) (mem : I → M) :
    run fx (es ++ es') mem = run fx es' (run fx es mem) := List.foldl_append

theorem Event.run_of_not_touches {e : Event I A} {i : I} (h : ¬e.Touches i) (mem : I → M) :
    e.run fx mem i = mem i := by
  cases e with
  | comm s r a b => exact Function.update_of_ne (fun hi => h (.inr hi)) ..
  | act j a => exact Function.update_of_ne h ..

/-- An event reads the memories of its own ranks only. -/
theorem Event.run_congr {e : Event I A} {mem mem' : I → M}
    (h : ∀ i, e.Touches i → mem i = mem' i) {i : I} (hi : e.Touches i) :
    e.run fx mem i = e.run fx mem' i := by
  cases e with
  | comm s r a b =>
    have hs : mem s = mem' s := h s (.inl rfl)
    have hr : mem r = mem' r := h r (.inr rfl)
    simp only [run, hs, hr]
    rcases eq_or_ne i r with rfl | hne
    · rw [Function.update_self, Function.update_self]
    · rw [Function.update_of_ne hne, Function.update_of_ne hne]
      exact h i hi
  | act j a =>
    obtain rfl : i = j := hi
    simp only [run, Function.update_self, h i rfl]

/-- Events without a common rank can change places. -/
theorem Event.run_comm {e e' : Event I A} (h : ∀ i, e.Touches i → ¬e'.Touches i) (mem : I → M) :
    e'.run fx (e.run fx mem) = e.run fx (e'.run fx mem) := by
  have h' : ∀ i, e'.Touches i → ¬e.Touches i := fun i hi hi' => h i hi' hi
  funext i
  by_cases hi : e.Touches i
  · rw [run_of_not_touches fx (h i hi)]
    exact run_congr fx (fun j hj => (run_of_not_touches fx (h j hj) mem).symm) hi
  · rw [run_of_not_touches fx hi]
    by_cases hi' : e'.Touches i
    · exact run_congr fx (fun j hj => run_of_not_touches fx (h' j hj) mem) hi'
    · rw [run_of_not_touches fx hi', run_of_not_touches fx hi', run_of_not_touches fx hi]

theorem run_swap {x : List (Event I A)} {e : Event I A}
    (h : ∀ e' ∈ x, ∀ i, e.Touches i → ¬e'.Touches i) (mem : I → M) :
    e.run fx (run fx x mem) = run fx x (e.run fx mem) := by
  induction x generalizing mem with
  | nil => rfl
  | cons e' x ih =>
    have hhead := Event.run_comm fx (h e' (by simp)) mem
    have htail := ih (fun e'' he'' => h e'' (by simp [he''])) (e'.run fx mem)
    exact htail.trans (congrArg (run fx x) hhead.symm)

/-! ### Every order is the order of the choreography -/

/-- The net has the events of a choreography ahead of it, and will end in given memories. -/
structure Follows (c : Net I A M) (es : List (Event I A)) (final : I → M) : Prop where
  procs : ∀ i, c.procs i = proj es i
  final : run fx es c.mem = final
  proper : ∀ e ∈ es, e.Proper

theorem Follows.start {es : List (Event I A)} (h : ∀ e ∈ es, e.Proper) (mem : I → M) :
    Follows fx ⟨proj es, mem⟩ es (run fx es mem) := ⟨fun _ => rfl, rfl, h⟩

/-- A list is split in one way at two elements if neither stands before the other one. -/
theorem split_unique {α : Type*} {e e' : α} {y y' : List α} : ∀ {x x' : List α},
    x ++ e :: y = x' ++ e' :: y' → e ∉ x' → e' ∉ x → x = x' ∧ e = e' ∧ y = y'
  | [], [], h, _, _ => by
    rw [List.nil_append, List.nil_append, List.cons.injEq] at h
    exact ⟨rfl, h⟩
  | [], d :: x', h, hnot, _ => by
    rw [List.nil_append, List.cons_append, List.cons.injEq] at h
    exact absurd (by simp [h.1]) hnot
  | d :: x, [], h, _, hnot => by
    rw [List.nil_append, List.cons_append, List.cons.injEq] at h
    exact absurd (by simp [h.1]) hnot
  | d :: x, d' :: x', h, hnot, hnot' => by
    rw [List.cons_append, List.cons_append, List.cons.injEq] at h
    obtain ⟨rfl, h⟩ := h
    obtain ⟨rfl, he⟩ := split_unique h (by simp_all) (by simp_all)
    exact ⟨rfl, he⟩

/-- A message takes the first event of both its ranks. -/
theorem common_event {es : List (Event I A)} {s r : I} {a b : A} {ps pr : List (Op I A)}
    (hs : proj es s = .send r a :: ps) (hr : proj es r = .recv s b :: pr) :
    ∃ x y, es = x ++ .comm s r a b :: y ∧ (∀ e ∈ x, ¬e.Touches s ∧ ¬e.Touches r) ∧
      proj y s = ps ∧ proj y r = pr := by
  obtain ⟨x, e, y, rfl, hx, hop, hps⟩ := first_event hs
  obtain ⟨b', rfl⟩ := Event.eq_comm_of_send hop
  obtain ⟨x', e', y', heq, hx', hop', hpr⟩ := first_event hr
  obtain ⟨a', rfl⟩ := Event.eq_comm_of_recv hop'
  obtain ⟨rfl, he, rfl⟩ := split_unique heq (fun hmem => hx' _ hmem (.inr rfl))
    (fun hmem => hx _ hmem (.inl rfl))
  simp only [Event.comm.injEq, true_and] at he
  obtain ⟨rfl, rfl⟩ := he
  exact ⟨x, y, rfl, fun e he => ⟨hx e he, hx' e he⟩, hps, hpr⟩

variable {fx} in
/-- One step takes one event out of the choreography. -/
theorem Follows.step {c c' : Net I A M} {es : List (Event I A)} {final : I → M}
    (h : Follows fx c es final) (hstep : Step fx c c') :
    ∃ es', Follows fx c' es' final ∧ es'.Sublist es ∧ es.length = es'.length + 1 := by
  cases hstep with
  | @act i a rest hi =>
    obtain ⟨x, e, y, rfl, hx, hop, hrest⟩ := first_event ((h.procs i).symm.trans hi)
    obtain rfl := Event.eq_act_of_ops hop
    refine ⟨x ++ y, ⟨fun j => ?_, ?_, ?_⟩, by simp, by simp; omega⟩
    · dsimp only
      rcases eq_or_ne j i with rfl | hne
      · rw [Function.update_self, proj_append, proj_eq_nil hx, List.nil_append, hrest]
      · rw [Function.update_of_ne hne, h.procs j, proj_append, proj_append, proj_cons,
          Event.ops_eq_nil (e := .act i a) hne, List.nil_append]
    · rw [← h.final, run_append, run_append]
      change run fx y (run fx x (Event.run fx c.mem (.act i a))) =
        run fx y (Event.run fx _ (.act i a))
      rw [run_swap fx (fun e' he' j hj => by
        obtain rfl : j = i := hj
        exact hx e' he')]
    · intro e he
      exact h.proper e (by simp only [List.mem_append, List.mem_cons] at he ⊢; tauto)
  | @comm s r a b ps pr hne hs hr =>
    obtain ⟨x, y, rfl, hx, hps, hpr⟩ :=
      common_event ((h.procs s).symm.trans hs) ((h.procs r).symm.trans hr)
    refine ⟨x ++ y, ⟨fun j => ?_, ?_, ?_⟩, by simp, by simp; omega⟩
    · dsimp only
      rcases eq_or_ne j r with rfl | hjr
      · rw [Function.update_self, proj_append, proj_eq_nil fun e he => (hx e he).2,
          List.nil_append, hpr]
      rw [Function.update_of_ne hjr]
      rcases eq_or_ne j s with rfl | hjs
      · rw [Function.update_self, proj_append, proj_eq_nil fun e he => (hx e he).1,
          List.nil_append, hps]
      · rw [Function.update_of_ne hjs, h.procs j, proj_append, proj_append, proj_cons,
          Event.ops_eq_nil (e := .comm s r a b) (fun hj => hj.elim hjs hjr), List.nil_append]
    · rw [← h.final, run_append, run_append]
      change run fx y (run fx x (Event.run fx c.mem (.comm s r a b))) =
        run fx y (Event.run fx _ (.comm s r a b))
      rw [run_swap fx (fun e' he' j hj => by
        rcases hj with rfl | rfl
        · exact (hx e' he').1
        · exact (hx e' he').2)]
    · intro e he
      exact h.proper e (by simp only [List.mem_append, List.mem_cons] at he ⊢; tauto)

/-- What remains of a choreography can go on. -/
theorem step_of_ne_nil {c : Net I A M} {es : List (Event I A)} {final : I → M}
    (h : Follows fx c es final) (hne : es ≠ []) : ∃ c', Step fx c c' := by
  cases es with
  | nil => exact absurd rfl hne
  | cons e es =>
    cases e with
    | act i a => exact ⟨_, .act (by rw [h.procs i, proj_cons, Event.ops, if_pos rfl]; rfl)⟩
    | comm s r a b =>
      have hsr : s ≠ r := h.proper (.comm s r a b) (by simp)
      have hs : c.procs s = .send r a :: proj es s := by
        rw [h.procs s, proj_cons, Event.ops, if_pos rfl]
        rfl
      have hr : c.procs r = .recv s b :: proj es r := by
        rw [h.procs r, proj_cons, Event.ops, if_neg hsr.symm, if_pos rfl]
        rfl
      exact ⟨_, .comm hsr hs hr⟩

/-- So many steps lead from one state to another. -/
inductive Steps : ℕ → Net I A M → Net I A M → Prop
  | refl (c : Net I A M) : Steps 0 c c
  | tail {k : ℕ} {c c' c'' : Net I A M} : Steps k c c' → Step fx c' c'' → Steps (k + 1) c c''

/-- A run of the programs follows what is left of their choreography, one event fewer at each
    step. -/
theorem Steps.follows {es : List (Event I A)} (hes : ∀ e ∈ es, e.Proper) (mem : I → M) {k : ℕ}
    {c : Net I A M} (h : Steps fx k ⟨proj es, mem⟩ c) :
    ∃ es', Follows fx c es' (run fx es mem) ∧ es'.Sublist es ∧ es.length = es'.length + k := by
  generalize hc₀ : (⟨proj es, mem⟩ : Net I A M) = c₀ at h
  induction h with
  | refl c => exact ⟨es, hc₀ ▸ Follows.start fx hes mem, List.Sublist.refl es, rfl⟩
  | tail _ hstep ih =>
    obtain ⟨es', hfollows, hsub, hlen⟩ := ih hc₀
    obtain ⟨es'', hfollows', hsub', hlen'⟩ := hfollows.step hstep
    exact ⟨es'', hfollows', hsub'.trans hsub, by omega⟩

theorem proj_ne_nil {es : List (Event I A)} (hne : es ≠ []) : ∃ i, proj es i ≠ [] := by
  cases es with
  | nil => exact absurd rfl hne
  | cons e es =>
    cases e with
    | act i a => exact ⟨i, by simp [proj_cons, Event.ops]⟩
    | comm s r a b => exact ⟨s, by simp [proj_cons, Event.ops]⟩

section Runs

variable {fx} {es : List (Event I A)} (hes : ∀ e ∈ es, e.Proper) {mem : I → M} {k : ℕ}
  {c : Net I A M} (h : Steps fx k ⟨proj es, mem⟩ c)

include hes h

/-- A run has at most as many steps as there are events. -/
theorem Steps.bounded : k ≤ es.length := by
  obtain ⟨es', -, -, hlen⟩ := h.follows fx hes mem
  omega

/-- As long as a rank has something to do, there is a step. -/
theorem Steps.progress (hne : ∃ i, c.procs i ≠ []) : ∃ c', Step fx c c' := by
  obtain ⟨es', hfollows, -, -⟩ := h.follows fx hes mem
  refine step_of_ne_nil fx hfollows ?_
  rintro rfl
  obtain ⟨i, hi⟩ := hne
  exact hi (by rw [hfollows.procs i]; rfl)

/-- A send and a receive that face each other belong to one event. -/
theorem Steps.matched {s r : I} {a b : A} {ps pr : List (Op I A)}
    (hs : c.procs s = .send r a :: ps) (hr : c.procs r = .recv s b :: pr) :
    Event.comm s r a b ∈ es := by
  obtain ⟨es', hfollows, hsub, -⟩ := h.follows fx hes mem
  obtain ⟨x, y, rfl, -⟩ :=
    common_event ((hfollows.procs s).symm.trans hs) ((hfollows.procs r).symm.trans hr)
  exact hsub.subset (by simp)

/-- Where all ranks are done, the memories are those after the choreography. -/
theorem Steps.final (hdone : ∀ i, c.procs i = []) : c.mem = run fx es mem := by
  obtain ⟨es', hfollows, -, -⟩ := h.follows fx hes mem
  cases es' with
  | nil => exact hfollows.final
  | cons e es' =>
    obtain ⟨i, hi⟩ := proj_ne_nil (List.cons_ne_nil e es')
    exact absurd ((hfollows.procs i).symm.trans (hdone i)) hi

end Runs

/-! ### What ranks know

    Here the labels are pieces of data that spread over the ranks: a rank can send what it knows,
    and learns what it receives. -/

/-- What is known after an event. -/
def Event.learn (K : I → A → Prop) : Event I A → I → A → Prop
  | .comm _ r _ b => fun i x => K i x ∨ i = r ∧ x = b
  | .act j a => fun i x => K i x ∨ i = j ∧ x = a

/-- The sender knows what it sends. -/
def Event.Backed (K : I → A → Prop) : Event I A → Prop
  | .comm s _ a _ => K s a
  | .act _ _ => True

/-- What is known after a choreography. -/
def known (K : I → A → Prop) (es : List (Event I A)) : I → A → Prop := es.foldl Event.learn K

/-- Every sender knows what it sends, at its time. -/
def Sound : (I → A → Prop) → List (Event I A) → Prop
  | _, [] => True
  | K, e :: es => e.Backed K ∧ Sound (e.learn K) es

omit [DecidableEq I] in
theorem known_append (K : I → A → Prop) (es es' : List (Event I A)) :
    known K (es ++ es') = known (known K es) es' := List.foldl_append

omit [DecidableEq I] in
theorem known_mono {K : I → A → Prop} {i : I} {x : A} (h : K i x) :
    ∀ es : List (Event I A), known K es i x := by
  intro es
  induction es generalizing K with
  | nil => exact h
  | cons e es ih =>
    refine ih (K := e.learn K) ?_
    cases e <;> exact .inl h

omit [DecidableEq I] in
theorem known_of_mem {K : I → A → Prop} {s r : I} {a b : A} {es : List (Event I A)}
    (h : Event.comm s r a b ∈ es) : known K es r b := by
  obtain ⟨x, y, rfl⟩ := List.append_of_mem h
  rw [known_append]
  exact known_mono (.inr ⟨rfl, rfl⟩) y

omit [DecidableEq I] in
theorem known_of_act {K : I → A → Prop} {i : I} {a : A} {es : List (Event I A)}
    (h : Event.act i a ∈ es) : known K es i a := by
  obtain ⟨x, y, rfl⟩ := List.append_of_mem h
  rw [known_append]
  exact known_mono (.inr ⟨rfl, rfl⟩) y

omit [DecidableEq I] in
theorem sound_append (K : I → A → Prop) (es es' : List (Event I A)) :
    Sound K (es ++ es') ↔ Sound K es ∧ Sound (known K es) es' := by
  induction es generalizing K with
  | nil => simp [Sound, known]
  | cons e es ih => simp only [List.cons_append, Sound, ih, and_assoc]; rfl

omit [DecidableEq I] in
/-- Events whose senders all know what they send beforehand. -/
theorem sound_of_backed {K : I → A → Prop} {es : List (Event I A)} (h : ∀ e ∈ es, e.Backed K) :
    Sound K es := by
  induction es generalizing K with
  | nil => trivial
  | cons e es ih =>
    refine ⟨h e (by simp), ih fun e' he' => ?_⟩
    have hbacked := h e' (by simp [he'])
    cases e' with
    | act j a => trivial
    | comm s r a b => cases e <;> exact .inl hbacked

omit [DecidableEq I] in
/-- Round by round: what is known at the start of a round carries the round, and gives what is known
    at the start of the next one. -/
theorem sound_rounds {inv : ℕ → (I → A → Prop) → Prop} {rounds : ℕ → List (Event I A)}
    {K : I → A → Prop} (h₀ : inv 0 K) : ∀ m, (∀ i < m, ∀ K, inv i K →
      Sound K (rounds i) ∧ inv (i + 1) (known K (rounds i))) →
      Sound K ((List.range m).flatMap rounds) ∧ inv m (known K ((List.range m).flatMap rounds))
  | 0, _ => ⟨trivial, h₀⟩
  | m + 1, h => by
    obtain ⟨hsound, hinv⟩ := sound_rounds h₀ m fun i hi => h i (by omega)
    obtain ⟨hsound', hinv'⟩ := h m (by omega) _ hinv
    rw [List.range_succ, List.flatMap_append, sound_append, known_append, List.flatMap_singleton]
    exact ⟨⟨hsound, hsound'⟩, hinv'⟩

/-- A rank that learns a piece has it in its memory, if every event brings the piece it is about and
    leaves the others in place. -/
theorem run_has {Has : I → A → M → Prop} {K : I → A → Prop} {es : List (Event I A)}
    (hact : ∀ i a, Event.act i a ∈ es → ∀ m, Has i a (fx.act i a m) ∧
      ∀ x, Has i x m → Has i x (fx.act i a m))
    (hcomm : ∀ s r a b, Event.comm s r a b ∈ es → ∀ m m', Has s a m →
      Has r b (fx.transfer s a m r b m') ∧ ∀ x, Has r x m' → Has r x (fx.transfer s a m r b m'))
    {mem : I → M} (hK : ∀ i x, K i x → Has i x (mem i)) (hsound : Sound K es) :
    ∀ i x, known K es i x → Has i x (run fx es mem i) := by
  induction es generalizing K mem with
  | nil => exact hK
  | cons e es ih =>
    refine ih (fun i a h => hact i a (by simp [h])) (fun s r a b h => hcomm s r a b (by simp [h]))
      (K := e.learn K) ?_ hsound.2
    intro i x hx
    cases e with
    | act j a =>
      obtain ⟨hnew, hold⟩ := hact j a (by simp) (mem j)
      rcases eq_or_ne i j with rfl | hne
      · simp only [Event.run, Function.update_self]
        rcases hx with hx | ⟨-, rfl⟩
        · exact hold x (hK i x hx)
        · exact hnew
      · simp only [Event.run, Function.update_of_ne hne]
        exact hK i x (hx.resolve_right fun h => hne h.1)
    | comm s r a b =>
      obtain ⟨hnew, hold⟩ := hcomm s r a b (by simp) (mem s) (mem r) (hK s a hsound.1)
      rcases eq_or_ne i r with rfl | hne
      · simp only [Event.run, Function.update_self]
        rcases hx with hx | ⟨-, rfl⟩
        · exact hold x (hK i x hx)
        · exact hnew
      · simp only [Event.run, Function.update_of_ne hne]
        exact hK i x (hx.resolve_right fun h => hne h.1)

end Kucg.Choreography
