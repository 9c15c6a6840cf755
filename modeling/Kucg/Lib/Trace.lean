import Mathlib.Data.List.GetD
import Mathlib.Data.List.Nodup
import Mathlib.Data.Set.Basic
import Mathlib.Tactic

/-! Traces of point-to-point messages, one list of sends and receives for every rank.

    Traces are matched when between any two ranks the messages sent are the messages received, in
    the same order. Matched traces stay matched when they are put one after another, so an
    algorithm of several rounds, or of several phases on different groups of ranks, is matched when
    each round is. -/

namespace Kucg.Lib

/-- A message at one of its two ends: the peer, the contents, and a set of ranks that are known to
    have started by whoever holds the message. -/
inductive Event (β : Type) where
  | send (peer : ℕ) (vals : List β) (know : Set ℕ)
  | recv (peer : ℕ) (vals : List β) (know : Set ℕ)

variable {β : Type}

/-- The message of a send to `r`. -/
def Event.sentTo (r : ℕ) : Event β → Option (List β × Set ℕ)
  | .send d vals know => if d = r then some (vals, know) else none
  | .recv .. => none

/-- The message of a receive from `s`. -/
def Event.receivedFrom (s : ℕ) : Event β → Option (List β × Set ℕ)
  | .send .. => none
  | .recv p vals know => if p = s then some (vals, know) else none

/-- The messages to `r`, in order. -/
def sendsTo (r : ℕ) (t : List (Event β)) : List (List β × Set ℕ) := t.filterMap (Event.sentTo r)

/-- The messages from `s`, in order. -/
def recvsFrom (s : ℕ) (t : List (Event β)) : List (List β × Set ℕ) :=
  t.filterMap (Event.receivedFrom s)

@[simp] theorem sendsTo_nil (r : ℕ) : sendsTo r ([] : List (Event β)) = [] := rfl

@[simp] theorem recvsFrom_nil (s : ℕ) : recvsFrom s ([] : List (Event β)) = [] := rfl

@[simp] theorem sendsTo_append (r : ℕ) (t t' : List (Event β)) :
    sendsTo r (t ++ t') = sendsTo r t ++ sendsTo r t' := List.filterMap_append

@[simp] theorem recvsFrom_append (s : ℕ) (t t' : List (Event β)) :
    recvsFrom s (t ++ t') = recvsFrom s t ++ recvsFrom s t' := List.filterMap_append

@[simp] theorem sendsTo_send (r d : ℕ) (vals : List β) (know : Set ℕ) (t : List (Event β)) :
    sendsTo r (.send d vals know :: t) =
      if d = r then (vals, know) :: sendsTo r t else sendsTo r t := by
  rw [sendsTo, List.filterMap_cons, Event.sentTo]
  split_ifs <;> rfl

@[simp] theorem sendsTo_recv (r s : ℕ) (vals : List β) (know : Set ℕ) (t : List (Event β)) :
    sendsTo r (.recv s vals know :: t) = sendsTo r t := rfl

@[simp] theorem recvsFrom_send (s d : ℕ) (vals : List β) (know : Set ℕ) (t : List (Event β)) :
    recvsFrom s (.send d vals know :: t) = recvsFrom s t := rfl

@[simp] theorem recvsFrom_recv (s p : ℕ) (vals : List β) (know : Set ℕ) (t : List (Event β)) :
    recvsFrom s (.recv p vals know :: t) =
      if p = s then (vals, know) :: recvsFrom s t else recvsFrom s t := by
  rw [recvsFrom, List.filterMap_cons, Event.receivedFrom]
  split_ifs <;> rfl

/-- What every rank sends to another one is what that one receives from it. -/
def Matched (T : ℕ → List (Event β)) : Prop := ∀ s r, sendsTo r (T s) = recvsFrom s (T r)

namespace Matched

theorem nil : Matched fun _ => ([] : List (Event β)) := fun _ _ => rfl

theorem append {T T' : ℕ → List (Event β)} (h : Matched T) (h' : Matched T') :
    Matched fun r => T r ++ T' r := by
  intro s r
  rw [sendsTo_append, recvsFrom_append, h s r, h' s r]

/-- Rounds one after another, each of them matched. -/
theorem flatMap {κ : Type} {T : κ → ℕ → List (Event β)} :
    ∀ (ks : List κ), (∀ k ∈ ks, Matched (T k)) → Matched fun r => ks.flatMap fun k => T k r
  | [], _ => nil
  | k :: ks, h => by
    have hhead := h k (List.mem_cons_self ..)
    have htail := flatMap ks fun k' hk' => h k' (List.mem_cons_of_mem _ hk')
    simp only [List.flatMap_cons]
    exact hhead.append htail

end Matched

/-! ### Traces of a group of ranks -/

/-- The other end. -/
def Event.peer : Event β → ℕ
  | .send p .. => p
  | .recv p .. => p

/-- Rename the other end. -/
def Event.mapPeer (f : ℕ → ℕ) : Event β → Event β
  | .send p vals know => .send (f p) vals know
  | .recv p vals know => .recv (f p) vals know

@[simp] theorem map_mapPeer_id (t : List (Event β)) : t.map (Event.mapPeer fun q => q) = t :=
  List.map_id'' (fun e => by cases e <;> rfl) t

theorem sendsTo_map {f : ℕ → ℕ} {r v : ℕ} :
    ∀ {t : List (Event β)}, (∀ e ∈ t, f e.peer = r ↔ e.peer = v) →
      sendsTo r (t.map (Event.mapPeer f)) = sendsTo v t
  | [], _ => rfl
  | .send p vals know :: t, h => by
    rw [List.forall_mem_cons] at h
    rw [List.map_cons, Event.mapPeer, sendsTo_send, sendsTo_send, sendsTo_map h.2]
    simp only [show f p = r ↔ p = v from h.1]
  | .recv p vals know :: t, h => by
    rw [List.forall_mem_cons] at h
    rw [List.map_cons, Event.mapPeer, sendsTo_recv, sendsTo_recv, sendsTo_map h.2]

theorem recvsFrom_map {f : ℕ → ℕ} {s v : ℕ} :
    ∀ {t : List (Event β)}, (∀ e ∈ t, f e.peer = s ↔ e.peer = v) →
      recvsFrom s (t.map (Event.mapPeer f)) = recvsFrom v t
  | [], _ => rfl
  | .send p vals know :: t, h => by
    rw [List.forall_mem_cons] at h
    rw [List.map_cons, Event.mapPeer, recvsFrom_send, recvsFrom_send, recvsFrom_map h.2]
  | .recv p vals know :: t, h => by
    rw [List.forall_mem_cons] at h
    rw [List.map_cons, Event.mapPeer, recvsFrom_recv, recvsFrom_recv, recvsFrom_map h.2]
    simp only [show f p = s ↔ p = v from h.1]

theorem sendsTo_eq_nil {r : ℕ} {t : List (Event β)} (h : ∀ e ∈ t, e.peer ≠ r) :
    sendsTo r t = [] := by
  refine List.filterMap_eq_nil_iff.mpr fun e he => ?_
  have hpeer := h e he
  cases e with
  | send p vals know => exact if_neg hpeer
  | recv p vals know => rfl

theorem recvsFrom_eq_nil {s : ℕ} {t : List (Event β)} (h : ∀ e ∈ t, e.peer ≠ s) :
    recvsFrom s t = [] := by
  refine List.filterMap_eq_nil_iff.mpr fun e he => ?_
  have hpeer := h e he
  cases e with
  | send p vals know => rfl
  | recv p vals know => exact if_neg hpeer

/-- The trace of rank `r` in the group `members r`, from traces in the numbering of the group. A
    rank outside of its own group has nothing to do. -/
def groupTrace (members : ℕ → List ℕ) (T : List ℕ → ℕ → List (Event β)) (r : ℕ) :
    List (Event β) :=
  if r ∈ members r then
    (T (members r) ((members r).idxOf r)).map (Event.mapPeer ((members r).getD · 0))
  else []

/-- The groups are disjoint, and every member sees the same one. -/
structure IsGrouping (members : ℕ → List ℕ) : Prop where
  nodup : ∀ r, (members r).Nodup
  same : ∀ r, r ∈ members r → ∀ q ∈ members r, members q = members r

section Group

variable {members : ℕ → List ℕ} {T : List ℕ → ℕ → List (Event β)}

/-- Every message of a rank goes to or comes from its own group. -/
theorem peer_mem_of_groupTrace
    (hpeer : ∀ r, r ∈ members r → ∀ v, ∀ e ∈ T (members r) v, e.peer < (members r).length) {r : ℕ}
    {e : Event β} (he : e ∈ groupTrace members T r) : r ∈ members r ∧ e.peer ∈ members r := by
  rw [groupTrace] at he
  split_ifs at he with hr
  · obtain ⟨e', he', rfl⟩ := List.mem_map.mp he
    have heq : (e'.mapPeer ((members r).getD · 0)).peer = (members r).getD e'.peer 0 := by
      cases e' <;> rfl
    rw [heq, List.getD_eq_getElem _ _ (hpeer r hr _ e' he')]
    exact ⟨hr, List.getElem_mem _⟩
  · exact absurd he List.not_mem_nil

/-- Disjoint groups with matched traces of their own. -/
theorem Matched.group (hg : IsGrouping members)
    (hT : ∀ r, r ∈ members r → Matched (T (members r)))
    (hpeer : ∀ r, r ∈ members r → ∀ v, ∀ e ∈ T (members r) v, e.peer < (members r).length) :
    Matched (groupTrace members T) := by
  intro s r
  by_cases hsr : s ∈ members s ∧ r ∈ members s
  · -- the same group: number its members
    obtain ⟨hs, hr⟩ := hsr
    have heq := hg.same s hs r hr
    have hiff (q) (hq : q ∈ members s) (v) (e) (he : e ∈ T (members s) v) :
        (members s).getD e.peer 0 = q ↔ e.peer = (members s).idxOf q := by
      have hlt := hpeer s hs v e he
      rw [List.getD_eq_getElem _ _ hlt]
      constructor
      · rintro rfl
        exact ((hg.nodup s).idxOf_getElem _ hlt).symm
      · rintro h
        simp only [h, List.getElem_idxOf]
    rw [groupTrace, groupTrace, if_pos hs, if_pos (by rwa [heq]), heq, sendsTo_map (hiff r hr _),
      recvsFrom_map (hiff s hs _), hT s hs]
  · -- no message in either direction
    rw [sendsTo_eq_nil, recvsFrom_eq_nil]
    · rintro e he rfl
      obtain ⟨hr, hmem⟩ := peer_mem_of_groupTrace hpeer he
      have heq := hg.same r hr _ hmem
      exact hsr ⟨by rwa [heq], by rwa [heq]⟩
    · rintro e he rfl
      obtain ⟨hs, hmem⟩ := peer_mem_of_groupTrace hpeer he
      exact hsr ⟨hs, hmem⟩

end Group

end Kucg.Lib
