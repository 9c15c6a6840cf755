import Mathlib.Data.List.Basic
import Kucg.Core.Status

/-! The progress of an interface, the same for both transports (`rc_offload_iface.c`,
    `sdma_offload_iface.c`).

    An interface asks the device for the completions of each request in its queue, and reports those
    that are complete. A flag keeps two threads apart; it stays set when the device fails. -/

namespace Kucg.Stars

open Kucg.Core

/-- `sct_ofd_req_t` in the queue of an interface: how many completions are expected, and for
what. -/
structure SctReq (α : Type) where
  cqeCnt : ℕ
  context : α

/-- What `api_stars_wait_cqe_with_id` returns for a request. -/
structure CqeReply where
  failed : Bool
  waited : ℕ

/-- What the loop over the queue leaves: what it has reported, the queue, and whether it has stopped
at an error. -/
structure ProgressLoop (α : Type) where
  reported : List α
  reqQueue : List (SctReq α)
  failed : Bool

/-- `wait_flag` and `req_queue` of an interface. -/
structure SctIface (α : Type) where
  waitFlag : Bool
  reqQueue : List (SctReq α)

section Progress

variable {α : Type}

/-- The device fails, or has more completions than are expected. -/
def CqeReply.Bad (reply : CqeReply) (req : SctReq α) : Prop :=
  reply.failed = true ∨ req.cqeCnt < reply.waited

instance (reply : CqeReply) (req : SctReq α) : Decidable (reply.Bad req) :=
  inferInstanceAs (Decidable (_ ∨ _))

/-- The loop of `iface_notify_progress`; `replies` is what the device returns for each request. -/
def notifyLoop (replies : ℕ → CqeReply) : ℕ → List (SctReq α) → ProgressLoop α
  | _, [] => ⟨[], [], false⟩
  | i, req :: rest =>
    if (replies i).Bad req then ⟨[], req :: rest, true⟩
    else
      let res := notifyLoop replies (i + 1) rest
      if req.cqeCnt - (replies i).waited = 0 then
        { res with reported := req.context :: res.reported }
      else
        { res with
          reqQueue := { req with cqeCnt := req.cqeCnt - (replies i).waited } :: res.reqQueue }

/-- `iface_notify_progress`: the interface, what is reported, and the status. -/
def notifyProgress (replies : ℕ → CqeReply) (iface : SctIface α) :
    SctIface α × List α × Status :=
  if iface.waitFlag then (iface, [], .ok)
  else
    let res := notifyLoop replies 0 iface.reqQueue
    (⟨res.failed, res.reqQueue⟩, res.reported, if res.failed then .errIoError else .ok)

/-- Each request is reported, or stays in the queue. -/
theorem notifyLoop_perm (replies : ℕ → CqeReply) : ∀ (i : ℕ) (queue : List (SctReq α)),
    ((notifyLoop replies i queue).reported ++
      (notifyLoop replies i queue).reqQueue.map SctReq.context).Perm (queue.map SctReq.context)
  | _, [] => .nil
  | i, req :: rest => by
    have ih := notifyLoop_perm replies (i + 1) rest
    rw [notifyLoop, List.map_cons]
    by_cases hbad : (replies i).Bad req
    · rw [if_pos hbad]
      exact .refl _
    · rw [if_neg hbad]
      dsimp only
      by_cases hdone : req.cqeCnt - (replies i).waited = 0
      · rw [if_pos hdone]
        exact ih.cons _
      · rw [if_neg hdone]
        exact List.perm_middle.trans (ih.cons _)

/-- The loop stops at an error when a reply is one. -/
theorem notifyLoop_failed (replies : ℕ → CqeReply) : ∀ (i : ℕ) (queue : List (SctReq α)),
    (notifyLoop replies i queue).failed = true ↔
      ∃ k req, queue[k]? = some req ∧ (replies (i + k)).Bad req
  | _, [] => by simp [notifyLoop]
  | i, req :: rest => by
    have ih := notifyLoop_failed replies (i + 1) rest
    rw [notifyLoop]
    by_cases hbad : (replies i).Bad req
    · rw [if_pos hbad]
      exact ⟨fun _ => ⟨0, req, rfl, hbad⟩, fun _ => rfl⟩
    · have hfailed : (if (replies i).Bad req then ⟨[], req :: rest, true⟩ else
          if req.cqeCnt - (replies i).waited = 0 then
            { notifyLoop replies (i + 1) rest with
              reported := req.context :: (notifyLoop replies (i + 1) rest).reported }
          else
            { notifyLoop replies (i + 1) rest with
              reqQueue := { req with cqeCnt := req.cqeCnt - (replies i).waited } ::
                (notifyLoop replies (i + 1) rest).reqQueue } : ProgressLoop α).failed =
          (notifyLoop replies (i + 1) rest).failed := by
        rw [if_neg hbad]
        split_ifs <;> rfl
      rw [hfailed, ih]
      constructor
      · rintro ⟨k, r, hk, hr⟩
        exact ⟨k + 1, r, hk, by rwa [Nat.add_right_comm, Nat.add_assoc] at hr⟩
      · rintro ⟨_ | k, r, hk, hr⟩
        · obtain rfl := Option.some.inj hk
          exact absurd hr hbad
        · exact ⟨k, r, hk, by rwa [Nat.add_right_comm, Nat.add_assoc]⟩

/-- Without an error, a request is reported when all of its completions are there. -/
theorem mem_reported {replies : ℕ → CqeReply} : ∀ {i : ℕ} {queue : List (SctReq α)} {k : ℕ}
    {req : SctReq α}, (notifyLoop replies i queue).failed = false → queue[k]? = some req →
    (replies (i + k)).waited = req.cqeCnt → req.context ∈ (notifyLoop replies i queue).reported
  | _, [], _, _, _, hk, _ => by simp at hk
  | i, head :: rest, k, req, hok, hk, hwaited => by
    rw [notifyLoop] at hok ⊢
    by_cases hbad : (replies i).Bad head
    · rw [if_pos hbad] at hok
      exact absurd hok (by simp)
    · rw [if_neg hbad] at hok ⊢
      have hrest : (notifyLoop replies (i + 1) rest).failed = false := by
        split_ifs at hok <;> exact hok
      cases k with
      | zero =>
        obtain rfl := Option.some.inj hk
        have hdone : head.cqeCnt - (replies i).waited = 0 := Nat.sub_eq_zero_of_le hwaited.ge
        simp only [if_pos hdone]
        exact List.mem_cons_self
      | succ k =>
        have ih := mem_reported (k := k) hrest hk (by
          rwa [Nat.add_right_comm, Nat.add_assoc])
        split_ifs
        · exact List.mem_cons_of_mem _ ih
        · exact ih

end Progress

end Kucg.Stars
