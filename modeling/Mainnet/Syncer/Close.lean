import Mainnet.Lib.Run
import Mainnet.Syncer.PeerStatuses

namespace Mainnet.Syncer

open Lib Run List

/-- A connection event; a peer that connects comes with the answer its status request will get. -/
inductive PeerEvent
  | connected (status : Option NoForkPeer)
  | disconnected (id : String)

/-- The goroutines of a started syncer. `statuses` and `events` are still to come over the client's
channels, `updating` and `notifying` have put a status into the peer map and notify next. -/
structure Started where
  statuses : List NoForkPeer
  updating : Bool
  events : List PeerEvent
  fetching : List (Option NoForkPeer)
  notifying : ℕ
  newStatusChClosed : Bool

inductive Turn
  | close
  | receiveStatus
  | notifyStatus
  | receiveEvent
  | getPeerStatus (i : ℕ)
  | notifyFetched

namespace Started

def step (s : Started) : Turn → Started
  | .close => { s with newStatusChClosed := true }
  | .receiveStatus =>
    if s.updating then s else
    match s.statuses with
    | [] => s
    | _ :: statuses => { s with statuses, updating := true }
  | .notifyStatus => { s with updating := false }
  | .receiveEvent =>
    match s.events with
    | [] => s
    | .connected status :: events => { s with events, fetching := status :: s.fetching }
    | .disconnected _ :: events => { s with events }
  | .getPeerStatus i =>
    match s.fetching[i]? with
    | none => s
    | some none => { s with fetching := s.fetching.eraseIdx i }
    | some (some _) =>
      { s with fetching := s.fetching.eraseIdx i, notifying := s.notifying + 1 }
  | .notifyFetched => { s with notifying := s.notifying - 1 }

/-- The turn runs `notifyNewStatusEvent`, whose send panics once the channel is closed. -/
def notifies (s : Started) : Turn → Bool
  | .notifyStatus => s.updating
  | .notifyFetched => 0 < s.notifying
  | _ => false

def SendsOpen (s : Started) (turn : Turn) : Prop := s.notifies turn → s.newStatusChClosed = false

/-- No goroutine has a status left to notify of, and none will get one. -/
structure Quiet (s : Started) : Prop where
  statuses : s.statuses = []
  updating : s.updating = false
  events : ∀ p, .connected (some p) ∉ s.events
  fetching : ∀ p, some p ∉ s.fetching
  notifying : s.notifying = 0

theorem Quiet.step {s : Started} (h : s.Quiet) (turn : Turn) : (s.step turn).Quiet := by
  cases turn with
  | close => exact { h with }
  | receiveStatus => simpa [Started.step, h.updating, h.statuses] using h
  | notifyStatus => exact { h with updating := rfl }
  | receiveEvent =>
    have hevents := h.events
    rw [Started.step]
    split
    · exact h
    · next heq =>
      simp only [heq, mem_cons, not_or, forall_and] at hevents
      exact { h with
        events := hevents.2
        fetching := fun p hp ↦ (mem_cons.mp hp).elim
          (fun hp ↦ hevents.1 p (hp ▸ rfl)) (h.fetching p) }
    · next heq =>
      simp only [heq, mem_cons, not_or, forall_and] at hevents
      exact { h with events := hevents.2 }
  | getPeerStatus i =>
    rw [Started.step]
    split
    · exact h
    · exact { h with fetching := fun p hp ↦ h.fetching p (mem_of_mem_eraseIdx hp) }
    · next p heq => exact absurd (mem_of_getElem? heq) (h.fetching p)
  | notifyFetched => exact { h with notifying := congrArg (· - 1) h.notifying }

theorem Quiet.sendsOpen {s : Started} (h : s.Quiet) (turn : Turn) : s.SendsOpen turn := by
  cases turn <;> simp [SendsOpen, notifies, h.updating, h.notifying]

theorem Quiet.admits {s : Started} (h : s.Quiet) (turns : List Turn) :
    Admits Started.step SendsOpen s turns := by
  induction turns generalizing s with
  | nil => trivial
  | cons turn turns ih => exact ⟨h.sendsOpen turn, ih (h.step turn)⟩

/-- No interleaving with a `Close` sends on the closed channel. -/
def Safe (s : Started) : Prop := ∀ turns, Admits step SendsOpen s turns

variable {s : Started} (h : s.Safe)
include h

theorem Safe.step (turn : Turn) : (s.step turn).Safe := fun turns ↦ (h (turn :: turns)).2

theorem Safe.updating : s.updating = false := by
  by_contra hu
  have hsend := (h [.close, .notifyStatus]).2.1
  simp [SendsOpen, Started.step, notifies, hu] at hsend

theorem Safe.notifying : s.notifying = 0 := by
  by_contra hn
  have hsend := (h [.close, .notifyFetched]).2.1
  simp [SendsOpen, Started.step, notifies, Nat.pos_of_ne_zero hn] at hsend

theorem Safe.fetching (p : NoForkPeer) : some p ∉ s.fetching := by
  intro hp
  obtain ⟨i, hi⟩ := mem_iff_getElem?.mp hp
  have hn := (h.step (.getPeerStatus i)).notifying
  simp [Started.step, hi] at hn

theorem Safe.statuses : s.statuses = [] := by
  by_contra hs
  obtain ⟨status, statuses, hs⟩ := exists_cons_of_ne_nil hs
  have hu := (h.step .receiveStatus).updating
  simp [Started.step, h.updating, hs] at hu

theorem Safe.events (p : NoForkPeer) : .connected (some p) ∉ s.events := by
  induction hevents : s.events generalizing s with
  | nil => exact not_mem_nil
  | cons event events ih =>
    have hnext := h.step .receiveEvent
    simp only [Started.step, hevents] at hnext
    rw [mem_cons, not_or]
    cases event with
    | connected status =>
      refine ⟨?_, ih hnext rfl⟩
      rintro ⟨⟩
      exact hnext.fetching p mem_cons_self
    | disconnected id => exact ⟨by simp, ih hnext rfl⟩

end Started

theorem close_safe_iff (s : Started) : s.Safe ↔ s.Quiet :=
  ⟨fun h ↦ ⟨h.statuses, h.updating, h.events, h.fetching, h.notifying⟩, Started.Quiet.admits⟩

/-- A status arrives after `Close` has closed the channel. -/
theorem close_sends_on_closed :
    ¬ Admits Started.step Started.SendsOpen ⟨[⟨"a", 7, 1⟩], false, [], [], 0, false⟩
      [.close, .receiveStatus, .notifyStatus] :=
  fun h ↦ absurd (h.2.2.1 rfl) (by decide)

end Mainnet.Syncer
