import Mathlib.Algebra.Order.BigOperators.Group.Finset
import Mathlib.Data.List.FinRange
import Mainnet.Lib.Machine
import Mainnet.Lib.Outcome

namespace Mainnet.Syncer

open Lib List Function

structure NoForkPeer where
  id : String
  number : ℕ
  distance : ℕ
deriving DecidableEq

/-- Where a goroutine of `GetConnectedPeerStatuses` stands; `appending` has read the slice. -/
inductive Goroutine
  | requesting
  | received
  | locked
  | appending (syncPeers : List (Option NoForkPeer))
  | appended
  | done

open Goroutine

/-- `none` in the slice is a nil pointer. -/
structure Fetching (n : ℕ) where
  goroutines : Fin n → Goroutine
  syncPeersLock : Option (Fin n)
  syncPeers : List (Option NoForkPeer)

namespace Fetching

def start (n : ℕ) : Fetching n := ⟨fun _ ↦ .requesting, none, []⟩

variable (ps : List String) (getPeerStatus : String → Option NoForkPeer)

-- A failed request is logged and its nil status is appended like any other.
def step (s : Fetching ps.length) (i : Fin ps.length) : Option (Fetching ps.length) :=
  match s.goroutines i with
  | .requesting => some { s with goroutines := update s.goroutines i .received }
  | .received =>
    if s.syncPeersLock = none then
      some { s with goroutines := update s.goroutines i .locked, syncPeersLock := some i }
    else none
  | .locked => some { s with goroutines := update s.goroutines i (.appending s.syncPeers) }
  | .appending syncPeers => some { s with
      goroutines := update s.goroutines i .appended
      syncPeers := syncPeers ++ [getPeerStatus (ps.get i)] }
  | .appended =>
    some { s with goroutines := update s.goroutines i .done, syncPeersLock := none }
  | .done => none

/-- `wg.Wait` returns. -/
def Returned {n : ℕ} (s : Fetching n) : Prop := ∀ i, s.goroutines i = .done

end Fetching

def Goroutine.recorded : Goroutine → Bool
  | .appended | .done => true
  | _ => false

def Goroutine.critical : Goroutine → Bool
  | .locked | .appending _ | .appended => true
  | _ => false

def Goroutine.left : Goroutine → ℕ
  | .requesting => 5
  | .received => 4
  | .locked => 3
  | .appending _ => 2
  | .appended => 1
  | .done => 0

namespace Fetching

variable {ps : List String} {getPeerStatus : String → Option NoForkPeer}

structure Consistent (ps : List String) (getPeerStatus : String → Option NoForkPeer)
    (s : Fetching ps.length) : Prop where
  holder : ∀ i, (s.goroutines i).critical ↔ s.syncPeersLock = some i
  current : ∀ i xs, s.goroutines i = .appending xs → xs = s.syncPeers
  order : ∃ order : List (Fin ps.length), order.Nodup ∧
    (∀ i, i ∈ order ↔ (s.goroutines i).recorded) ∧
    s.syncPeers = order.map fun i ↦ getPeerStatus (ps.get i)

theorem Consistent.start : Consistent ps getPeerStatus (.start ps.length) where
  holder _ := by simp [Fetching.start, critical]
  current _ _ h := by cases h
  order := ⟨[], nodup_nil, by simp [Fetching.start, recorded], rfl⟩

theorem Consistent.step {s t : Fetching ps.length} {i : Fin ps.length}
    (hs : s.Consistent ps getPeerStatus) (h : s.step ps getPeerStatus i = some t) :
    t.Consistent ps getPeerStatus := by
  obtain ⟨order, hnodup, hmem, hpeers⟩ := hs.order
  have hholder := hs.holder
  have hcurrent := hs.current
  unfold Fetching.step at h
  cases hi : s.goroutines i with
  | appending xs =>
    -- Only the holder of the lock has read the slice, so what it read is still there.
    simp only [hi, Option.some.injEq] at h
    subst h
    refine ⟨?_, ?_, order ++ [i], ?_, ?_, ?_⟩
    · grind [critical]
    · grind [critical]
    · grind [recorded]
    · grind [recorded]
    · rw [map_append, ← hpeers, ← hcurrent i xs hi, map_singleton]
  | received =>
    simp only [hi, Option.ite_none_right_eq_some, Option.some.injEq] at h
    obtain ⟨hlock, rfl⟩ := h
    refine ⟨?_, ?_, order, hnodup, ?_, hpeers⟩ <;> grind [critical, recorded]
  | requesting | locked | appended =>
    simp only [hi, Option.some.injEq] at h
    subst h
    refine ⟨?_, ?_, order, hnodup, ?_, hpeers⟩ <;> grind [critical, recorded]
  | done =>
    simp only [hi] at h
    cases h

theorem Consistent.returned {s : Fetching ps.length} (hs : s.Consistent ps getPeerStatus)
    (hstuck : Machine.Stuck (Fetching.step ps getPeerStatus) s) : s.Returned := by
  intro i
  have hi := hstuck i
  unfold Fetching.step at hi
  cases hat : s.goroutines i with
  | done => rfl
  | received =>
    -- the lock has a holder, and the holder can go on
    simp only [hat, ite_eq_right_iff, reduceCtorEq, imp_false] at hi
    obtain ⟨j, hj⟩ := Option.ne_none_iff_exists'.mp hi
    have hcritical := (hs.holder j).mpr hj
    have hj := hstuck j
    unfold Fetching.step at hj
    cases hat' : s.goroutines j <;> simp [hat', critical] at hj hcritical
  | requesting | locked | appending xs | appended => simp [hat] at hi

def left {n : ℕ} (s : Fetching n) : ℕ := ∑ i, (s.goroutines i).left

theorem left_step {s t : Fetching ps.length} {i : Fin ps.length}
    (h : s.step ps getPeerStatus i = some t) : t.left < s.left := by
  have hmove : ∃ g, t.goroutines = update s.goroutines i g ∧ g.left < (s.goroutines i).left := by
    unfold step at h
    split at h
    all_goals grind [Goroutine.left]
  obtain ⟨g, hg, hlt⟩ := hmove
  refine Finset.sum_lt_sum (fun j _ ↦ ?_) ⟨i, Finset.mem_univ i, by rwa [hg, update_self]⟩
  by_cases hj : j = i
  · rw [hj, hg, update_self]
    exact hlt.le
  · rw [hg, update_of_ne hj]

theorem Returned.perm {s : Fetching ps.length} (hs : s.Consistent ps getPeerStatus)
    (hr : s.Returned) : s.syncPeers.Perm (ps.map getPeerStatus) := by
  obtain ⟨order, hnodup, hmem, hpeers⟩ := hs.order
  have hall : order.Perm (finRange ps.length) := by
    refine (perm_ext_iff_of_nodup hnodup (nodup_finRange _)).mpr fun i ↦ ?_
    rw [hmem, hr i]
    exact iff_of_true rfl (mem_finRange i)
  have hps : (finRange ps.length).map (fun i ↦ getPeerStatus (ps.get i)) = ps.map getPeerStatus :=
    ext_getElem (by simp) (by simp)
  rw [hpeers, ← hps]
  exact hall.map _

end Fetching

/-- The peer map, the peer stored last first. -/
abbrev PeerMap := List (String × NoForkPeer)

def PeerMap.put (m : PeerMap) (peers : List (Option NoForkPeer)) : Outcome String PeerMap :=
  peers.foldlM (fun m peer ↦ match peer with
    | some peer => .ok ((peer.id, peer) :: m)
    | none => .panic) m

theorem PeerMap.put_ne_panic {m : PeerMap} {peers : List (Option NoForkPeer)} (h : none ∉ peers) :
    m.put peers ≠ .panic := by
  induction peers generalizing m with
  | nil => exact fun h ↦ by cases h
  | cons peer peers ih =>
    obtain ⟨hpeer, hpeers⟩ := not_or.mp (mt mem_cons.mpr h)
    cases peer with
    | none => exact absurd rfl hpeer
    | some peer => exact ih hpeers

/-- Every schedule comes to an end, where the call returns; what it returns is right exactly if
every request is answered. -/
theorem getConnectedPeerStatuses_iff (ps : List String) (getPeerStatus : String → Option NoForkPeer)
    (schedule : List (Fin ps.length)) (s : Fetching ps.length)
    (hrun : Machine.run (Fetching.step ps getPeerStatus) (.start ps.length) schedule = some s)
    (m : PeerMap) : schedule.length ≤ 5 * ps.length ∧
      (Machine.Stuck (Fetching.step ps getPeerStatus) s → s.Returned ∧
        ((s.syncPeers.Perm ((ps.filterMap getPeerStatus).map some) ∧ m.put s.syncPeers ≠ .panic) ↔
          ∀ p ∈ ps, getPeerStatus p ≠ none)) := by
  have hs : s.Consistent ps getPeerStatus :=
    Machine.run_invariant (fun s i t hs ↦ hs.step) .start hrun
  refine ⟨?_, fun hstuck ↦ ⟨hs.returned hstuck, ?_⟩⟩
  · have hmeasure := Machine.run_measure (I := fun _ ↦ True) (fun _ _ _ _ _ ↦ trivial)
      (fun _ _ _ _ ↦ Fetching.left_step) trivial hrun
    have hstart : (Fetching.start ps.length).left = 5 * ps.length := by
      simp [Fetching.left, Fetching.start, Goroutine.left, mul_comm]
    omega
  have hperm := (hs.returned hstuck).perm hs
  constructor
  · rintro ⟨hanswered, -⟩ p hp hnil
    have hmem : none ∈ s.syncPeers := hperm.mem_iff.mpr (mem_map.mpr ⟨p, hp, hnil⟩)
    simpa using hanswered.mem_iff.mp hmem
  · intro hall
    have hnil : none ∉ ps.map getPeerStatus := by simpa using hall
    have hmap : (ps.filterMap getPeerStatus).map some = ps.map getPeerStatus := by
      rw [map_filterMap_some_eq_filter_map_isSome, filter_eq_self]
      exact fun o ho ↦ Option.isSome_iff_ne_none.mpr fun h ↦ hnil (h ▸ ho)
    rw [hmap]
    refine ⟨hperm, PeerMap.put_ne_panic fun h ↦ hnil (hperm.mem_iff.mp h)⟩

/-- The second request is answered first. -/
theorem getConnectedPeerStatuses_two :
    ∃ s, Machine.run (Fetching.step ["a", "b"] fun id ↦ some ⟨id, 7, 1⟩) (.start 2)
        [0, 1, 1, 1, 1, 1, 0, 0, 0, 0] = some s ∧ s.Returned ∧
      s.syncPeers.Perm [some ⟨"a", 7, 1⟩, some ⟨"b", 7, 1⟩] ∧
      PeerMap.put [] s.syncPeers ≠ .panic := by
  refine ⟨_, rfl, ?_⟩
  have h := (getConnectedPeerStatuses_iff ["a", "b"] (fun id ↦ some ⟨id, 7, 1⟩)
    [0, 1, 1, 1, 1, 1, 0, 0, 0, 0] _ rfl []).2 (Fin.cases rfl (Fin.cases rfl finZeroElim))
  exact ⟨h.1, h.2.mpr (by simp)⟩

theorem getConnectedPeerStatuses_nil :
    (Machine.run (Fetching.step ["a"] fun _ ↦ none) (.start 1) (replicate 5 0)).map
      Fetching.syncPeers = some [none] ∧ PeerMap.put [] [none] = .panic := by
  decide

end Mainnet.Syncer
