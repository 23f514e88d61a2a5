import Mathlib.Data.Int.Notation
import Mathlib.Data.List.Nodup
import Mainnet.Txpool.Events

namespace Mainnet.Txpool

open Lib List Nat

/-- A `signalEvent` that has found subscriptions: before the read lock, or with the calls of
`pushEvent` that it has still to make, the first of which may have stored its event. -/
inductive Signal
  | loaded (type : Int32) (txHashes : List String)
  | pushing (todo : List (ℕ × Event))
  | notifying (subscription : ℕ) (todo : List (ℕ × Event))
deriving DecidableEq

/-- Who closes subscriptions under the lock: `left` are still to be closed, of the first of them
channel `next` comes next. `cancelSubscription` then deletes an id, and `Close` resets the count. -/
structure Closing where
  left : List ℕ
  next : ℕ
  id : Option ℕ
deriving DecidableEq

/-- `all` are the subscriptions ever made, by their place in memory; the map has those places. -/
structure EventManager where
  all : List Subscription := []
  subscriptions : List (ℕ × ℕ) := []
  numSubscriptions : ℤ := 0
  closing : Option Closing := none
  signals : List Signal := []
deriving DecidableEq

inductive Action
  | subscribe (id : ℕ) (eventTypes : List Int32)
  | cancelSubscription (id : ℕ)
  | close (order : List ℕ)
  | closeNext
  | signalEvent (type : Int32) (txHashes : List String)
  | rlock (signal : ℕ) (orders : List (List ℕ))
  | next (signal : ℕ)
  | runLoop (subscription : ℕ) (choice : Choice)
  | receive (subscription : ℕ)

def Signal.isReader : Signal → Bool
  | .loaded _ _ => false
  | _ => true

namespace EventManager

def places (m : EventManager) : List ℕ := m.subscriptions.map (·.2)

def isFree (m : EventManager) : Bool := m.closing.isNone && !m.signals.any Signal.isReader

def closeNext (m : EventManager) : EventManager :=
  match m.closing with
  | none => m
  | some ⟨[], _, none⟩ => { m with numSubscriptions := 0, closing := none }
  | some ⟨[], _, some id⟩ =>
    { m with
      subscriptions := m.subscriptions.filter (·.1 ≠ id)
      numSubscriptions := m.numSubscriptions - 1
      closing := none }
  | some ⟨p :: left, n, id⟩ =>
    { m with
      all := m.all.modify p (·.closeChannel n)
      closing := some (if n < 2 then ⟨p :: left, n + 1, id⟩ else ⟨left, 0, id⟩) }

def nextOf (m : EventManager) (i : ℕ) : Signal → EventManager
  | .loaded _ _ => m
  | .pushing [] => { m with signals := m.signals.eraseIdx i }
  | .pushing ((p, event) :: todo) =>
    { m with
      all := m.all.modify p (·.push event)
      signals := m.signals.set i
        (if (m.all[p]?).any (·.eventSupported event.type) then .notifying p todo
          else .pushing todo) }
  | .notifying p todo =>
    { m with all := m.all.modify p Subscription.notify, signals := m.signals.set i (.pushing todo) }

def todoOf (type : Int32) (txHashes : List String) (orders : List (List ℕ)) : List (ℕ × Event) :=
  (txHashes.zip orders).flatMap fun (txHash, order) ↦ order.map fun p ↦ (p, ⟨type, txHash⟩)

/-- An action that is not possible leaves the state as it is. -/
def step (m : EventManager) : Action → EventManager
  | .subscribe id eventTypes =>
    if m.isFree then
      { m with
        all := m.all ++ [{ eventTypes := eventTypes }]
        subscriptions := (id, m.all.length) :: m.subscriptions.filter (·.1 ≠ id)
        numSubscriptions := m.numSubscriptions + 1 }
    else m
  | .cancelSubscription id =>
    if m.isFree then
      match m.subscriptions.find? (·.1 = id) with
      | some (_, p) => { m with closing := some ⟨[p], 0, some id⟩ }
      | none => m
    else m
  | .close order =>
    if m.isFree ∧ order.Perm m.places then { m with closing := some ⟨order, 0, none⟩ } else m
  | .closeNext => m.closeNext
  | .signalEvent type txHashes =>
    if m.numSubscriptions < 1 then m
    else { m with signals := m.signals ++ [.loaded type txHashes] }
  | .rlock i orders =>
    match m.signals[i]? with
    | some (.loaded type txHashes) =>
      if m.closing = none ∧ orders.length = txHashes.length ∧ ∀ order ∈ orders, order.Perm m.places
      then { m with signals := m.signals.set i (.pushing (todoOf type txHashes orders)) }
      else m
    | _ => m
  | .next i => match m.signals[i]? with | some signal => m.nextOf i signal | none => m
  | .runLoop p choice => { m with all := m.all.modify p (·.runLoop choice) }
  | .receive p => { m with all := m.all.modify p Subscription.receive }

def Safe (m : EventManager) : Prop := ∀ s ∈ m.all, s.panicked = false

end EventManager

def Subscription.isCalm (s : Subscription) : Bool :=
  match s.loop with
  | .returned => true
  | .select | .drain => s.events.isEmpty
  | _ => false

def Loop.isParked : Loop → Bool
  | .waiting | .offers _ => true
  | _ => false

namespace EventManager

def allOpen (m : EventManager) : Bool := m.places.all fun p ↦ (m.all[p]?).all (·.closed == 0)

/-- Nothing looks at the subscriptions of a manager that was closed, and where a subscription is
closed its loop is parked or has nothing to send. -/
def isOrderly (m : EventManager) : Action → Bool
  | .cancelSubscription _ | .close _ | .rlock _ _ => m.allOpen
  | .closeNext =>
    match m.closing with
    | some ⟨p :: _, 0, _⟩ => (m.all[p]?).all fun s ↦ s.loop.isParked || s.isCalm
    | _ => true
  | _ => true

end EventManager

namespace Subscription

def Fine (s : Subscription) : Prop := s.panicked = false ∧ (0 < s.closed → s.isCalm = true)

variable {s : Subscription}

theorem Fine.runLoop (h : s.Fine) (choice : Choice) :
    (s.runLoop choice).Fine ∧ (s.runLoop choice).closed = s.closed := by
  unfold Subscription.runLoop
  simp only [Fine, isCalm] at h ⊢
  cases hloop : s.loop with
  | select | holds event => cases choice <;> grind
  | drain => cases hevents : s.events <;> grind
  | _ => grind

theorem Fine.receive (h : s.Fine) : s.receive.Fine ∧ s.receive.closed = s.closed := by
  unfold Subscription.receive
  simp only [Fine, isCalm] at h ⊢
  cases hloop : s.loop <;> grind

theorem Fine.push (h : s.Fine) (hopen : s.closed = 0) (event : Event) :
    (s.push event).Fine ∧ (s.push event).closed = s.closed := by
  rw [Subscription.push]
  split
  · exact ⟨⟨h.1, fun hpos ↦ absurd hopen (Nat.ne_of_gt hpos)⟩, rfl⟩
  · exact ⟨h, rfl⟩

theorem Fine.notify (h : s.Fine) (hopen : s.closed = 0) :
    s.notify.Fine ∧ s.notify.closed = s.closed := by
  simp only [Fine, Subscription.notify] at h ⊢
  grind

theorem Fine.closeChannel (h : s.Fine) {n : ℕ} (hn : s.closed = n)
    (hquiet : n = 0 → s.loop.isParked = true ∨ s.isCalm = true) :
    (s.closeChannel n).Fine ∧ (s.closeChannel n).closed = n + 1 := by
  have hcalm : s.loop.isParked = true ∨ s.isCalm = true := by
    rcases Nat.eq_zero_or_pos n with hzero | hpos
    · exact hquiet hzero
    · exact .inr (h.2 (hn ▸ hpos))
  rw [Subscription.closeChannel, if_neg (by omega)]
  cases hloop : s.loop with
  | waiting | offers event | returned => exact ⟨⟨h.1, fun _ ↦ by simp [isCalm]⟩, rfl⟩
  | holds event => simp [hloop, Loop.isParked, isCalm] at hcalm
  | select | drain =>
    refine ⟨⟨h.1, fun _ ↦ ?_⟩, rfl⟩
    simpa [Loop.isParked, isCalm, hloop] using hcalm

end Subscription

def Signal.targets : Signal → List ℕ
  | .loaded _ _ => []
  | .pushing todo => todo.map (·.1)
  | .notifying p todo => p :: todo.map (·.1)

namespace EventManager

structure Inv (m : EventManager) : Prop where
  fine : ∀ (p : ℕ) (s : Subscription), m.all[p]? = some s → s.Fine
  nodup : m.places.Nodup
  lt : ∀ p ∈ m.places, p < m.all.length
  reading : ∀ g ∈ m.signals, ∀ p ∈ g.targets, ∀ s, m.all[p]? = some s → s.closed = 0
  /-- The writer is alone, and what it has still to close is open. -/
  closing : ∀ c, m.closing = some c → (∀ g ∈ m.signals, g.isReader = false) ∧ c.left.Nodup ∧
    ∀ (j p : ℕ), c.left[j]? = some p → ∀ s, m.all[p]? = some s →
      s.closed = if j = 0 then c.next else 0

variable {m : EventManager} {f : Subscription → Subscription} {i : ℕ} {g : Signal}

theorem get_modify {p q : ℕ} {s : Subscription} (h : (m.all.modify p f)[q]? = some s) :
    ∃ t, m.all[q]? = some t ∧ s = if p = q then f t else t := by
  rw [getElem?_modify] at h
  obtain ⟨t, ht, rfl⟩ := Option.map_eq_some_iff.mp h
  exact ⟨t, ht, rfl⟩

theorem Inv.modify (h : Inv m) (p : ℕ)
    (hf : ∀ s, m.all[p]? = some s → (f s).Fine ∧ (f s).closed = s.closed) :
    Inv { m with all := m.all.modify p f } := by
  have hget {q : ℕ} {s : Subscription} (hq : (m.all.modify p f)[q]? = some s) :
      ∃ t, m.all[q]? = some t ∧ s.closed = t.closed ∧ s.Fine := by
    obtain ⟨t, ht, rfl⟩ := get_modify hq
    refine ⟨t, ht, ?_⟩
    split
    · next heq =>
      subst heq
      exact ⟨(hf t ht).2, (hf t ht).1⟩
    · exact ⟨rfl, h.fine q t ht⟩
  refine ⟨fun q s hq ↦ ?_, h.nodup, fun q hq ↦ ?_, fun g hg q hq s hs ↦ ?_, fun c hc ↦ ?_⟩
  · obtain ⟨t, -, -, hfine⟩ := hget hq
    exact hfine
  · rw [length_modify]
    exact h.lt q hq
  · obtain ⟨t, ht, hclosed, -⟩ := hget hs
    exact hclosed.trans (h.reading g hg q hq t ht)
  · obtain ⟨halone, hnodup, hnext⟩ := h.closing c hc
    refine ⟨halone, hnodup, fun j q hj s hs ↦ ?_⟩
    obtain ⟨t, ht, hclosed, -⟩ := hget hs
    exact hclosed.trans (hnext j q hj t ht)

theorem Inv.setSignal (h : Inv m) {g' : Signal} (hg : m.signals[i]? = some g)
    (hreader : g.isReader = true) (htargets : ∀ p ∈ g'.targets, p ∈ g.targets) :
    Inv { m with signals := m.signals.set i g' } := by
  have hmem := mem_of_getElem? hg
  refine ⟨h.fine, h.nodup, h.lt, fun g₁ hg₁ p hp ↦ ?_, fun c hc ↦ ?_⟩
  · rcases mem_or_eq_of_mem_set hg₁ with hold | rfl
    · exact h.reading g₁ hold p hp
    · exact h.reading g hmem p (htargets p hp)
  · exact absurd ((h.closing c hc).1 g hmem) (by simp [hreader])

theorem sublist_places (id : ℕ) :
    ((m.subscriptions.filter (·.1 ≠ id)).map (·.2)).Sublist m.places :=
  filter_sublist.map _

theorem targets_eq_nil (h : g.isReader = false) : g.targets = [] := by
  cases g with
  | loaded type txHashes => rfl
  | pushing todo | notifying p todo => cases h

theorem Inv.closeNext (h : Inv m) (hquiet : m.isOrderly .closeNext = true) : Inv m.closeNext := by
  unfold EventManager.closeNext
  split
  · exact h
  · exact ⟨h.fine, h.nodup, h.lt, h.reading, by simp⟩
  · exact ⟨h.fine, h.nodup.sublist (sublist_places _),
      fun p hp ↦ h.lt p ((sublist_places _).subset hp), h.reading, by simp⟩
  · next p left n id hc =>
    obtain ⟨halone, hleft, hnext⟩ := h.closing _ hc
    obtain ⟨hnot, hnodup⟩ := nodup_cons.mp hleft
    have hclose {s : Subscription} (hs : m.all[p]? = some s) :
        (s.closeChannel n).Fine ∧ (s.closeChannel n).closed = n + 1 := by
      refine (h.fine p s hs).closeChannel (hnext 0 p rfl s hs) fun hzero ↦ ?_
      subst hzero
      simpa [isOrderly, hc, hs] using hquiet
    have hrest {q j : ℕ} (hq : left[j]? = some q) {s : Subscription}
        (hs : (m.all.modify p (·.closeChannel n))[q]? = some s) : s.closed = 0 := by
      obtain ⟨t, ht, rfl⟩ := get_modify hs
      rw [if_neg (fun heq : p = q ↦ hnot (heq ▸ mem_of_getElem? hq))]
      exact hnext (j + 1) q hq t ht
    refine ⟨fun q s hs ↦ ?_, h.nodup, fun q hq ↦ ?_, fun g hg q hq ↦ ?_, ?_⟩
    · obtain ⟨t, ht, rfl⟩ := get_modify hs
      split
      · next heq =>
        subst heq
        exact (hclose ht).1
      · exact h.fine q t ht
    · rw [length_modify]
      exact h.lt q hq
    · rw [targets_eq_nil (halone g hg)] at hq
      cases hq
    · rintro _ ⟨⟩
      split
      · refine ⟨halone, hleft, fun j q hj s hs ↦ ?_⟩
        cases j with
        | zero =>
          obtain rfl : p = q := Option.some.inj hj
          obtain ⟨t, ht, rfl⟩ := get_modify hs
          rw [if_pos rfl]
          exact (hclose ht).2
        | succ j => exact hrest hj hs
      · refine ⟨halone, hnodup, fun j q hj s hs ↦ ?_⟩
        rw [ite_self]
        exact hrest hj hs

theorem isFree_iff : m.isFree = true ↔ m.closing = none ∧ ∀ g ∈ m.signals, g.isReader = false := by
  simp [isFree]

theorem allOpen_iff :
    m.allOpen = true ↔ ∀ p ∈ m.places, ∀ s, m.all[p]? = some s → s.closed = 0 := by
  simp [allOpen, Option.all_eq_true]

theorem Inv.startClosing (h : Inv m) (hfree : m.isFree = true) (hopen : m.allOpen = true)
    {c : Closing} (hnext : c.next = 0) (hnodup : c.left.Nodup)
    (hleft : ∀ p ∈ c.left, p ∈ m.places) :
    Inv { m with closing := some c } := by
  refine ⟨h.fine, h.nodup, h.lt, h.reading, ?_⟩
  rintro _ ⟨⟩
  refine ⟨(isFree_iff.mp hfree).2, hnodup, fun j p hj s hs ↦ ?_⟩
  rw [hnext, ite_self]
  exact allOpen_iff.mp hopen p (hleft p (mem_of_getElem? hj)) s hs

theorem Inv.nextOf (h : Inv m) (hg : m.signals[i]? = some g) : Inv (m.nextOf i g) := by
  have hopen := h.reading g (mem_of_getElem? hg)
  fun_cases EventManager.nextOf m i g with
  | case1 => exact h
  | case2 =>
    have hmem {g' : Signal} (hg' : g' ∈ m.signals.eraseIdx i) := mem_of_mem_eraseIdx hg'
    exact ⟨h.fine, h.nodup, h.lt, fun g' hg' ↦ h.reading g' (hmem hg'),
      fun c hc ↦ (h.closing c hc).imp_left fun halone g' hg' ↦ halone g' (hmem hg')⟩
  | case3 p event todo =>
    have hpushed := h.modify p fun s hs ↦ (h.fine p s hs).push (hopen p mem_cons_self s hs) event
    refine hpushed.setSignal hg rfl fun q hq ↦ ?_
    split at hq
    · exact hq
    · exact mem_cons_of_mem _ hq
  | case4 p todo =>
    have hnotified := h.modify p fun s hs ↦ (h.fine p s hs).notify (hopen p mem_cons_self s hs)
    exact hnotified.setSignal hg rfl fun q hq ↦ mem_cons_of_mem _ hq

theorem Inv.subscribe (h : Inv m) (hfree : m.isFree = true) (id : ℕ) (eventTypes : List Int32) :
    Inv { m with
      all := m.all ++ [{ eventTypes := eventTypes }]
      subscriptions := (id, m.all.length) :: m.subscriptions.filter (·.1 ≠ id)
      numSubscriptions := m.numSubscriptions + 1 } := by
  obtain ⟨hnone, hreaders⟩ := isFree_iff.mp hfree
  have hsub := sublist_places (m := m) id
  refine ⟨fun p s hs ↦ ?_, ?_, fun p hp ↦ ?_, fun g hg p hp ↦ ?_, ?_⟩
  · rcases mem_append.mp (mem_of_getElem? hs) with hold | hnew
    · obtain ⟨q, hq⟩ := getElem?_of_mem hold
      exact h.fine q s hq
    · cases mem_singleton.mp hnew
      exact ⟨rfl, by simp⟩
  · exact nodup_cons.mpr
      ⟨fun hmem ↦ Nat.lt_irrefl _ (h.lt _ (hsub.subset hmem)), h.nodup.sublist hsub⟩
  · rw [length_append, length_singleton]
    rcases mem_cons.mp hp with rfl | hold
    · exact Nat.lt_succ_self _
    · exact lt_succ_of_lt (h.lt p (hsub.subset hold))
  · rw [targets_eq_nil (hreaders g hg)] at hp
    cases hp
  · intro c hc
    cases hnone.symm.trans hc

theorem Inv.rlock (h : Inv m) (hopen : m.allOpen = true) (hnone : m.closing = none) (i : ℕ)
    (hg : ∀ p ∈ g.targets, p ∈ m.places) : Inv { m with signals := m.signals.set i g } := by
  refine ⟨h.fine, h.nodup, h.lt, fun g' hg' p hp ↦ ?_, ?_⟩
  · rcases mem_or_eq_of_mem_set hg' with hold | rfl
    · exact h.reading g' hold p hp
    · exact allOpen_iff.mp hopen p (hg p hp)
  · intro c hc
    cases hnone.symm.trans hc

theorem Inv.step (h : Inv m) (a : Action) (ha : m.isOrderly a = true) : Inv (m.step a) := by
  cases a with
  | subscribe id eventTypes =>
    rw [EventManager.step]
    split
    · next hfree => exact h.subscribe hfree id eventTypes
    · exact h
  | cancelSubscription id =>
    rw [EventManager.step]
    split
    · next hfree =>
      split
      · next p hfind =>
        have hmem : p ∈ m.places := mem_map_of_mem (mem_of_find?_eq_some hfind)
        exact h.startClosing hfree ha rfl (nodup_singleton p) (by simpa using hmem)
      · exact h
    · exact h
  | close order =>
    rw [EventManager.step]
    split
    · next hclose =>
      exact h.startClosing hclose.1 ha rfl (hclose.2.nodup_iff.mpr h.nodup)
        fun p hp ↦ hclose.2.mem_iff.mp hp
    · exact h
  | closeNext => exact h.closeNext ha
  | signalEvent type txHashes =>
    rw [EventManager.step]
    split
    · exact h
    · refine ⟨h.fine, h.nodup, h.lt, fun g hg ↦ ?_,
        fun c hc ↦ (h.closing c hc).imp_left fun halone g hg ↦ ?_⟩
      · rcases mem_append.mp hg with hold | hnew
        · exact h.reading g hold
        · cases mem_singleton.mp hnew
          exact fun p hp ↦ by cases hp
      · rcases mem_append.mp hg with hold | hnew
        · exact halone g hold
        · cases mem_singleton.mp hnew
          rfl
  | rlock i orders =>
    rw [EventManager.step]
    split
    · split
      · next hlock =>
        refine h.rlock ha hlock.1 i fun p hp ↦ ?_
        simp only [Signal.targets, todoOf, mem_map, mem_flatMap] at hp
        obtain ⟨_, ⟨⟨txHash, order⟩, hzip, q, hq, rfl⟩, rfl⟩ := hp
        exact (hlock.2.2 order (of_mem_zip hzip).2).mem_iff.mp hq
      · exact h
    · exact h
  | next i =>
    rw [EventManager.step]
    split
    · next hg => exact h.nextOf hg
    · exact h
  | runLoop p choice => exact h.modify p fun s hs ↦ (h.fine p s hs).runLoop choice
  | receive p => exact h.modify p fun s hs ↦ (h.fine p s hs).receive

/-- In a run whose steps are all orderly, no goroutine sends on a closed channel and none is closed
twice. -/
theorem safe_of_orderly (as : List Action)
    (h : Run.Admits step (fun m a ↦ m.isOrderly a = true) {} as) :
    Safe (Run.exec step {} as) := by
  have hinit : Inv {} := ⟨by simp, by simp [places], by simp [places], by simp, by simp⟩
  have hinv := h.invariant hinit fun m a hm ha ↦ hm.step a ha
  intro s hs
  obtain ⟨p, hp⟩ := getElem?_of_mem hs
  exact (hinv.fine p s hp).1

theorem safe_of_orderly_cancelled :
    Safe (Run.exec step {} [.subscribe 7 [0], .signalEvent 0 ["0x01"], .rlock 0 [[0]], .next 0,
      .next 0, .next 0, .runLoop 0 .other, .runLoop 0 .other, .receive 0, .runLoop 0 .other,
      .runLoop 0 .park, .cancelSubscription 7, .closeNext, .closeNext, .closeNext, .closeNext]) :=
  safe_of_orderly _ (by decide)

/-- A subscription is cancelled after `Close`; a `signalEvent` that has seen it before `Close` goes
on after it; and an event is about to be sent when the subscription is cancelled. -/
theorem closing_panics :
    ¬ Safe (Run.exec step {} [.subscribe 7 [0], .close [0], .closeNext, .closeNext, .closeNext,
      .closeNext, .cancelSubscription 7, .closeNext]) ∧
    ¬ Safe (Run.exec step {} [.subscribe 7 [0], .signalEvent 0 ["0x01"], .close [0], .closeNext,
      .closeNext, .closeNext, .closeNext, .rlock 0 [[0]], .next 0, .next 0]) ∧
    ¬ Safe (Run.exec step {} [.subscribe 7 [0], .signalEvent 0 ["0x01"], .rlock 0 [[0]], .next 0,
      .next 0, .next 0, .runLoop 0 .other, .runLoop 0 .other, .cancelSubscription 7, .closeNext,
      .closeNext, .runLoop 0 .other]) := by
  unfold Safe
  decide

end EventManager

end Mainnet.Txpool
