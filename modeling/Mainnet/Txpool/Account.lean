import Mainnet.Lib.HeapOrder
import Mainnet.Lib.Outcome
import Mainnet.Lib.Run
import Mainnet.Types.Basic

namespace Mainnet.Txpool

open Types Lib List Nat Heap

structure QueuedTx where
  nonce : ℕ
  gasPrice : ℤ
  fromAddr : Address
deriving DecidableEq

open QueuedTx

def QueuedTx.less (t u : QueuedTx) : Bool :=
  if t.nonce = u.nonce then decide (u.gasPrice < t.gasPrice) else decide (t.nonce < u.nonce)

theorem QueuedTx.less_eq_false_iff (t u : QueuedTx) :
    t.less u = false ↔ u.nonce < t.nonce ∨ (t.nonce = u.nonce ∧ t.gasPrice ≤ u.gasPrice) := by
  unfold less
  split_ifs with h
  · simp [h]
  · simp only [decide_eq_false_iff_not]
    omega

theorem QueuedTx.weakOrder_less : WeakOrder less where
  asymm t u htu := by
    rw [← Bool.not_eq_false, less_eq_false_iff] at htu
    rw [less_eq_false_iff]
    omega
  trans t u v htu huv := by
    rw [less_eq_false_iff] at *
    omega

structure AccountQueue where
  queue : List QueuedTx
  heap : Ordered (listOps less) queue queue.length

open AccountQueue

namespace AccountQueue

def new : AccountQueue := ⟨[], fun _ _ hlt ↦ absurd hlt (not_lt_zero _)⟩

def length (q : AccountQueue) : ℕ := q.queue.length

def push (q : AccountQueue) (tx : QueuedTx) : AccountQueue :=
  ⟨Heap.push less q.queue tx, Heap.ordered_push weakOrder_less q.heap tx⟩

def peek (q : AccountQueue) : Option QueuedTx := q.queue.head?

theorem pop_heap (q : AccountQueue) : ∀ r ∈ pop less q.queue,
    Ordered (listOps less) r.2 r.2.length := by
  intro r hr
  cases hq : q.queue with
  | nil =>
    rw [hq, pop_nil] at hr
    cases hr
  | cons first rest =>
    obtain ⟨l', hpop, -, hheap⟩ := pop_spec weakOrder_less q.heap
      (by rw [hq]; rfl : q.queue.head? = some first)
    rw [hpop] at hr
    obtain rfl := Option.some.inj hr
    exact hheap

def pop (q : AccountQueue) : Option (QueuedTx × AccountQueue) :=
  (Heap.pop less q.queue).pmap (fun r hr ↦ (r.1, ⟨r.2, hr⟩)) q.pop_heap

variable {q q' : AccountQueue} {tx : QueuedTx}

theorem push_perm (q : AccountQueue) (tx : QueuedTx) : (q.push tx).queue.Perm (tx :: q.queue) :=
  Heap.push_perm q.queue tx

theorem pop_of_peek (h : q.peek = some tx) :
    ∃ q', q.pop = some (tx, q') ∧ q.queue.Perm (tx :: q'.queue) := by
  obtain ⟨l', hpop, hperm, hheap⟩ := Heap.pop_spec weakOrder_less q.heap h
  refine ⟨⟨l', hheap⟩, ?_, hperm⟩
  simp [pop, hpop]

theorem peek_eq_none_iff : q.peek = none ↔ q.queue = [] := head?_eq_none_iff

theorem mem_of_peek (h : q.peek = some tx) : tx ∈ q.queue := mem_of_head? h

theorem peek_first (h : q.peek = some tx) {t : QueuedTx} (ht : t ∈ q.queue) :
    tx.nonce < t.nonce ∨ (t.nonce = tx.nonce ∧ t.gasPrice ≤ tx.gasPrice) :=
  (less_eq_false_iff t tx).mp (before_head weakOrder_less q.heap h ht)

theorem pop_length (h : q.pop = some (tx, q')) : q'.queue.length < q.queue.length := by
  cases hpeek : q.peek with
  | none =>
    simp [pop, peek_eq_none_iff.mp hpeek, Heap.pop_nil] at h
  | some first =>
    obtain ⟨q₁, hpop, hperm⟩ := pop_of_peek hpeek
    obtain ⟨rfl, rfl⟩ := Prod.ext_iff.mp (Option.some.inj (hpop.symm.trans h))
    rw [hperm.length_eq]
    exact lt_succ_self _

def prune (q : AccountQueue) (nonce : ℕ) : List QueuedTx × AccountQueue :=
  match q.peek with
  | none => ([], q)
  | some first =>
    if nonce ≤ first.nonce then ([], q)
    else
      match h : q.pop with
      | none => ([], q)
      | some (tx, rest) =>
        have := pop_length h
        let r := rest.prune nonce
        (tx :: r.1, r.2)
termination_by q.queue.length

structure Pruned (q : AccountQueue) (nonce : ℕ) (r : List QueuedTx × AccountQueue) : Prop where
  perm : q.queue.Perm (r.1 ++ r.2.queue)
  low : ∀ t ∈ r.1, t.nonce < nonce
  high : ∀ t ∈ r.2.queue, nonce ≤ t.nonce

theorem prune_spec (q : AccountQueue) (nonce : ℕ) : Pruned q nonce (q.prune nonce) := by
  fun_induction prune q nonce with
  | case1 q hpeek =>
    refine ⟨Perm.refl _, by simp, ?_⟩
    rw [peek_eq_none_iff.mp hpeek]
    simp
  | case2 q first hpeek hge =>
    refine ⟨Perm.refl _, by simp, fun t ht ↦ ?_⟩
    rcases peek_first hpeek ht with hlt | ⟨heq, -⟩ <;> omega
  | case3 q first hpeek hlt hpop =>
    obtain ⟨q', hpop', -⟩ := pop_of_peek hpeek
    cases hpop.symm.trans hpop'
  | case4 q first hpeek hlt tx rest hpop hlen r ih =>
    obtain ⟨q', hpop', hperm⟩ := pop_of_peek hpeek
    obtain ⟨rfl, rfl⟩ := Prod.ext_iff.mp (Option.some.inj (hpop.symm.trans hpop'))
    refine ⟨hperm.trans (ih.perm.cons _), ?_, ih.high⟩
    rw [forall_mem_cons]
    exact ⟨not_le.mp hlt, ih.low⟩

theorem prune_length (q : AccountQueue) (nonce : ℕ) :
    (q.prune nonce).2.queue.length ≤ q.queue.length := by
  rw [(prune_spec q nonce).perm.length_eq, length_append]
  exact le_add_left _ _

end AccountQueue

structure Promotion where
  enqueued : AccountQueue
  promoted : AccountQueue
  nextNonce : ℕ
  moved : List QueuedTx
  pruned : List QueuedTx

def promoteLoop (enqueued promoted : AccountQueue) (nextNonce : ℕ) : Promotion :=
  match enqueued.peek with
  | none => ⟨enqueued, promoted, nextNonce, [], []⟩
  | some first =>
    if first.nonce ≠ nextNonce then ⟨enqueued, promoted, nextNonce, [], []⟩
    else
      match h : enqueued.pop with
      | none => ⟨enqueued, promoted, nextNonce, [], []⟩
      | some (tx, rest) =>
        have := (rest.prune_length ((tx.nonce + 1) % 2 ^ 64)).trans_lt (pop_length h)
        let r := rest.prune ((tx.nonce + 1) % 2 ^ 64)
        let p := promoteLoop r.2 (promoted.push tx) ((tx.nonce + 1) % 2 ^ 64)
        { p with moved := tx :: p.moved, pruned := r.1 ++ p.pruned }
termination_by enqueued.queue.length

/-- For the longest run of consecutive nonces from `nextNonce` on, a transaction with the highest
price is moved for each nonce and the others with these nonces are pruned; nothing else leaves the
enqueued queue, and nothing gets lost. -/
structure Promotes (enqueued promoted : AccountQueue) (nextNonce : ℕ) (p : Promotion) : Prop where
  consecutive : p.moved.map nonce = range' nextNonce p.moved.length
  next : p.nextNonce = nextNonce + p.moved.length
  best : ∀ t ∈ p.moved, ∀ u ∈ enqueued.queue, u.nonce = t.nonce → u.gasPrice ≤ t.gasPrice
  others : ∀ t ∈ p.pruned, nextNonce ≤ t.nonce ∧ t.nonce < p.nextNonce
  maximal : ∀ t ∈ p.enqueued.queue, p.nextNonce < t.nonce
  split : enqueued.queue.Perm (p.moved ++ (p.pruned ++ p.enqueued.queue))
  received : p.promoted.queue.Perm (p.moved ++ promoted.queue)

variable {enqueued promoted : AccountQueue} {nextNonce : ℕ} {p : Promotion}

theorem Promotes.moved_nonce (h : Promotes enqueued promoted nextNonce p) {t : QueuedTx}
    (ht : t ∈ p.moved) : nextNonce ≤ t.nonce ∧ t.nonce < p.nextNonce := by
  have hmem := mem_map_of_mem (f := nonce) ht
  rw [h.consecutive, mem_range'_1] at hmem
  rwa [h.next]

theorem promotes_nothing (h : ∀ t ∈ enqueued.queue, nextNonce < t.nonce) :
    Promotes enqueued promoted nextNonce ⟨enqueued, promoted, nextNonce, [], []⟩ where
  consecutive := rfl
  next := rfl
  best := by simp
  others := by simp
  maximal := h
  split := Perm.refl _
  received := Perm.refl _

theorem Promotes.cons {rest : AccountQueue} {tx : QueuedTx} {r : List QueuedTx × AccountQueue}
    (hpeek : enqueued.peek = some tx) (hperm : enqueued.queue.Perm (tx :: rest.queue))
    (hwait : ∀ t ∈ enqueued.queue, tx.nonce ≤ t.nonce) (hr : rest.Pruned (tx.nonce + 1) r)
    (h : Promotes r.2 (promoted.push tx) (tx.nonce + 1) p) :
    Promotes enqueued promoted tx.nonce
      { p with moved := tx :: p.moved, pruned := r.1 ++ p.pruned } := by
  have hnext : p.nextNonce = tx.nonce + 1 + p.moved.length := h.next
  have hall : enqueued.queue.Perm (tx :: (r.1 ++ r.2.queue)) := hperm.trans (hr.perm.cons tx)
  constructor
  · simp only [map_cons, length_cons, range'_succ, h.consecutive]
  · simp only [length_cons, hnext]
    omega
  · intro t ht u hu hnonce
    rcases mem_cons.mp ht with rfl | ht
    · rcases peek_first hpeek hu with hlt | ⟨-, hle⟩
      · omega
      · exact hle
    · -- a transaction with a later nonce is not among those pruned here
      have hlater := h.moved_nonce ht
      have hmem := hall.mem_iff.mp hu
      rw [mem_cons, mem_append] at hmem
      rcases hmem with rfl | hu | hu
      · omega
      · have := hr.low u hu
        omega
      · exact h.best t ht u hu hnonce
  · intro t ht
    rcases mem_append.mp ht with ht | ht
    · have hlow := hr.low t ht
      have hin := hwait t (hall.mem_iff.mpr (mem_cons_of_mem _ (mem_append_left _ ht)))
      simp only
      omega
    · have := h.others t ht
      simp only
      omega
  · exact h.maximal
  · refine (hall.trans ((h.split.append_left r.1).cons tx)).trans ?_
    simp only [cons_append, append_assoc]
    exact (perm_append_comm_assoc _ _ _).cons tx
  · exact h.received.trans (((promoted.push_perm tx).append_left p.moved).trans perm_middle)

theorem promoteLoop_spec (enqueued promoted : AccountQueue) (nextNonce : ℕ)
    (hwait : ∀ t ∈ enqueued.queue, nextNonce ≤ t.nonce)
    (hsmall : ∀ t ∈ enqueued.queue, t.nonce < 2 ^ 64 - 1) :
    Promotes enqueued promoted nextNonce (promoteLoop enqueued promoted nextNonce) := by
  fun_induction promoteLoop enqueued promoted nextNonce with
  | case1 enqueued promoted nextNonce hpeek =>
    apply promotes_nothing
    rw [peek_eq_none_iff.mp hpeek]
    simp
  | case2 enqueued promoted nextNonce first hpeek hne =>
    apply promotes_nothing
    intro t ht
    have hfirst := hwait first (mem_of_peek hpeek)
    rcases peek_first hpeek ht with hlt | ⟨heq, -⟩ <;> omega
  | case3 enqueued promoted nextNonce first hpeek heq hpop =>
    obtain ⟨q', hpop', -⟩ := pop_of_peek hpeek
    cases hpop.symm.trans hpop'
  | case4 enqueued promoted nextNonce first hpeek heq tx rest hpop hlen r p ih =>
    obtain ⟨q', hpop', hperm⟩ := pop_of_peek hpeek
    obtain ⟨rfl, rfl⟩ := Prod.ext_iff.mp (Option.some.inj (hpop.symm.trans hpop'))
    obtain rfl := not_not.mp heq
    have hmod : (tx.nonce + 1) % 2 ^ 64 = tx.nonce + 1 := by
      have := hsmall tx (mem_of_peek hpeek)
      omega
    have hr : rest.Pruned (tx.nonce + 1) r := hmod ▸ rest.prune_spec _
    have hsmall' : ∀ t ∈ r.2.queue, t.nonce < 2 ^ 64 - 1 := by
      intro t ht
      exact hsmall t (hperm.mem_iff.mpr (mem_cons_of_mem _
        (hr.perm.mem_iff.mpr (mem_append_right _ ht))))
    refine Promotes.cons hpeek hperm hwait hr ?_
    have hp := ih (hmod.symm ▸ hr.high) hsmall'
    simp only [p]
    rwa [hmod] at hp ⊢

structure Account where
  enqueued : AccountQueue
  promoted : AccountQueue
  nextNonce : ℕ
  maxEnqueued : ℕ

inductive EnqueueError
  | maxEnqueuedLimitReached
  | nonceTooLow
deriving DecidableEq

namespace Account

def new (maxEnqueued nonce : ℕ) : Account := ⟨.new, .new, nonce, maxEnqueued⟩

def enqueue (a : Account) (tx : QueuedTx) : Account × Except EnqueueError Unit :=
  if a.enqueued.length = a.maxEnqueued then (a, .error .maxEnqueuedLimitReached)
  else if tx.nonce < a.nextNonce then (a, .error .nonceTooLow)
  else ({ a with enqueued := a.enqueued.push tx }, .ok ())

def promote (a : Account) : Account × List QueuedTx × List QueuedTx :=
  match a.enqueued.peek with
  | none => (a, [], [])
  | some first =>
    if first.nonce > a.nextNonce then (a, [], [])
    else
      let p := promoteLoop a.enqueued a.promoted first.nonce
      ({ a with
          enqueued := p.enqueued
          promoted := p.promoted
          nextNonce := if p.nextNonce > a.nextNonce then p.nextNonce else a.nextNonce },
        p.moved, p.pruned)

/-- What `reset` prunes, and the account in the request for a promotion if it signals one. -/
structure ResetResult where
  prunedPromoted : List QueuedTx
  prunedEnqueued : List QueuedTx
  signal : Option Address

def reset (a : Account) (nonce : ℕ) : Account × ResetResult :=
  let p := a.promoted.prune nonce
  if nonce ≤ a.nextNonce then ({ a with promoted := p.2 }, ⟨p.1, [], none⟩)
  else
    let e := a.enqueued.prune nonce
    let signal :=
      match e.2.peek with
      | none => none
      | some first => if first.nonce = nonce then some first.fromAddr else none
    ({ a with enqueued := e.2, promoted := p.2, nextNonce := nonce }, ⟨p.1, e.1, signal⟩)

end Account

inductive AccountOp
  | enqueue (tx : QueuedTx)
  | promote
  | reset (nonce : ℕ)

namespace Account

def step (a : Account) : AccountOp → Account
  | .enqueue tx => (a.enqueue tx).1
  | .promote => a.promote.1
  | .reset nonce => (a.reset nonce).1

structure Sound (a : Account) : Prop where
  waiting : ∀ t ∈ a.enqueued.queue, a.nextNonce ≤ t.nonce
  spent : ∀ t ∈ a.promoted.queue, t.nonce < a.nextNonce
  distinct : (a.promoted.queue.map nonce).Nodup
  bounded : a.enqueued.length ≤ a.maxEnqueued

def Small (a : Account) : Prop := ∀ t ∈ a.enqueued.queue, t.nonce < 2 ^ 64 - 1

variable {a : Account} {tx : QueuedTx}

theorem sound_new (maxEnqueued nonce : ℕ) : (new maxEnqueued nonce).Sound where
  waiting := by simp [new, AccountQueue.new]
  spent := by simp [new, AccountQueue.new]
  distinct := by simp [new, AccountQueue.new]
  bounded := zero_le _

section

variable (h : a.Sound)
include h

theorem Sound.enqueue (tx : QueuedTx) : (a.enqueue tx).1.Sound := by
  unfold Account.enqueue
  split_ifs with hfull hlow
  · exact h
  · exact h
  · have hperm := a.enqueued.push_perm tx
    refine ⟨?_, h.spent, h.distinct, ?_⟩
    · intro t ht
      rcases mem_cons.mp (hperm.mem_iff.mp ht) with rfl | ht
      · exact not_lt.mp hlow
      · exact h.waiting t ht
    · have hle := h.bounded
      simp only [AccountQueue.length] at *
      rw [hperm.length_eq, length_cons]
      omega

theorem promote_spec (hsmall : a.Small) :
    ∃ p, Promotes a.enqueued a.promoted a.nextNonce p ∧
      a.promote = (⟨p.enqueued, p.promoted, p.nextNonce, a.maxEnqueued⟩, p.moved, p.pruned) := by
  unfold promote
  cases hpeek : a.enqueued.peek with
  | none =>
    refine ⟨_, promotes_nothing ?_, rfl⟩
    rw [peek_eq_none_iff.mp hpeek]
    simp
  | some first =>
    simp only
    by_cases hgt : first.nonce > a.nextNonce
    · rw [if_pos hgt]
      refine ⟨_, promotes_nothing fun t ht ↦ ?_, rfl⟩
      rcases peek_first hpeek ht with hlt | ⟨heq, -⟩ <;> omega
    · have hle := h.waiting first (mem_of_peek hpeek)
      have heq : first.nonce = a.nextNonce := by omega
      have hp := promoteLoop_spec a.enqueued a.promoted a.nextNonce h.waiting hsmall
      rw [if_neg hgt, heq]
      refine ⟨_, hp, ?_⟩
      have hnext := hp.next
      simp only [Prod.mk.injEq, Account.mk.injEq, and_true, true_and]
      split_ifs <;> omega

theorem mem_enqueued_promote (hsmall : a.Small) {t : QueuedTx}
    (ht : t ∈ a.promote.1.enqueued.queue) : t ∈ a.enqueued.queue := by
  obtain ⟨p, hp, heq⟩ := promote_spec h hsmall
  rw [heq] at ht
  exact hp.split.mem_iff.mpr (mem_append_right _ (mem_append_right _ ht))

theorem Sound.promote (hsmall : a.Small) : a.promote.1.Sound := by
  obtain ⟨p, hp, heq⟩ := promote_spec h hsmall
  have hnext := hp.next
  rw [heq]
  refine ⟨fun t ht ↦ (hp.maximal t ht).le, ?_, ?_, ?_⟩
  · intro t ht
    rcases mem_append.mp (hp.received.mem_iff.mp ht) with ht | ht
    · exact (hp.moved_nonce ht).2
    · have := h.spent t ht
      simp only
      omega
  · rw [(hp.received.map _).nodup_iff, map_append, nodup_append]
    refine ⟨?_, h.distinct, ?_⟩
    · rw [hp.consecutive]
      exact nodup_range'
    · intro n hn m hm
      obtain ⟨t, ht, rfl⟩ := mem_map.mp hn
      obtain ⟨u, hu, rfl⟩ := mem_map.mp hm
      have := hp.moved_nonce ht
      have := h.spent u hu
      omega
  · have hlen := hp.split.length_eq
    have hle := h.bounded
    simp only [AccountQueue.length, length_append] at *
    omega

theorem Sound.reset (nonce : ℕ) : (a.reset nonce).1.Sound := by
  have hp := a.promoted.prune_spec nonce
  have he := a.enqueued.prune_spec nonce
  have hmem : ∀ t ∈ (a.promoted.prune nonce).2.queue, t ∈ a.promoted.queue :=
    fun t ht ↦ hp.perm.mem_iff.mpr (mem_append_right _ ht)
  have hdistinct : ((a.promoted.prune nonce).2.queue.map QueuedTx.nonce).Nodup := by
    have hnodup := (hp.perm.map QueuedTx.nonce).nodup_iff.mp h.distinct
    rw [map_append] at hnodup
    exact (nodup_append.mp hnodup).2.1
  unfold Account.reset
  by_cases hle : nonce ≤ a.nextNonce
  · simp only [if_pos hle]
    exact ⟨h.waiting, fun t ht ↦ h.spent t (hmem t ht), hdistinct, h.bounded⟩
  · simp only [if_neg hle]
    refine ⟨he.high, ?_, hdistinct, (a.enqueued.prune_length nonce).trans h.bounded⟩
    intro t ht
    have := h.spent t (hmem t ht)
    simp only
    omega

theorem nextNonce_le_step (hsmall : a.Small) (op : AccountOp) :
    a.nextNonce ≤ (a.step op).nextNonce := by
  cases op with
  | enqueue tx =>
    simp only [step, enqueue]
    split_ifs <;> exact le_rfl
  | promote =>
    obtain ⟨p, hp, heq⟩ := promote_spec h hsmall
    have hnext := hp.next
    simp only [step, heq]
    omega
  | reset nonce =>
    simp only [step, reset]
    split_ifs with hle
    · exact le_rfl
    · exact (not_le.mp hle).le

end

structure Steady (maxEnqueued : ℕ) (a : Account) : Prop where
  sound : a.Sound
  small : a.Small
  limit : a.maxEnqueued = maxEnqueued

theorem Steady.step {maxEnqueued : ℕ} (h : a.Steady maxEnqueued) (op : AccountOp)
    (hop : ∀ tx, op = .enqueue tx → tx.nonce < 2 ^ 64 - 1) : (a.step op).Steady maxEnqueued := by
  cases op with
  | enqueue tx =>
    refine ⟨h.sound.enqueue tx, ?_, ?_⟩
    · intro t ht
      simp only [Account.step, Account.enqueue] at ht
      split_ifs at ht
      · exact h.small t ht
      · exact h.small t ht
      · rcases mem_cons.mp ((a.enqueued.push_perm tx).mem_iff.mp ht) with rfl | ht
        · exact hop t rfl
        · exact h.small t ht
    · simp only [Account.step, Account.enqueue]
      split_ifs <;> exact h.limit
  | promote =>
    refine ⟨h.sound.promote h.small, fun t ht ↦ h.small t (mem_enqueued_promote h.sound h.small ht), ?_⟩
    obtain ⟨p, -, heq⟩ := promote_spec h.sound h.small
    rw [Account.step, heq]
    exact h.limit
  | reset nonce =>
    have he := a.enqueued.prune_spec nonce
    refine ⟨h.sound.reset nonce, ?_, ?_⟩
    · intro t ht
      simp only [Account.step, Account.reset] at ht
      split_ifs at ht
      · exact h.small t ht
      · exact h.small t (he.perm.mem_iff.mpr (mem_append_right _ ht))
    · simp only [Account.step, Account.reset]
      split_ifs <;> exact h.limit

theorem steady_new (maxEnqueued nonce : ℕ) : (new maxEnqueued nonce).Steady maxEnqueued :=
  ⟨sound_new maxEnqueued nonce, by simp [Small, new, AccountQueue.new], rfl⟩

theorem Steady.run {maxEnqueued : ℕ} (h : a.Steady maxEnqueued) (ops : List AccountOp)
    (hops : ∀ tx, .enqueue tx ∈ ops → tx.nonce < 2 ^ 64 - 1) :
    (Run.exec Account.step a ops).Steady maxEnqueued ∧
      a.nextNonce ≤ (Run.exec Account.step a ops).nextNonce := by
  refine Run.exec_invariant_mem
    (I := fun b : Account ↦ b.Steady maxEnqueued ∧ a.nextNonce ≤ b.nextNonce) ⟨h, le_rfl⟩ ?_
  rintro op hop b ⟨hb, hle⟩
  refine ⟨hb.step op ?_, hle.trans (nextNonce_le_step hb.sound hb.small op)⟩
  rintro tx rfl
  exact hops tx hop

/-- After any operations on a new account its queues are sound and the next nonce is no lower than
ever before; `promote` moves the longest run there is, and `enqueue` fails without a trace. -/
theorem queues_sound (maxEnqueued nonce : ℕ) (ops : List AccountOp)
    (hops : ∀ tx, .enqueue tx ∈ ops → tx.nonce < 2 ^ 64 - 1) :
    let a := Run.exec Account.step (new maxEnqueued nonce) ops
    a.Sound ∧ a.maxEnqueued = maxEnqueued ∧
      (∀ n, (Run.exec Account.step (new maxEnqueued nonce) (ops.take n)).nextNonce ≤ a.nextNonce) ∧
      (∃ p, Promotes a.enqueued a.promoted a.nextNonce p ∧
        a.promote = (⟨p.enqueued, p.promoted, p.nextNonce, maxEnqueued⟩, p.moved, p.pruned)) ∧
      ∀ tx e, (a.enqueue tx).2 = .error e → (a.enqueue tx).1 = a := by
  intro a
  have hnew := steady_new maxEnqueued nonce
  have ha : a.Steady maxEnqueued := (hnew.run ops hops).1
  refine ⟨ha.sound, ha.limit, fun n ↦ ?_, ?_, fun tx e h ↦ ?_⟩
  · have hb := (hnew.run (ops.take n) fun tx htx ↦ hops tx (mem_of_mem_take htx)).1
    have hrun := (hb.run (ops.drop n) fun tx htx ↦ hops tx (mem_of_mem_drop htx)).2
    rwa [← Run.exec_append, take_append_drop] at hrun
  · rw [← ha.limit]
    exact promote_spec ha.sound ha.small
  · unfold enqueue at *
    split_ifs at *
    · rfl
    · rfl

theorem queues_sound_three :
    let ops := [.enqueue ⟨5, 1, zeroAddress⟩, .enqueue ⟨6, 1, zeroAddress⟩,
      .enqueue ⟨5, 2, zeroAddress⟩, .promote, .reset 6]
    (Run.exec Account.step (new 2 5) ops).Sound := by
  refine (queues_sound 2 5 _ ?_).1
  intro tx htx
  simp only [mem_cons, AccountOp.enqueue.injEq, reduceCtorEq, not_mem_nil, or_false] at htx
  rcases htx with rfl | rfl | rfl <;> decide

end Account

end Mainnet.Txpool
