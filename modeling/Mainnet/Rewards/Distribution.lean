import Mathlib.Algebra.BigOperators.Ring.Finset
import Mathlib.Algebra.Order.BigOperators.Group.Finset
import Mainnet.Types.Basic

namespace Mainnet.Rewards

open Types List Option Nat Finset

/-- Balances by address; a missing balance is read as zero. The calls of `SetBalance` are counted,
so that a failure can be put at any of them. -/
structure State where
  balances : Address → Option ℤ
  calls : ℕ

inductive RewardError (ε : Type)
  | nilState
  | zeroAddress
  | setBalance (e : ε)
deriving DecidableEq

section Model

variable {ε : Type} (fails : ℕ → Option ε)

def State.balance (s : State) (addr : Address) : ℤ := (s.balances addr).getD 0

def setBalance (s : State) (addr : Address) (balance : ℤ) : Option (RewardError ε) × State :=
  match fails s.calls with
  | some e => (some (.setBalance e), { s with calls := s.calls + 1 })
  | none => (none, ⟨Function.update s.balances addr (some balance), s.calls + 1⟩)

def credit (s : State) (addr : Address) (share : ℕ) : Option (RewardError ε) × State :=
  setBalance fails s addr (s.balance addr + share)

def creditValidators (blockProducer : Address) (validatorShare : ℕ) :
    List Address → State → Option (RewardError ε) × State
  | [], s => (none, s)
  | addr :: validators, s =>
    if addr = zeroAddress then creditValidators blockProducer validatorShare validators s
    else if addr = blockProducer then creditValidators blockProducer validatorShare validators s
    else
      match credit fails s addr validatorShare with
      | (some e, s) => (some e, s)
      | (none, s) => creditValidators blockProducer validatorShare validators s

def producerShare (rewardPerBlock : ℕ) : ℕ := rewardPerBlock * 80 / 100

def validatorShare (rewardPerBlock : ℕ) (validators : List Address) : ℕ :=
  (rewardPerBlock - producerShare rewardPerBlock) / validators.length

def distributeBlockReward (rewardPerBlock : ℕ) (s : Option State) (blockProducer : Address)
    (validators : List Address) : Option (RewardError ε) × Option State :=
  match s with
  | none => (some .nilState, none)
  | some s =>
    if blockProducer = zeroAddress then (some .zeroAddress, some s)
    else if validators.length = 0 then
      (credit fails s blockProducer rewardPerBlock).map id some
    else
      match credit fails s blockProducer (producerShare rewardPerBlock) with
      | (some e, s) => (some e, some s)
      | (none, s) =>
        if 0 < validatorShare rewardPerBlock validators then
          (creditValidators fails blockProducer (validatorShare rewardPerBlock validators)
            validators s).map id some
        else (none, some s)

end Model

def credited (rewardPerBlock : ℕ) (blockProducer : Address) (validators : List Address)
    (addr : Address) : ℕ :=
  if validators = [] then if addr = blockProducer then rewardPerBlock else 0
  else if addr = blockProducer then 80 * rewardPerBlock / 100
  else if addr = zeroAddress then 0
  else validators.count addr *
    ((rewardPerBlock - 80 * rewardPerBlock / 100) / validators.length)

def payees (blockProducer : Address) (validators : List Address) : List Address :=
  validators.filter fun addr ↦ addr ≠ zeroAddress ∧ addr ≠ blockProducer

variable {ε : Type} {fails : ℕ → Option ε} {s s' : State} {addr producer : Address}
  {share reward : ℕ} {validators : List Address}

theorem credit_of_none (h : fails s.calls = none) (addr : Address) (share : ℕ) :
    ∃ s', credit fails s addr share = (none, s') ∧ s'.calls = s.calls + 1 ∧
      ∀ a, s'.balance a = s.balance a + if a = addr then share else 0 := by
  rw [credit, setBalance, h]
  refine ⟨_, rfl, rfl, fun a ↦ ?_⟩
  by_cases ha : a = addr
  · subst ha
    simp [State.balance]
  · simp [State.balance, ha]

theorem credit_of_some {e : ε} (h : fails s.calls = some e) (addr : Address) (share : ℕ) :
    credit fails s addr share = (some (.setBalance e), { s with calls := s.calls + 1 }) := by
  rw [credit, setBalance, h]

theorem payees_cons (hzero : addr ≠ zeroAddress) (hproducer : addr ≠ producer) :
    payees producer (addr :: validators) = addr :: payees producer validators :=
  filter_cons_of_pos (by simp [hzero, hproducer])

/-- What calls number `n`, `n + 1`, … of `SetBalance` for the addresses of a list do: the first `k`
of them are made, and one more that fails unless these are all. -/
def Pays (fails : ℕ → Option ε) (share : ℕ) (l : List Address) (n : ℕ) (s : State)
    (result : Option (RewardError ε) × State) : Prop :=
  ∃ k ≤ l.length, (∀ j < k, fails (n + j) = none) ∧ (k < l.length → fails (n + k) ≠ none) ∧
    result.1 = (if k < l.length then (fails (n + k)).map .setBalance else none) ∧
    ∀ a, result.2.balance a = s.balance a + (l.take k).count a * share

theorem pays_creditValidators (fails : ℕ → Option ε) (producer : Address) (share : ℕ)
    (validators : List Address) (s : State) :
    Pays fails share (payees producer validators) s.calls s
      (creditValidators fails producer share validators s) := by
  induction validators generalizing s with
  | nil => exact ⟨0, le_refl _, by simp, by simp [payees], rfl, by simp [creditValidators]⟩
  | cons addr validators ih =>
    rw [creditValidators]
    split
    · next hzero =>
      rw [payees, filter_cons_of_neg (by simp [hzero])]
      exact ih s
    split
    · next hproducer =>
      rw [payees, filter_cons_of_neg (by simp [hproducer])]
      exact ih s
    next hzero hproducer =>
    rw [payees_cons hzero hproducer]
    cases hfails : fails s.calls with
    | some e =>
      rw [credit_of_some hfails]
      exact ⟨0, zero_le _, by simp, by simp [hfails], by simp [hfails],
        fun a ↦ by simp [State.balance]⟩
    | none =>
      obtain ⟨s₁, hcredit, hcalls, hbalance⟩ := credit_of_none hfails addr share
      obtain ⟨k, hk, hmade, hlast, hresult, hpaid⟩ := ih s₁
      rw [hcalls] at hmade hlast hresult
      simp only [add_right_comm _ 1, add_assoc _ _ 1] at hmade hlast hresult
      rw [hcredit]
      refine ⟨k + 1, succ_le_succ hk, fun j hj ↦ ?_, fun h ↦ hlast (lt_of_succ_lt_succ h),
        ?_, fun a ↦ ?_⟩
      · cases j with
        | zero => exact hfails
        | succ j => exact hmade j (lt_of_succ_lt_succ hj)
      · simpa using hresult
      · rw [hpaid, hbalance, take_succ_cons, count_cons]
        by_cases ha : a = addr
        · subst ha
          rw [if_pos rfl, if_pos BEq.rfl]
          push_cast
          linarith
        · simp [ha, Ne.symm ha]

theorem count_payees (a : Address) :
    (payees producer validators).count a =
      if a = producer ∨ a = zeroAddress then 0 else validators.count a := by
  split
  · next h =>
    refine count_eq_zero.mpr fun hmem ↦ ?_
    have := (mem_filter.mp hmem).2
    simp_all
  · next h =>
    rw [not_or] at h
    exact count_filter (by simp [h])

theorem sum_count_le (l : List Address) (A : Finset Address) : ∑ a ∈ A, l.count a ≤ l.length := by
  induction l with
  | nil => simp
  | cons b l ih =>
    have hone : ∑ a ∈ A, (if b = a then 1 else 0) ≤ 1 := by
      rw [sum_ite_eq]
      split <;> omega
    simp only [count_cons, beq_iff_eq, sum_add_distrib, length_cons]
    omega

theorem sum_credited_le (A : Finset Address) :
    ∑ a ∈ A, credited reward producer validators a ≤ reward := by
  by_cases hnil : validators = []
  · simp only [credited, hnil, if_true, sum_ite_eq']
    split <;> omega
  · generalize hp : 80 * reward / 100 = p
    generalize hv : (reward - p) / validators.length = v
    have hle (a : Address) : credited reward producer validators a ≤
        (if a = producer then p else 0) + validators.count a * v := by
      simp only [credited, hnil, if_false, hp, hv]
      split
      · exact le_add_right _ _
      · split
        · exact zero_le _
        · exact le_add_left _ _
    have hproducer : ∑ a ∈ A, (if a = producer then p else 0) ≤ p := by
      rw [sum_ite_eq']
      split <;> omega
    have hshares : v * validators.length ≤ reward - p := hv ▸ div_mul_le_self _ _
    calc ∑ a ∈ A, credited reward producer validators a
      _ ≤ ∑ a ∈ A, ((if a = producer then p else 0) + validators.count a * v) :=
        sum_le_sum fun a _ ↦ hle a
      _ ≤ p + validators.length * v := by
        rw [sum_add_distrib, ← sum_mul]
        exact Nat.add_le_add hproducer (Nat.mul_le_mul_right v (sum_count_le validators A))
      _ ≤ reward := by
        rw [mul_comm]
        omega

def paid (reward : ℕ) (producer : Address) (validators : List Address) : List Address :=
  if 0 < validatorShare reward validators then payees producer validators else []

theorem distributeBlockReward_unpaid (hproducer : producer ≠ zeroAddress) {e : ε}
    (h : fails s.calls = some e) :
    distributeBlockReward fails reward (some s) producer validators =
      (some (.setBalance e), some { s with calls := s.calls + 1 }) := by
  simp only [distributeBlockReward, if_neg hproducer, credit_of_some h]
  split <;> rfl

theorem distributeBlockReward_alone (reward : ℕ) (hproducer : producer ≠ zeroAddress)
    (h : fails s.calls = none) :
    ∃ s', distributeBlockReward fails reward (some s) producer [] = (none, some s') ∧
      ∀ a, s'.balance a = s.balance a + if a = producer then reward else 0 := by
  obtain ⟨s', hcredit, -, hbalance⟩ := credit_of_none h producer reward
  refine ⟨s', ?_, hbalance⟩
  simp only [distributeBlockReward, if_neg hproducer, hcredit]
  rfl

theorem distributeBlockReward_paid (reward : ℕ) (hproducer : producer ≠ zeroAddress)
    (hnil : validators ≠ []) (h : fails s.calls = none) :
    ∃ s₁ result, (∀ a, s₁.balance a =
        s.balance a + if a = producer then producerShare reward else 0) ∧
      distributeBlockReward fails reward (some s) producer validators = result.map id some ∧
      Pays fails (validatorShare reward validators) (paid reward producer validators)
        (s.calls + 1) s₁ result := by
  obtain ⟨s₁, hcredit, hcalls, hbalance⟩ := credit_of_none h producer (producerShare reward)
  simp only [distributeBlockReward, if_neg hproducer, length_eq_zero_iff, if_neg hnil, hcredit]
  rw [paid, ← hcalls]
  split
  · exact ⟨s₁, _, hbalance, rfl, pays_creditValidators fails producer _ validators s₁⟩
  · exact ⟨s₁, (none, s₁), hbalance, rfl, 0, le_refl _, by simp, by simp, rfl, by simp⟩

theorem distributeBlockReward_balance (hproducer : producer ≠ zeroAddress)
    (h : distributeBlockReward fails reward (some s) producer validators = (none, some s'))
    (a : Address) : s'.balance a = s.balance a + credited reward producer validators a := by
  cases hfails : fails s.calls with
  | some e =>
    rw [distributeBlockReward_unpaid hproducer hfails] at h
    cases h
  | none =>
    by_cases hnil : validators = []
    · subst hnil
      obtain ⟨s₁, heq, hbalance⟩ := distributeBlockReward_alone reward hproducer hfails
      cases heq.symm.trans h
      exact hbalance a
    obtain ⟨s₁, ⟨_, _⟩, hshare, heq, k, hk, -, hlast, hnone, hbalance⟩ :=
      distributeBlockReward_paid reward hproducer hnil hfails
    cases heq.symm.trans h
    obtain rfl : k = (paid reward producer validators).length := by
      refine hk.antisymm (not_lt.mp fun hlt ↦ ?_)
      rw [if_pos hlt] at hnone
      exact hlast hlt (map_eq_none_iff.mp hnone.symm)
    have hcount : ((paid reward producer validators).count a * validatorShare reward validators : ℤ) =
        (payees producer validators).count a * validatorShare reward validators := by
      rw [paid]
      split
      · rfl
      · next hzero => rw [Nat.eq_zero_of_not_pos hzero, Nat.cast_zero, mul_zero, mul_zero]
    rw [hbalance, take_length, hcount, hshare, count_payees, credited, if_neg hnil,
      validatorShare, producerShare, mul_comm reward]
    by_cases ha : a = producer
    · simp [ha]
    by_cases hz : a = zeroAddress
    · simp [hz, Ne.symm hproducer]
    · simp [ha, hz]

/-- What a successful distribution adds to each balance, and to any finite set of them. -/
theorem distributeBlockReward_conserves (fails : ℕ → Option ε) (reward : ℕ) (s s' : State)
    (producer : Address) (validators : List Address) (hproducer : producer ≠ zeroAddress)
    (h : distributeBlockReward fails reward (some s) producer validators = (none, some s')) :
    (∀ a, s'.balance a = s.balance a + credited reward producer validators a) ∧
      ∀ A : Finset Address, ∑ a ∈ A, s'.balance a ≤ ∑ a ∈ A, s.balance a + reward := by
  have hbalance := distributeBlockReward_balance hproducer h
  refine ⟨hbalance, fun A ↦ ?_⟩
  rw [sum_congr rfl fun a _ ↦ hbalance a, sum_add_distrib, ← cast_sum]
  exact Int.add_le_add_left (Int.ofNat_le.mpr (sum_credited_le A)) _

def noBalances : State := ⟨fun _ ↦ none, 0⟩

def addr₁ : Address := bytesToAddress [1]

def addr₂ : Address := bytesToAddress [2]

theorem distributeBlockReward_conserves_hundred :
    ∃ s', distributeBlockReward (fun _ ↦ (none : Option Unit)) 100 (some noBalances) addr₁
        [addr₂, zeroAddress, addr₁, addr₂] = (none, some s') ∧
      s'.balance addr₁ = 80 ∧ s'.balance addr₂ = 10 ∧ s'.balance zeroAddress = 0 := by
  refine ⟨_, rfl, ?_⟩
  have h := (distributeBlockReward_conserves (fun _ ↦ (none : Option Unit)) 100 noBalances _ addr₁
    [addr₂, zeroAddress, addr₁, addr₂] (by decide) rfl).1
  refine ⟨?_, ?_, ?_⟩ <;> rw [h] <;> decide

def AllOrNothing (fails : ℕ → Option ε) (reward : ℕ) (s : State) (producer : Address)
    (validators : List Address) : Prop :=
  producer = zeroAddress ∨ reward ≤ 1 ∨ fails s.calls ≠ none ∨
    ∀ k < (paid reward producer validators).length, fails (s.calls + 1 + k) = none

theorem count_take_paid (k : ℕ) :
    ((paid reward producer validators).take k).count producer = 0 := by
  refine count_eq_zero.mpr fun hmem ↦ ?_
  have hpaid := mem_of_mem_take hmem
  rw [paid] at hpaid
  split at hpaid
  · simp [payees] at hpaid
  · cases hpaid

/-- With a reward of one there is at most one validator to pay. -/
theorem length_paid_le (hreward : reward ≤ 1) : (paid reward producer validators).length ≤ 1 := by
  rw [paid]
  split
  · next hshare =>
    have hlength := (Nat.div_pos_iff.mp hshare).2
    exact (length_filter_le _ _).trans (hlength.trans ((Nat.sub_le _ _).trans hreward))
  · exact zero_le _

/-- A distribution is all or nothing exactly if no call fails after the producer has been paid. -/
theorem distributeBlockReward_atomic_iff (fails : ℕ → Option ε) (reward : ℕ) (s : State)
    (producer : Address) (validators : List Address) :
    (∀ e s', distributeBlockReward fails reward (some s) producer validators = (some e, some s') →
      ∀ a, s'.balance a = s.balance a) ↔ AllOrNothing fails reward s producer validators := by
  by_cases hproducer : producer = zeroAddress
  · refine iff_of_true (fun e s' h a ↦ ?_) (.inl hproducer)
    rw [distributeBlockReward, if_pos hproducer] at h
    cases h
    rfl
  cases hfails : fails s.calls with
  | some e =>
    refine iff_of_true (fun e s' h a ↦ ?_) (.inr (.inr (.inl (by simp [hfails]))))
    rw [distributeBlockReward_unpaid hproducer hfails] at h
    cases h
    rfl
  | none =>
    by_cases hnil : validators = []
    · subst hnil
      obtain ⟨s₁, heq, -⟩ := distributeBlockReward_alone reward hproducer hfails
      refine iff_of_true (fun e s' h ↦ ?_) (.inr (.inr (.inr ?_)))
      · cases heq.symm.trans h
      · simp [paid, payees]
    obtain ⟨s₁, ⟨error, s₂⟩, hshare, heq, k, hk, hmade, hlast, rfl, hbalance⟩ :=
      distributeBlockReward_paid reward hproducer hnil hfails
    rw [heq]
    by_cases hlt : k < (paid reward producer validators).length
    swap
    · rw [if_neg hlt]
      obtain rfl := hk.antisymm (not_lt.mp hlt)
      exact iff_of_true (fun e s' h ↦ by cases h) (.inr (.inr (.inr hmade)))
    obtain ⟨e, he⟩ := ne_none_iff_exists'.mp (hlast hlt)
    simp only [if_pos hlt, he]
    by_cases hreward : reward ≤ 1
    · refine iff_of_true (fun e s' h a ↦ ?_) (.inr (.inl hreward))
      cases h
      obtain rfl : k = 0 := lt_one_iff.mp (hlt.trans_le (length_paid_le hreward))
      rw [hbalance, hshare, producerShare, div_eq_of_lt (by omega)]
      simp
    · refine iff_of_false (fun h ↦ ?_) ?_
      · have hsame := h _ s₂ rfl producer
        rw [hbalance, count_take_paid, hshare, if_pos rfl, producerShare] at hsame
        omega
      · rintro (h | h | h | h)
        · exact hproducer h
        · exact hreward h
        · exact h hfails
        · exact hlast hlt (h k hlt)

def lateFailure (k : ℕ) : Option Unit := if k = 1 then some () else none

/-- The second call fails when the producer has its share. -/
theorem distributeBlockReward_keeps_share :
    ∃ s', distributeBlockReward lateFailure 100 (some noBalances) addr₁ [addr₂] =
        (some (.setBalance ()), some s') ∧
      noBalances.balance addr₁ = 0 ∧ s'.balance addr₁ = 80 :=
  ⟨_, rfl, by decide, by decide⟩

end Mainnet.Rewards
