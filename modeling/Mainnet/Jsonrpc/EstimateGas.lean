import Mathlib.Tactic.Linarith

namespace Mainnet.Jsonrpc

open UInt64

/-- What `ApplyTxn` does with a transaction: an error of its own or a result that failed, of which
those for want of gas and the reverts are told apart. -/
inductive Applied
  | succeeded
  | notEnoughIntrinsicGas
  | applyErr (msg : String)
  | outOfGas
  | reverted (msg : String)
  | failed (msg : String)

inductive GetAccount
  | found (balance : ℕ)
  | stateNotFound
  | failed (msg : String)

/-- The decoded call; `sender` is what the account of a sender other than the zero address is. -/
structure CallArgs where
  gas : UInt64
  gasPrice : ℕ
  value : ℕ
  isContractCreation : Bool
  homestead : Bool
  sender : Option GetAccount
  headerGasLimit : UInt64

inductive EstimateError
  | getAccount (msg : String)
  | insufficientFunds
  | test (outcome : Applied)
  | unableToApply (highEnd : UInt64) (err : Option Applied)

def txGas : UInt64 := 21000

def txGasContractCreation : UInt64 := 53000

namespace CallArgs

def standardGas (a : CallArgs) : UInt64 :=
  if a.isContractCreation && a.homestead then txGasContractCreation else txGas

def gasCeiling (a : CallArgs) : UInt64 :=
  if a.gas ≠ 0 ∧ a.standardGas ≤ a.gas then a.gas else a.headerGasLimit

def availableBalance (a : CallArgs) : Except EstimateError (Option ℕ) :=
  match a.sender with
  | none => .ok none
  | some (.failed msg) => .error (.getAccount msg)
  | some (.found balance) =>
    if balance < a.value then .error .insufficientFunds else .ok (some (balance - a.value))
  | some .stateNotFound => if 0 < a.value then .error .insufficientFunds else .ok (some 0)

def highEnd (a : CallArgs) : Except EstimateError UInt64 :=
  a.availableBalance.map fun availableBalance ↦
    match availableBalance with
    | none => a.gasCeiling
    | some available =>
      if a.gasPrice ≠ 0 ∧ 0 < available ∧ available / a.gasPrice < a.gasCeiling.toNat then
        (available / a.gasPrice).toUInt64
      else a.gasCeiling

end CallArgs

variable (applyTxn : UInt64 → Applied)

/-- Whether the transaction failed, and the error, with a gas error left out on request. -/
def testTransaction (gas : UInt64) (shouldOmitErr : Bool) : Bool × Option Applied :=
  match applyTxn gas with
  | .succeeded => (false, none)
  | .notEnoughIntrinsicGas => (true, if shouldOmitErr then none else some .notEnoughIntrinsicGas)
  | .outOfGas => (true, if shouldOmitErr then none else some .outOfGas)
  | outcome => (true, some outcome)

/-- The binary search; `none` when `fuel` trial executions are not enough. -/
def searchGas : ℕ → UInt64 → UInt64 → Option (Except EstimateError UInt64)
  | 0, _, _ => none
  | fuel + 1, lowEnd, highEnd =>
    if lowEnd < highEnd then
      let mid := (lowEnd + highEnd) / 2
      match testTransaction applyTxn mid true with
      | (failed, none) | (failed, some (.reverted _)) =>
        if failed then searchGas fuel (mid + 1) highEnd
        else searchGas fuel lowEnd mid
      | (_, some outcome) => some (.error (.test outcome))
    else some (.ok highEnd)

def checkHighEnd (highEnd : UInt64) : Except EstimateError UInt64 :=
  match testTransaction applyTxn highEnd false with
  | (true, err) => .error (.unableToApply highEnd err)
  | (false, _) => .ok highEnd

def estimateGas (fuel : ℕ) (a : CallArgs) : Option (Except EstimateError UInt64) :=
  match a.highEnd with
  | .error e => some (.error e)
  | .ok highEnd =>
    (searchGas applyTxn fuel a.standardGas highEnd).map (·.bind (checkHighEnd applyTxn))

def Threshold (g : ℕ) : Prop :=
  ∀ gas, if g ≤ gas.toNat then applyTxn gas = .succeeded
    else applyTxn gas = .notEnoughIntrinsicGas ∨ applyTxn gas = .outOfGas

/-- The estimation ends, and is exact wherever the trial executions have a threshold. -/
def Estimates (a : CallArgs) : Prop :=
  ∃ fuel r, estimateGas applyTxn fuel a = some r ∧
    ∀ g highEnd, Threshold applyTxn g → a.highEnd = .ok highEnd → a.standardGas ≤ highEnd →
      if g ≤ highEnd.toNat then ∃ gas, r = .ok gas ∧ gas.toNat = max g a.standardGas.toNat
      else ∃ e, r = .error e

variable {applyTxn} {g : ℕ} {lowEnd highEnd : UInt64}

theorem Threshold.failed (h : Threshold applyTxn g) (gas : UInt64) (b : Bool) :
    (testTransaction applyTxn gas b).1 = decide (gas.toNat < g) ∧
      (testTransaction applyTxn gas true).2 = none := by
  have hgas := h gas
  unfold testTransaction
  split at hgas
  · next hle => simp [hgas, hle]
  · next hlt => rcases hgas with hgas | hgas <;> simp [hgas, Nat.lt_of_not_le hlt]

theorem Threshold.checkHighEnd_eq (h : Threshold applyTxn g)
    (gas : UInt64) : checkHighEnd applyTxn gas = if g ≤ gas.toNat then .ok gas
      else .error (.unableToApply gas (testTransaction applyTxn gas false).2) := by
  have hfailed := (h.failed gas false).1
  unfold checkHighEnd
  split
  · next heq => simp_all
  · next heq => simp_all

theorem mid_toNat (h : lowEnd < highEnd) (hhigh : highEnd.toNat ≤ 2 ^ 63) :
    ((lowEnd + highEnd) / 2).toNat = (lowEnd.toNat + highEnd.toNat) / 2 ∧
      ((lowEnd + highEnd) / 2 + 1).toNat = (lowEnd.toNat + highEnd.toNat) / 2 + 1 := by
  have hlt := lt_iff_toNat_lt.mp h
  simp only [UInt64.toNat_div, UInt64.toNat_add, UInt64.reduceToNat]
  omega

theorem searchGas_spec (applyTxn : UInt64 → Applied) {n : ℕ} (lowEnd highEnd : UInt64)
    (hhigh : highEnd.toNat ≤ 2 ^ 63) (hn : highEnd.toNat - lowEnd.toNat < n) :
    ∃ r, searchGas applyTxn n lowEnd highEnd = some r ∧
      ∀ g, Threshold applyTxn g → lowEnd ≤ highEnd →
        ∃ gas, r = .ok gas ∧ gas.toNat = min highEnd.toNat (max lowEnd.toNat g) := by
  induction n generalizing lowEnd highEnd with
  | zero => omega
  | succ n ih =>
    rw [searchGas]
    split
    · next hlt =>
      obtain ⟨hmid, hnext⟩ := mid_toNat hlt hhigh
      have hlt := lt_iff_toNat_lt.mp hlt
      obtain ⟨r₁, h₁, hr₁⟩ := ih ((lowEnd + highEnd) / 2 + 1) highEnd hhigh (by omega)
      obtain ⟨r₂, h₂, hr₂⟩ := ih lowEnd ((lowEnd + highEnd) / 2) (by omega) (by omega)
      have htest := fun g (hg : Threshold applyTxn g) ↦ hg.failed ((lowEnd + highEnd) / 2) true
      rw [le_iff_toNat_le] at hr₁ hr₂
      dsimp only
      generalize testTransaction applyTxn ((lowEnd + highEnd) / 2) true = test at htest ⊢
      split
      · next failed =>
        cases failed with
        | true =>
          refine ⟨r₁, h₁, fun g hg _ ↦ ?_⟩
          have hfail : _ < g := of_decide_eq_true (htest g hg).1.symm
          obtain ⟨gas, hgas, hmin⟩ := hr₁ g hg (by omega)
          exact ⟨gas, hgas, by omega⟩
        | false =>
          refine ⟨r₂, h₂, fun g hg _ ↦ ?_⟩
          have hpass : ¬ _ < g := of_decide_eq_false (htest g hg).1.symm
          obtain ⟨gas, hgas, hmin⟩ := hr₂ g hg (by omega)
          exact ⟨gas, hgas, by omega⟩
      · next failed _ =>
        cases failed with
        | true => exact ⟨r₁, h₁, fun g hg ↦ by cases (htest g hg).2⟩
        | false => exact ⟨r₂, h₂, fun g hg ↦ by cases (htest g hg).2⟩
      · exact ⟨_, rfl, fun g hg ↦ by cases (htest g hg).2⟩
    · next hge =>
      refine ⟨_, rfl, fun g _ hle ↦ ⟨highEnd, rfl, ?_⟩⟩
      rw [lt_iff_toNat_lt] at hge
      rw [le_iff_toNat_le] at hle
      omega

/-- Where every trial runs out of gas, a ceiling above `2 ^ 63` is never reached. -/
theorem searchGas_outOfGas (hhigh : 2 ^ 63 < highEnd.toNat)
    (hlow : lowEnd.toNat ≤ 2 ^ 63) (fuel : ℕ) :
    searchGas (fun _ ↦ .outOfGas) fuel lowEnd highEnd = none := by
  induction fuel generalizing lowEnd with
  | zero => rfl
  | succ fuel ih =>
    have hlt : lowEnd < highEnd := lt_iff_toNat_lt.mpr (by omega)
    rw [searchGas, if_pos hlt]
    refine ih ?_
    simp only [UInt64.toNat_div, UInt64.toNat_add, UInt64.reduceToNat]
    omega

theorem standardGas_le (a : CallArgs) : a.standardGas.toNat ≤ 2 ^ 63 := by
  unfold CallArgs.standardGas
  split <;> decide

theorem not_estimates {a : CallArgs} (h : a.highEnd = .ok highEnd)
    (hlarge : 2 ^ 63 < highEnd.toNat) : ¬ Estimates (fun _ ↦ .outOfGas) a := by
  rintro ⟨fuel, r, hr, -⟩
  rw [estimateGas, h] at hr
  simp [searchGas_outOfGas hlarge (standardGas_le a)] at hr

theorem estimates_iff (a : CallArgs) :
    (∀ applyTxn, Estimates applyTxn a) ↔
      ∀ highEnd, a.highEnd = .ok highEnd → highEnd.toNat ≤ 2 ^ 63 := by
  constructor
  · intro h highEnd hhigh
    by_contra hlarge
    exact not_estimates hhigh (Nat.lt_of_not_le hlarge) (h _)
  · intro h applyTxn
    unfold Estimates estimateGas
    cases hhigh : a.highEnd with
    | error e => exact ⟨0, .error e, rfl, fun _ _ _ h ↦ by cases h⟩
    | ok highEnd =>
      obtain ⟨r, hr, hexact⟩ :=
        searchGas_spec applyTxn a.standardGas highEnd (h highEnd hhigh) (Nat.lt_succ_self _)
      refine ⟨_, r.bind (checkHighEnd applyTxn), congrArg (Option.map _) hr, fun g high hg heq hle ↦ ?_⟩
      cases heq
      obtain ⟨gas, rfl, hgas⟩ := hexact g hg hle
      rw [le_iff_toNat_le] at hle
      simp only [Except.bind, hg.checkHighEnd_eq gas]
      split
      · next hg => exact ⟨gas, if_pos (by omega), by omega⟩
      · next hg => exact ⟨_, if_neg (by omega)⟩

/-- With the largest gas value the search does not end when no gas is enough. -/
theorem estimateGas_not_ends :
    ¬ Estimates (fun _ ↦ .outOfGas) ⟨0xffffffffffffffff, 0, 0, false, false, none, 0⟩ :=
  not_estimates (show CallArgs.highEnd _ = Except.ok 0xffffffffffffffff from rfl) (by decide)

end Mainnet.Jsonrpc
