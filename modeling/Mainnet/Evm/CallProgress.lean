import Mainnet.Evm.Progress

namespace Mainnet.Evm

open Types Mainnet.Runtime Lib Prog List Nat

variable {σ : Type} {E : Env σ} {c₀ c : State σ} {d : ℕ} {op : OpCode} {gas n : ℕ} {addr : Address}
  {α : Type} {operand live : List ℤ} {value length : ℤ} {result : ExecutionResult}
  {Q : α → State σ → Prop}

theorem addGas_progress (hr : Runs (n + d) c₀ c) (h : gas ≤ n) :
    Returns (addGas gas) c fun _ ↦ Progress d c₀ := by
  refine returns_modify.mpr (.inr ⟨?_, fun hip ↦ ?_⟩)
  · have := hr.gas
    dsimp only
    omega
  · have := hr.ip
    dsimp only
    omega

theorem callsNewAccount_runs {transfersValue : Bool} (hr : Runs d c₀ c) :
    Returns (callsNewAccount E op addr transfersValue) c fun _ c' ↦
      Runs d c₀ c' ∧ c'.memory = c.memory := by
  refine returns_ite (fun _ ↦ ?_) fun _ ↦ returns_pure.mpr ⟨hr, rfl⟩
  refine returns_ite (fun _ ↦ ?_) fun _ ↦ ?_
  · refine returns_ite (fun _ ↦ ?_) fun _ ↦ returns_pure.mpr ⟨hr, rfl⟩
    refine returns_bind.mpr (returns_get.mpr (returns_bind.mpr (returns_set.mpr ?_)))
    exact returns_pure.mpr ⟨hr.same rfl rfl rfl rfl, rfl⟩
  · exact callHost_then hr fun _ c' hr' _ hmemory ↦ returns_pure.mpr ⟨hr', hmemory⟩

section Gas

variable {config : ForksInTime} {newAccount transfersValue : Bool}

theorem callCost_le : callCost config newAccount transfersValue ≤ 34700 := by
  unfold callCost
  split_ifs <;> omega

theorem callCost_le_of_not_eip150 (h : config.eip150 = false) :
    callCost config newAccount transfersValue ≤ 34040 := by
  simp only [callCost, h, Bool.false_eq_true, if_false]
  split_ifs <;> omega

theorem childGas_lt (gas : ℕ) : (if transfersValue = true then (gas + 2300) % 2 ^ 64 else gas) <
    callCost config newAccount transfersValue + gas := by
  cases transfersValue with
  | false =>
    have hcost : 40 ≤ callCost config newAccount false := by
      unfold callCost
      split_ifs <;> omega
    simp only [Bool.false_eq_true, if_false]
    omega
  | true =>
    have hcost : 9040 ≤ callCost config newAccount true := by
      simp only [callCost, if_true]
      split_ifs <;> omega
    simp only [if_true]
    omega

theorem callGas_add_lt {initialGas : ℤ} {gas gasCost forwarded : ℕ} (hcost : gasCost ≤ 34700)
    (hcost' : config.eip150 = false → gasCost ≤ 34040)
    (hsafe : config.eip150 = true ∨ initialGas < 2 ^ 64 - 34040 ∨ 2 ^ 64 ≤ initialGas)
    (h : callGas config initialGas gas gasCost = some forwarded) :
    gasCost + forwarded < 2 ^ 64 := by
  unfold callGas at h
  split at h
  · dsimp only at h
    split_ifs at h with hbig
    · cases h
      omega
    · cases h
      simp only [Bool.or_eq_true, Bool.not_eq_true', not_or, Bool.not_eq_false,
        decide_eq_true_eq] at hbig
      omega
  · rename_i h150
    split at h
    · rename_i hfit
      cases h
      have huint := natCast_uint64 hfit
      have := hcost' (by simpa using h150)
      obtain h | h | h := hsafe
      · exact absurd h h150
      · omega
      · have := of_decide_eq_true hfit
        omega
    · cases h

end Gas

/-- What is left to do after `buildCallContract`, in terms of the state `c₀` it was called in: the
child's gas and at least one more has been spent. -/
def CallBuilt (c₀ : State σ) : Built (Contract × ℕ × ℕ) → State σ → Prop
  | .stopped, c => c.stop = true
  | .failed contract, c => ∃ k, contract = some k ∧ Runs (k.gas + 1) c₀ c
  | .contract (k, offset, size), c => Runs (k.gas + 1) c₀ c ∧ offset + size ≤ c.memory.cap

theorem popIf_then {k : Option ℤ → Machine σ α} {p : Prop} [Decidable p] (hr : Runs d c₀ c)
    (h : c.stack.live = operand ++ live) (hlength : operand.length = if p then 1 else 0)
    (hk : ∀ value c', Runs d c₀ c' → c'.stack.live = live → Returns (k value) c' Q) :
    Returns (popIf p >>= k) c Q := by
  refine returns_bind.mpr (returns_ite (fun hp ↦ ?_) fun hp ↦ ?_)
  · rw [if_pos hp] at hlength
    obtain ⟨value, rfl⟩ := length_eq_one_iff.mp hlength
    rw [map_eq_pure_bind]
    exact pop_then hr h fun c' hr' hlive ↦ returns_pure.mpr (hk (some value) c' hr' hlive)
  · rw [if_neg hp] at hlength
    obtain rfl := length_eq_zero_iff.mp hlength
    exact returns_pure.mpr (hk none c hr h)

theorem lacksFunds_runs (hr : Runs d c₀ c) :
    Returns (lacksFunds E value) c fun _ c' ↦ Runs d c₀ c' ∧ c'.memory = c.memory := by
  refine returns_ite (fun _ ↦ ?_) fun _ ↦ returns_pure.mpr ⟨hr, rfl⟩
  exact callHost_then hr fun _ c' hr' _ hmemory ↦ returns_pure.mpr ⟨hr', hmemory⟩

theorem callContract_gas {value : Option ℤ} {code args : Bytes} :
    (callContract E op addr value gas code args).gas = gas := by
  unfold callContract
  split_ifs <;> rfl

inductive CallReady (E : Env σ) (op : OpCode) (c : State σ) : Prop
  | intro {initialGas addr inOffset inSize retOffset retSize : ℤ} {operand live : List ℤ} :
    c.stack.live = initialGas :: addr ::
      (operand ++ inOffset :: inSize :: retOffset :: retSize :: live) →
    operand.length = (if op = .CALL ∨ op = .CALLCODE then 1 else 0) →
    (retSize = 0 → retOffset ≤ c.memory.cap) →
    (E.config.eip150 = true ∨ initialGas < 2 ^ 64 - 34040 ∨ 2 ^ 64 ≤ initialGas) →
    CallReady E op c

theorem buildCallContract_spec (h : CallReady E op c) :
    Returns (buildCallContract E op) c (CallBuilt c) := by
  obtain @⟨initialGas, _, _, _, _, _, _, _, hlive, hlength, hret, hsafe⟩ := h
  refine pop_then (.refl c) hlive fun c₁ hr₁ hlive₁ ↦ ?_
  refine popAddr_then hr₁ hlive₁ fun addr c₂ hr₂ hlive₂ ↦ ?_
  refine popIf_then hr₂ hlive₂ hlength fun value c₃ hr₃ hlive₃ ↦ ?_
  refine pop_then hr₃ hlive₃ fun c₄ hr₄ hlive₄ ↦ pop_then hr₄ hlive₄ fun c₅ hr₅ hlive₅ ↦ ?_
  refine pop_then hr₅ hlive₅ fun c₆ hr₆ hlive₆ ↦ pop_then hr₆ hlive₆ fun c₇ hr₇ _ ↦ ?_
  refine get2_then hr₇ (fun c' hstop ↦ returns_pure.mpr hstop) fun args c₈ hr₈ _ ↦ ?_
  refine returns_bind.mpr ((allocateMemory_spec hr₈).mono ?_)
  rintro _ c₉ (⟨hr₉, -, hcovered⟩ | hstop)
  · have hrange := hcovered.le_cap hr₉ hret
    rw [if_pos rfl, finishCall]
    generalize (value.any fun x ↦ decide (x ≠ 0)) = transfersValue
    refine returns_bind.mpr ((callsNewAccount_runs hr₉).mono fun newAccount c₁₀ ⟨hr₁₀, hmem₁₀⟩ ↦ ?_)
    refine returns_bind.mpr (returns_get.mpr ?_)
    cases hforward : callGas E.config initialGas c₁₀.gas
      (callCost E.config newAccount transfersValue) with
    | none => exact returns_bind.mpr (returns_exit.mpr (returns_pure.mpr rfl))
    | some gas =>
      have hlt : callCost E.config newAccount transfersValue + gas < 2 ^ 64 :=
        callGas_add_lt callCost_le callCost_le_of_not_eip150 hsafe hforward
      dsimp only
      rw [mod_eq_of_lt hlt]
      refine returns_bind.mpr ((consumeGas_spec hr₁₀).mono ?_)
      rintro _ c₁₁ (⟨hr₁₁, -, hmem₁₁⟩ | hstop)
      · refine callHost_then hr₁₁ fun code c₁₂ hr₁₂ _ hmem₁₂ ↦ returns_bind.mpr ?_
        refine (lacksFunds_runs hr₁₂).mono fun lacks c₁₃ ⟨hr₁₃, hmem₁₃⟩ ↦ ?_
        have hruns : Runs ((callContract E op addr value
            (if transfersValue = true then (gas + 2300) % 2 ^ 64 else gas) code args).gas + 1)
            c c₁₃ := by
          rw [callContract_gas]
          exact hr₁₃.weaken ((childGas_lt gas).trans_eq (zero_add _).symm)
        refine returns_ite (fun _ ↦ returns_pure.mpr ⟨_, rfl, hruns⟩) fun _ ↦
          returns_pure.mpr ⟨hruns, ?_⟩
        rwa [hmem₁₃, hmem₁₂, hmem₁₁, hmem₁₀]
      · exact returns_pure.mpr hstop
  · exact returns_pure.mpr hstop

theorem returnFromCall_progress {offset size : ℕ}
    (hr : Runs (n + 1) c₀ c) (hrange : offset + size ≤ c.memory.cap) (hleft : result.gasLeft ≤ n) :
    Returns (returnFromCall offset size result) c fun _ ↦ Progress 1 c₀ := by
  have hrest : ∀ c', Runs (n + 1) c₀ c' → Returns (do
      addGas result.gasLeft
      modify fun c ↦ { c with returnData := result.returnValue }) c' fun _ ↦ Progress 1 c₀ := by
    intro c' hr'
    refine returns_bind.mpr ((addGas_progress hr' hleft).mono fun _ c'' h ↦ ?_)
    exact returns_modify.mpr h
  refine push_then hr fun c₁ hr₁ hmemory ↦ returns_ite (fun _ ↦ ?_) fun _ ↦ hrest c₁ hr₁
  have hcap : offset + size ≤ c₁.memory.cap := by rwa [hmemory]
  refine returns_bind.mpr ((copyToMemory_spec hr₁ (le_add_right _ _) hcap).mono ?_)
  exact fun _ c₂ hr₂ ↦ hrest c₂ hr₂

def ChildrenKeepGas (H : Host σ) : Prop :=
  ∀ contract s, (H.callx contract s).1.gasLeft ≤ contract.gas

theorem callx_then {contract : Contract}
    {k : ExecutionResult → Machine σ α} (hchildren : ChildrenKeepGas E.host) (hr : Runs d c₀ c)
    (hk : ∀ result c', result.gasLeft ≤ contract.gas → Runs d c₀ c' → c'.memory = c.memory →
      Returns (k result) c' Q) : Returns (callHost (E.host.callx contract) >>= k) c Q := by
  simp only [callHost, returns_bind, returns_get, returns_set, returns_pure]
  exact hk _ _ (hchildren contract c.host) (hr.same rfl rfl rfl rfl) rfl

theorem runCall_progress (hchildren : ChildrenKeepGas E.host) (htype : (callType op).isSome)
    (h : CallReady E op c) : Progresses 1 (runCall E op) c := by
  obtain ⟨type, htype⟩ := Option.isSome_iff_exists.mp htype
  rw [runCall, htype]
  refine returns_bind.mpr ?_
  refine (buildCallContract_spec h).mono fun built c₁ hbuilt ↦ ?_
  cases built with
  | stopped => exact returns_pure.mpr (.inl hbuilt)
  | failed contract =>
    obtain ⟨k, rfl, hr₁⟩ := hbuilt
    exact push_then hr₁ fun c₂ hr₂ _ ↦ addGas_progress hr₂ le_rfl
  | contract a =>
    obtain ⟨hr₁, hrange⟩ := hbuilt
    refine callx_then hchildren hr₁ fun result c₂ hleft hr₂ hmemory ↦ ?_
    exact returnFromCall_progress hr₂ (hmemory ▸ hrange) hleft

theorem opCall_progress (hchildren : ChildrenKeepGas E.host) (htype : (callType op).isSome)
    (h : CallReady E op c) : Progresses 1 (opCall E op) c := by
  obtain ⟨hlive, hlength, hret, hsafe⟩ := h
  refine returns_bind.mpr (returns_modify.mpr ?_)
  have hcall : Returns (runCall E op) { c with returnData := [] } fun _ ↦ Progress 1 c :=
    runCall_progress hchildren htype
      ⟨hlive, hlength, hret, hsafe⟩
  refine returns_ite (fun _ ↦ ?_) fun _ ↦ ?_
  · refine returns_bind.mpr (returns_bind.mpr (returns_get.mpr ?_))
    have hlt : 3 - 1 < c.stack.live.length := by simp [hlive]
    rw [List.getElem?_eq_getElem hlt]
    exact returns_pure.mpr (returns_ite (fun _ ↦ exit_progress) fun _ ↦ hcall)
  · refine returns_ite (fun _ ↦ exit_progress) fun _ ↦ ?_
    exact returns_ite (fun _ ↦ exit_progress) fun _ ↦ hcall

def CreateBuilt (c₀ : State σ) : Built Contract → State σ → Prop
  | .stopped, c => c.stop = true
  | .failed contract, c => contract = none ∧ Runs 0 c₀ c
  | .contract k, c => Runs k.gas c₀ c

theorem consumeHashGas_spec (hr : Runs d c₀ c) :
    Returns (consumeHashGas op length) c (Checked (Runs d c₀)) := by
  refine returns_ite (fun _ ↦ ?_) fun _ ↦ returns_pure.mpr (.ok hr)
  refine (consumeGas_spec hr).mono ?_
  rintro _ c' (⟨hr', -⟩ | hstop)
  · exact .ok (hr'.weaken (le_add_right _ _))
  · exact .stopped hstop

theorem newAddress_runs {salt : Option ℤ} {input : Bytes} (hr : Runs d c₀ c) :
    Returns (newAddress E salt input) c fun _ ↦ Runs d c₀ := by
  cases salt with
  | none =>
    rw [newAddress, map_eq_pure_bind]
    exact callHost_then hr fun _ c' hr' _ _ ↦ returns_pure.mpr hr'
  | some salt => exact returns_pure.mpr hr

theorem buildCreateContract_spec {offset : ℤ}
    (hlive : c.stack.live = value :: offset :: length :: (operand ++ live))
    (hlength : operand.length = if op = .CREATE2 then 1 else 0) :
    Returns (buildCreateContract E op) c (CreateBuilt c) := by
  refine pop_then (.refl c) hlive fun c₁ hr₁ hlive₁ ↦ pop_then hr₁ hlive₁ fun c₂ hr₂ hlive₂ ↦ ?_
  refine pop_then hr₂ hlive₂ fun c₃ hr₃ hlive₃ ↦ ?_
  refine popIf_then hr₃ hlive₃ hlength fun salt c₄ hr₄ _ ↦ ?_
  refine get2_then hr₄ (fun c' hstop ↦ returns_pure.mpr hstop) fun input c₅ hr₅ _ ↦ ?_
  refine returns_bind.mpr ((consumeGas_spec hr₅).mono ?_)
  rintro _ c₆ (⟨hr₆, -⟩ | hstop)
  · refine returns_bind.mpr ((lacksFunds_runs hr₆).mono fun lacks c₇ ⟨hr₇, _⟩ ↦ ?_)
    refine returns_ite (fun _ ↦ returns_pure.mpr ⟨rfl, hr₇⟩) fun _ ↦ returns_bind.mpr ?_
    refine (consumeHashGas_spec hr₇).mono ?_
    rintro _ c₈ (hr₈ | hstop)
    · refine returns_bind.mpr (returns_get.mpr (returns_bind.mpr ((consumeGas_spec hr₈).mono ?_)))
      rintro _ c₉ (⟨hr₉, -⟩ | hstop)
      · refine returns_bind.mpr ((newAddress_runs hr₉).mono fun address c' hr ↦ returns_pure.mpr ?_)
        exact hr.weaken (by simp [newContract])
      · exact returns_pure.mpr hstop
    · exact returns_pure.mpr hstop
  · exact returns_pure.mpr hstop

theorem returnFromCreate_progress {address : Address}
    (hr : Runs n c₀ c) (hleft : result.gasLeft ≤ n) :
    Returns (returnFromCreate E op address result) c fun _ ↦ Progress 0 c₀ := by
  have hrest : ∀ val, Returns (do
      push val
      addGas result.gasLeft
      if result.reverted then modify fun c ↦ { c with returnData := result.returnValue }) c
      fun _ ↦ Progress 0 c₀ := by
    intro val
    refine push_then hr fun c₁ hr₁ _ ↦ returns_bind.mpr ?_
    refine (addGas_progress (d := 0) hr₁ hleft).mono fun _ c₂ h ↦ ?_
    exact returns_ite (fun _ ↦ returns_modify.mpr h) fun _ ↦ returns_pure.mpr h
  refine returns_ite (fun _ ↦ hrest _) fun _ ↦ ?_
  exact returns_ite (fun _ ↦ hrest _) fun _ ↦ hrest _

theorem opCreate_progress (hchildren : ChildrenKeepGas E.host)
    (h : (if op = .CREATE2 then 1 else 0) + 3 ≤ c.stack.live.length) :
    Progresses 0 (opCreate E op) c := by
  obtain ⟨value, l₁, hlive, h₁⟩ := exists_cons h
  obtain ⟨offset, l₂, rfl, h₂⟩ := exists_cons h₁
  obtain ⟨length, l₃, rfl, h₃⟩ := exists_cons h₂
  rw [← take_append_drop (if op = .CREATE2 then 1 else 0) l₃] at hlive
  have hlength := length_take_of_le h₃
  refine returns_ite (fun _ ↦ exit_progress) fun _ ↦ returns_ite (fun _ ↦ exit_progress) fun _ ↦ ?_
  refine returns_bind.mpr (returns_modify.mpr (returns_bind.mpr ?_))
  refine (buildCreateContract_spec (c := { c with returnData := [] }) hlive hlength).mono
    fun built c₁ hbuilt ↦ ?_
  cases built with
  | stopped => exact returns_pure.mpr (.inl hbuilt)
  | failed contract =>
    obtain ⟨rfl, hr₁⟩ := hbuilt
    exact push_then hr₁ fun c₂ hr₂ _ ↦ returns_pure.mpr (hr₂.progress le_rfl)
  | contract k =>
    refine callx_then hchildren hbuilt fun result c₂ hleft hr₂ _ ↦ ?_
    exact (returnFromCreate_progress hr₂ hleft).mono fun _ _ h ↦ h

theorem opHalt_progress (h : 2 ≤ c.stack.live.length) : Progresses 1 (opHalt E op) c := by
  refine returns_ite (fun _ ↦ exit_progress) fun _ ↦ ?_
  refine popAny_then h (.refl c) fun offset c₁ hr₁ h₁ ↦ popAny_then h₁ hr₁ fun size c₂ hr₂ _ ↦ ?_
  refine get2_then hr₂ (fun c' hstop ↦ returns_modify.mpr (.inl hstop)) fun ret c₃ hr₃ _ ↦ ?_
  refine returns_bind.mpr (returns_modify.mpr ?_)
  exact returns_ite (fun _ ↦ exit_progress) fun _ ↦ returns_halt.mpr (.inl rfl)

end Mainnet.Evm
