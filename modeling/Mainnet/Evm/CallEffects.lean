import Mainnet.Evm.Effects

namespace Mainnet.Evm

open Types Mainnet.Runtime Lib Prog List Nat

variable {σ : Type} {O : Observer σ} {E : Env σ} {c₀ c c' : State σ} {d : ℕ} {fits : Prop}
  {op : OpCode}

/-- The gas operand of a call cannot wrap around together with the cost of the call. -/
def operandFits (config : ForksInTime) (initialGas : ℤ) : Bool :=
  config.eip150 || initialGas < 2 ^ 64 - 34040 || 2 ^ 64 ≤ initialGas

def OpCode.gasFits (config : ForksInTime) (op : OpCode) (live : List ℤ) : Bool :=
  (callType op).isNone || live.head?.all (operandFits config)

variable {config : ForksInTime} {initialGas inOffset inSize retOffset retSize : ℤ} {gas : ℕ}
  {addr : Address} {value : Option ℤ} {code args : Bytes} {operand live : List ℤ}

theorem operandFits_iff :
    operandFits config initialGas = true ↔
      config.eip150 = true ∨ initialGas < 2 ^ 64 - 34040 ∨ 2 ^ 64 ≤ initialGas := by
  simp only [operandFits, Bool.or_eq_true, decide_eq_true_eq, or_assoc]

theorem childGas_paid {newAccount transfersValue : Bool}
    {before after : ℕ} (hfits : operandFits config initialGas = true)
    (hforward : callGas config initialGas before (callCost config newAccount transfersValue) =
      some gas)
    (hpaid : after + (callCost config newAccount transfersValue + gas) % 2 ^ 64 ≤ before) :
    (if transfersValue = true then (gas + 2300) % 2 ^ 64 else gas) + 1 + after ≤ before := by
  have hlt : callCost config newAccount transfersValue + gas < 2 ^ 64 :=
    callGas_add_lt callCost_le callCost_le_of_not_eip150 (operandFits_iff.mp hfits) hforward
  rw [mod_eq_of_lt hlt] at hpaid
  have hchild : (if transfersValue = true then (gas + 2300) % 2 ^ 64 else gas) <
    callCost config newAccount transfersValue + gas := childGas_lt gas
  omega

theorem calm_callsNewAccount (hO : O.Sees E.host) (addr : Address) (transfersValue : Bool) :
    Calm O 0 (callsNewAccount E op addr transfersValue) := by
  refine .ite (.ite (.ite (calm_callHost (hO.empty _)) (.pure _)) ?_) (.pure _)
  exact .andThen (calm_callHost (hO.accountExists _)) fun _ ↦ .pure _

theorem calm_lacksFunds (hO : O.Sees E.host) (value : ℤ) : Calm O 0 (lacksFunds E value) :=
  .ite (.andThen (calm_callHost (hO.getBalance _)) fun _ ↦ .pure _) (.pure _)

def CallMade (O : Observer σ) (E : Env σ) (op : OpCode) (value : Option ℤ) (fits : Prop)
    (c : State σ) :
    Built (Contract × ℕ × ℕ) → State σ → Prop
  | .stopped, c' => Quiet O 0 c c' ∧ c'.stop = true
  | .failed contract, c' => Quiet O 0 c c' ∧
      ∃ k, contract = some k ∧ (fits → k.gas + 1 + c'.gas ≤ c.gas)
  | .contract (k, _, _), c' => Quiet O 0 c c' ∧ (fits → k.gas + 1 + c'.gas ≤ c.gas) ∧
      k.static = (op = .STATICCALL || E.msg.static) ∧ (op = .CALL → k.value = value)

theorem buildCallContract_ensures (hO : O.Sees E.host)
    {addr : ℤ} (hlive : c.stack.live = initialGas :: addr ::
      (operand ++ inOffset :: inSize :: retOffset :: retSize :: live))
    (hlength : operand.length = op.values) :
    Ensures (buildCallContract E op) c
      (CallMade O E op operand.head? (operandFits E.config initialGas = true) c) := by
  refine pop_ensures (.refl O c) hlive fun c₁ hq₁ hlive₁ ↦ ?_
  refine popAddr_ensures hq₁ hlive₁ fun addr c₂ hq₂ hlive₂ ↦ ?_
  refine popIf_ensures hq₂ hlive₂ hlength fun c₃ hq₃ _ ↦ ?_
  refine calm_pop.then hq₃ fun inOffset c₄ hq₄ ↦ calm_pop.then hq₄ fun inSize c₅ hq₅ ↦ ?_
  refine calm_pop.then hq₅ fun retOffset c₆ hq₆ ↦ calm_pop.then hq₆ fun retSize c₇ hq₇ ↦ ?_
  refine ensures_bind.mpr ((get2_checks (O := O) _ _ c₇).mono fun args c₈ ⟨hq₈, hstop₈⟩ ↦ ?_)
  have hq₈ : Quiet O 0 c c₈ := hq₇.trans hq₈
  cases args with
  | none => exact ensures_pure.mpr ⟨hq₈, hstop₈ fun h ↦ h rfl⟩
  | some args =>
    refine ensures_bind.mpr ((allocateMemory_checks (O := O) _ _ c₈).mono
      fun ok c₉ ⟨hq₉, hstop₉⟩ ↦ ?_)
    have hq₉ : Quiet O 0 c c₉ := hq₈.trans hq₉
    refine ensures_ite (fun _ ↦ ?_) fun hok ↦ ensures_pure.mpr ⟨hq₉, hstop₉ hok⟩
    dsimp only [finishCall]
    generalize (operand.head?.any fun x ↦ decide (x ≠ 0)) = transfersValue
    refine (calm_callsNewAccount hO _ _).then hq₉ fun newAccount c₁₀ hq₁₀ ↦ ?_
    refine ensures_bind.mpr (ensures_get.mpr ?_)
    cases hforward : callGas E.config initialGas c₁₀.gas
      (callCost E.config newAccount transfersValue) with
    | none =>
      refine ensures_bind.mpr (ensures_modify.mpr (ensures_pure.mpr ⟨?_, rfl⟩))
      exact hq₁₀.trans (e := 0) (.stopped rfl rfl rfl)
    | some gas =>
      refine ensures_bind.mpr ((consumeGas_ensures (O := O) _).mono
        fun ok c₁₁ ⟨hq₁₁, hstop₁₁, hpaid⟩ ↦ ?_)
      have hq₁₁ : Quiet O 0 c c₁₁ := (hq₁₀.trans hq₁₁).weaken (zero_le _)
      refine ensures_ite (fun hok ↦ ?_) fun hok ↦ ensures_pure.mpr ⟨hq₁₁, hstop₁₁ hok⟩
      refine Calm.then (calm_callHost (hO.getCode _)) (.refl O c₁₁) fun code c₁₂ hq₁₂ ↦ ?_
      refine (calm_lacksFunds hO _).then hq₁₂ fun lacks c₁₃ hq₁₃ ↦ ?_
      have hquiet : Quiet O 0 c c₁₃ := hq₁₁.trans hq₁₃
      have hgas : operandFits E.config initialGas = true → (callContract E op addr
          operand.head? (if transfersValue = true then (gas + 2300) % 2 ^ 64 else gas) code
          args).gas + 1 + c₁₃.gas ≤ c.gas := by
        intro hfits
        rw [callContract_gas]
        have hchild := childGas_paid hfits hforward (hpaid hok)
        have h₁₀ := hq₁₀.gas
        have h₁₃ := hq₁₃.gas
        omega
      refine ensures_ite (fun _ ↦ ensures_pure.mpr ⟨hquiet, _, rfl, hgas⟩) fun _ ↦ ?_
      refine ensures_pure.mpr ⟨hquiet, hgas, ?_, ?_⟩
      · unfold callContract
        split_ifs <;> rfl
      · rintro rfl
        rfl

structure Refunded (O : Observer σ) (n : ℕ) (c c' : State σ) : Prop where
  gas : c'.gas ≤ c.gas + n
  log : O.log c'.host = O.log c.host

theorem addGas_refunds (gas : ℕ) (hr : Quiet O 0 c₀ c) :
    Ensures (addGas gas) c fun _ ↦ Refunded O gas c₀ := by
  refine ensures_modify.mpr ⟨?_, hr.log⟩
  exact (Nat.mod_le _ _).trans (Nat.add_le_add_right hr.gas gas)

theorem returnFromCall_refunds (offset size : ℕ) (result : ExecutionResult) :
    Ensures (returnFromCall offset size result) c fun _ ↦ Refunded O result.gasLeft c := by
  have hrest : ∀ c₁, Quiet O 0 c c₁ → Ensures (do
      addGas result.gasLeft
      modify fun c ↦ { c with returnData := result.returnValue }) c₁
      fun _ ↦ Refunded O result.gasLeft c := by
    intro c₁ hq
    refine ensures_bind.mpr ((addGas_refunds _ hq).mono fun _ c₂ h ↦ ensures_modify.mpr ?_)
    exact ⟨h.gas, h.log⟩
  refine (calm_push _).then (.refl O c) fun _ c₁ hq₁ ↦ ensures_ite (fun _ ↦ ?_) fun _ ↦ hrest c₁ hq₁
  exact (calm_copyToMemory _ _ _).then hq₁ fun _ c₂ hq₂ ↦ hrest c₂ hq₂

theorem returnFromCreate_refunds (address : Address) (result : ExecutionResult) :
    Ensures (returnFromCreate E op address result) c fun _ ↦
      Refunded O result.gasLeft c := by
  have hrest : ∀ val, Ensures (do
      push val
      addGas result.gasLeft
      if result.reverted then modify fun c ↦ { c with returnData := result.returnValue }) c
      fun _ ↦ Refunded O result.gasLeft c := by
    intro val
    refine (calm_push val).then (.refl O c) fun _ c₁ hq ↦ ensures_bind.mpr ?_
    refine (addGas_refunds _ hq).mono fun _ c₂ h ↦ ensures_ite (fun _ ↦ ?_) fun _ ↦ ?_
    · exact ensures_modify.mpr ⟨h.gas, h.log⟩
    · exact ensures_pure.mpr h
  refine ensures_ite (fun _ ↦ hrest _) fun _ ↦ ?_
  exact ensures_ite (fun _ ↦ hrest _) fun _ ↦ hrest _

theorem runCall_effect (hO : O.Sees E.host) {addr : ℤ} (hlive : c.stack.live = initialGas :: addr ::
      (operand ++ inOffset :: inSize :: retOffset :: retSize :: live))
    (hlength : operand.length = op.values)
    (hvalue : E.msg.static = true → op = .CALL → operand.head? = some 0) :
    Ensures (runCall E op) c fun _ ↦
      Effect O E (operandFits E.config initialGas = true) 1 c := by
  cases htype : callType op with
  | none =>
    rw [runCall, htype]
    exact ensures_panic
  | some type =>
    rw [runCall, htype]
    refine ensures_bind.mpr ((buildCallContract_ensures hO hlive hlength).mono
      fun built c₁ hmade ↦ ?_)
    cases built with
    | stopped =>
      obtain ⟨hq, hstop⟩ := hmade
      exact ensures_pure.mpr (.silent hq.log fun _ ↦ ⟨hq.gas, .inl hstop⟩)
    | failed contract =>
      obtain ⟨hq, k, rfl, hpaid⟩ := hmade
      refine (calm_push 0).then (.refl O c₁) fun _ c₂ hq₂ ↦ ?_
      refine (addGas_refunds k.gas hq₂).mono fun _ c' hback ↦ ?_
      refine .silent (hback.log.trans hq.log) fun hfits ↦ ?_
      have hpaid := hpaid hfits
      have hgas := hback.gas
      exact ⟨by omega, .inr (by omega)⟩
    | contract a =>
      obtain ⟨k, offset, size⟩ := a
      obtain ⟨hq, hpaid, hstatic, hvalue'⟩ := hmade
      refine note_ensures (hO.callx _ _) fun c₂ hgas₂ hlog₂ ↦ ?_
      refine (returnFromCall_refunds (O := O) offset size _).mono fun _ c' hback ↦ ?_
      refine .called { k with type := type } c₁.host ?_ ⟨?_, ?_, ?_, ?_⟩ fun hfits ↦ ?_
      · rw [hback.log, hlog₂, hq.log]
      · intro h
        simp [hstatic, h]
      · intro _
        cases op <;> cases htype <;> simp
      · rintro h rfl
        have hop : op = .CALL := by
          cases op <;> cases htype
          rfl
        exact (hvalue' hop).trans (hvalue h hop)
      · rintro rfl
        have hop : op = .STATICCALL := by
          cases op <;> cases htype
          rfl
        simp [hstatic, hop]
      · have hpaid := hpaid hfits
        have hgas := hback.gas
        dsimp only
        omega

theorem opCall_effect (hO : O.Sees E.host) (htype : (callType op).isSome = true)
    (h : op.values + 6 ≤ c.stack.live.length) :
    Ensures (opCall E op) c fun _ ↦
      Effect O E (op.gasFits E.config c.stack.live = true) 1 c := by
  obtain ⟨initialGas, addr, inOffset, inSize, retOffset, retSize, operand, rest, hlive, hlength⟩ :=
    exists_call_operands h
  have hfits : op.gasFits E.config c.stack.live = operandFits E.config initialGas := by
    simp [OpCode.gasFits, hlive, Option.isSome_iff_ne_none.mp htype]
  rw [hfits]
  refine ensures_bind.mpr (ensures_modify.mpr ?_)
  have hexit : ∀ err, Ensures (exit err) { c with returnData := [] } fun _ ↦
      Effect O E (operandFits E.config initialGas = true) 1 c :=
    fun err ↦ ensures_modify.mpr (Quiet.effect (.stopped rfl rfl rfl))
  have hcall (hvalue : E.msg.static = true → op = .CALL → operand.head? = some 0) :=
    (runCall_effect hO (c := { c with returnData := [] }) hlive hlength hvalue).mono
      fun _ c' h ↦ h.within (d := 0) le_rfl rfl (.refl O c')
  refine ensures_ite (fun hcase ↦ ?_) fun hcase ↦ ?_
  · refine ensures_bind.mpr (ensures_bind.mpr (ensures_get.mpr ?_))
    obtain ⟨value, rfl⟩ := length_eq_one_iff.mp (hlength.trans (if_pos (.inl hcase.1)))
    rw [show c.stack.live[3 - 1]? = some value by simp [hlive]]
    refine ensures_pure.mpr (ensures_ite (fun _ ↦ hexit _) fun hzero ↦ hcall fun _ _ ↦ ?_)
    exact congrArg some (not_not.mp hzero)
  · refine ensures_ite (fun _ ↦ hexit _) fun _ ↦ ensures_ite (fun _ ↦ hexit _) fun _ ↦ ?_
    exact hcall fun hstatic hop ↦ absurd ⟨hop, hstatic⟩ hcase

def CreateMade (O : Observer σ) (c : State σ) : Built Contract → State σ → Prop
  | .stopped, c' => Quiet O 0 c c'
  | .failed contract, c' => Quiet O 0 c c' ∧ contract = none
  | .contract k, c' => Quiet O 0 c c' ∧ k.gas + c'.gas ≤ c.gas

theorem calm_newAddress (hO : O.Sees E.host) (salt : Option ℤ) (input : Bytes) :
    Calm O 0 (newAddress E salt input) := by
  cases salt with
  | none =>
    rw [newAddress, map_eq_pure_bind]
    exact .andThen (calm_callHost (hO.getNonce _)) fun _ ↦ .pure _
  | some salt => exact .pure _

theorem calm_popIf (p : Prop) [Decidable p] : Calm O 0 (popIf p : Machine σ (Option ℤ)) := by
  refine .ite ?_ (.pure _)
  rw [map_eq_pure_bind]
  exact .andThen calm_pop fun _ ↦ .pure _

theorem buildCreateContract_ensures (hO : O.Sees E.host) :
    Ensures (buildCreateContract E op) c (CreateMade O c) := by
  refine calm_pop.then (.refl O c) fun value c₁ hq₁ ↦ calm_pop.then hq₁ fun offset c₂ hq₂ ↦ ?_
  refine calm_pop.then hq₂ fun length c₃ hq₃ ↦ (calm_popIf _).then hq₃ fun salt c₄ hq₄ ↦ ?_
  refine (get2_checks offset length).calm.then hq₄ fun input c₅ hq₅ ↦ ?_
  cases input with
  | none => exact ensures_pure.mpr hq₅
  | some input =>
    refine (calm_consumeGas 0).then hq₅ fun ok c₆ hq₆ ↦ ?_
    refine ensures_ite (fun _ ↦ ?_) fun _ ↦ ensures_pure.mpr hq₆
    refine (calm_lacksFunds hO value).then hq₆ fun lacks c₇ hq₇ ↦ ?_
    refine ensures_ite (fun _ ↦ ensures_pure.mpr ⟨hq₇, rfl⟩) fun _ ↦ ?_
    refine Calm.then (.ite ((calm_consumeGas _).weaken (zero_le _)) (.pure _)) hq₇ fun ok c₈ hq₈ ↦ ?_
    refine ensures_ite (fun _ ↦ ?_) fun _ ↦ ensures_pure.mpr hq₈
    refine ensures_bind.mpr (ensures_get.mpr (ensures_bind.mpr ?_))
    refine (consumeGas_ensures (O := O) _).mono fun ok c₉ ⟨hq₉, _, hpaid⟩ ↦ ?_
    have hquiet : Quiet O 0 c c₉ := (hq₈.trans hq₉).weaken (zero_le _)
    refine ensures_ite (fun hok ↦ ?_) fun _ ↦ ensures_pure.mpr hquiet
    refine (calm_newAddress hO salt input).then (.refl O c₉) fun address c' hq ↦ ensures_pure.mpr ?_
    refine ⟨hquiet.trans hq, ?_⟩
    have hpaid := hpaid hok
    have h₈ := hq₈.gas
    have h' := hq.gas
    dsimp only [newContract]
    omega

theorem opCreate_effect (hO : O.Sees E.host) :
    Ensures (opCreate E op) c fun _ ↦ Effect O E fits 0 c := by
  have hexit : ∀ err, Ensures (exit err) c fun _ ↦ Effect O E fits 0 c :=
    fun err ↦ (calm_exit (O := O) err c).mono fun _ _ hq ↦ hq.effect
  refine ensures_ite (fun _ ↦ hexit _) fun hstatic ↦ ensures_ite (fun _ ↦ hexit _) fun _ ↦ ?_
  refine calm_resetReturnData.then (.refl O c) fun _ c₁ hq₁ ↦ ensures_bind.mpr ?_
  refine (buildCreateContract_ensures hO).mono fun built c₂ hmade ↦ ?_
  cases built with
  | stopped => exact ensures_pure.mpr (hq₁.trans hmade).effect
  | failed contract =>
    obtain ⟨hq, rfl⟩ := hmade
    exact (calm_push 0).then (hq₁.trans hq) fun _ c' hq' ↦ ensures_pure.mpr hq'.effect
  | contract k =>
    obtain ⟨hq, hpaid⟩ := hmade
    refine note_ensures (hO.callx _ _) fun c₃ hgas₃ hlog₃ ↦ ?_
    refine (returnFromCreate_refunds (O := O) _ _).mono fun _ c' hback ↦ ?_
    refine .called { k with type := .create } c₂.host ?_ ⟨?_, ?_, ?_, ?_⟩ fun _ ↦ ?_
    · rw [hback.log, hlog₃, hq.log, hq₁.log]
    · exact fun h ↦ absurd h hstatic
    · exact fun h ↦ absurd h hstatic
    · exact fun _ ↦ nofun
    · exact nofun
    · have hgas := hback.gas
      have h₁ := hq₁.gas
      dsimp only at hgas ⊢
      omega

end Mainnet.Evm
