import Mainnet.Evm.CallEffects
import Mainnet.Evm.CallRespects

namespace Mainnet.Evm

open Types Mainnet.Runtime Lib Prog List Option Nat Word

variable {σ α : Type} {T F : State σ → State σ → Prop} {E : Env σ} {W : ℤ → Prop} {op : OpCode}

def OpCode.output (op : OpCode) (live : List ℤ) : List ℤ :=
  if (callType op).isSome then (live.drop (if op = .CALL ∨ op = .CALLCODE then 5 else 4)).take 2
  else []

def OpCode.outputWithin (op : OpCode) (live : List ℤ) (n : ℕ) : Bool :=
  match op.output live with
  | [offset, size] => size ≠ 0 || offset ≤ n
  | _ => true

theorem output_eq {initialGas addr inOffset inSize retOffset retSize : ℤ} {operand rest : List ℤ}
    (htype : (callType op).isSome = true)
    (hlength : operand.length = op.values) :
    op.output (initialGas :: addr :: (operand ++ inOffset :: inSize :: retOffset :: retSize ::
      rest)) = [retOffset, retSize] := by
  unfold OpCode.output
  rw [if_pos htype]
  split_ifs at hlength ⊢
  · obtain ⟨value, rfl⟩ := length_eq_one_iff.mp hlength
    rfl
  · obtain rfl := length_eq_zero_iff.mp hlength
    rfl

theorem isWord_land_255 (x : ℤ) : isWord (Int.land x 255) := by
  cases x with
  | ofNat n =>
    have hlt : land n 255 ≤ 255 := and_le_right
    change isWord (land n 255 : ℕ)
    unfold isWord
    omega
  | negSucc n =>
    have hlt : ldiff 255 n < 2 ^ 8 := by
      refine lt_pow_two_of_testBit _ fun i hi ↦ ?_
      rw [testBit_ldiff, testBit_lt_two_pow, Bool.false_and]
      exact lt_of_lt_of_le (by decide) (Nat.pow_le_pow_right (by decide) hi)
    change isWord (Nat.ldiff 255 n : ℕ)
    unfold isWord
    omega

namespace Respected

variable (h : Respected E W T F)
include h

theorem callWithin {c c' : State σ} (hT : T c c') (htype : (callType op).isSome = true)
    (hstack : op.values + 6 ≤ c.stack.live.length)
    (hwithin : op.outputWithin c.stack.live c.memory.len = true) :
    Related (Evm.opCall E op) (Evm.opCall E op) c c' (Ends T F) := by
  obtain ⟨initialGas, addr, inOffset, inSize, retOffset, retSize, operand, rest, hlive, hlength⟩ :=
    exists_call_operands hstack
  rw [OpCode.outputWithin, hlive, output_eq htype hlength] at hwithin
  have hwithin : retSize = 0 → retOffset ≤ c.memory.len := by
    simpa [imp_iff_not_or] using hwithin
  generalize hn : (if retSize = 0 then retOffset.toNat else 0) = n
  have hreach : Reaching T n c c' := by
    refine ⟨hT, ?_⟩
    subst hn
    split_ifs with hzero
    · omega
    · exact zero_le _
  have h₁ := h.reaching n
  refine ((h₁.opCall (h₁.runCall hlength fun hoffset hsize data t t' hT' ↦ ?_)) c c'
    ⟨hreach, hlive⟩).mono fun _ _ _ _ hQ ↦ hQ.imp_left And.left
  refine (h₁.reaching _).copyToMemory hT' data (le_add_right _ _) ?_
  obtain ⟨⟨_, hle⟩, hend⟩ := hT'
  unfold rangeEnd at hend
  split_ifs at hend with hzero
  · rw [if_pos hzero] at hn
    have huint : uint64 retSize = 0 := by rw [hzero]; rfl
    have := natCast_uint64 hoffset
    omega
  · exact hend

theorem callAlone (hdiag : ∀ c c', T c c' → c' = c) {c c' : State σ} (hT : T c c')
    (hstack : op.values + 6 ≤ c.stack.live.length) :
    Related (Evm.opCall E op) (Evm.opCall E op) c c' (Ends T F) := by
  obtain ⟨initialGas, addr, inOffset, inSize, retOffset, retSize, operand, rest, hlive, hlength⟩ :=
    exists_call_operands hstack
  refine h.opCall (h.runCall hlength fun _ _ ↦ ?_) c c' ⟨hT, hlive⟩
  by_cases hzero : retSize = 0
  · subst hzero
    exact copySafe_zero (fun t t' hT' ↦ by rw [hdiag t t' hT'.1]) _
  · intro data t t' hT'
    refine (h.reaching _).copyToMemory hT' data (le_add_right _ _) ?_
    have hend := hT'.2
    rwa [rangeEnd, if_neg hzero] at hend

theorem handler (op : OpCode) (hcall : callType op = none)
    (hip : op = .JUMP ∨ op = .JUMPI → ∀ c c' ip, T c c' →
      T { c with ip := ip } { c' with ip := ip })
    (hpush : ∀ n, op = .PUSH n → Respects T (Evm.opPush E n) (Ends T F)) :
    Respects T (Evm.handler E op).inst (Ends T F) := by
  have hword : ∀ {x : ℤ}, isWord x → W x := h.values.word
  have hU256 : ∀ x, W (toU256 x) := fun x ↦ hword (isWord_toU256 x)
  have hbool : ∀ b, W (ofBool b) := fun b ↦ hword (isWord_ofBool b)
  have hzero : W 0 := hword (by decide)
  cases op with
  | CALL | CALLCODE | DELEGATECALL | STATICCALL => cases hcall
  | STOP => exact h.halts
  | ADD | SUB | MUL => exact h.binary fun _ _ _ _ ↦ hU256 _
  | DIV | MOD =>
    refine h.binary fun a b _ _ ↦ ?_
    simp only [div, mod]
    split_ifs <;> first | exact hzero | exact hU256 _
  | SDIV | SMOD =>
    refine h.binary fun a b _ _ ↦ ?_
    simp only [sdiv, smod]
    split_ifs <;> first | exact hzero | exact hU256 _
  | ADDMOD | MULMOD =>
    refine h.ternary fun a b z ↦ ?_
    simp only [addMod, mulMod]
    split_ifs <;> first | exact hzero | exact hU256 _
  | EXP => exact h.opExp
  | AND => exact h.binary fun _ _ ha hb ↦ h.values.land ha hb
  | OR => exact h.binary fun _ _ ha hb ↦ h.values.lor ha hb
  | XOR => exact h.binary fun _ _ ha hb ↦ h.values.xor ha hb
  | BYTE =>
    refine h.binary fun a b _ _ ↦ hword ?_
    simp only [byte]
    split_ifs
    · exact isWord_ofBool false
    · exact isWord_land_255 _
  | EQ | LT | GT | SLT | SGT => exact h.binary fun _ _ _ _ ↦ hbool _
  | NOT => exact h.unary fun _ _ ↦ hU256 _
  | ISZERO => exact h.unary fun _ _ ↦ hbool _
  | SHL | SHR =>
    refine h.sinceFork _ (h.binary fun a b _ _ ↦ ?_)
    simp only [shl, shr]
    split_ifs <;> first | exact hzero | exact hU256 _
  | SAR =>
    refine h.sinceFork _ (h.binary fun a b _ _ ↦ ?_)
    simp only [sar]
    split_ifs <;> first | exact hzero | exact hword (by decide) | exact hU256 _
  | SIGNEXTEND => exact h.opSignExtension
  | PUSH n => exact hpush n rfl
  | DUP n => exact h.opDup n
  | SWAP n => exact h.opSwap n
  | LOG n => exact h.opLog n
  | POP => exact h.opPop
  | MLOAD => exact h.opMload
  | MSTORE => exact h.opMStore
  | MSTORE8 => exact h.opMStore8
  | SLOAD => exact h.opSload
  | SSTORE => exact h.opSStore
  | SHA3 => exact h.opSha3
  | ADDRESS | CALLER => exact (h.push (hword (isWord_address _))).ends
  | CALLVALUE => exact (h.push h.values.value).ends
  | CALLDATASIZE => exact (h.push h.values.input).ends
  | CODESIZE => exact (h.push h.values.code).ends
  | ORIGIN | COINBASE => exact h.hostPush (fun _ ↦ .getTxContext) fun _ ↦ hword (isWord_address _)
  | GASPRICE | DIFFICULTY => exact h.hostPush (fun _ ↦ .getTxContext) fun _ ↦ hword (isWord_hash _)
  | TIMESTAMP => exact h.hostPush (fun _ ↦ .getTxContext) h.values.timestamp
  | NUMBER => exact h.hostPush (fun _ ↦ .getTxContext) h.values.number
  | GASLIMIT => exact h.hostPush (fun _ ↦ .getTxContext) h.values.gasLimit
  | SELFBALANCE =>
    exact h.sinceFork _ (h.hostPush (fun _ ↦ .getBalance _) (h.values.balance _))
  | CHAINID =>
    refine h.sinceFork _ (h.hostPush (fun _ ↦ .getTxContext) fun s ↦ hword ?_)
    unfold isWord
    omega
  | RETURNDATASIZE =>
    exact h.sinceFork _ (h.statePush fun c c' hT ↦ ⟨by rw [(h.alike hT).returnData], h.dataSize hT⟩)
  | PC =>
    refine h.statePush fun c c' hT ↦ ⟨by rw [(h.alike hT).ip], hword ?_⟩
    unfold isWord
    omega
  | MSIZE => exact h.statePush fun c c' hT ↦ ⟨by rw [Slice.len, (h.alike hT).memory]; rfl, h.size hT⟩
  | GAS => exact h.statePush fun c c' hT ↦ ⟨by rw [(h.alike hT).gas], h.gasLeft hT⟩
  | BALANCE => exact h.opBalance
  | EXTCODESIZE => exact h.opExtCodeSize
  | EXTCODEHASH => exact h.opExtCodeHash
  | CALLDATALOAD => exact h.opCallDataLoad
  | BLOCKHASH => exact h.opBlockHash
  | CALLDATACOPY | CODECOPY => exact h.dataCopy _
  | EXTCODECOPY => exact h.opExtCodeCopy
  | RETURNDATACOPY => exact h.opReturnDataCopy
  | SELFDESTRUCT => exact h.opSelfDestruct
  | JUMP => exact h.pop.bind fun dest _ ↦ h.jumpTo (hip (.inl rfl)) dest
  | JUMPI => exact h.opJumpi (hip (.inr rfl))
  | JUMPDEST => exact .done
  | REVERT => exact h.opHalt .REVERT
  | RETURN => exact h.opHalt .RETURN
  | CREATE | CREATE2 => exact h.opCreate

end Respected

def execute (E : Env σ) (op : OpCode) (b : UInt8) (gasCopy : ℕ) : Machine σ Bool := do
  captureState E b
  if (← get).stack.live.length < (handler E op).stack then abort E .stackUnderflow b gasCopy
  else if ← consumeGas (handler E op).gas then
    captureExecution E b gasCopy
    (handler E op).inst
    if (← get).stack.live.length > stackSize then
      exit .stackOverflow
      pure false
    else
      modify fun c ↦ { c with ip := c.ip + 1 }
      pure true
  else abort E .outOfGas b gasCopy

structure NextOp (E : Env σ) (c : State σ) (b : UInt8) (op : OpCode) : Prop where
  ip : 0 ≤ c.ip
  byte : E.msg.code[c.ip.toNat]? = some b
  op : OpCode.ofByte b = some op

variable {c c' : State σ} {b : UInt8}

theorem NextOp.turn (h : NextOp E c b op) : turn E c = execute E op b c.gas c := by
  have hlt := (List.getElem?_eq_some_iff.mp h.byte).1
  change (if c.ip ≥ E.msg.code.length then _ else _ : Machine σ Bool) c = _
  rw [if_neg (by have := h.ip; omega), if_neg (not_lt.mpr h.ip), h.byte]
  dsimp only
  rw [h.op]
  rfl

structure Executes (E : Env σ) (c : State σ) (b : UInt8) (op : OpCode) : Prop where
  next : NextOp E c b op
  stack : (handler E op).stack ≤ c.stack.live.length
  gas : (handler E op).gas ≤ c.gas

/-- The state in which an instruction is executed, after its table cost was charged. -/
def begun (E : Env σ) (op : OpCode) (b : UInt8) (c : State σ) : State σ :=
  let shown := E.host.captureState c.memory.live (c.stack.live.reverse ++ c.stack.dead) b
    E.msg.address c.stack.live.length c.host
  let used := (c.currentConsumedGas + (handler E op).gas) % 2 ^ 64
  { c with
    stop := shown.1 || c.stop
    gas := c.gas - (handler E op).gas
    currentConsumedGas := used
    host := (E.host.executeState E.msg.address (c.ip % 2 ^ 64).toNat b c.gas used c.returnData
      E.msg.depth c.err shown.2).2 }

def finishTurn (E : Env σ) (op : OpCode) : Machine σ Bool := do
  (handler E op).inst
  if (← get).stack.live.length > stackSize then
    exit .stackOverflow
    pure false
  else
    modify fun c ↦ { c with ip := c.ip + 1 }
    pure true

theorem captureState_apply (b : UInt8) (c : State σ) : captureState E b c =
    let shown := E.host.captureState c.memory.live (c.stack.live.reverse ++ c.stack.dead) b
      E.msg.address c.stack.live.length c.host
    some ((), { c with stop := shown.1 || c.stop, host := shown.2 }) := by
  generalize hshown : E.host.captureState c.memory.live (c.stack.live.reverse ++ c.stack.dead) b
    E.msg.address c.stack.live.length c.host = shown
  have hcall : callHost (E.host.captureState c.memory.live (c.stack.live.reverse ++ c.stack.dead) b
      E.msg.address c.stack.live.length) c = some (shown.1, { c with host := shown.2 }) := by
    rw [← hshown]
    rfl
  refine (bind_apply hcall fun halts ↦ if halts then halt else pure ()).trans ?_
  obtain ⟨halts, s⟩ := shown
  cases halts <;> rfl

theorem Executes.turn (h : Executes E c b op) : turn E c = finishTurn E op (begun E op b c) := by
  rw [h.next.turn]
  refine (bind_apply (captureState_apply b c) _).trans ?_
  refine (bind_apply rfl _).trans ?_
  rw [if_neg (not_lt.mpr h.stack)]
  refine (bind_apply ((consumeGas_apply ..).trans (congrArg some (if_neg ?_))) _).trans rfl
  exact not_lt.mpr h.gas

theorem abort_stops (err : RuntimeError) (b : UInt8) (gas : ℕ) (c : State σ) :
    Ensures (abort E err b gas) c fun go _ ↦ go = false :=
  ensures_bind.mpr (ensures_modify.mpr (ensures_bind.mpr fun _ _ _ ↦ ensures_pure.mpr rfl))

theorem exists_executes (h : turn E c = some (true, c')) :
    ∃ b op t, Executes E c b op ∧ (handler E op).inst (begun E op b c) = some ((), t) ∧
      c' = { t with ip := t.ip + 1 } := by
  have hstops {err : RuntimeError} {b : UInt8} {gas : ℕ} {t : State σ}
      (h : abort E err b gas t = some (true, c')) : False := by
    cases abort_stops err b gas t _ _ h
  have hturn := h
  change (if c.ip ≥ E.msg.code.length then _ else _ : Machine σ Bool) c = _ at hturn
  split_ifs at hturn with hend hneg
  · rw [bind_apply (captureState_apply 0 c)] at hturn
    cases hturn
  · cases hturn
  cases hbyte : E.msg.code[c.ip.toNat]? with
  | none =>
    rw [hbyte] at hturn
    cases hturn
  | some b =>
    rw [hbyte] at hturn
    dsimp only at hturn
    rw [bind_apply (captureState_apply b c)] at hturn
    cases hop : OpCode.ofByte b with
    | none =>
      rw [hop] at hturn
      exact (hstops hturn).elim
    | some op =>
      rw [hop] at hturn
      change (if c.stack.live.length < (handler E op).stack then _ else _ : Machine σ Bool) _ = _
        at hturn
      split_ifs at hturn with hstack
      · exact (hstops hturn).elim
      by_cases hgas : c.gas < (handler E op).gas
      · obtain ⟨⟨_, t⟩, hcharge, hrest⟩ := bind_eq_some_iff.mp hturn
        simp only [consumeGas_apply, hgas, if_true] at hcharge
        cases hcharge
        exact (hstops hrest).elim
      have hexec : Executes E c b op :=
        ⟨⟨not_lt.mp hneg, hbyte, hop⟩, not_lt.mp hstack, not_lt.mp hgas⟩
      rw [hexec.turn] at h
      obtain ⟨⟨_, t⟩, hinst, hrest⟩ := bind_eq_some_iff.mp h
      refine ⟨b, op, t, hexec, hinst, ?_⟩
      change (if t.stack.live.length > stackSize then _ else _ : Machine σ Bool) t = _ at hrest
      split_ifs at hrest
      · cases hrest
      · cases hrest
        rfl

inductive Hooks (H : Host σ) (s : σ) : σ → Prop
  | captureState (memory : Bytes) (stack : List ℤ) (op : UInt8) (addr : Address) (sp : ℕ) :
    Hooks H s (H.captureState memory stack op addr sp s).2
  | executeState (addr : Address) (ip : ℕ) (op : UInt8) (gas cost : ℕ) (data : Bytes) (depth : ℕ)
      (err : Option RuntimeError) : Hooks H s (H.executeState addr ip op gas cost data depth err s).2

structure Traced (E : Env σ) (T F : State σ → State σ → Prop) : Prop where
  stack {c c' : State σ} : T c c' → c'.stack = c.stack
  hooks {c c' : State σ} {s : σ} : T c c' → Hooks E.host c.host s →
    T { c with host := s } { c' with host := s }
  ended {c c' : State σ} : T c c' → F { c with stop := true } { c' with stop := true }
  failed {c c' : State σ} : F c c' → Alike c c'
  failedHooks {c c' : State σ} {s : σ} : F c c' → Hooks E.host c.host s →
    F { c with host := s } { c' with host := s }
  failedTwice {c c' : State σ} (err : RuntimeError) : F c c' →
    F { c with stop := true, err := some err } { c' with stop := true, err := some err }
  failedNext {c c' : State σ} : F c c' → F { c with ip := c.ip + 1 } { c' with ip := c'.ip + 1 }

theorem related_callHost {method : σ → α × σ} {T₁ : State σ → State σ → Prop}
    (hhost : c'.host = c.host)
    (hT : T₁ { c with host := (method c.host).2 } { c' with host := (method c.host).2 }) :
    Related (callHost method) (callHost method) c c' (Keeps T₁ fun _ ↦ True) := by
  change Matched _ (some _) (some ((method c'.host).1, { c' with host := (method c'.host).2 }))
  rw [hhost]
  exact .returns ⟨rfl, trivial, hT⟩

namespace Traced

theorem captureExecution {T₁ : State σ → State σ → Prop} {c c' : State σ} (hc : Alike c c')
    (hT : ∀ s, Hooks E.host c.host s → T₁ { c with host := s } { c' with host := s }) (b : UInt8)
    (gas : ℕ) : Related (captureExecution E b gas) (captureExecution E b gas) c c'
      (Keeps T₁ fun _ ↦ True) := by
  apply related_onGet
  rw [hc.ip, hc.used, hc.returnData, hc.err]
  exact related_callHost hc.host (hT _ (.executeState ..))

variable (h : Respected E W T F) (ht : Traced E T F)
include ht

theorem abort (err : RuntimeError) (b : UInt8) (gas : ℕ) {c c' : State σ}
    (hF : F { c with stop := true, err := some err } { c' with stop := true, err := some err }) :
    Related (abort E err b gas) (abort E err b gas) c c' fun go t go' t' ↦
      go' = go ∧ go = false ∧ F t t' := by
  refine related_bind (Q := fun _ t _ t' ↦ F t t') (related_modify hF) fun _ t _ t' hF' ↦ ?_
  refine related_bind (Traced.captureExecution (ht.failed hF')
    (fun s hs ↦ ht.failedHooks hF' hs) b gas) ?_
  exact fun _ _ _ _ hF'' ↦ related_pure ⟨rfl, rfl, hF''.2.2⟩

include h

theorem captureState (b : UInt8) : Respects T (captureState E b) (Keeps T fun _ ↦ True) := by
  refine .onGet fun c c' hT ↦ ?_
  have hc := h.alike hT
  rw [hc.memory, ht.stack hT]
  refine related_bind (related_callHost hc.host (ht.hooks hT (.captureState ..))) ?_
  rintro cancelled t _ t' ⟨rfl, _, hT'⟩
  refine related_ite (fun _ ↦ ?_) fun _ ↦ related_pure ⟨rfl, trivial, hT'⟩
  exact related_modify ⟨rfl, trivial, h.halt hT'⟩

theorem turn (T₁ Next : State σ → State σ → Prop) {c c' : State σ} (hT : T c c')
    (hinst : ∀ b op, NextOp E c b op → (handler E op).stack ≤ c.stack.live.length → ∀ t t',
      T t t' → t.ip = c.ip → t.stack = c.stack → t.memory = c.memory →
      Related (handler E op).inst (handler E op).inst t t' (Ends T₁ F))
    (hlive : ∀ t t', T₁ t t' → t'.stack.live = t.stack.live)
    (hover : ∀ t t', T₁ t t' → F { t with stop := true, err := some .stackOverflow }
      { t' with stop := true, err := some .stackOverflow })
    (hnext : ∀ t t', T₁ t t' → t.stack.live.length ≤ stackSize →
      Next { t with ip := t.ip + 1 } { t' with ip := t'.ip + 1 }) :
    Related (turn E) (turn E) c c' fun go t go' t' ↦
      go' = go ∧ (F t t' ∨ go = true ∧ Next t t') := by
  have hleft {err : RuntimeError} {b : UInt8} {gas : ℕ} {t t' : State σ}
      (hF : F { t with stop := true, err := some err } { t' with stop := true, err := some err }) :
      Related (Evm.abort E err b gas) (Evm.abort E err b gas) t t' fun go t go' t' ↦
        go' = go ∧ (F t t' ∨ go = true ∧ Next t t') :=
    (ht.abort err b gas hF).mono fun _ _ _ _ hQ ↦ ⟨hQ.1, .inl hQ.2.2⟩
  apply related_onGet
  rw [(h.alike hT).ip, (h.alike hT).gas]
  refine related_ite (fun _ ↦ ?_) fun _ ↦ ?_
  · refine (ht.captureState h 0).bind (fun _ _ t t' hT' ↦ ?_) _ _ hT
    refine related_bind (Q := fun _ u _ u' ↦ F u u') (related_modify (ht.ended hT')) ?_
    exact fun _ _ _ _ hF ↦ related_pure ⟨rfl, .inl hF⟩
  split
  · exact related_panic
  rename_i b hb
  have hcode : 0 ≤ c.ip ∧ E.msg.code[c.ip.toNat]? = some b := by
    split at hb
    · cases hb
    · exact ⟨not_lt.mp ‹_›, hb⟩
  refine related_bind ((ht.captureState h b c c' hT).and_left (captureState_spec b).ensures) ?_
  rintro _ t₁ _ t₁' ⟨⟨_, _, hT₁⟩, h₁⟩
  cases hop : OpCode.ofByte b with
  | none => exact hleft (h.fail _ hT₁)
  | some op =>
    apply related_onGet
    rw [(h.alike hT₁).live]
    refine related_ite (fun _ ↦ hleft (h.fail _ hT₁)) fun hstack ↦ ?_
    refine related_bind ((h.consumeGas _ _ _ hT₁).and_left (consumeGas_spec (.refl _)).ensures) ?_
    rintro _ t₂ _ t₂' ⟨⟨rfl, hT₂⟩ | ⟨rfl, hF₂⟩, hchecked⟩
    · rw [if_pos rfl]
      cases hchecked with
      | ok h₂ =>
        refine related_bind ((Traced.captureExecution (h.alike hT₂) (fun s hs ↦ ht.hooks hT₂ hs) b
          c.gas).and_left (captureExecution_spec b c.gas).ensures) ?_
        rintro _ t₃ _ t₃' ⟨⟨_, _, hT₃⟩, h₃⟩
        have hstack₃ : t₃.stack = c.stack := h₃.stack.trans (h₂.2.1.trans h₁.stack)
        have hinst := hinst b op ⟨hcode.1, hcode.2, hop⟩ (h₁.stack ▸ not_lt.mp hstack) t₃ t₃' hT₃
          (h₃.runs.ip.trans (h₂.1.ip.trans h₁.runs.ip)) hstack₃
          (h₃.memory.trans (h₂.2.2.trans h₁.memory))
        refine related_bind hinst ?_
        rintro _ t _ t' (hT' | hF)
        · apply related_onGet
          rw [hlive t t' hT']
          refine related_ite (fun _ ↦ ?_) fun hsize ↦ ?_
          · refine related_bind (Q := fun _ u _ u' ↦ F u u') (related_modify (hover t t' hT')) ?_
            exact fun _ _ _ _ hF ↦ related_pure ⟨rfl, .inl hF⟩
          · refine related_bind (Q := fun _ u _ u' ↦ Next u u')
              (related_modify (hnext t t' hT' (not_lt.mp hsize))) ?_
            exact fun _ _ _ _ hN ↦ related_pure ⟨rfl, .inr ⟨rfl, hN⟩⟩
        · apply related_onGet
          rw [(ht.failed hF).live]
          refine related_ite (fun _ ↦ ?_) fun _ ↦ ?_
          · refine related_bind (Q := fun _ u _ u' ↦ F u u')
              (related_modify (ht.failedTwice _ hF)) ?_
            exact fun _ _ _ _ hF ↦ related_pure ⟨rfl, .inl hF⟩
          · refine related_bind (Q := fun _ u _ u' ↦ F u u') (related_modify (ht.failedNext hF)) ?_
            exact fun _ _ _ _ hF ↦ related_pure ⟨rfl, .inl hF⟩
    · rw [if_neg Bool.false_ne_true]
      exact hleft (ht.failedTwice _ hF₂)

end Traced

end Mainnet.Evm
