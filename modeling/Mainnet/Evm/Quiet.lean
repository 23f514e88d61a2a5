import Mainnet.Evm.Recording

namespace Mainnet.Evm

open Types Mainnet.Runtime Lib Prog Nat

variable {σ α : Type} {O : Observer σ} {E : Env σ} {d : ℕ}

theorem calm_unary (f : ℤ → ℤ) : Calm O 0 (unary f : Machine σ Unit) :=
  .andThen calm_top fun _ ↦ calm_setTop _

theorem calm_binary (f : ℤ → ℤ → ℤ × ℤ) : Calm O 0 (binary f : Machine σ Unit) :=
  .andThen calm_pop fun _ ↦ .andThen calm_top fun _ ↦ .andThen (calm_setPopped _) fun _ ↦
    calm_setTop _

theorem calm_ternary (f : ℤ → ℤ → ℤ → ℤ × ℤ) : Calm O 0 (ternary f : Machine σ Unit) :=
  .andThen calm_pop fun _ ↦ .andThen calm_pop fun _ ↦ .andThen calm_top fun _ ↦
    .modify fun _ ↦ .same rfl rfl rfl

theorem calm_sinceFork (active : Bool) {inst : Machine σ Unit} (h : Calm O d inst) :
    Calm O d (sinceFork active inst) :=
  .ite h (calm_exit _)

theorem calm_opSignExtension : Calm O 0 (opSignExtension : Machine σ Unit) :=
  .andThen calm_pop fun _ ↦ .andThen calm_get fun _ ↦ .ite (.pure _) (.ite (calm_unary _) .panic)

theorem calm_opExp : Calm O 0 (opExp E) := by
  refine .andThen calm_pop fun x ↦ .andThen calm_top fun y ↦ ?_
  refine (calm_charge _ (.andThen (calm_setPopped _) fun _ ↦ calm_setTop _)).weaken ?_
  exact zero_le _

theorem calm_opMload : Calm O 0 (opMload E) := by
  refine .andThen calm_pop fun offset ↦ .andThen (get2_checks offset 32).calm fun data ↦ ?_
  cases data with
  | none => exact .pure _
  | some data => exact calm_push _

theorem calm_opMStore : Calm O 0 (opMStore E) :=
  .andThen calm_pop fun _ ↦ .andThen calm_pop fun _ ↦ calm_allocate _ _ <|
    .ite (calm_copyToMemory _ _ _) .panic

theorem calm_opMStore8 : Calm O 0 (opMStore8 E) := by
  refine .andThen calm_pop fun offset ↦ .andThen calm_pop fun val ↦ calm_allocate _ _ ?_
  refine .onGet fun c ↦ ensures_ite (fun _ ↦ ?_) fun _ ↦ ensures_panic
  exact ensures_set.mpr (.same rfl rfl rfl)

theorem calm_opSload (hO : O.Sees E.host) : Calm O 1 (opSload E) := by
  refine .andThen calm_top fun loc ↦ (calm_charge _ ?_).weaken ?_
  · exact .andThen (calm_callHost (hO.getStorage _ _)) fun _ ↦ calm_setTop _
  · split_ifs <;> decide

theorem calm_opSha3 : Calm O 0 (opSha3 E) := by
  refine .andThen calm_pop fun offset ↦ .andThen calm_pop fun length ↦ ?_
  refine .andThen (get2_checks offset length).calm fun data ↦ ?_
  cases data with
  | none => exact .pure _
  | some data => exact (calm_charge _ (calm_push _)).weaken (zero_le _)

theorem calm_hostPush {method : σ → α × σ} {f : α → ℤ}
    (h : ∀ s, O.log (method s).2 = O.log s) : Calm O 0 (do push (f (← callHost method))) :=
  .andThen (calm_callHost h) fun _ ↦ calm_push _

theorem calm_statePush (f : State σ → ℤ) : Calm O 0 (do push (f (← get))) :=
  .andThen calm_get fun _ ↦ calm_push _

theorem calm_opBalance (hO : O.Sees E.host) : Calm O 1 (opBalance E) := by
  refine .andThen calm_popAddr fun addr ↦ (calm_charge _ (calm_hostPush (hO.getBalance _))).weaken ?_
  split_ifs <;> decide

theorem calm_opExtCodeSize (hO : O.Sees E.host) : Calm O 1 (opExtCodeSize E) := by
  refine .andThen calm_popAddr fun addr ↦ (calm_charge _ (calm_hostPush (hO.getCodeSize _))).weaken ?_
  split_ifs <;> decide

theorem calm_opExtCodeHash (hO : O.Sees E.host) : Calm O 1 (opExtCodeHash E) := by
  refine calm_sinceFork _ (.andThen calm_popAddr fun addr ↦ (calm_charge _ ?_).weaken ?_)
  · refine .andThen (calm_callHost (hO.empty _)) fun _ ↦ .ite (calm_push _) ?_
    exact calm_hostPush (hO.getCodeHash _)
  · split_ifs <;> decide

theorem calm_opCallDataLoad : Calm O 0 (opCallDataLoad E) := by
  refine .andThen calm_top fun offset ↦ ?_
  split
  · exact calm_setTop _
  · exact .panic

theorem calm_opBlockHash (hO : O.Sees E.host) : Calm O 0 (opBlockHash E) := by
  refine .andThen calm_top fun num ↦ .ite ?_ (calm_setTop _)
  refine .andThen (calm_callHost (hO.getTxContext)) fun context ↦ .ite ?_ (calm_setTop _)
  exact .andThen (calm_callHost (hO.getBlockHash _)) fun _ ↦ calm_setTop _

theorem calm_dataCopy (input : Bytes) : Calm O 0 (dataCopy E input) := by
  refine .andThen calm_pop fun _ ↦ .andThen calm_pop fun _ ↦ .andThen calm_pop fun _ ↦ ?_
  refine calm_allocate _ _ ((calm_charge _ ?_).weaken (zero_le _))
  exact .ite (calm_setMemory _ _ _ _) (.pure _)

theorem calm_opExtCodeCopy (hO : O.Sees E.host) : Calm O 1 (opExtCodeCopy E) := by
  refine .andThen calm_popAddr fun _ ↦ .andThen calm_pop fun _ ↦ .andThen calm_pop fun _ ↦ ?_
  refine .andThen calm_pop fun length ↦ calm_allocate _ _ ?_
  refine ((consumeGas_checks _).thenDo (e := 1) ((calm_charge _ ?_).weaken ?_)).weaken ?_
  · refine .andThen (calm_callHost (hO.getCode _)) fun code ↦ ?_
    exact .ite (calm_setMemory _ _ _ _) (.pure _)
  · split_ifs <;> decide
  · exact le_add_left _ _

theorem calm_opReturnDataCopy : Calm O 0 (opReturnDataCopy E) := by
  refine calm_sinceFork _ (.andThen calm_pop fun memOffset ↦ .andThen calm_pop fun dataOffset ↦ ?_)
  refine .andThen calm_pop fun length ↦ calm_allocate _ _ (.ite (calm_exit _) ?_)
  refine (calm_charge _ (.andThen (calm_setPopped _) fun _ ↦ .onGet fun c ↦ ?_)).weaken (zero_le _)
  refine ensures_ite (fun _ ↦ calm_exit _ c) fun _ ↦ ensures_ite (fun _ ↦ calm_exit _ c) fun _ ↦ ?_
  refine ensures_ite (fun _ ↦ ?_) fun _ ↦ ensures_panic
  dsimp only
  split
  · exact ensures_panic
  · exact ensures_set.mpr (.same rfl rfl rfl)

theorem calm_jumpTo (dest : ℤ) : Calm O 0 (jumpTo E dest) :=
  .andThen (calm_validJumpdest dest) fun _ ↦ .ite (.modify fun _ ↦ .same rfl rfl rfl) (calm_exit _)

theorem calm_opJumpi : Calm O 0 (opJumpi E) :=
  .andThen calm_pop fun dest ↦ .andThen calm_pop fun _ ↦ .ite (calm_jumpTo dest) (.pure _)

theorem calm_opPush (n : ℕ) : Calm O 0 (opPush E n) := by
  have hrest : ∀ val, Calm O 0 (do
      push val
      modify fun c ↦ { c with ip := c.ip + n } : Machine σ Unit) :=
    fun val ↦ .andThen (calm_push val) fun _ ↦ .modify fun _ ↦ .same rfl rfl rfl
  exact .andThen calm_get fun c ↦ .ite (.ite (hrest _) (hrest _)) .panic

theorem calm_opDup (n : ℕ) : Calm O 0 (opDup n : Machine σ Unit) :=
  .andThen (calm_stackAtLeast n) fun _ ↦
    .ite (.andThen (calm_peekAt n) fun _ ↦ calm_push _) (calm_exit _)

theorem calm_opSwap (n : ℕ) : Calm O 0 (opSwap n : Machine σ Unit) :=
  .andThen (calm_stackAtLeast (n + 1)) fun _ ↦ .ite (calm_swap n) (calm_exit _)

theorem calm_opHalt (op : OpCode) : Calm O 1 (opHalt E op) := by
  refine .ite (calm_exit _) (.andThen calm_pop fun offset ↦ .andThen calm_pop fun size ↦ ?_)
  refine ((get2_checks offset size).check (e := 1) (fun data hdata ↦ ?_) fun data hdata ↦ ?_)
  · obtain ⟨ret, rfl⟩ := Option.ne_none_iff_exists'.mp hdata
    refine .andThen (.modify fun _ ↦ .same rfl rfl rfl) fun _ ↦ ?_
    exact .ite (calm_exit _) calm_halt
  · rw [not_not.mp hdata]
    exact .modify fun _ ↦ .same rfl rfl rfl

def OpCode.calls : OpCode → Bool
  | .SSTORE | .LOG _ | .SELFDESTRUCT | .CREATE | .CREATE2 => true
  | .CALL | .CALLCODE | .DELEGATECALL | .STATICCALL => true
  | _ => false

theorem calm_handler (hO : O.Sees E.host) (op : OpCode) (h : op.calls = false) :
    Calm O (if (handler E op).gas = 0 then 1 else 0) (handler E op).inst := by
  cases op with
  | SSTORE | LOG | SELFDESTRUCT | CREATE | CREATE2 | CALL | CALLCODE | DELEGATECALL | STATICCALL =>
    cases h
  | STOP => exact calm_halt
  | ADD | SUB | MUL | DIV | SDIV | MOD | SMOD | AND | OR | XOR | BYTE | EQ | LT | GT | SLT | SGT =>
    exact calm_binary _
  | ADDMOD | MULMOD => exact calm_ternary _
  | NOT | ISZERO => exact calm_unary _
  | SHL | SHR | SAR => exact calm_sinceFork _ (calm_binary _)
  | EXP => exact calm_opExp
  | SIGNEXTEND => exact calm_opSignExtension
  | PUSH n => exact calm_opPush n
  | DUP n => exact calm_opDup n
  | SWAP n => exact calm_opSwap n
  | POP => exact .andThen calm_pop fun _ ↦ .pure _
  | MLOAD => exact calm_opMload
  | MSTORE => exact calm_opMStore
  | MSTORE8 => exact calm_opMStore8
  | SLOAD => exact calm_opSload hO
  | SHA3 => exact calm_opSha3
  | ADDRESS | CALLER | CALLVALUE | CALLDATASIZE | CODESIZE => exact calm_push _
  | ORIGIN | GASPRICE | COINBASE | TIMESTAMP | NUMBER | DIFFICULTY | GASLIMIT =>
    exact calm_hostPush hO.getTxContext
  | SELFBALANCE => exact calm_sinceFork _ (calm_hostPush (hO.getBalance _))
  | CHAINID => exact calm_sinceFork _ (calm_hostPush hO.getTxContext)
  | RETURNDATASIZE => exact calm_sinceFork _ (calm_statePush _)
  | PC | MSIZE | GAS => exact calm_statePush _
  | BALANCE => exact calm_opBalance hO
  | EXTCODESIZE => exact calm_opExtCodeSize hO
  | EXTCODEHASH => exact calm_opExtCodeHash hO
  | CALLDATALOAD => exact calm_opCallDataLoad
  | BLOCKHASH => exact calm_opBlockHash hO
  | CALLDATACOPY | CODECOPY => exact calm_dataCopy _
  | EXTCODECOPY => exact calm_opExtCodeCopy hO
  | RETURNDATACOPY => exact calm_opReturnDataCopy
  | JUMP => exact .andThen calm_pop fun dest ↦ calm_jumpTo dest
  | JUMPI => exact calm_opJumpi
  | JUMPDEST => exact .pure _
  | REVERT => exact calm_opHalt .REVERT
  | RETURN => exact calm_opHalt .RETURN

end Mainnet.Evm
