import Mainnet.Evm.TurnRespects

namespace Mainnet.Evm

open Types Mainnet.Runtime Lib Prog

variable {σ : Type} {E : Env σ} {c c' : State σ} {op : OpCode} {b : UInt8}

def OpCode.arity : OpCode → ℕ
  | .STOP | .ADDRESS | .ORIGIN | .CALLER | .CALLVALUE | .CALLDATASIZE | .CODESIZE | .GASPRICE
  | .RETURNDATASIZE | .COINBASE | .TIMESTAMP | .NUMBER | .DIFFICULTY | .GASLIMIT | .CHAINID
  | .SELFBALANCE | .PC | .MSIZE | .GAS | .JUMPDEST | .PUSH _ => 0
  | .ISZERO | .NOT | .BALANCE | .CALLDATALOAD | .EXTCODESIZE | .EXTCODEHASH | .BLOCKHASH | .POP
  | .MLOAD | .SLOAD | .JUMP | .SELFDESTRUCT => 1
  | .ADD | .MUL | .SUB | .DIV | .SDIV | .MOD | .SMOD | .EXP | .SIGNEXTEND | .LT | .GT | .SLT | .SGT
  | .EQ | .AND | .OR | .XOR | .BYTE | .SHL | .SHR | .SAR | .SHA3 | .MSTORE | .MSTORE8 | .SSTORE
  | .JUMPI | .RETURN | .REVERT => 2
  | .ADDMOD | .MULMOD | .CALLDATACOPY | .CODECOPY | .RETURNDATACOPY | .CREATE => 3
  | .EXTCODECOPY | .CREATE2 => 4
  | .DELEGATECALL | .STATICCALL => 6
  | .CALL | .CALLCODE => 7
  | .DUP n => n
  | .SWAP n => n + 1
  | .LOG n => 2 + n

theorem arity_eq (E : Env σ) (op : OpCode) : (handler E op).stack = op.arity ∨
    (∃ n, op = .DUP n) ∨ (∃ n, op = .SWAP n) ∨ (∃ n, op = .LOG n) ∨ op = .SIGNEXTEND := by
  cases op with
  | DUP n => exact .inr (.inl ⟨n, rfl⟩)
  | SWAP n => exact .inr (.inr (.inl ⟨n, rfl⟩))
  | LOG n => exact .inr (.inr (.inr (.inl ⟨n, rfl⟩)))
  | SIGNEXTEND => exact .inr (.inr (.inr (.inr rfl)))
  | _ => exact .inl rfl

/-- The frame ends in `c'` with an error that leaves no gas, and only a tracer has heard of it. -/
structure Excepted (E : Env σ) (c c' : State σ) : Prop where
  stop : c'.stop = true
  err : ∃ err, c'.err = some err ∧ err ≠ .executionReverted
  host : Relation.ReflTransGen (Hooks E.host) c.host c'.host

theorem Excepted.gasLeft (h : Excepted E c c') (msg : Contract) :
    (c'.result msg).1.gasLeft = 0 := by
  obtain ⟨err, herr, hne⟩ := h.err
  rw [State.result, herr]
  exact if_neg (by simp [hne])

theorem captureState_hooks (b : UInt8) : Returns (captureState E b) c fun _ t ↦
    ∃ s stop, Hooks E.host c.host s ∧ t = { c with host := s, stop := stop } := by
  refine returns_bind.mpr (returns_get.mpr (returns_bind.mpr ?_))
  simp only [callHost, returns_bind, returns_get, returns_set, returns_pure]
  refine returns_ite (fun _ ↦ ?_) fun _ ↦ ?_
  · exact returns_halt.mpr ⟨_, true, .captureState .., rfl⟩
  · exact returns_pure.mpr ⟨_, c.stop, .captureState .., rfl⟩

theorem captureExecution_hooks (b : UInt8) (gas : ℕ) : Returns (captureExecution E b gas) c
    fun _ t ↦ ∃ s, Hooks E.host c.host s ∧ t = { c with host := s } := by
  simp only [captureExecution, callHost, returns_bind, returns_get, returns_set, returns_pure]
  exact ⟨_, .executeState .., rfl⟩

theorem abort_excepted {c₀ : State σ} (hhost : Relation.ReflTransGen (Hooks E.host) c₀.host c.host)
    {err : RuntimeError} (herr : err ≠ .executionReverted) (b : UInt8) (gas : ℕ) :
    Returns (abort E err b gas) c fun _ t ↦ Excepted E c₀ t := by
  refine returns_bind.mpr (returns_exit.mpr (returns_bind.mpr ?_))
  refine (captureExecution_hooks b gas).mono ?_
  rintro _ t ⟨s, hs, rfl⟩
  exact returns_pure.mpr ⟨rfl, ⟨err, rfl, herr⟩, hhost.tail hs⟩

def Exits (m : Machine σ Unit) (c : State σ) : Prop :=
  ∃ err, err ≠ RuntimeError.executionReverted ∧
    Returns m c fun _ t ↦ t = { c with stop := true, err := some err }

theorem exits_of_stackAtLeast {n : ℕ} {m : Machine σ Unit} (h : c.stack.live.length < n) :
    Exits (do if ← stackAtLeast n then m else exit .stackUnderflow) c := by
  refine ⟨.stackUnderflow, nofun, ?_⟩
  simp only [stackAtLeast, returns_bind, returns_get, returns_pure]
  rw [if_neg (by simpa using h)]
  exact returns_exit.mpr rfl

theorem handler_exits (harity : c.stack.live.length < op.arity)
    (hstack : (handler E op).stack ≤ c.stack.live.length) (hne : op ≠ .SIGNEXTEND) :
    Exits (handler E op).inst c := by
  obtain h | ⟨n, rfl⟩ | ⟨n, rfl⟩ | ⟨n, rfl⟩ | h := arity_eq E op
  · omega
  · exact exits_of_stackAtLeast harity
  · exact exits_of_stackAtLeast harity
  · change Exits (opLog E n) c
    unfold opLog
    split
    · exact ⟨.writeProtection, nofun, returns_exit.mpr rfl⟩
    · exact exits_of_stackAtLeast harity
  · exact absurd h hne

theorem execute_excepted (harity : c.stack.live.length < op.arity)
    (hne : ¬(op = .SIGNEXTEND ∧ c.stack.live.length = 1 ∧ 5 ≤ c.gas)) (b : UInt8) (gas : ℕ) :
    Returns (execute E op b gas) c fun _ t ↦ Excepted E c t := by
  refine returns_bind.mpr ((captureState_hooks b).mono ?_)
  rintro _ _ ⟨s, stop, hs, rfl⟩
  have hhost : Relation.ReflTransGen (Hooks E.host) c.host s := .single hs
  refine returns_bind.mpr (returns_get.mpr (returns_ite (fun _ ↦ ?_) fun hstack ↦ ?_))
  · refine abort_excepted ?_ (by decide) b gas
    exact hhost
  refine returns_bind.mpr (returns_consumeGas.mpr ?_)
  by_cases hgas : c.gas < (handler E op).gas
  · refine (if_pos hgas).mpr (abort_excepted ?_ (by decide) b gas)
    exact hhost
  refine (if_neg hgas).mpr (returns_bind.mpr ((captureExecution_hooks b gas).mono ?_))
  rintro _ _ ⟨s', hs', rfl⟩
  have hsign : op ≠ .SIGNEXTEND := by
    rintro rfl
    change ¬c.stack.live.length < 1 at hstack
    change c.stack.live.length < 2 at harity
    exact hne ⟨rfl, by omega, not_lt.mp hgas⟩
  obtain ⟨err, herr, hexits⟩ := handler_exits (E := E) (c := { c with
    host := s', stop := stop, gas := c.gas - (handler E op).gas, currentConsumedGas := _ }) harity
    (not_lt.mp hstack) hsign
  refine returns_bind.mpr (hexits.mono ?_)
  rintro _ _ rfl
  refine returns_bind.mpr (returns_get.mpr (returns_ite (fun _ ↦ ?_) fun _ ↦ ?_))
  · refine returns_bind.mpr (returns_exit.mpr (returns_pure.mpr ?_))
    exact ⟨rfl, ⟨_, rfl, nofun⟩, hhost.tail hs'⟩
  · refine returns_bind.mpr (returns_modify.mpr (returns_pure.mpr ?_))
    exact ⟨rfl, ⟨err, rfl, herr⟩, hhost.tail hs'⟩

theorem execute_signExtend (hone : c.stack.live.length = 1) (hgas : 5 ≤ c.gas) (b : UInt8)
    (gas : ℕ) : Returns (execute E .SIGNEXTEND b gas) c fun _ t ↦
      t.err = c.err ∧ t.ip = c.ip + 1 := by
  obtain ⟨ext, hlive⟩ := List.length_eq_one_iff.mp hone
  refine returns_bind.mpr ((captureState_hooks b).mono ?_)
  rintro _ _ ⟨s, stop, _, rfl⟩
  refine returns_bind.mpr (returns_get.mpr ?_)
  rw [hlive, if_neg (by simp [handler])]
  refine returns_bind.mpr (returns_consumeGas.mpr ((if_neg (not_lt.mpr hgas)).mpr ?_))
  refine returns_bind.mpr ((captureExecution_hooks b gas).mono ?_)
  rintro _ _ ⟨s', _, rfl⟩
  refine returns_bind.mpr (returns_bind.mpr ((returns_pop (?_ : _ = [ext])).mpr ?_))
  · exact hlive
  refine returns_bind.mpr (returns_get.mpr ?_)
  rw [if_pos (.inr rfl)]
  refine returns_pure.mpr (returns_bind.mpr (returns_get.mpr ?_))
  rw [if_neg (by simp)]
  exact returns_bind.mpr (returns_modify.mpr (returns_pure.mpr ⟨rfl, rfl⟩))

/-- An opcode that finds too few items on the stack ends the frame with an error and all its gas
consumed, unless it is `SIGNEXTEND` on one item, with gas for it. -/
theorem underflow_excepts_iff (h : NextOp E c b op) (herr : c.err = none)
    (harity : c.stack.live.length < op.arity) :
    (∃ go c', turn E c = some (go, c') ∧ Excepted E c c' ∧ (c'.result E.msg).1.gasLeft = 0) ↔
      ¬(op = .SIGNEXTEND ∧ c.stack.live.length = 1 ∧ 5 ≤ c.gas) := by
  rw [h.turn]
  constructor
  · rintro ⟨go, c', heq, hexcepted, _⟩ ⟨rfl, hone, hgas⟩
    obtain ⟨err, hsome, _⟩ := hexcepted.err
    have hnone := (execute_signExtend hone hgas b c.gas).ensures _ _ heq
    rw [hsome, herr] at hnone
    cases hnone.1
  · intro hne
    obtain ⟨go, c', heq, hexcepted⟩ := execute_excepted (E := E) harity hne b c.gas
    exact ⟨go, c', heq, hexcepted, hexcepted.gasLeft E.msg⟩

def codeFrame (code : Bytes) : Env Unit := frame goLibrary quietHost (topCall code) allForks [0]

theorem underflow_excepts_add :
    ∃ go c', turn (codeFrame [0x01]) (onStack [7] 100) = some (go, c') ∧
      Excepted (codeFrame [0x01]) (onStack [7] 100) c' ∧
      (c'.result (codeFrame [0x01]).msg).1.gasLeft = 0 :=
  (underflow_excepts_iff (⟨le_rfl, rfl, rfl⟩ : NextOp _ _ 0x01 .ADD) rfl (by decide)).mpr (by simp)

/-- A push and `SIGNEXTEND` end without an error. -/
theorem signExtend_underflow_runs :
    ∃ c c', Loop.after (fun c ↦ !c.stop) (turn (codeFrame [0x60, 7, 0x0b])) 1
        (.init ⟨[], []⟩ 100 ()) = some c ∧ NextOp (codeFrame [0x60, 7, 0x0b]) c 0x0b .SIGNEXTEND ∧
      c.stack.live.length < OpCode.SIGNEXTEND.arity ∧
      turn (codeFrame [0x60, 7, 0x0b]) c = some (true, c') ∧ c'.stop = false ∧ c'.err = none ∧
      run goLibrary quietHost (topCall [0x60, 7, 0x0b]) allForks ⟨[], []⟩ () 10 =
        .done (⟨[], 92, 8, none⟩, ()) :=
  ⟨_, _, rfl, ⟨by decide, rfl, rfl⟩, by decide, rfl, rfl, rfl, by decide +kernel⟩

end Mainnet.Evm
