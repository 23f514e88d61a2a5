import Mainnet.Evm.CallProgress

namespace Mainnet.Evm

open Types Mainnet.Runtime Lib Prog List OpCode

variable {σ : Type} {E : Env σ} {c : State σ}

/-- A call with an empty output range has it within the capacity of memory, and its gas operand
cannot wrap around together with the cost of the call. -/
def callSafe (E : Env σ) (c : State σ) (initialGas retOffset retSize : ℤ) : Bool :=
  (retSize ≠ 0 || retOffset ≤ c.memory.cap) &&
    (E.config.eip150 || initialGas < 2 ^ 64 - 34040 || 2 ^ 64 ≤ initialGas)

def OpCode.safe (E : Env σ) (c : State σ) (op : OpCode) : Bool :=
  match op, c.stack.live with
  | .SIGNEXTEND, ext :: _ => 0 ≤ ext
  | .MSTORE, _ :: val :: _ => val.natAbs < 2 ^ 256
  | .RETURNDATACOPY, memOffset :: _ :: length :: _ => length ≠ 0 || memOffset ≤ c.memory.len
  | .CALL, initialGas :: _ :: _ :: _ :: _ :: retOffset :: retSize :: _ =>
    callSafe E c initialGas retOffset retSize
  | .CALLCODE, initialGas :: _ :: _ :: _ :: _ :: retOffset :: retSize :: _ =>
    callSafe E c initialGas retOffset retSize
  | .DELEGATECALL, initialGas :: _ :: _ :: _ :: retOffset :: retSize :: _ =>
    callSafe E c initialGas retOffset retSize
  | .STATICCALL, initialGas :: _ :: _ :: _ :: retOffset :: retSize :: _ =>
    callSafe E c initialGas retOffset retSize
  | _, _ => true

def safe (E : Env σ) (c : State σ) : Bool :=
  match E.msg.code[c.ip.toNat]?.bind ofByte with
  | some op => op.safe E c
  | none => true

theorem callSafe_iff {initialGas retOffset retSize : ℤ} :
    callSafe E c initialGas retOffset retSize = true ↔
      (retSize = 0 → retOffset ≤ c.memory.cap) ∧
        (E.config.eip150 = true ∨ initialGas < 2 ^ 64 - 34040 ∨ 2 ^ 64 ≤ initialGas) := by
  simp only [callSafe, Bool.and_eq_true, Bool.or_eq_true, decide_eq_true_eq, ne_eq, or_assoc]
  rw [← imp_iff_not_or]

variable {op : OpCode} {bitmap : Bytes} {i n : ℕ} {b : UInt8}

theorem exists_call_operands {live : List ℤ}
    (h : op.values + 6 ≤ live.length) :
    ∃ initialGas addr inOffset inSize retOffset retSize operand rest, live = initialGas :: addr ::
      (operand ++ inOffset :: inSize :: retOffset :: retSize :: rest) ∧
      operand.length = op.values := by
  obtain ⟨initialGas, l₁, rfl, h₁⟩ := exists_cons h
  obtain ⟨addr, l₂, rfl, h₂⟩ := exists_cons h₁
  generalize op.values = n at h₂
  obtain ⟨inOffset, l₃, hl₃, h₃⟩ := exists_cons (by simp; omega : 3 + 1 ≤ (l₂.drop n).length)
  obtain ⟨inSize, l₄, rfl, h₄⟩ := exists_cons h₃
  obtain ⟨retOffset, l₅, rfl, h₅⟩ := exists_cons h₄
  obtain ⟨retSize, rest, rfl, -⟩ := exists_cons h₅
  refine ⟨initialGas, addr, inOffset, inSize, retOffset, retSize, l₂.take n, rest, ?_, ?_⟩
  · rw [← hl₃, take_append_drop]
  · exact length_take_of_le (by omega)

theorem opCall_progress_of_safe (htype : (callType op).isSome = true)
    (hchildren : ChildrenKeepGas E.host)
    (hstack : op.values + 6 ≤ c.stack.live.length)
    (hsafe : op.safe E c = true) : Progresses 1 (opCall E op) c := by
  obtain ⟨initialGas, addr, inOffset, inSize, retOffset, retSize, operand, rest, hlive, hlength⟩ :=
    exists_call_operands hstack
  have hcall : callSafe E c initialGas retOffset retSize = true := by
    cases op with
    | CALL | CALLCODE =>
      obtain ⟨value, rfl⟩ := length_eq_one_iff.mp hlength
      simpa [OpCode.safe, hlive] using hsafe
    | DELEGATECALL | STATICCALL =>
      obtain rfl := length_eq_zero_iff.mp hlength
      simpa [OpCode.safe, hlive] using hsafe
    | _ => cases htype
  obtain ⟨hret, hgas⟩ := callSafe_iff.mp hcall
  exact opCall_progress hchildren htype ⟨hlive, hlength, hret, hgas⟩

theorem handler_progress (op : OpCode) (hop : op ≠ .DUP 0) (hchildren : ChildrenKeepGas E.host)
    (hbitmap : E.msg.code.length / 8 < E.bitmap.length) (hip : c.ip.toNat < E.msg.code.length)
    (hstack : (handler E op).stack ≤ c.stack.live.length) (hsafe : op.safe E c = true) :
    Returns (handler E op).inst c
      fun _ ↦ Progress (if (handler E op).gas = 0 then 1 else 0) c := by
  cases op with
  | STOP => exact returns_halt.mpr (.inl rfl)
  | ADD | SUB | MUL | DIV | SDIV | MOD | SMOD | AND | OR | XOR | BYTE | EQ | LT | GT | SLT | SGT =>
    exact binary_progress _ hstack
  | ADDMOD | MULMOD => exact ternary_progress _ hstack
  | NOT | ISZERO => exact unary_progress _ (.refl c) hstack
  | SHL | SHR | SAR => exact sinceFork_progress (binary_progress _ hstack)
  | EXP => exact opExp_progress hstack
  | SIGNEXTEND =>
    refine opSignExtension_progress hstack fun ext hext ↦ ?_
    obtain ⟨live, hlive⟩ := head?_eq_some_iff.mp hext
    simpa [OpCode.safe, hlive] using hsafe
  | PUSH n => exact opPush_progress n hip
  | DUP n => exact opDup_progress fun h ↦ hop (congrArg DUP h)
  | SWAP n => exact opSwap_progress n
  | LOG n => exact opLog_progress n
  | POP => exact opPop_progress hstack
  | MLOAD => exact opMload_progress hstack
  | MSTORE =>
    refine opMStore_progress hstack fun val hval ↦ ?_
    obtain ⟨offset, l, hlive, h₁⟩ := exists_cons hstack
    obtain ⟨val', live, rfl, -⟩ := exists_cons h₁
    obtain rfl : val' = val := by simpa [hlive] using hval
    simpa [OpCode.safe, hlive] using hsafe
  | MSTORE8 => exact opMStore8_progress hstack
  | SLOAD => exact opSload_progress hstack
  | SSTORE => exact opSStore_progress hstack
  | SHA3 => exact opSha3_progress hstack
  | ADDRESS | CALLER | CALLVALUE | CALLDATASIZE | CODESIZE =>
    exact push_progress (.refl c) le_rfl
  | ORIGIN | GASPRICE | COINBASE | TIMESTAMP | NUMBER | DIFFICULTY | GASLIMIT =>
    exact hostPush_progress
  | SELFBALANCE | CHAINID => exact sinceFork_progress hostPush_progress
  | RETURNDATASIZE => exact sinceFork_progress statePush_progress
  | PC | MSIZE | GAS => exact statePush_progress
  | BALANCE => exact opBalance_progress hstack
  | EXTCODESIZE => exact opExtCodeSize_progress hstack
  | EXTCODEHASH => exact opExtCodeHash_progress hstack
  | CALLDATALOAD => exact opCallDataLoad_progress hstack
  | BLOCKHASH => exact opBlockHash_progress hstack
  | CALLDATACOPY | CODECOPY => exact dataCopy_progress hstack
  | EXTCODECOPY => exact opExtCodeCopy_progress hstack
  | RETURNDATACOPY =>
    refine opReturnDataCopy_progress hstack fun memOffset dataOffset length live hlive hzero ↦ ?_
    simpa [OpCode.safe, hlive, hzero] using hsafe
  | SELFDESTRUCT => exact opSelfDestruct_progress hstack
  | JUMP => exact opJump_progress hstack hbitmap
  | JUMPI => exact opJumpi_progress hstack hbitmap
  | JUMPDEST => exact returns_pure.mpr ((Runs.refl c).progress le_rfl)
  | REVERT =>
    change Progresses 1 (opHalt E .REVERT) c
    exact opHalt_progress hstack
  | RETURN =>
    change Progresses 1 (opHalt E .RETURN) c
    exact opHalt_progress hstack
  | CREATE =>
    change Progresses 0 (opCreate E .CREATE) c
    exact opCreate_progress hchildren hstack
  | CREATE2 =>
    change Progresses 0 (opCreate E .CREATE2) c
    exact opCreate_progress hchildren hstack
  | CALL | CALLCODE | DELEGATECALL | STATICCALL =>
    exact opCall_progress_of_safe rfl hchildren hstack hsafe

theorem setBit_spec (h : i / 8 < bitmap.length) :
    ∃ bitmap', setBit bitmap i = some bitmap' ∧ bitmap'.length = bitmap.length := by
  rw [setBit, getElem?_eq_getElem h]
  exact ⟨_, rfl, length_set⟩

-- A push at the end of the code takes the scan beyond it, but then no code is left.
theorem markJumpdests_spec (fuel : ℕ) {code : Bytes}
    (hi : code = [] ∨ i + code.length ≤ n) (hn : n / 8 < bitmap.length) :
    ∃ bitmap', markJumpdests fuel code i bitmap = some bitmap' ∧
      bitmap'.length = bitmap.length := by
  induction fuel generalizing code i bitmap with
  | zero => exact ⟨bitmap, rfl, rfl⟩
  | succ fuel ih =>
    cases code with
    | nil => exact ⟨bitmap, rfl, rfl⟩
    | cons b code =>
      have hle : i + (code.length + 1) ≤ n := hi.resolve_left (cons_ne_nil b code)
      have hnext : code = [] ∨ i + 1 + code.length ≤ n := .inr (by omega)
      unfold markJumpdests
      split_ifs
      · refine ih ?_ hn
        rw [drop_eq_nil_iff, length_drop]
        omega
      · obtain ⟨bitmap', heq, hlength⟩ := setBit_spec (by omega : i / 8 < bitmap.length)
        obtain ⟨out, hout, hsame⟩ := ih hnext (hlength.symm ▸ hn)
        exact ⟨out, by rw [heq, Option.bind_some, hout], hsame.trans hlength⟩
      · exact ih hnext hn

theorem setCode_spec (grow : ℕ → ℕ → ℕ) (buf : Slice) (code : Bytes) :
    ∃ bitmap, setCode grow buf code = some bitmap ∧ code.length / 8 < bitmap.length := by
  have hlen : (extendByteSlice grow buf (code.length / 8 + 1)).live.length = code.length / 8 + 1 :=
    extendByteSlice_len grow buf _
  obtain ⟨bitmap, heq, hlength⟩ := markJumpdests_spec code.length
    (.inr (Nat.zero_add code.length).le)
    (by omega : code.length / 8 < (extendByteSlice grow buf (code.length / 8 + 1)).live.length)
  exact ⟨bitmap, heq, by omega⟩

theorem OpCode.ofByte_ne_dup_zero (h : ofByte b = some op) : op ≠ .DUP 0 := by
  rintro rfl
  dsimp only [ofByte] at h
  split_ifs at h
  iterate 4 simp at h
  split at h <;> simp at h

theorem OpCode.ofByte_push (h : ofByte b = some (.PUSH n)) :
    (0x60 ≤ b.toNat ∧ b.toNat ≤ 0x7f) ∧ n = b.toNat - 0x5f := by
  dsimp only [ofByte] at h
  split_ifs at h with hpush
  · cases h
    exact ⟨hpush, by omega⟩
  iterate 3 simp at h
  split at h <;> simp at h

structure Unchanged (c c' : State σ) : Prop where
  runs : Runs 0 c c'
  stack : c'.stack = c.stack
  memory : c'.memory = c.memory

theorem captureState_spec (op : UInt8) : Returns (captureState E op) c fun _ ↦ Unchanged c := by
  refine returns_bind.mpr (returns_get.mpr ?_)
  refine callHost_then (.refl c) fun cancelled c' hr hstack hmemory ↦ ?_
  apply returns_ite
  · intro _
    exact returns_halt.mpr ⟨hr.same rfl rfl rfl rfl, hstack, hmemory⟩
  · intro _
    exact returns_pure.mpr ⟨hr, hstack, hmemory⟩

theorem captureExecution_spec (op : UInt8) (gas : ℕ) :
    Returns (captureExecution E op gas) c fun _ ↦ Unchanged c := by
  simp only [captureExecution, callHost, returns_bind, returns_get, returns_set, returns_pure]
  exact ⟨(Runs.refl c).same rfl rfl rfl rfl, rfl, rfl⟩

theorem abort_spec (err : RuntimeError) (op : UInt8) (gasCopy : ℕ) {Q : Bool → State σ → Prop}
    (hQ : ∀ c', Q false c') : Returns (abort E err op gasCopy) c Q := by
  refine returns_bind.mpr (returns_exit.mpr (returns_bind.mpr ?_))
  exact (captureExecution_spec op gasCopy).mono fun _ c' _ ↦ returns_pure.mpr (hQ c')

theorem turn_spec (hchildren : ChildrenKeepGas E.host)
    (hbitmap : E.msg.code.length / 8 < E.bitmap.length) (hip : 0 ≤ c.ip) (hsafe : safe E c = true) :
    Returns (turn E) c fun go c' ↦
      go = true → c'.stop = false → 0 ≤ c'.ip ∧ c'.gas < c.gas := by
  refine returns_bind.mpr (returns_get.mpr ?_)
  apply returns_ite
  · intro _
    refine returns_bind.mpr ((captureState_spec 0).mono fun _ c₁ _ ↦ ?_)
    exact returns_bind.mpr (returns_halt.mpr (returns_pure.mpr nofun))
  intro hend
  have hlt : c.ip.toNat < E.msg.code.length := by omega
  rw [if_neg (not_lt.mpr hip), getElem?_eq_getElem hlt]
  refine returns_bind.mpr ((captureState_spec _).mono fun _ c₁ h₁ ↦ ?_)
  cases hop : ofByte E.msg.code[c.ip.toNat] with
  | none => exact abort_spec _ _ _ fun _ ↦ nofun
  | some op =>
    have hopSafe : op.safe E c = true := by
      simpa [safe, getElem?_eq_getElem hlt, hop] using hsafe
    refine returns_bind.mpr (returns_get.mpr ?_)
    apply returns_ite
    · exact fun _ ↦ abort_spec _ _ _ fun _ ↦ nofun
    intro hstack
    refine returns_bind.mpr ((consumeGas_spec h₁.runs).mono ?_)
    rintro _ c₂ (⟨hr₂, hstack₂, hmemory₂⟩ | _)
    · refine returns_bind.mpr ((captureExecution_spec _ _).mono fun _ c₃ h₃ ↦ ?_)
      have hstack₃ := h₃.stack.trans (hstack₂.trans h₁.stack)
      have hmemory₃ := h₃.memory.trans (hmemory₂.trans h₁.memory)
      have hip₃ : c₃.ip = c.ip := h₃.runs.ip.trans hr₂.ip
      refine returns_bind.mpr (Returns.mono (handler_progress op (ofByte_ne_dup_zero hop)
        hchildren hbitmap (hip₃ ▸ hlt) ?_ ?_) fun _ c₄ hprogress ↦ ?_)
      · rw [hstack₃, ← h₁.stack]
        exact not_lt.mp hstack
      · simp only [OpCode.safe, callSafe, hstack₃, hmemory₃] at hopSafe ⊢
        exact hopSafe
      refine returns_bind.mpr (returns_get.mpr ?_)
      apply returns_ite
      · intro _
        exact returns_bind.mpr (returns_exit.mpr (returns_pure.mpr nofun))
      intro _
      refine returns_bind.mpr (returns_modify.mpr (returns_pure.mpr fun _ hrunning ↦ ?_))
      obtain hstop | ⟨hgas₄, hip₄⟩ := hprogress
      · exact absurd hrunning (by simp [hstop])
      have hgas₃ := h₃.runs.gas
      have hgas₂ := hr₂.gas
      have hip₄ := hip₄ (hip₃ ▸ hip)
      refine ⟨(by omega : 0 ≤ c₄.ip + 1), (?_ : c₄.gas < c.gas)⟩
      split at hgas₄ <;> omega
    · exact abort_spec _ _ _ fun _ ↦ nofun

theorem runLoop_done (hchildren : ChildrenKeepGas E.host)
    (hbitmap : E.msg.code.length / 8 < E.bitmap.length) (hip : 0 ≤ c.ip)
    (hsafe : ∀ t, Loop.Reaches (fun c ↦ !c.stop) (turn E) c t → t.stop = false → safe E t = true) :
    ∃ t, ∀ fuel, c.gas + 2 ≤ fuel → runLoop E fuel c = .done t := by
  have hbody : ∀ c : State σ, 0 ≤ c.ip → (!c.stop) = true → safe E c = true →
      ∃ go c', turn E c = some (go, c') ∧
        (go = true → (!c'.stop) = true → 0 ≤ c'.ip ∧ c'.gas < c.gas) := by
    intro c hip _ hsafe
    obtain ⟨go, c', heq, hnext⟩ := turn_spec hchildren hbitmap hip hsafe
    exact ⟨go, c', heq, fun hgo hrunning ↦ hnext hgo (Bool.not_eq_true' _ ▸ hrunning)⟩
  refine Loop.loop_done hbody hip fun t hreach hrunning ↦ hsafe t hreach ?_
  exact Bool.not_eq_true' _ ▸ hrunning

/-- `EVM.Run` returns if the instructions that can panic are safe wherever the run comes to them. -/
theorem run_returns (L : Library) (H : Host σ) (hchildren : ChildrenKeepGas H) (msg : Contract)
    (config : ForksInTime) (pooled : Pooled) (host : σ)
    (hsafe : ∀ bitmap, setCode L.grow ⟨[], pooled.bitmap⟩ msg.code = some bitmap →
      ∀ c, Loop.Reaches (fun c ↦ !c.stop) (turn (frame L H msg config bitmap))
        (State.init pooled msg.gas host) c → c.stop = false →
        safe (frame L H msg config bitmap) c = true) :
    ∃ result, ∀ fuel, msg.gas + 2 ≤ fuel →
      run L H msg config pooled host fuel = .done result := by
  obtain ⟨bitmap, hcode, hlength⟩ := setCode_spec L.grow ⟨[], pooled.bitmap⟩ msg.code
  obtain ⟨c, hc⟩ := runLoop_done (E := frame L H msg config bitmap)
    (c := State.init pooled msg.gas host) hchildren hlength le_rfl (hsafe bitmap hcode)
  refine ⟨c.result msg, fun fuel hfuel ↦ ?_⟩
  simp only [run, hcode]
  rw [hc fuel hfuel]
  rfl

def quietHost : Host Unit where
  accountExists _ _ := (false, ())
  getStorage _ _ _ := (default, ())
  setStorage _ _ _ _ _ := (.unchanged, ())
  getBalance _ _ := (0, ())
  getCodeSize _ _ := (0, ())
  getCodeHash _ _ := (default, ())
  getCode _ _ := ([], ())
  selfdestruct _ _ _ := ((), ())
  getTxContext _ := (default, ())
  getBlockHash _ _ := (default, ())
  emitLog _ _ _ _ := ((), ())
  callx contract _ := (⟨[1], contract.gas, 0, none⟩, ())
  empty _ _ := (true, ())
  getNonce _ _ := (0, ())
  captureState _ _ _ _ _ _ := (false, ())
  executeState _ _ _ _ _ _ _ _ _ := ((), ())

-- Slices this short get a capacity that is a multiple of eight bytes.
def goLibrary : Library where
  marshal := Lib.Rlp.encode
  parse := Lib.Rlp.decode
  keccak256 _ := default
  grow _ n := (n + 7) / 8 * 8

def allForks : ForksInTime := ⟨true, true, true, true, true, true, true, true⟩

def topCall (code : Bytes) : Contract :=
  newContract 0 zeroAddress zeroAddress zeroAddress (some 0) 100 code

def copyNothing : Bytes := [0x60, 0, 0x60, 0, 0x60, 1, 0x3e]

def storeThenCopy : Bytes := [0x60, 42, 0x60, 0, 0x52] ++ copyNothing

theorem run_returns_storeThenCopy :
    ∃ result, ∀ fuel, 102 ≤ fuel →
      run goLibrary quietHost (topCall storeThenCopy) allForks ⟨[], []⟩ () fuel = .done result := by
  refine run_returns goLibrary quietHost (fun _ _ ↦ le_rfl) (topCall storeThenCopy) allForks
    ⟨[], []⟩ () ?_
  intro bitmap hbitmap c hreach hrunning
  cases (by decide +kernel : setCode _ _ _ = some [0, 0]).symm.trans hbitmap
  refine hreach.of_checkAll (by decide +kernel : Loop.checkAll _ _ _ 20 _ = true) ?_
  simp [hrunning]

/-- A copy of nothing to offset 1 of the empty memory panics. -/
theorem run_copyNothing_panics :
    ChildrenKeepGas quietHost ∧
      run goLibrary quietHost (topCall copyNothing) allForks ⟨[], []⟩ () 102 = .panic :=
  ⟨fun _ _ ↦ le_rfl, by decide +kernel⟩

end Mainnet.Evm
