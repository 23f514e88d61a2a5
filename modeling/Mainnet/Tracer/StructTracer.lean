import Mainnet.Evm.TurnRespects

namespace Mainnet.Tracer

open Types Mainnet.Runtime Evm Lib Prog

variable {σ : Type}

structure Config where
  enableMemory : Bool
  enableStack : Bool
  enableStorage : Bool
  enableReturnData : Bool

abbrev Slots := Hash → Option Hash

/-- One entry of the trace; what its configuration leaves out is nil. The instruction is given by its
byte, of which the trace has the name. -/
structure StructLog where
  pc : ℕ
  op : UInt8
  gas : ℕ
  gasCost : ℕ
  memory : Bytes
  memorySize : ℕ
  stack : List ℤ
  returnData : Bytes
  storage : Option Slots
  depth : ℕ
  refundCounter : ℕ
  err : Option RuntimeError

structure StructTracer where
  config : Config
  interrupt : Bool
  logs : List StructLog
  storage : Address → Option Slots
  currentMemory : Bytes
  currentStack : List ℤ

def newStructTracer (config : Config) : StructTracer :=
  ⟨config, false, [], fun _ ↦ none, [], []⟩

namespace StructTracer

variable (t : StructTracer)

def cancel : StructTracer := { t with interrupt := true }

def captureMemory (memory : Bytes) : StructTracer :=
  if t.config.enableMemory then { t with currentMemory := memory } else t

/-- The whole slice is copied, the stack pointer is not looked at. -/
def captureStack (stack : List ℤ) : StructTracer :=
  if t.config.enableStack then { t with currentStack := stack } else t

def setSlot (addr : Address) (slot value : Hash) : StructTracer :=
  let slots := (t.storage addr).getD fun _ ↦ none
  { t with storage := Function.update t.storage addr (some (Function.update slots slot (some value))) }

def executeState (addr : Address) (ip : ℕ) (op : UInt8) (availableGas cost : ℕ)
    (lastReturnData : Bytes) (depth : ℕ) (err : Option RuntimeError) (refund : ℕ) : StructTracer :=
  { t with
    logs := t.logs ++ [{
      pc := ip
      op := op
      gas := availableGas
      gasCost := cost
      memory := if t.config.enableMemory then t.currentMemory else []
      memorySize := if t.config.enableMemory then t.currentMemory.length else 0
      stack := if t.config.enableStack then t.currentStack else []
      returnData := if t.config.enableReturnData then lastReturnData else []
      storage := if t.config.enableStorage then t.storage addr else none
      depth := depth
      refundCounter := refund
      err := err }] }

end StructTracer

-- The slice is at least as long as the stack pointer says, so that every index is within it.
def captureStorage (H : Host σ) (stack : List ℤ) (op : UInt8) (addr : Address) (sp : ℕ) (s : σ)
    (t : StructTracer) : σ × StructTracer :=
  if !t.config.enableStorage then (s, t)
  -- `SLOAD`
  else if op = 0x54 then
    if sp < 1 then (s, t)
    else
      let slot := bigToHash (stack.getD (sp - 1) 0)
      let value := H.getStorage addr slot s
      (value.2, t.setSlot addr slot value.1)
  -- `SSTORE`
  else if op = 0x55 then
    if sp < 2 then (s, t)
    else
      let slot := bigToHash (stack.getD (sp - 2) 0)
      let value := bigToHash (stack.getD (sp - 1) 0)
      (s, t.setSlot addr slot value)
  else (s, t)

/-- The flag says that the tracer has been cancelled and halts the frame. -/
def captureState (H : Host σ) (memory : Bytes) (stack : List ℤ) (op : UInt8) (addr : Address)
    (sp : ℕ) (s : σ) (t : StructTracer) : Bool × (σ × StructTracer) :=
  if t.interrupt then (true, (s, t))
  else (false, captureStorage H stack op addr sp s ((t.captureMemory memory).captureStack stack))

/-- The host `H` with a tracer beside it. Calls run frames with the same tracer, so that they are
given with it. -/
def traced (H : Host σ) (getRefund : σ → ℕ)
    (callx : Contract → σ × StructTracer → ExecutionResult × (σ × StructTracer)) :
    Host (σ × StructTracer) where
  accountExists addr := lift (H.accountExists addr)
  getStorage addr key := lift (H.getStorage addr key)
  setStorage addr key val config := lift (H.setStorage addr key val config)
  getBalance addr := lift (H.getBalance addr)
  getCodeSize addr := lift (H.getCodeSize addr)
  getCodeHash addr := lift (H.getCodeHash addr)
  getCode addr := lift (H.getCode addr)
  selfdestruct addr beneficiary := lift (H.selfdestruct addr beneficiary)
  getTxContext := lift H.getTxContext
  getBlockHash number := lift (H.getBlockHash number)
  emitLog addr topics data := lift (H.emitLog addr topics data)
  callx := callx
  empty addr := lift (H.empty addr)
  getNonce addr := lift (H.getNonce addr)
  captureState memory stack op addr sp st := captureState H memory stack op addr sp st.1 st.2
  executeState addr ip op gas cost data depth err st :=
    ((), (st.1, st.2.executeState addr ip op gas cost data depth err (getRefund st.1)))
where
  lift {α : Type} (method : σ → α × σ) (st : σ × StructTracer) : α × (σ × StructTracer) :=
    ((method st.1).1, ((method st.1).2, st.2))

def tracedFrame (E : Env σ) (getRefund : σ → ℕ)
    (callx : Contract → σ × StructTracer → ExecutionResult × (σ × StructTracer)) :
    Env (σ × StructTracer) :=
  frame E.toLibrary (traced E.host getRefund callx) E.msg E.config E.bitmap

theorem captureStorage_keeps (H : Host σ) (stack : List ℤ) (op : UInt8) (addr : Address) (sp : ℕ)
    (s : σ) (t : StructTracer) : ∃ storage,
      (captureStorage H stack op addr sp s t).2 = { t with storage := storage } := by
  unfold captureStorage
  split_ifs
  all_goals exact ⟨_, rfl⟩

theorem captureState_keeps (H : Host σ) (memory : Bytes) (stack : List ℤ) (op : UInt8)
    (addr : Address) (sp : ℕ) (s : σ) {t : StructTracer} (h : t.config.enableStack = true) :
    ∃ current storage, (captureState H memory stack op addr sp s t).2.2 = { t with
      storage := storage
      currentMemory := current
      currentStack := if t.interrupt then t.currentStack else stack } := by
  unfold captureState
  split_ifs with hcancelled
  · exact ⟨_, _, rfl⟩
  · obtain ⟨storage, hkeeps⟩ := captureStorage_keeps H stack op addr sp s
      ((t.captureMemory memory).captureStack stack)
    have hstack : (t.captureMemory memory).captureStack stack = { t with
        currentMemory := (t.captureMemory memory).currentMemory, currentStack := stack } := by
      unfold StructTracer.captureMemory StructTracer.captureStack
      split_ifs <;> rfl
    dsimp only
    rw [hkeeps, hstack]
    exact ⟨_, _, rfl⟩

structure Shows (E : Env σ) (op : OpCode) (c : State σ) (entry : StructLog) : Prop where
  stack : entry.stack = c.stack.live.reverse
  gas : entry.gas = c.gas
  gasCost : entry.gasCost = (handler E op).gas

theorem handler_gas_lt (E : Env σ) (op : OpCode) : (handler E op).gas < 2 ^ 64 := by
  cases op <;> simp [handler]

/-- Where an entry is right: nothing lies above the stack pointer, or a cancelled tracer happens to
have captured the same stack before, and nothing has been charged in the frame yet. -/
def ShowsNext (c : State (σ × StructTracer)) : Prop :=
  (if c.host.2.interrupt then c.host.2.currentStack = c.stack.live.reverse else c.stack.dead = []) ∧
    c.currentConsumedGas % 2 ^ 64 = 0

theorem log_shows_iff (E : Env σ) (getRefund : σ → ℕ)
    (callx : Contract → σ × StructTracer → ExecutionResult × (σ × StructTracer))
    {c : State (σ × StructTracer)} {b : UInt8} {op : OpCode}
    (h : Executes (tracedFrame E getRefund callx) c b op)
    (hstack : c.host.2.config.enableStack = true) :
    turn (tracedFrame E getRefund callx) c = finishTurn (tracedFrame E getRefund callx) op
        (begun (tracedFrame E getRefund callx) op b c) ∧
      ∃ entry, (begun (tracedFrame E getRefund callx) op b c).host.2.logs =
          c.host.2.logs ++ [entry] ∧
        (Shows (tracedFrame E getRefund callx) op c entry ↔ ShowsNext c) := by
  refine ⟨h.turn, ?_⟩
  obtain ⟨current, storage, hkeeps⟩ := captureState_keeps E.host c.memory.live
    (c.stack.live.reverse ++ c.stack.dead) b E.msg.address c.stack.live.length c.host.1 hstack
  have hlogs : (begun (tracedFrame E getRefund callx) op b c).host.2 =
      (captureState E.host c.memory.live (c.stack.live.reverse ++ c.stack.dead) b E.msg.address
        c.stack.live.length c.host.1 c.host.2).2.2.executeState E.msg.address
          (c.ip % 2 ^ 64).toNat b c.gas
          ((c.currentConsumedGas + (handler (tracedFrame E getRefund callx) op).gas) % 2 ^ 64)
          c.returnData E.msg.depth c.err _ := rfl
  rw [hlogs, hkeeps]
  refine ⟨_, rfl, ?_⟩
  have hcost := handler_gas_lt (tracedFrame E getRefund callx) op
  have hshown : (if c.host.2.interrupt then c.host.2.currentStack
      else c.stack.live.reverse ++ c.stack.dead) = c.stack.live.reverse ↔
      if c.host.2.interrupt then c.host.2.currentStack = c.stack.live.reverse
      else c.stack.dead = [] := by
    split_ifs
    · exact Iff.rfl
    · exact List.append_right_eq_self
  constructor
  · rintro ⟨hentry, _, hcharged⟩
    exact ⟨hshown.mp ((if_pos hstack).symm.trans hentry), by dsimp only at hcharged; omega⟩
  · rintro ⟨hlive, hused⟩
    exact ⟨(if_pos hstack).trans (hshown.mpr hlive), rfl, by dsimp only; omega⟩

def tracedCode (code : Bytes) : Env (Unit × StructTracer) :=
  tracedFrame (frame goLibrary quietHost (topCall code) allForks [0]) (fun _ ↦ 0)
    fun k st ↦ (⟨[], k.gas, 0, none⟩, st)

def stackTracer : StructTracer := newStructTracer ⟨false, true, false, false⟩

theorem log_shows_first : ∃ entry, (begun (tracedCode [0x60, 1]) (.PUSH 1) 0x60
      (.init ⟨[], []⟩ 100 ((), stackTracer))).host.2.logs = [entry] ∧
    Shows (tracedCode [0x60, 1]) (.PUSH 1) (.init ⟨[], []⟩ 100 ((), stackTracer)) entry := by
  have hpush : Executes (tracedCode [0x60, 1]) (.init ⟨[], []⟩ 100 ((), stackTracer)) 0x60
      (.PUSH 1) := ⟨⟨le_rfl, rfl, rfl⟩, le_rfl, by decide⟩
  obtain ⟨_, entry, hlogs, hshows⟩ := log_shows_iff _ _ _ hpush rfl
  exact ⟨entry, hlogs, hshows.mpr ⟨rfl, rfl⟩⟩

/-- After a push and a pop the entry of `JUMPDEST` shows the popped number, and the cost of all three
instructions. -/
theorem log_shows_popped : ∃ c entry,
    Loop.after (fun c ↦ !c.stop) (turn (tracedCode [0x60, 1, 0x50, 0x5b])) 2
        (.init ⟨[], []⟩ 100 ((), stackTracer)) = some c ∧
      Executes (tracedCode [0x60, 1, 0x50, 0x5b]) c 0x5b .JUMPDEST ∧
      (begun (tracedCode [0x60, 1, 0x50, 0x5b]) .JUMPDEST 0x5b c).host.2.logs =
        c.host.2.logs ++ [entry] ∧
      c.stack.live = [] ∧ entry.stack = [1] ∧
      (handler (tracedCode [0x60, 1, 0x50, 0x5b]) .JUMPDEST).gas = 1 ∧ entry.gasCost = 6 :=
  ⟨_, _, rfl, ⟨⟨by decide, rfl, rfl⟩, le_rfl, by decide⟩, rfl, rfl, rfl, rfl, rfl⟩

end Mainnet.Tracer
