import Mainnet.Evm.CallEffects

namespace Mainnet.Evm

open Types Mainnet.Runtime Lib Prog List Option Nat Bool

variable {σ : Type} {O : Observer σ} {E : Env σ} {c c' : State σ} {d : ℕ} {fits : Prop}

def gasFits (msg : Contract) (config : ForksInTime) (c : State σ) : Bool :=
  match msg.code[c.ip.toNat]?.bind OpCode.ofByte with
  | some op => op.gasFits config c.stack.live
  | none => true

section

variable (hO : O.Sees E.host)
include hO

theorem handler_effect (op : OpCode)
    (hstack : (handler E op).stack ≤ c.stack.live.length) :
    Ensures (handler E op).inst c fun _ ↦
      Effect O E (op.gasFits E.config c.stack.live = true)
        (if (handler E op).gas = 0 then 1 else 0) c := by
  by_cases hcalls : op.calls = true
  · cases op with
    | SSTORE => exact opSStore_effect hO
    | LOG n => exact opLog_effect hO n
    | SELFDESTRUCT => exact opSelfDestruct_effect hO
    | CREATE | CREATE2 => exact opCreate_effect hO
    | CALL | CALLCODE | DELEGATECALL | STATICCALL => exact opCall_effect hO rfl hstack
    | _ => cases hcalls
  · exact (calm_handler hO op (not_eq_true _ ▸ hcalls) c).mono fun _ _ hq ↦ hq.effect

theorem calm_captureState (op : UInt8) : Calm O 0 (captureState E op) :=
  .andThen calm_get fun _ ↦ .andThen (calm_callHost (hO.captureState _ _ _ _ _)) fun _ ↦
    .ite calm_halt (.pure _)

theorem calm_captureExecution (op : UInt8) (gas : ℕ) : Calm O 0 (captureExecution E op gas) :=
  .andThen calm_get fun _ ↦ calm_callHost (hO.executeState _ _ _ _ _ _ _ _)

theorem abort_effect (err : RuntimeError) (op : UInt8) (gasCopy : ℕ)
    {c₀ : State σ}
    (hq : Quiet O 0 c₀ c) : Ensures (abort E err op gasCopy) c fun go c' ↦
      Effect O E fits (if go then 1 else 0) c₀ c' := by
  refine (calm_exit (d := 0) err).then hq fun _ c₁ hq₁ ↦ ?_
  exact (calm_captureExecution hO op gasCopy).then hq₁ fun _ c' hq' ↦ ensures_pure.mpr hq'.effect

theorem turn_effect : Ensures (turn E) c fun go c' ↦
    Effect O E (gasFits E.msg E.config c = true) (if go then 1 else 0) c c' := by
  refine ensures_bind.mpr (ensures_get.mpr (ensures_ite (fun _ ↦ ?_) fun hend ↦ ?_))
  · refine (calm_captureState hO 0).then (.refl O c) fun _ c₁ hq₁ ↦ ?_
    exact (calm_halt (d := 0)).then hq₁ fun _ c' hq ↦ ensures_pure.mpr hq.effect
  split
  · exact ensures_panic
  rename_i b hb
  refine ensures_bind.mpr (((captureState_spec b).ensures.and (calm_captureState hO b c)).mono ?_)
  rintro _ c₁ ⟨h₁, hq₁⟩
  cases hop : OpCode.ofByte b with
  | none => exact abort_effect hO _ _ _ hq₁
  | some op =>
    have hfits : gasFits E.msg E.config c = op.gasFits E.config c.stack.live := by
      split at hb
      · cases hb
      · simp [gasFits, hb, hop]
    rw [hfits]
    refine ensures_bind.mpr (ensures_get.mpr (ensures_ite (fun _ ↦ abort_effect hO _ _ _ hq₁) ?_))
    intro hstack
    refine ensures_bind.mpr (((consumeGas_ensures (O := O) _).and
      (consumeGas_spec (.refl c₁)).ensures).mono ?_)
    rintro ok c₂ ⟨⟨hq₂, _, hpaid⟩, hchecked⟩
    have hq₂ : Quiet O 0 c c₂ := (hq₁.trans hq₂).weaken (zero_le _)
    cases hchecked with
    | stopped _ => exact abort_effect hO _ _ _ hq₂
    | ok h₂ =>
      rw [if_pos rfl]
      refine ensures_bind.mpr (((captureExecution_spec b c.gas).ensures.and
        (calm_captureExecution hO b c.gas c₂)).mono ?_)
      rintro _ c₃ ⟨h₃, hq₃⟩
      have hstack₃ : c₃.stack = c₁.stack := h₃.stack.trans h₂.2.1
      have hgas₃ : c₃.gas + (handler E op).gas ≤ c.gas := by
        have := hq₁.gas
        have := hq₃.gas
        have := hpaid rfl
        omega
      refine ensures_bind.mpr ((handler_effect hO op (hstack₃ ▸ not_lt.mp hstack)).mono ?_)
      intro _ c₄ h₄
      rw [hstack₃.trans h₁.stack] at h₄
      refine ensures_bind.mpr (ensures_get.mpr (ensures_ite (fun _ ↦ ?_) fun _ ↦ ?_))
      · refine ensures_bind.mpr (ensures_modify.mpr (ensures_pure.mpr ?_))
        refine (h₄.within hgas₃ (hq₃.log.trans hq₂.log) ?_).weaken (zero_le _)
        exact .stopped rfl rfl rfl
      · refine ensures_bind.mpr (ensures_modify.mpr (ensures_pure.mpr ?_))
        refine (h₄.within hgas₃ (hq₃.log.trans hq₂.log) ?_).weaken ?_
        · exact .same rfl rfl rfl
        · rw [if_pos rfl]
          split <;> omega

end

section Run

variable {L : Library} {H : Host σ} {msg : Contract} {config : ForksInTime} {pooled : Pooled}
  {host : σ} {c c' : State (Recorded σ)}

/-- A turn that the loop makes in a run of `msg`. The host keeps a record of the calls it gets. -/
inductive RunTurn (L : Library) (H : Host σ) (msg : Contract) (config : ForksInTime)
    (pooled : Pooled) (host : σ) (c c' : State (Recorded σ)) : Prop
  | intro {bitmap : Bytes} {go : Bool} :
    setCode L.grow ⟨[], pooled.bitmap⟩ msg.code = some bitmap →
    Loop.Reaches (fun c ↦ !c.stop) (turn (frame L (record H) msg config bitmap))
      (State.init pooled msg.gas (host, [])) c →
    c.stop = false → turn (frame L (record H) msg config bitmap) c = some (go, c') →
    RunTurn L H msg config pooled host c c'

def nthTurn (L : Library) (H : Host σ) (msg : Contract) (config : ForksInTime) (pooled : Pooled)
    (host : σ) (n : ℕ) : Option (State (Recorded σ) × State (Recorded σ)) := do
  let bitmap ← setCode L.grow ⟨[], pooled.bitmap⟩ msg.code
  let c ← Loop.after (fun c ↦ !c.stop) (turn (frame L (record H) msg config bitmap)) n
    (State.init pooled msg.gas (host, []))
  if c.stop then none
  else
    let next ← turn (frame L (record H) msg config bitmap) c
    some (c, next.2)

theorem RunTurn.of_nthTurn {n : ℕ} (h : nthTurn L H msg config pooled host n = some (c, c')) :
    RunTurn L H msg config pooled host c c' := by
  simp only [nthTurn, bind_eq_bind, bind_eq_some_iff] at h
  obtain ⟨bitmap, hcode, c₁, hafter, hnext⟩ := h
  split at hnext
  · cases hnext
  · rename_i hrunning
    obtain ⟨next, hturn, heq⟩ := bind_eq_some_iff.mp hnext
    cases heq
    exact ⟨hcode, .of_after hafter, not_eq_true _ ▸ hrunning, hturn⟩

theorem RunTurn.exists_of_nthTurn {n : ℕ} {p : State (Recorded σ) × State (Recorded σ) → Bool}
    (h : (nthTurn L H msg config pooled host n).any p = true) :
    ∃ c c', RunTurn L H msg config pooled host c c' ∧ p (c, c') = true := by
  cases hturn : nthTurn L H msg config pooled host n with
  | none =>
    rw [hturn] at h
    cases h
  | some next =>
    rw [hturn] at h
    exact ⟨next.1, next.2, .of_nthTurn hturn, h⟩

theorem RunTurn.effect (h : RunTurn L H msg config pooled host c c') :
    ∃ bitmap go, Effect (recorder σ) (frame L (record H) msg config bitmap)
      (gasFits msg config c = true) (if go = true then 1 else 0) c c' := by
  obtain ⟨_, _, _, hturn⟩ := h
  exact ⟨_, _, turn_effect (recorder_sees H) _ _ hturn⟩

def transfersValue (k : Contract) : Bool :=
  k.type ≠ .delegateCall && k.value.any (· ≠ 0)

def debited (c c' : State (Recorded σ)) (result : ExecutionResult) : ℕ :=
  c.gas + result.gasLeft - c'.gas

/-- No turn of a run creates gas, if the gas operand of a call fits. -/
theorem gas_not_created (hchildren : ChildrenKeepGas H)
    (h : RunTurn L H msg config pooled host c c') (hfits : gasFits msg config c = true) :
    c'.gas ≤ c.gas ∧ ∃ calls, c'.host.2 = calls ++ c.host.2 ∧
      ∀ k result, .callx k result ∈ calls →
        k.gas ≤ debited c c' result + if transfersValue k then 2300 else 0 := by
  obtain ⟨bitmap, go, heffect⟩ := h.effect
  cases heffect with
  | silent hlog hspent => exact ⟨(hspent hfits).1, [], hlog, nofun⟩
  | wrote call hlog hwrites _ hspent =>
    refine ⟨hspent.1, [call], hlog, fun k result hmem ↦ ?_⟩
    obtain rfl := mem_singleton.mp hmem
    cases hwrites
  | called k s hlog _ hpaid =>
    have hleft : ((record H).callx k s).1.gasLeft ≤ k.gas := hchildren k s.1
    have hpaid := hpaid hfits
    change k.gas + _ + c'.gas ≤ c.gas + ((record H).callx k s).1.gasLeft at hpaid
    refine ⟨by omega, [.callx k ((record H).callx k s).1], hlog, fun k' result hmem ↦ ?_⟩
    cases mem_singleton.mp hmem
    unfold debited
    omega

end Run

def callZero (initialGas : Bytes) : Bytes :=
  [0x60, 0, 0x60, 0, 0x60, 0, 0x60, 0, 0x60, 0, 0x60, 0, 0x67] ++ initialGas ++ [0xf1]

def thriftyHost : Host Unit :=
  { quietHost with callx := fun contract _ ↦ (⟨[], min 1000 contract.gas, 0, none⟩, ()) }

theorem thriftyHost_keeps : ChildrenKeepGas thriftyHost :=
  fun _ _ ↦ min_le_right _ _

def beforeTangerine : ForksInTime := { allForks with eip150 := false }

theorem gas_not_created_callZero : ∃ c c', RunTurn goLibrary thriftyHost
      (topCall (callZero [0, 0, 0, 0, 0, 0, 0, 9])) beforeTangerine ⟨[], []⟩ () c c' ∧
    c.gas = 79 ∧ c'.gas ≤ c.gas ∧ ∃ calls, c'.host.2 = calls ++ c.host.2 ∧
      ∀ k result, .callx k result ∈ calls →
        k.gas ≤ debited c c' result + if transfersValue k then 2300 else 0 := by
  obtain ⟨c, c', hturn, hp⟩ := RunTurn.exists_of_nthTurn (n := 7)
    (p := fun next ↦ next.1.gas = 79 &&
      gasFits (topCall (callZero [0, 0, 0, 0, 0, 0, 0, 9])) beforeTangerine next.1)
    (by decide +kernel : Option.any _ (nthTurn goLibrary thriftyHost
      (topCall (callZero [0, 0, 0, 0, 0, 0, 0, 9])) beforeTangerine ⟨[], []⟩ () 7) = true)
  obtain ⟨hgas, hfits⟩ := and_eq_true_iff.mp hp
  exact ⟨c, c', hturn, of_decide_eq_true hgas, gas_not_created thriftyHost_keeps hturn hfits⟩

def soleCall : List HostCall → Option (Contract × ExecutionResult)
  | [.callx k result] => some (k, result)
  | _ => none

theorem eq_of_soleCall {log : List HostCall} {call : Contract × ExecutionResult}
    (h : soleCall log = some call) : log = [.callx call.1 call.2] := by
  rw [soleCall.eq_def] at h
  split at h
  · cases h
    rfl
  · cases h

/-- Without EIP-150 the largest gas operand wraps around with the cost of the call: 39 is paid for
a child that gets `2 ^ 64 - 1`, and the frame has more gas after the call than before. -/
theorem gas_created_of_wrap : ChildrenKeepGas thriftyHost ∧
    ∃ c c', RunTurn goLibrary thriftyHost
      (topCall (callZero [0xff, 0xff, 0xff, 0xff, 0xff, 0xff, 0xff, 0xff])) beforeTangerine
      ⟨[], []⟩ () c c' ∧ c.gas = 79 ∧ c'.gas = 1040 ∧
      ∃ k result, c'.host.2 = [.callx k result] ∧ debited c c' result = 39 ∧
        k.gas = 2 ^ 64 - 1 := by
  refine ⟨thriftyHost_keeps, ?_⟩
  obtain ⟨c, c', hturn, hp⟩ := RunTurn.exists_of_nthTurn (n := 7)
    (p := fun next ↦ next.1.gas = 79 && next.2.gas = 1040 && (soleCall next.2.host.2).any
      fun call ↦ debited next.1 next.2 call.2 = 39 && call.1.gas = 2 ^ 64 - 1)
    (by decide +kernel : Option.any _ (nthTurn goLibrary thriftyHost
      (topCall (callZero [0xff, 0xff, 0xff, 0xff, 0xff, 0xff, 0xff, 0xff])) beforeTangerine
      ⟨[], []⟩ () 7) = true)
  simp only [and_eq_true, decide_eq_true_eq] at hp
  obtain ⟨⟨hgas, hgas'⟩, hcalls⟩ := hp
  cases hcall : soleCall c'.host.2 with
  | none =>
    rw [hcall] at hcalls
    cases hcalls
  | some call =>
    rw [hcall, any_some] at hcalls
    simp only [and_eq_true, decide_eq_true_eq] at hcalls
    exact ⟨c, c', hturn, hgas, hgas', call.1, call.2, eq_of_soleCall hcall, hcalls⟩

theorem gasFits_of_eip150 {msg : Contract} {config : ForksInTime} {c : State σ}
    (h : config.eip150 = true) : gasFits msg config c = true := by
  have hoperand : operandFits config = fun _ ↦ true := by
    funext initialGas
    simp [operandFits, h]
  unfold gasFits OpCode.gasFits
  split
  · simp [hoperand]
  · rfl

theorem turn_spends {E : Env σ} (hchildren : ChildrenKeepGas E.host) (h150 : E.config.eip150 = true)
    {c c' : State σ} (h : turn E c = some (true, c')) (hrunning : c'.stop = false) :
    c'.gas + 1 ≤ c.gas := by
  have hfits : gasFits E.msg E.config c = true := gasFits_of_eip150 h150
  have hstop : ¬c'.stop = true := by rw [hrunning]; exact false_ne_true
  have heffect := turn_effect (Observer.blind_sees E.host) _ _ h
  cases heffect with
  | silent _ hspent => exact (hspent hfits).2.resolve_left hstop
  | wrote _ _ _ _ hspent => exact hspent.2.resolve_left hstop
  | called k s _ _ hpaid =>
    have hleft : (E.host.callx k s).1.gasLeft ≤ k.gas := hchildren k s
    have hpaid := hpaid hfits
    rw [if_pos rfl] at hpaid
    omega

/-- With EIP-150 a run of `EVM.Run` ends. A turn comes after at most as many others as there is gas,
because each of them has spent some. -/
theorem run_halts (L : Library) (H : Host σ) (hchildren : ChildrenKeepGas H) (msg : Contract)
    (config : ForksInTime) (h150 : config.eip150 = true) (pooled : Pooled) (host : σ) :
    (∃ result, result ≠ .unfinished ∧ ∀ fuel, msg.gas + 2 ≤ fuel →
      run L H msg config pooled host fuel = result) ∧
    ∀ bitmap, setCode L.grow ⟨[], pooled.bitmap⟩ msg.code = some bitmap →
      (∀ n c, Loop.after (fun c ↦ !c.stop) (turn (frame L H msg config bitmap)) n
          (State.init pooled msg.gas host) = some c → c.stop = false → n + 1 ≤ msg.gas + 1) ∧
      ∀ c c', turn (frame L H msg config bitmap) c = some (true, c') → c'.stop = false →
        c'.gas + 1 ≤ c.gas := by
  have hturn : ∀ bitmap, ∀ c c', turn (frame L H msg config bitmap) c = some (true, c') →
      c'.stop = false → c'.gas + 1 ≤ c.gas := fun bitmap c c' h hrunning ↦
    turn_spends (E := frame L H msg config bitmap) hchildren h150 h hrunning
  have hbody : ∀ bitmap, ∀ c c', (!c.stop) = true →
      turn (frame L H msg config bitmap) c = some (true, c') → (!c'.stop) = true →
      c'.gas < c.gas := fun bitmap c c' _ h hrunning ↦
    hturn bitmap c c' h (not_eq_true' _ ▸ hrunning)
  obtain ⟨bitmap, hcode, -⟩ := setCode_spec L.grow ⟨[], pooled.bitmap⟩ msg.code
  constructor
  · obtain ⟨result, hne, hloop⟩ := Loop.loop_ends (hbody bitmap) (State.init pooled msg.gas host)
    refine ⟨result.map (State.result msg), ?_, fun fuel hfuel ↦ ?_⟩
    · cases result <;> simp_all [Loop.Result.map]
    · simp only [run, hcode]
      exact congrArg (Loop.Result.map (State.result msg)) (hloop fuel hfuel)
  · intro bitmap' _
    refine ⟨fun n c hafter hrunning ↦ ?_, hturn bitmap'⟩
    have hle := Loop.after_le (hbody bitmap') hafter (by simp [hrunning])
    change n + c.gas ≤ msg.gas at hle
    omega

theorem run_halts_jumps : ∃ result, result ≠ .unfinished ∧ ∀ fuel, 102 ≤ fuel →
    run goLibrary quietHost (topCall [0x5b, 0x60, 0, 0x56]) allForks ⟨[], []⟩ () fuel = result :=
  (run_halts goLibrary quietHost (fun _ _ ↦ le_rfl) (topCall [0x5b, 0x60, 0, 0x56]) allForks rfl
    ⟨[], []⟩ ()).1

end Mainnet.Evm
