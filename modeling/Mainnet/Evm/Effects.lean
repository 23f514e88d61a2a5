import Mainnet.Evm.Quiet
import Mainnet.Evm.NoPanic

namespace Mainnet.Evm

open Types Mainnet.Runtime Lib Prog List Nat

variable {σ α β : Type} {O : Observer σ} {E : Env σ} {c₀ c c' c'' : State σ} {d e : ℕ} {fits : Prop}
  {op : OpCode}

def HostCall.writes : HostCall → Bool
  | .setStorage .. | .emitLog .. | .selfdestruct .. => true
  | .callx .. => false

def Spent (d : ℕ) (c c' : State σ) : Prop :=
  c'.gas ≤ c.gas ∧ (c'.stop = true ∨ c'.gas + d ≤ c.gas)

structure Passes (E : Env σ) (k : Contract) : Prop where
  static : E.msg.static = true → k.static = true
  create : E.msg.static = true → k.type ≠ .create ∧ k.type ≠ .create2
  value : E.msg.static = true → k.type = .call → k.value = some 0
  staticCall : k.type = .staticCall → k.static = true

/-- From `c` to `c'` at most one call has gone to the host, and at least `d` gas has been spent,
unless the frame has stopped, with the child's on top; known only if the cost `fits` a word. -/
inductive Effect (O : Observer σ) (E : Env σ) (fits : Prop) (d : ℕ) (c c' : State σ) : Prop
  | silent : O.log c'.host = O.log c.host → (fits → Spent d c c') → Effect O E fits d c c'
  | wrote (call : HostCall) : O.log c'.host = O.note call (O.log c.host) → call.writes = true →
      E.msg.static = false → Spent d c c' → Effect O E fits d c c'
  | called (k : Contract) (s : σ) : O.log c'.host =
      O.note (.callx k (E.host.callx k s).1) (O.log c.host) →
      Passes E k → (fits → k.gas + d + c'.gas ≤ c.gas + (E.host.callx k s).1.gasLeft) →
      Effect O E fits d c c'

theorem Spent.weaken (h : Spent d c c') (hle : e ≤ d) : Spent e c c' :=
  ⟨h.1, h.2.imp_right fun hd ↦ (Nat.add_le_add_left hle _).trans hd⟩

theorem Quiet.effect (h : Quiet O d c c') : Effect O E fits d c c' :=
  .silent h.log fun _ ↦ ⟨h.gas, h.spent⟩

theorem Effect.weaken (h : Effect O E fits d c c') (hle : e ≤ d) : Effect O E fits e c c' := by
  cases h with
  | silent hlog hspent => exact .silent hlog fun hfits ↦ (hspent hfits).weaken hle
  | wrote call hlog hwrites hstatic hspent =>
    exact .wrote call hlog hwrites hstatic (hspent.weaken hle)
  | called k s hlog hpasses hspent =>
    refine .called k s hlog hpasses fun hfits ↦ ?_
    have := hspent hfits
    omega

theorem Spent.within (h : Spent e c c') (hgas : c.gas + d ≤ c₀.gas) (hafter : Quiet O 0 c' c'') :
    Spent (d + e) c₀ c'' := by
  have hle := hafter.gas
  have hle' := h.1
  refine ⟨by omega, ?_⟩
  obtain hstop | hspent := h.2
  · exact .inl (hafter.stop hstop)
  · exact .inr (by omega)

theorem Effect.within (h : Effect O E fits e c c') (hgas : c.gas + d ≤ c₀.gas)
    (hlog : O.log c.host = O.log c₀.host) (hafter : Quiet O 0 c' c'') :
    Effect O E fits (d + e) c₀ c'' := by
  have hle := hafter.gas
  cases h with
  | silent hlog' hspent =>
    exact .silent (hafter.log.trans (hlog'.trans hlog)) fun hfits ↦ (hspent hfits).within hgas hafter
  | wrote call hlog' hwrites hstatic hspent =>
    refine .wrote call ?_ hwrites hstatic (hspent.within hgas hafter)
    rw [hafter.log, hlog', hlog]
  | called k s hlog' hpasses hspent =>
    refine .called k s ?_ hpasses fun hfits ↦ ?_
    · rw [hafter.log, hlog', hlog]
    · have := hspent hfits
      omega

section Then

variable {Q : β → State σ → Prop}

theorem Calm.then {m : Machine σ α} {k : α → Machine σ β} (hm : Calm O 0 m)
    (hr : Quiet O d c₀ c) (hk : ∀ a c', Quiet O d c₀ c' → Ensures (k a) c' Q) :
    Ensures (m >>= k) c Q :=
  ensures_bind.mpr ((hm c).mono fun a c' hq ↦ hk a c' (hr.trans hq))

theorem pop_ensures {k : ℤ → Machine σ β} {a : ℤ} {live : List ℤ}
    (hr : Quiet O d c₀ c) (h : c.stack.live = a :: live)
    (hk : ∀ c', Quiet O d c₀ c' → c'.stack.live = live → Ensures (k a) c' Q) :
    Ensures (pop >>= k) c Q := by
  have hpop := (pop_then (.refl c) h fun c' _ hlive ↦ returns_pure.mpr ⟨rfl, hlive⟩ :
    Returns (pop >>= pure) c fun b c' ↦ b = a ∧ c'.stack.live = live)
  rw [bind_pure] at hpop
  refine ensures_bind.mpr ((hpop.ensures.and (calm_pop (O := O) c)).mono ?_)
  rintro b c' ⟨⟨rfl, hlive⟩, hq⟩
  exact hk c' (hr.trans hq) hlive

theorem popAddr_ensures {k : Address → Machine σ β} {a : ℤ} {live : List ℤ}
    (hr : Quiet O d c₀ c) (h : c.stack.live = a :: live)
    (hk : ∀ addr c', Quiet O d c₀ c' → c'.stack.live = live → Ensures (k addr) c' Q) :
    Ensures (popAddr >>= k) c Q := by
  simp only [popAddr, ensures_bind, ensures_get, h, reduceCtorEq, if_false]
  rw [← ensures_bind]
  exact pop_ensures hr h fun c' hr' h' ↦ ensures_pure.mpr (hk _ c' hr' h')

theorem popIf_ensures {k : Option ℤ → Machine σ β} {p : Prop} [Decidable p]
    {operand live : List ℤ} (hr : Quiet O d c₀ c) (h : c.stack.live = operand ++ live)
    (hlength : operand.length = if p then 1 else 0)
    (hk : ∀ c', Quiet O d c₀ c' → c'.stack.live = live → Ensures (k operand.head?) c' Q) :
    Ensures (popIf p >>= k) c Q := by
  refine ensures_bind.mpr (ensures_ite (fun hp ↦ ?_) fun hp ↦ ?_)
  · rw [if_pos hp] at hlength
    obtain ⟨value, rfl⟩ := length_eq_one_iff.mp hlength
    rw [map_eq_pure_bind]
    exact pop_ensures hr h fun c' hr' hlive ↦ ensures_pure.mpr (hk c' hr' hlive)
  · rw [if_neg hp] at hlength
    obtain rfl := length_eq_zero_iff.mp hlength
    exact ensures_pure.mpr (hk c hr h)

end Then

theorem consumeGas_ensures (gas : ℕ) : Ensures (consumeGas gas) c fun ok c' ↦
    Quiet O gas c c' ∧ (¬ok = true → c'.stop = true) ∧ (ok = true → c'.gas + gas ≤ c.gas) := by
  refine ((consumeGas_checks (O := O) gas c).and (consumeGas_spec (.refl c)).ensures).mono ?_
  rintro ok c' ⟨⟨hquiet, hstop⟩, hchecked⟩
  refine ⟨hquiet, hstop, fun hok ↦ ?_⟩
  cases hchecked with
  | ok h => exact (zero_add gas) ▸ h.1.gas
  | stopped => cases hok

theorem note_ensures {Q : β → State σ → Prop} {call : HostCall} {method : σ → α × σ}
    {k : α → Machine σ β} (hnote : O.log (method c.host).2 = O.note call (O.log c.host))
    (hk : ∀ c', c'.gas = c.gas → O.log c'.host = O.note call (O.log c.host) →
      Ensures (k (method c.host).1) c' Q) : Ensures (callHost method >>= k) c Q := by
  simp only [callHost, ensures_bind, ensures_get, ensures_set, ensures_pure]
  exact hk _ rfl hnote

theorem Effect.of_write {call : HostCall} (hbefore : Quiet O 0 c₀ c) (hgas : c'.gas = c.gas)
    (hlog : O.log c'.host = O.note call (O.log c.host)) (hwrites : call.writes = true)
    (hstatic : ¬E.msg.static = true) (hafter : Quiet O d c' c'') : Effect O E fits d c₀ c'' := by
  refine .wrote call ?_ hwrites (Bool.not_eq_true _ ▸ hstatic) ⟨?_, ?_⟩
  · rw [hafter.log, hlog, hbefore.log]
  · exact (hafter.gas.trans hgas.le).trans hbefore.gas
  · exact hafter.spent.imp_right fun hspent ↦ (hspent.trans hgas.le).trans hbefore.gas

theorem opSStore_effect (hO : O.Sees E.host) :
    Ensures (opSStore E) c fun _ ↦ Effect O E fits 1 c := by
  have hexit : ∀ err, Ensures (exit err) c fun _ ↦ Effect O E fits 1 c :=
    fun err ↦ (calm_exit (O := O) err c).mono fun _ _ hq ↦ hq.effect
  refine ensures_ite (fun _ ↦ hexit _) fun hstatic ↦ ensures_bind.mpr (ensures_get.mpr ?_)
  refine ensures_ite (fun _ ↦ hexit _) fun _ ↦ ?_
  refine calm_popHash.then (.refl O c) fun key c₁ hq₁ ↦ calm_popHash.then hq₁ fun val c₂ hq₂ ↦ ?_
  refine note_ensures (hO.setStorage _ _ _ _ _) fun c₃ hgas hlog ↦ ?_
  refine Calm.bind ((calm_consumeGas (O := O) _).weaken (one_le_storageCost _ _))
    (fun _ ↦ .pure _) c₃
    |>.mono fun _ c' hq ↦ ?_
  exact .of_write hq₂ hgas hlog rfl hstatic hq

theorem calm_popTopics (n : ℕ) : Calm O 0 (popTopics n : Machine σ (List Hash)) := by
  induction n with
  | zero => exact .pure _
  | succ n ih => exact .andThen calm_popHash fun _ ↦ .andThen ih fun _ ↦ .pure _

theorem opLog_effect (hO : O.Sees E.host) (n : ℕ) :
    Ensures (opLog E n) c fun _ ↦ Effect O E fits 0 c := by
  refine ensures_ite (fun _ ↦ ?_) fun hstatic ↦ ?_
  · exact (calm_exit (O := O) _ c).mono fun _ _ hq ↦ hq.effect
  refine (calm_stackAtLeast _).then (.refl O c) fun ok c₁ hq₁ ↦ ensures_ite (fun _ ↦ ?_) fun _ ↦ ?_
  · refine calm_pop.then hq₁ fun mStart c₂ hq₂ ↦ calm_pop.then hq₂ fun mSize c₃ hq₃ ↦ ?_
    refine (calm_popTopics n).then hq₃ fun topics c₄ hq₄ ↦ ?_
    refine (get2_checks mStart mSize).calm.then hq₄ fun data c₅ hq₅ ↦ ?_
    cases data with
    | none => exact ensures_pure.mpr hq₅.effect
    | some data =>
      refine note_ensures (hO.emitLog _ _ _ _) fun c₆ hgas hlog ↦ ?_
      refine Ensures.mono ((calm_charge (O := O) (n * 375) ?_).weaken (zero_le _) c₆)
        fun _ c' hq ↦ ?_
      · exact .andThen ((calm_consumeGas _).weaken (zero_le _)) fun _ ↦ .pure _
      · exact .of_write hq₅ hgas hlog rfl hstatic hq
  · exact (calm_exit (O := O) (d := 0) _ c₁).mono fun _ _ hq ↦ (hq₁.trans hq).effect

theorem calm_selfDestructCost (hO : O.Sees E.host) (address : Address) :
    Calm O 0 (selfDestructCost E address) := by
  refine .ite (.ite ?_ ?_) (.pure _)
  · refine .andThen (calm_callHost (hO.empty _)) fun _ ↦ .ite ?_ (.pure _)
    exact .andThen (calm_callHost (hO.getBalance _)) fun _ ↦ .ite (.pure _) (.pure _)
  · exact .andThen (calm_callHost (hO.accountExists _)) fun _ ↦ .ite (.pure _) (.pure _)

theorem opSelfDestruct_effect (hO : O.Sees E.host) :
    Ensures (opSelfDestruct E) c fun _ ↦ Effect O E fits 1 c := by
  refine ensures_ite (fun _ ↦ ?_) fun hstatic ↦ ?_
  · exact (calm_exit (O := O) _ c).mono fun _ _ hq ↦ hq.effect
  refine calm_popAddr.then (.refl O c) fun address c₁ hq₁ ↦ ?_
  refine (calm_selfDestructCost hO address).then hq₁ fun cost c₂ hq₂ ↦ ?_
  refine ensures_bind.mpr ((consumeGas_ensures (O := O) cost).mono fun ok c₃ ⟨hq₃, hstop, _⟩ ↦ ?_)
  have hq : Quiet O 0 c c₃ := (hq₂.trans hq₃).weaken (zero_le _)
  refine ensures_ite (fun _ ↦ ?_) fun hok ↦ ?_
  · refine note_ensures (hO.selfdestruct _ _ _) fun c₄ hgas hlog ↦
      (calm_halt (O := O) (d := 1) c₄).mono fun _ c' hq' ↦ ?_
    exact .of_write hq hgas hlog rfl hstatic hq'
  · exact ensures_pure.mpr (Quiet.effect ⟨hq.gas, hq.stop, .inl (hstop hok), hq.log⟩)

end Mainnet.Evm
