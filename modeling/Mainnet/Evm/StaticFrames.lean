import Mainnet.Evm.GasBound

namespace Mainnet.Evm

open Types Mainnet.Runtime Lib Prog

inductive HostCall.Harmless : HostCall → Prop
  | callx {k : Contract} {result : ExecutionResult} : k.static = true → k.type ≠ .create →
      k.type ≠ .create2 → (k.type = .call → k.value = some 0) → Harmless (.callx k result)

def Receives (msg : Contract) (call : HostCall) : Prop :=
  ∃ (σ : Type) (L : Library) (H : Host σ) (config : ForksInTime) (pooled : Pooled) (host : σ)
    (c c' : State (Recorded σ)), RunTurn L H msg config pooled host c c' ∧ call ∈ c'.host.2

def Calls (parent child : Contract) : Prop :=
  ∃ result, Receives parent (.callx child result)

variable {σ : Type} {E : Env σ} {c c' : State (Recorded σ)} {d : ℕ} {fits : Prop} {k msg : Contract}
  {result : ExecutionResult} {call : HostCall}

theorem Passes.harmless (h : Passes E k)
    (hstatic : E.msg.static = true) : HostCall.Harmless (.callx k result) :=
  .callx (h.static hstatic) (h.create hstatic).1 (h.create hstatic).2 (h.value hstatic)

section Log

variable {E : Env (Recorded σ)}

theorem Effect.log_invariant (h : Effect (recorder σ) E fits d c c') {P : HostCall → Prop}
    (hwrite : ∀ call : HostCall, call.writes = true → E.msg.static = false → P call)
    (hcall : ∀ k result, Passes E k → P (.callx k result)) (hlog : ∀ call ∈ c.host.2, P call) :
    ∀ call ∈ c'.host.2, P call := by
  cases h with
  | silent heq _ =>
    have heq : c'.host.2 = c.host.2 := heq
    rw [heq]
    exact hlog
  | wrote call heq hwrites hstatic _ =>
    have heq : c'.host.2 = call :: c.host.2 := heq
    rw [heq]
    exact List.forall_mem_cons.mpr ⟨hwrite call hwrites hstatic, hlog⟩
  | called k s heq hpasses _ =>
    have heq : c'.host.2 = .callx k (E.host.callx k s).1 :: c.host.2 := heq
    rw [heq]
    exact List.forall_mem_cons.mpr ⟨hcall k _ hpasses, hlog⟩

end Log

theorem Receives.of_calls (h : Receives msg call) {P : HostCall → Prop}
    (hwrite : ∀ call : HostCall, call.writes = true → msg.static = false → P call)
    (hcall : ∀ {τ : Type} {E : Env τ} k result, E.msg = msg → Passes E k → P (.callx k result)) :
    P call := by
  obtain ⟨σ, L, H, config, pooled, host, c, c', @⟨bitmap, _, _, hreach, _, hturn⟩, hmem⟩ := h
  have hstep : ∀ s s' go, turn (frame L (record H) msg config bitmap) s = some (go, s') →
      (∀ call ∈ s.host.2, P call) → ∀ call ∈ s'.host.2, P call := fun s s' go h ↦
    (turn_effect (recorder_sees H) _ _ h).log_invariant hwrite fun k result ↦ hcall k result rfl
  refine hstep c c' _ hturn (hreach.invariant (fun s s' _ h ↦ hstep s s' true h) ?_) call hmem
  exact List.forall_mem_nil _

theorem Receives.harmless (h : Receives msg call)
    (hstatic : msg.static = true) : call.Harmless := by
  refine h.of_calls (fun _ _ hnot ↦ ?_) fun k result heq hpasses ↦ ?_
  · exact absurd hstatic (by simp [hnot])
  · exact hpasses.harmless (heq ▸ hstatic)

theorem Receives.static_of_staticCall {child : Contract}
    (h : Receives msg (.callx child result)) (htype : child.type = .staticCall) :
    child.static = true := by
  have hstatic : ∀ k r, HostCall.callx child result = .callx k r → k.type = .staticCall →
      k.static = true := by
    refine h.of_calls (P := fun call ↦ ∀ k r, call = .callx k r → k.type = .staticCall →
      k.static = true) (fun call hwrites _ k r heq ↦ ?_) fun k result _ hpasses k' r heq ↦ ?_
    · subst heq
      cases hwrites
    · cases heq
      exact hpasses.staticCall
  exact hstatic child result rfl htype

theorem static_of_calls (h : Relation.ReflTransGen Calls msg k)
    (hstatic : msg.static = true) : k.static = true := by
  induction h with
  | refl => exact hstatic
  | tail _ hcalls ih =>
    obtain ⟨result, hreceives⟩ := hcalls
    cases hreceives.harmless ih with
    | callx hchild _ _ _ => exact hchild

/-- A static frame makes only harmless calls, and so does every frame below one, and every frame
below a `STATICCALL`. -/
theorem static_frames_harmless :
    (∀ msg : Contract, msg.static = true → ∀ k, Relation.ReflTransGen Calls msg k →
      ∀ call, Receives k call → call.Harmless) ∧
    ∀ parent child result, Receives parent (.callx child result) → child.type = .staticCall →
      ∀ k, Relation.ReflTransGen Calls child k → ∀ call, Receives k call → call.Harmless := by
  have hbelow : ∀ msg : Contract, msg.static = true → ∀ k, Relation.ReflTransGen Calls msg k →
      ∀ call, Receives k call → call.Harmless :=
    fun msg hstatic k hcalls call h ↦ h.harmless (static_of_calls hcalls hstatic)
  refine ⟨hbelow, fun parent child result h htype ↦ hbelow child ?_⟩
  exact h.static_of_staticCall htype

def callingHost : Host Unit :=
  { thriftyHost with getCode := fun _ _ ↦ (callZero [0, 0, 0, 0, 0, 0, 0, 9], ()) }

def staticCallZero : Bytes :=
  [0x60, 0, 0x60, 0, 0x60, 0, 0x60, 0, 0x60, 0, 0x61, 4, 0, 0xfa]

def staticFrame : Contract :=
  { newContractCall 1 zeroAddress zeroAddress zeroAddress none 1024
      (callZero [0, 0, 0, 0, 0, 0, 0, 9]) [] with static := true, type := .staticCall }

def calledFrame : Contract :=
  { newContractCall 2 zeroAddress zeroAddress zeroAddress (some 0) 9
      (callZero [0, 0, 0, 0, 0, 0, 0, 9]) [] with static := true }

theorem Receives.of_nthTurn {L : Library} {H : Host σ} {config : ForksInTime}
    {pooled : Pooled} {host : σ} {n : ℕ}
    (h : (nthTurn L H msg config pooled host n).any (fun next ↦ call ∈ next.2.host.2) = true) :
    Receives msg call := by
  obtain ⟨c, c', hturn, hmem⟩ := RunTurn.exists_of_nthTurn h
  exact ⟨σ, L, H, config, pooled, host, c, c', hturn, of_decide_eq_true hmem⟩

theorem static_frames_harmless_callZero :
    Receives { topCall staticCallZero with gas := 10000 }
      (.callx staticFrame ⟨[], 1000, 0, none⟩) ∧ staticFrame.type = .staticCall ∧
    Receives staticFrame (.callx calledFrame ⟨[], 9, 0, none⟩) ∧
    HostCall.Harmless (.callx calledFrame ⟨[], 9, 0, none⟩) := by
  have hparent : Receives { topCall staticCallZero with gas := 10000 }
      (.callx staticFrame ⟨[], 1000, 0, none⟩) :=
    .of_nthTurn (by decide +kernel : Option.any _ (nthTurn goLibrary callingHost
      { topCall staticCallZero with gas := 10000 } allForks ⟨[], []⟩ () 6) = true)
  have hchild : Receives staticFrame (.callx calledFrame ⟨[], 9, 0, none⟩) :=
    .of_nthTurn (by decide +kernel : Option.any _ (nthTurn goLibrary callingHost staticFrame
      allForks ⟨[], []⟩ () 7) = true)
  exact ⟨hparent, rfl, hchild, static_frames_harmless.2 _ _ _ hparent rfl _ .refl _ hchild⟩

end Mainnet.Evm
