import Mainnet.Evm.TurnRespects

namespace Mainnet.Evm

open Types Mainnet.Runtime Lib Prog

variable {σ : Type} {E : Env σ} {W : ℤ → Prop} {I J : State σ → Prop}

/-- `I` is kept by every operation of the frame, and gives way to `J` when the frame fails. The
numbers on the stack all have `W`. -/
structure Held (E : Env σ) (W : ℤ → Prop) (I J : State σ → Prop) : Prop where
  values : Values E W
  words {c : State σ} : I c → ∀ w ∈ c.stack.live, W w
  size {c : State σ} : I c → W c.memory.len
  gasLeft {c : State σ} : I c → W c.gas
  dataSize {c : State σ} : I c → W c.returnData.length
  stack {c : State σ} {s : Stack} : I c → (∀ w ∈ s.live, W w) → I { c with stack := s }
  halt {c : State σ} : I c → I { c with stop := true }
  fail {c : State σ} (err : RuntimeError) : I c → J { c with stop := true, err := some err }
  gas {c : State σ} {gas used : ℕ} : I c → gas ≤ c.gas ∨ gas < 2 ^ 64 →
    I { c with gas := gas, currentConsumedGas := used }
  noData {c : State σ} : I c → I { c with returnData := [] }
  returned {c : State σ} (k : Contract) (s : σ) : I c →
    I { c with returnData := (E.host.callx k s).1.returnValue }
  ret {c : State σ} (ret : Bytes) : I c → I { c with ret := ret }
  host {c : State σ} {s : σ} : I c → Moves E.host c.host s → I { c with host := s }
  write {c : State σ} {off : ℕ} {data : Bytes} : I c → off + data.length ≤ c.memory.len →
    I { c with memory := c.memory.write off data }
  allocate {c : State σ} (offset size : ℤ) : I c →
    Ensures (allocateMemory E offset size) c fun ok t ↦ if ok then I t else J t
  failedRet {c : State σ} (ret : Bytes) : J c → J { c with ret := ret }

/-- `I` is kept by the hooks of a tracer too. -/
structure Kept (E : Env σ) (W : ℤ → Prop) (I J : State σ → Prop) : Prop extends Held E W I J where
  hooks {c : State σ} {s : σ} : I c → Hooks E.host c.host s → I { c with host := s }
  ended {c : State σ} : I c → J { c with stop := true }
  failedHooks {c : State σ} {s : σ} : J c → Hooks E.host c.host s → J { c with host := s }
  failedTwice {c : State σ} (err : RuntimeError) : J c → J { c with stop := true, err := some err }
  failedNext {c : State σ} : J c → J { c with ip := c.ip + 1 }

def Alone (I : State σ → Prop) (c c' : State σ) : Prop := c' = c ∧ I c

theorem Alone.alike {c c' : State σ} (h : Alone I c c') : Alike c c' := by
  obtain ⟨rfl, _⟩ := h
  constructor <;> rfl

namespace Held

variable (h : Held E W I J)
include h

theorem respected : Respected E W (Alone I) (Alone J) where
  values := h.values
  alike := Alone.alike
  words hI := h.words hI.2
  size hI := h.size hI.2
  gasLeft hI := h.gasLeft hI.2
  dataSize hI := h.dataSize hI.2
  stack := by
    rintro c _ s s' ⟨rfl, hI⟩ _ heq hW
    obtain rfl := heq rfl
    exact ⟨rfl, h.stack hI hW⟩
  halt := by
    rintro c _ ⟨rfl, hI⟩
    exact ⟨rfl, h.halt hI⟩
  fail := by
    rintro c _ err ⟨rfl, hI⟩
    exact ⟨rfl, h.fail err hI⟩
  gas := by
    rintro c _ gas _ used _ ⟨rfl, hI⟩ rfl rfl hle
    exact ⟨rfl, h.gas hI hle⟩
  noData := by
    rintro c _ ⟨rfl, hI⟩
    exact ⟨rfl, h.noData hI⟩
  returned := by
    rintro c _ k s ⟨rfl, hI⟩
    exact ⟨rfl, h.returned k s hI⟩
  ret := by
    rintro c _ ret ⟨rfl, hI⟩
    exact ⟨rfl, h.ret ret hI⟩
  failedRet := by
    rintro c _ ret ⟨rfl, hJ⟩
    exact ⟨rfl, h.failedRet ret hJ⟩
  host := by
    rintro c _ s ⟨rfl, hI⟩ hmoves
    exact ⟨rfl, h.host hI hmoves⟩
  write := by
    rintro c _ off data ⟨rfl, hI⟩ hle
    exact ⟨rfl, h.write hI hle⟩
  allocate := by
    rintro c _ offset size ⟨rfl, hI⟩
    refine (Related.refl (h.allocate offset size hI)).mono ?_
    rintro _ t ok _ ⟨rfl, rfl, hok⟩
    cases ok with
    | true => exact .ok rfl ⟨rfl, hok⟩
    | false => exact .failed rfl ⟨rfl, hok⟩

theorem handler {c : State σ} (hI : I c) (op : OpCode)
    (hstack : (handler E op).stack ≤ c.stack.live.length)
    (hip : op = .JUMP ∨ op = .JUMPI → ∀ c ip, I c → I { c with ip := ip })
    (hpush : ∀ n, op = .PUSH n → ∀ c, I c → Ensures (opPush E n) c fun _ t ↦ I t ∨ J t) :
    Ensures (Evm.handler E op).inst c fun _ t ↦ I t ∨ J t := by
  have hall : Related (Evm.handler E op).inst (Evm.handler E op).inst c c
      (Ends (Alone I) (Alone J)) := by
    cases hcall : callType op with
    | none =>
      refine h.respected.handler op hcall (fun hop ↦ ?_) (fun n hop ↦ ?_) c c ⟨rfl, hI⟩
      · rintro c _ ip ⟨rfl, hI⟩
        exact ⟨rfl, hip hop _ ip hI⟩
      · rintro c _ ⟨rfl, hI⟩
        refine (Related.refl (hpush n hop _ hI)).mono ?_
        rintro _ t _ _ ⟨_, rfl, hIJ⟩
        exact hIJ.imp (fun hI ↦ ⟨rfl, hI⟩) fun hJ ↦ ⟨rfl, hJ⟩
    | some type =>
      have hdiag : ∀ c c', Alone I c c' → c' = c := fun _ _ hI ↦ hI.1
      cases op with
      | CALL | CALLCODE | DELEGATECALL | STATICCALL =>
        exact h.respected.callAlone hdiag ⟨rfl, hI⟩ hstack
      | _ => cases hcall
  exact hall.ensures.mono fun _ t hends ↦ hends.imp And.right And.right

theorem handlerAnywhere (hip : ∀ c ip, I c → I { c with ip := ip })
    (hdata : ∀ data, W (setBytes data)) {c : State σ} (hI : I c) (op : OpCode)
    (hstack : (Evm.handler E op).stack ≤ c.stack.live.length) :
    Ensures (Evm.handler E op).inst c fun _ t ↦ I t ∨ J t := by
  have hips : ∀ c c' ip, Alone I c c' → Alone I { c with ip := ip } { c' with ip := ip } := by
    rintro c _ ip ⟨rfl, hI⟩
    exact ⟨rfl, hip _ ip hI⟩
  refine h.handler hI op hstack (fun _ ↦ hip) fun n _ t ht ↦ ?_
  refine (h.respected.opPush hips hdata n t t ⟨rfl, ht⟩).ensures.mono fun _ t' hends ↦ ?_
  exact hends.imp And.right And.right

end Held

namespace Kept

variable (h : Kept E W I J)
include h

theorem traced : Traced E (Alone I) (Alone J) where
  stack := by
    rintro c _ ⟨rfl, _⟩
    rfl
  hooks := by
    rintro c _ s ⟨rfl, hI⟩ hs
    exact ⟨rfl, h.hooks hI hs⟩
  ended := by
    rintro c _ ⟨rfl, hI⟩
    exact ⟨rfl, h.ended hI⟩
  failed := Alone.alike
  failedHooks := by
    rintro c _ s ⟨rfl, hJ⟩ hs
    exact ⟨rfl, h.failedHooks hJ hs⟩
  failedTwice := by
    rintro c _ err ⟨rfl, hJ⟩
    exact ⟨rfl, h.failedTwice err hJ⟩
  failedNext := by
    rintro c _ ⟨rfl, hJ⟩
    exact ⟨rfl, h.failedNext hJ⟩

theorem turn (I₁ Next : State σ → Prop) {c : State σ} (hI : I c)
    (hinst : ∀ b op, NextOp E c b op → (Evm.handler E op).stack ≤ c.stack.live.length → ∀ t,
      I t → t.ip = c.ip → t.stack = c.stack → t.memory = c.memory →
      Ensures (Evm.handler E op).inst t fun _ t' ↦ I₁ t' ∨ J t')
    (hover : ∀ t, I₁ t → J { t with stop := true, err := some .stackOverflow })
    (hnext : ∀ t, I₁ t → t.stack.live.length ≤ stackSize → Next { t with ip := t.ip + 1 }) :
    Ensures (Evm.turn E) c fun go t ↦ J t ∨ go = true ∧ Next t := by
  have hturn := h.traced.turn h.respected (Alone I₁) (Alone Next) ⟨rfl, hI⟩ ?_ ?_ ?_ ?_
  · refine hturn.ensures.mono fun go t hgo ↦ ?_
    exact hgo.2.imp And.right (And.imp_right And.right)
  · rintro b op hop hstack t _ ⟨rfl, hIt⟩ hipt hstackt hmemory
    refine (Related.refl (hinst b op hop hstack _ hIt hipt hstackt hmemory)).mono ?_
    rintro _ t _ _ ⟨_, rfl, hIJ⟩
    exact hIJ.imp (fun hI ↦ ⟨rfl, hI⟩) fun hJ ↦ ⟨rfl, hJ⟩
  · rintro t _ ⟨rfl, _⟩
    rfl
  · rintro t _ ⟨rfl, hI⟩
    exact ⟨rfl, hover _ hI⟩
  · rintro t _ ⟨rfl, hI⟩ hsize
    exact ⟨rfl, hnext _ hI hsize⟩

theorem turnAnywhere (hip : ∀ c ip, I c → I { c with ip := ip })
    (hdata : ∀ data, W (setBytes data)) {c : State σ} (hI : I c) :
    Ensures (Evm.turn E) c fun go t ↦ J t ∨ go = true ∧ I t := by
  refine h.turn I I hI (fun _ op _ hstack t ht _ hstackt _ ↦ ?_) (fun t ht ↦ h.fail _ ht)
    fun t ht _ ↦ hip t _ ht
  exact h.handlerAnywhere hip hdata ht op (hstackt ▸ hstack)

end Kept

end Mainnet.Evm
