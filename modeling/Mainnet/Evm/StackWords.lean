import Mainnet.Evm.Kept

namespace Mainnet.Evm

open Types Mainnet.Runtime Lib Prog List Nat

variable {σ : Type} {E : Env σ} {c : State σ}

theorem isWord_natCast {n : ℕ} : isWord n ↔ n < 2 ^ 256 := by
  unfold isWord
  omega

theorem isWord_bitwise {f : ℤ → ℤ → ℤ} {g : ℕ → ℕ → ℕ} (hf : ∀ m n : ℕ, f m n = g m n)
    (hg : ∀ {m n}, m < 2 ^ 256 → n < 2 ^ 256 → g m n < 2 ^ 256) {x y : ℤ} (hx : isWord x)
    (hy : isWord y) : isWord (f x y) := by
  obtain ⟨m, rfl⟩ := Int.eq_ofNat_of_zero_le hx.1
  obtain ⟨n, rfl⟩ := Int.eq_ofNat_of_zero_le hy.1
  rw [hf]
  exact isWord_natCast.mpr (hg (isWord_natCast.mp hx) (isWord_natCast.mp hy))

/-- The numbers that a frame gets from outside are words, and its byte strings are no longer than Go
allows. -/
structure OfWords (H : Host σ) (msg : Contract) : Prop where
  balance (addr : Address) (s : σ) : isWord (H.getBalance addr s).1
  number (s : σ) : isWord (H.getTxContext s).1.number
  timestamp (s : σ) : isWord (H.getTxContext s).1.timestamp
  gasLimit (s : σ) : isWord (H.getTxContext s).1.gasLimit
  returnValue (k : Contract) (s : σ) : (H.callx k s).1.returnValue.length < 2 ^ 63
  value : isWord (msg.value.getD 0)
  gas : msg.gas < 2 ^ 64
  input : msg.input.length < 2 ^ 63
  code : msg.code.length < 2 ^ 63

theorem OfWords.values (h : OfWords E.host E.msg) : Values E isWord where
  word := id
  land := isWord_bitwise (g := land) (fun _ _ ↦ rfl) fun _ hn ↦ and_lt_two_pow _ hn
  lor := isWord_bitwise (g := lor) (fun _ _ ↦ rfl) or_lt_two_pow
  xor := isWord_bitwise (g := xor) (fun _ _ ↦ rfl) xor_lt_two_pow
  balance := h.balance
  value := h.value
  number := h.number
  timestamp := h.timestamp
  gasLimit := h.gasLimit
  input := isWord_of_lt (h.input.trans (by decide))
  code := isWord_of_lt (h.code.trans (by decide))

structure HoldsWords (c : State σ) : Prop where
  stack : ∀ w ∈ c.stack.live, isWord w
  gas : c.gas < 2 ^ 64
  memory : c.memory.len < 2 ^ 64
  returnData : c.returnData.length < 2 ^ 64

def Ended (E : Env σ) (c : State σ) : Prop := c.stop = true ∨ E.msg.code.length ≤ c.ip

theorem kept_holdsWords (h : OfWords E.host E.msg) : Kept E isWord HoldsWords (Ended E) where
  values := h.values
  words hc := hc.stack
  size hc := isWord_of_lt hc.memory
  gasLeft hc := isWord_of_lt hc.gas
  dataSize hc := isWord_of_lt hc.returnData
  stack hc hs := ⟨hs, hc.gas, hc.memory, hc.returnData⟩
  halt hc := ⟨hc.stack, hc.gas, hc.memory, hc.returnData⟩
  fail _ _ := .inl rfl
  gas hc hle := ⟨hc.stack, hle.elim (fun hle ↦ hle.trans_lt hc.gas) id, hc.memory, hc.returnData⟩
  noData hc := ⟨hc.stack, hc.gas, hc.memory, Nat.two_pow_pos 64⟩
  returned k s hc := ⟨hc.stack, hc.gas, hc.memory, (h.returnValue k s).trans (by decide)⟩
  ret _ hc := ⟨hc.stack, hc.gas, hc.memory, hc.returnData⟩
  host hc _ := ⟨hc.stack, hc.gas, hc.memory, hc.returnData⟩
  hooks hc _ := ⟨hc.stack, hc.gas, hc.memory, hc.returnData⟩
  write {c _ _} hc hle := by
    have hlen := c.memory.len_write (hle.trans c.memory.len_le_cap)
    exact ⟨hc.stack, hc.gas, hlen.trans_lt hc.memory, hc.returnData⟩
  allocate {c} offset size hc ok t heq := by
    cases (allocateMemory_allocates E offset size c).ensures _ _ heq with
    | failed _ hstop _ _ => exact .inl hstop
    | within _ _ _ => exact hc
    | @grows n _ _ _ _ _ _ hn _ =>
      refine ⟨hc.stack, (sub_le _ _).trans_lt hc.gas, ?_, hc.returnData⟩
      have hlen := extendByteSlice_len E.grow c.memory (words n * 32)
      refine hlen.trans_lt ?_
      unfold words
      omega
  ended _ := .inl rfl
  failedRet _ hc := hc
  failedHooks hc _ := hc
  failedTwice _ _ := .inl rfl
  failedNext hc := hc.imp_right fun hc ↦ hc.trans (Int.le_add_one le_rfl)

theorem opPush_words {n : ℕ} (hc : HoldsWords c) (hip : 0 ≤ c.ip) (hn : n ≤ 32) :
    Ensures (opPush E n) c fun _ t ↦ HoldsWords t ∨ Ended E t := by
  refine ensures_bind.mpr (ensures_get.mpr (ensures_ite (fun _ ↦ ?_) fun _ ↦ ensures_panic))
  refine ensures_ite (fun hshort ↦ ?_) fun hfits ↦ ?_
  · refine ensures_bind.mpr (ensures_modify.mpr (ensures_modify.mpr (.inr (.inr ?_))))
    change (E.msg.code.length : ℤ) ≤ c.ip + n
    omega
  · refine ensures_bind.mpr (ensures_modify.mpr (ensures_modify.mpr (.inl ?_)))
    refine ⟨forall_mem_cons.mpr ⟨isWord_setBytes ?_, hc.stack⟩, hc.gas, hc.memory, hc.returnData⟩
    exact (length_take_le _ _).trans hn

theorem turn_words (h : OfWords E.host E.msg) (hc : HoldsWords c) :
    Ensures (turn E) c fun go t ↦ Ended E t ∨
      go = true ∧ HoldsWords t ∧ t.stack.live.length ≤ stackSize := by
  have hkept := kept_holdsWords h
  refine hkept.turn HoldsWords _ hc ?_ (fun t ht ↦ hkept.fail _ ht) ?_
  · intro b op hop hstack t ht hip hst _
    by_cases hpush : ∃ n, op = .PUSH n
    · obtain ⟨n, rfl⟩ := hpush
      obtain ⟨⟨_, hle⟩, rfl⟩ := OpCode.ofByte_push hop.op
      exact opPush_words ht (hip ▸ hop.ip) (by omega)
    · refine hkept.handler ht op (hst ▸ hstack) (fun _ c ip hc ↦ ?_) fun n hn ↦ absurd ⟨n, hn⟩ hpush
      exact ⟨hc.stack, hc.gas, hc.memory, hc.returnData⟩
  · exact fun t ht hsize ↦ ⟨⟨ht.stack, ht.gas, ht.memory, ht.returnData⟩, hsize⟩

theorem turn_ended (h : (E.msg.code.length : ℤ) ≤ c.ip) : Ensures (turn E) c fun go _ ↦ go = false := by
  refine ensures_bind.mpr (ensures_get.mpr (ensures_ite (fun _ ↦ ?_) fun hlt ↦ absurd h hlt))
  refine ensures_bind.mpr ((captureState_spec 0).ensures.mono fun _ _ _ ↦ ?_)
  exact ensures_bind.mpr (ensures_modify.mpr (ensures_pure.mpr rfl))

/-- Whenever there is an instruction to execute, the stack holds words, and no more than it may. -/
theorem stack_holds_words {L : Library} {H : Host σ} {msg : Contract} (h : OfWords H msg)
    {config : ForksInTime} {bitmap : Bytes} {pooled : Pooled} {host : σ}
    (hreach : Loop.Reaches (fun c ↦ !c.stop) (turn (frame L H msg config bitmap))
      (.init pooled msg.gas host) c) (hrunning : c.stop = false) (hip : c.ip < msg.code.length) :
    c.stack.live.length ≤ 1024 ∧ ∀ w ∈ c.stack.live, 0 ≤ w ∧ w < 2 ^ 256 := by
  have hinv : Ended (frame L H msg config bitmap) c ∨
      HoldsWords c ∧ c.stack.live.length ≤ stackSize := by
    refine hreach.invariant (I := fun c ↦ Ended (frame L H msg config bitmap) c ∨
      HoldsWords c ∧ c.stack.live.length ≤ stackSize) ?_ (.inr ⟨⟨?_, h.gas, ?_, ?_⟩, ?_⟩)
    · rintro s s' hguard hturn ((hstop | hend) | ⟨hs, _⟩)
      · rw [hstop] at hguard
        cases hguard
      · cases turn_ended hend _ _ hturn
      · exact (turn_words (E := frame L H msg config bitmap) h hs _ _ hturn).imp_right And.right
    · exact fun w hw ↦ absurd hw not_mem_nil
    · exact Nat.two_pow_pos 64
    · exact Nat.two_pow_pos 64
    · exact Nat.zero_le _
  obtain (hstop | hend) | ⟨hc, hsize⟩ := hinv
  · exact absurd (hrunning.symm.trans hstop) Bool.false_ne_true
  · exact absurd hip (not_lt.mpr hend)
  · exact ⟨hsize, hc.stack⟩

theorem ofWords_quietHost (code : Bytes) (h : code.length < 2 ^ 63) :
    OfWords quietHost (topCall code) where
  balance _ _ := isWord_ofBool false
  number _ := isWord_ofBool false
  timestamp _ := isWord_ofBool false
  gasLimit _ := isWord_ofBool false
  returnValue _ _ := (by decide : 1 < 2 ^ 63)
  value := isWord_ofBool false
  gas := (by decide : 100 < 2 ^ 64)
  input := Nat.two_pow_pos 63
  code := h

theorem stack_holds_words_pushed :
    ∃ c, Loop.after (fun c ↦ !c.stop)
        (turn (frame goLibrary quietHost (topCall [0x60, 1, 0x50]) allForks [0])) 1
        (.init ⟨[], []⟩ 100 ()) = some c ∧ c.stack.live = [1] ∧
      c.stack.live.length ≤ 1024 ∧ ∀ w ∈ c.stack.live, 0 ≤ w ∧ w < 2 ^ 256 :=
  ⟨_, rfl, rfl, stack_holds_words (ofWords_quietHost [0x60, 1, 0x50] (by decide))
    (.of_after (n := 1) rfl) rfl (by decide)⟩

end Mainnet.Evm
