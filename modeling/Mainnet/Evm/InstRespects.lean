import Mainnet.Evm.Arithmetic
import Mainnet.Evm.Respects

namespace Mainnet.Evm

open Types Mainnet.Runtime Lib Prog Respects

variable {σ α : Type} {T F : State σ → State σ → Prop} {E : Env σ} {W : ℤ → Prop}

theorem isWord_ofBool (b : Bool) : isWord (ofBool b) := by cases b <;> decide

theorem isWord_setBytes {b : Bytes} (h : b.length ≤ 32) : isWord (setBytes b) := by
  have hlt := BigEndian.ofBytes_lt b
  have hle : 256 ^ b.length ≤ 256 ^ 32 := Nat.pow_le_pow_right (by decide) h
  refine ⟨Int.natCast_nonneg _, ?_⟩
  unfold setBytes
  exact_mod_cast (hlt.trans_le hle).trans_eq (by decide)

theorem isWord_hash (hash : Hash) : isWord (setBytes hash.bytes) := isWord_setBytes hash.length_eq.le

theorem isWord_address (addr : Address) : isWord (setBytes addr.bytes) :=
  isWord_setBytes (addr.length_eq.le.trans (by decide))

theorem isWord_of_lt {n : ℕ} (h : n < 2 ^ 64) : isWord n := by
  unfold isWord
  omega

namespace Operates

variable (h : Operates E W T F)
include h

theorem sinceFork (active : Bool) {inst : Machine σ Unit} (hinst : Respects T inst (Ends T F)) :
    Respects T (sinceFork active inst) (Ends T F) :=
  .ite (fun _ ↦ hinst) fun _ ↦ h.exit _

theorem popTopics (n : ℕ) :
    Respects T (popTopics n : Machine σ (List Hash)) (Keeps T fun _ ↦ True) := by
  induction n with
  | zero => exact .pure _ trivial
  | succ n ih => exact h.popHash.bind fun _ _ ↦ ih.bind fun _ _ ↦ .pure _ trivial

end Operates

namespace Respected

variable (h : Respected E W T F)
include h

theorem unary {f : ℤ → ℤ} (hf : ∀ a, W a → W (f a)) : Respects T (unary f) (Ends T F) :=
  h.top.bind fun a ha ↦ (h.setTop (hf a ha)).ends

theorem binary {f : ℤ → ℤ → ℤ × ℤ} (hf : ∀ a b, W a → W b → W (f a b).2) :
    Respects T (binary f) (Ends T F) :=
  h.pop.bind fun a ha ↦ h.top.bind fun b hb ↦ (h.setPopped _).bind fun _ _ ↦
    (h.setTop (hf a b ha hb)).ends

theorem ternary {f : ℤ → ℤ → ℤ → ℤ × ℤ} (hf : ∀ a b z, W (f a b z).2) :
    Respects T (ternary f) (Ends T F) := by
  refine h.pop.bind fun a _ ↦ h.pop.bind fun b _ ↦ h.top.bind fun z _ ↦ ends ?_ (V := fun _ ↦ True)
  refine h.setStack trivial (fun c c' hT ↦ ?_) (fun c c' _ hstack ↦ ?_) fun c c' hT ↦ ?_
  · exact congrArg ((f a b z).2 :: ·.tail) (h.alike hT).live
  · rw [hstack]
  · exact List.forall_mem_cons.mpr ⟨hf a b z, fun w hw ↦ h.words hT w (List.mem_of_mem_tail hw)⟩

theorem opSignExtension : Respects T opSignExtension (Ends T F) := by
  refine h.pop.bind fun ext _ ↦ .onGet fun c c' hT ↦ ?_
  rw [(h.alike hT).live]
  refine related_ite (fun _ ↦ related_pure (.inl hT)) fun _ ↦ ?_
  refine related_ite (fun _ ↦ ?_) fun _ ↦ related_panic
  exact h.unary (fun _ _ ↦ h.values.word (isWord_toU256 _)) c c' hT

theorem opExp : Respects T (opExp E) (Ends T F) := by
  refine h.pop.bind fun x _ ↦ h.top.bind fun y _ ↦ h.charge _ ?_
  exact (h.setPopped _).bind fun _ _ ↦ (h.setTop (h.values.word (Word.isWord_exp x y))).ends

theorem opMload : Respects T (opMload E) (Ends T F) := by
  refine h.pop.bind fun offset _ ↦ (h.get2 offset 32).check (fun a ha ↦ ?_) fun a ha ↦ ?_
  · obtain ⟨data, rfl, hlength⟩ := ha
    exact (h.push (h.values.word (isWord_setBytes hlength.le))).ends
  · subst ha
    exact .gaveUp

theorem opMStore : Respects T (opMStore E) (Ends T F) := by
  refine h.pop.bind fun offset _ ↦ h.pop.bind fun val _ ↦ h.allocateThen offset 32 fun _ _ ↦ ?_
  refine .ite (fun _ c c' hT ↦ ?_) fun _ ↦ .panic
  exact (h.copyToMemory hT.1 _ (Nat.le_add_right _ _) hT.2).mono fun _ _ _ _ hQ ↦ .inl hQ.2.2

theorem opMStore8 : Respects T (opMStore8 E) (Ends T F) := by
  refine h.pop.bind fun offset _ ↦ h.pop.bind fun val _ ↦ h.allocateThen offset 1 fun _ _ ↦ ?_
  refine .onGet fun c c' hT ↦ ?_
  have hlen : c'.memory.len = c.memory.len := congrArg List.length (h.alike hT.1).memory
  rw [hlen]
  refine related_ite (fun hlt ↦ ?_) fun _ ↦ related_panic
  exact related_set (.inl (h.write hT.1 hlt))

theorem opSload : Respects T (opSload E) (Ends T F) := by
  refine h.top.bind fun loc _ ↦ h.charge _ ?_
  refine (h.callHost fun _ ↦ .getStorage _ _).bind fun val _ ↦ ?_
  exact (h.setTop (h.values.word (isWord_hash _))).ends

theorem opSStore : Respects T (opSStore E) (Ends T F) := by
  refine .ite (fun _ ↦ h.exit _) fun _ ↦ .onGet fun c c' hT ↦ ?_
  rw [(h.alike hT).gas]
  refine related_ite (fun _ ↦ h.exit _ c c' hT) fun _ ↦ ?_
  refine (h.popHash.bind fun key _ ↦ h.popHash.bind fun val _ ↦ ?_ : Respects T _ _) c c' hT
  refine (h.callHost fun _ ↦ .setStorage _ _ _ _).bind fun status _ ↦ ?_
  exact (h.consumeGas _).check (fun _ _ ↦ .done) fun _ _ ↦ .gaveUp

theorem opSha3 : Respects T (opSha3 E) (Ends T F) := by
  refine h.pop.bind fun offset _ ↦ h.pop.bind fun length _ ↦ ?_
  refine (h.get2 offset length).check (fun a ha ↦ ?_) fun a ha ↦ ?_
  · obtain ⟨data, rfl, _⟩ := ha
    exact h.charge _ (h.push (h.values.word (isWord_hash _))).ends
  · subst ha
    exact .gaveUp

theorem opPop : Respects T opPop (Ends T F) :=
  h.pop.bind fun _ _ ↦ .done

theorem hostPush {method : σ → α × σ} (hmoves : ∀ s, Moves E.host s (method s).2) {f : α → ℤ}
    (hf : ∀ s, W (f (method s).1)) :
    Respects T (do Evm.push (f (← Evm.callHost method))) (Ends T F) := by
  refine (h.callHost hmoves).bind fun a ha ↦ ?_
  obtain ⟨s, rfl⟩ := ha
  exact (h.push (hf s)).ends

theorem statePush {f : State σ → ℤ} (hf : ∀ c c', T c c' → f c' = f c ∧ W (f c)) :
    Respects T (do Evm.push (f (← get))) (Ends T F) := by
  refine .onGet fun c c' hT ↦ ?_
  rw [(hf c c' hT).1]
  exact (h.push (hf c c' hT).2).ends c c' hT

theorem opBalance : Respects T (opBalance E) (Ends T F) :=
  h.popAddr.bind fun _ _ ↦ h.charge _ <|
    h.hostPush (f := id) (fun _ ↦ .getBalance _) fun s ↦ h.values.balance _ s

theorem opExtCodeSize : Respects T (opExtCodeSize E) (Ends T F) := by
  refine h.popAddr.bind fun _ _ ↦ h.charge _ <|
    h.hostPush (f := fun size : ℤ ↦ size % 2 ^ 64) (fun _ ↦ .getCodeSize _) fun s ↦ ?_
  exact h.values.word (by unfold isWord; omega)

theorem opExtCodeHash : Respects T (opExtCodeHash E) (Ends T F) := by
  refine h.sinceFork _ (h.popAddr.bind fun addr _ ↦ h.charge _ ?_)
  refine (h.callHost fun _ ↦ .empty _).bind fun _ _ ↦ .ite (fun _ ↦ ?_) fun _ ↦ ?_
  · exact (h.push (h.values.word (by decide))).ends
  · exact h.hostPush (fun _ ↦ .getCodeHash _) fun s ↦ h.values.word (isWord_hash _)

theorem opCallDataLoad : Respects T (opCallDataLoad E) (Ends T F) := by
  refine h.top.bind fun offset _ ↦ ?_
  split
  · rename_i buf hbuf
    exact (h.setTop (h.values.word (isWord_setBytes (setSlice_length hbuf).le))).ends
  · exact .panic

theorem opBlockHash : Respects T (opBlockHash E) (Ends T F) := by
  have hzero : W 0 := h.values.word (by decide)
  refine h.top.bind fun num _ ↦ .ite (fun _ ↦ ?_) fun _ ↦ (h.setTop hzero).ends
  refine (h.callHost fun _ ↦ .getTxContext).bind fun context _ ↦ .ite (fun _ ↦ ?_) fun _ ↦
    (h.setTop hzero).ends
  refine (h.callHost fun _ ↦ .getBlockHash _).bind fun hash _ ↦ ?_
  exact (h.setTop (h.values.word (isWord_hash _))).ends

theorem dataCopy (input : Bytes) : Respects T (dataCopy E input) (Ends T F) := by
  refine h.pop.bind fun memOffset _ ↦ h.pop.bind fun dataOffset _ ↦ h.pop.bind fun length _ ↦ ?_
  refine thenDo (fun c c' ↦ h.allocate memOffset length) (h.charge _ ?_)
  exact .ite (fun _ ↦ h.setMemory _ _ _ _) fun _ ↦ .done

theorem opExtCodeCopy : Respects T (opExtCodeCopy E) (Ends T F) := by
  refine h.popAddr.bind fun address _ ↦ h.pop.bind fun memOffset _ ↦ ?_
  refine h.pop.bind fun codeOffset _ ↦ h.pop.bind fun length _ ↦ ?_
  refine thenDo (fun c c' ↦ h.allocate memOffset length) (h.charge _ (h.charge _ ?_))
  refine (h.callHost fun _ ↦ .getCode _).bind fun code _ ↦ ?_
  exact .ite (fun _ ↦ h.setMemory _ _ _ _) fun _ ↦ .done

theorem opReturnDataCopy : Respects T (opReturnDataCopy E) (Ends T F) := by
  refine h.sinceFork _ (h.pop.bind fun memOffset _ ↦ h.pop.bind fun dataOffset _ ↦ ?_)
  refine h.pop.bind fun length _ ↦ thenDo (fun c c' ↦ h.allocate memOffset length) ?_
  refine .ite (fun _ ↦ h.exit _) fun _ ↦ h.charge _ ((h.setPopped _).bind fun _ _ ↦ ?_)
  refine .onGet fun c c' hT ↦ ?_
  have hdata := (h.alike hT).returnData
  rw [hdata, Slice.tail_congr (h.alike hT).memory]
  refine related_ite (fun _ ↦ h.exit _ c c' hT) fun _ ↦ ?_
  refine related_ite (fun _ ↦ h.exit _ c c' hT) fun _ ↦ ?_
  refine related_ite (fun _ ↦ ?_) fun _ ↦ related_panic
  cases hdst : c.memory.tail (uint64 memOffset) with
  | none => exact related_panic
  | some dst =>
    have hfit : uint64 memOffset + (((c.returnData.take (uint64 (dataOffset + length))).drop
        (uint64 dataOffset)).take dst.length).length ≤ c.memory.len := by
      have := Slice.length_of_tail hdst
      rw [List.length_take]
      omega
    have hwrite := h.write hT hfit
    rw [hdata] at hwrite
    exact related_set (.inl hwrite)

theorem selfDestructCost (address : Address) :
    Respects T (selfDestructCost E address) (Keeps T fun _ ↦ True) := by
  refine .ite (fun _ ↦ .ite (fun _ ↦ ?_) fun _ ↦ ?_) fun _ ↦ .pure _ trivial
  · refine (h.callHost fun _ ↦ .empty _).bind fun _ _ ↦ .ite (fun _ ↦ ?_) fun _ ↦ .pure _ trivial
    refine (h.callHost fun _ ↦ .getBalance _).bind fun _ _ ↦ ?_
    exact .ite (fun _ ↦ .pure _ trivial) fun _ ↦ .pure _ trivial
  · refine (h.callHost fun _ ↦ .accountExists _).bind fun _ _ ↦ ?_
    exact .ite (fun _ ↦ .pure _ trivial) fun _ ↦ .pure _ trivial

theorem opSelfDestruct : Respects T (opSelfDestruct E) (Ends T F) := by
  refine .ite (fun _ ↦ h.exit _) fun _ ↦ h.popAddr.bind fun address _ ↦ ?_
  refine (h.selfDestructCost address).bind fun cost _ ↦ h.charge _ ?_
  exact (h.callHost fun _ ↦ .selfdestruct _ _).bind fun _ _ ↦ h.halts

section

variable (hip : ∀ c c' ip, T c c' → T { c with ip := ip } { c' with ip := ip })
include hip

theorem jumpTo (dest : ℤ) : Respects T (jumpTo E dest) (Ends T F) := by
  have hvalid : Respects T (validJumpdest E dest) (Keeps T fun _ ↦ True) := by
    refine .ite (fun _ ↦ .pure _ trivial) fun _ ↦ ?_
    split
    · exact .pure _ trivial
    · exact .panic
  refine hvalid.bind fun _ _ ↦ .ite (fun _ ↦ ?_) fun _ ↦ h.exit _
  exact fun c c' hT ↦ related_modify (.inl (hip c c' _ hT))

theorem opJumpi : Respects T (opJumpi E) (Ends T F) :=
  h.pop.bind fun dest _ ↦ h.pop.bind fun _ _ ↦ .ite (fun _ ↦ h.jumpTo hip dest) fun _ ↦ .done

theorem opPush
    (hdata : ∀ data, W (setBytes data)) (n : ℕ) : Respects T (opPush E n) (Ends T F) := by
  have hrest : ∀ data, Respects T (do
      Evm.push (setBytes data)
      modify fun c ↦ { c with ip := c.ip + n } : Machine σ Unit) (Ends T F) := fun data ↦
    (h.push (hdata data)).bind fun _ _ c c' hT ↦ related_modify <| .inl <| by
      rw [(h.alike hT).ip]
      exact hip c c' _ hT
  refine .onGet fun c c' hT ↦ ?_
  rw [(h.alike hT).ip]
  refine related_ite (fun _ ↦ ?_) fun _ ↦ related_panic
  exact related_ite (fun _ ↦ hrest _ c c' hT) fun _ ↦ hrest _ c c' hT

end

theorem opDup (n : ℕ) : Respects T (opDup n) (Ends T F) := by
  refine (h.stackAtLeast n).bind fun _ _ ↦ .ite (fun _ ↦ ?_) fun _ ↦ h.exit _
  exact (h.peekAt n).bind fun _ hval ↦ (h.push hval).ends

theorem opSwap (n : ℕ) : Respects T (opSwap n) (Ends T F) :=
  (h.stackAtLeast (n + 1)).bind fun _ _ ↦ .ite (fun _ ↦ h.swap n) fun _ ↦ h.exit _

theorem opLog (n : ℕ) : Respects T (opLog E n) (Ends T F) := by
  refine .ite (fun _ ↦ h.exit _) fun _ ↦ (h.stackAtLeast _).bind fun _ _ ↦ ?_
  refine .ite (fun _ ↦ ?_) fun _ ↦ h.exit _
  refine h.pop.bind fun mStart _ ↦ h.pop.bind fun mSize _ ↦ (h.popTopics n).bind fun topics _ ↦ ?_
  refine (h.get2 mStart mSize).check (fun a ha ↦ ?_) fun a ha ↦ ?_
  · obtain ⟨data, rfl, _⟩ := ha
    refine (h.callHost fun _ ↦ .emitLog _ _ _).bind fun _ _ ↦ h.charge _ ?_
    exact (h.consumeGas _).check (fun _ _ ↦ .done) fun _ _ ↦ .gaveUp
  · subst ha
    exact .gaveUp

theorem opHalt (op : OpCode) : Respects T (opHalt E op) (Ends T F) := by
  refine .ite (fun _ ↦ h.exit _) fun _ ↦ h.pop.bind fun offset _ ↦ h.pop.bind fun size _ ↦ ?_
  refine (h.get2 offset size).check (fun a ha ↦ ?_) fun a ha ↦ ?_
  · obtain ⟨ret, rfl, _⟩ := ha
    refine bind (V := fun _ ↦ True) (T := T) (fun c c' hT ↦ ?_) fun _ _ ↦
      .ite (fun _ ↦ h.exit _) fun _ ↦ h.halts
    exact related_modify ⟨rfl, trivial, h.ret ret hT⟩
  · subst ha
    exact fun c c' hF ↦ related_modify (.inr (h.failedRet [] hF))

end Respected

end Mainnet.Evm
