import Mainnet.Evm.InstRespects

namespace Mainnet.Evm

open Types Mainnet.Runtime Lib Prog

variable {σ α β : Type} {T T₀ F : State σ → State σ → Prop} {E : Env σ} {W : ℤ → Prop} {op : OpCode}

def Holding (T : State σ → State σ → Prop) (live : List ℤ) (c c' : State σ) : Prop :=
  T c c' ∧ c.stack.live = live

def CopySafe (T : State σ → State σ → Prop) (offset size : ℕ) : Prop :=
  ∀ data, Respects T (copyToMemory offset (offset + size) data) (Keeps T fun _ ↦ True)

theorem copySafe_zero (hT : ∀ c c', T c c' → c'.memory.cap = c.memory.cap) (offset : ℕ) :
    CopySafe T offset 0 := by
  intro data c c' h
  unfold Related
  rw [Nat.add_zero, copyToMemory_empty, copyToMemory_empty, hT c c' h]
  split_ifs
  · exact .returns ⟨rfl, trivial, h⟩
  · exact .panic

def BuiltFor (offset size : ℕ) (built : Built (Contract × ℕ × ℕ)) : Prop :=
  (∃ k, built = .failed (some k)) ∨ ∃ k, built = .contract (k, offset, size)

namespace Operates

variable (h : Operates E W T F) {Q : β → State σ → β → State σ → Prop} {a : ℤ} {live : List ℤ}
  {offset size : ℕ}
include h

theorem popHeld {k : ℤ → Machine σ β} (hk : Respects (Holding T live) (k a) Q) :
    Respects (Holding T (a :: live)) (Evm.pop >>= k) Q := by
  intro c c' hT
  have hpop : Returns Evm.pop c fun b t ↦ b = a ∧ t.stack.live = live :=
    (returns_pop hT.2).mpr ⟨rfl, rfl⟩
  refine related_bind ((h.pop c c' hT.1).and_left hpop.ensures) ?_
  rintro b t _ t' ⟨⟨rfl, _, hT'⟩, rfl, hlive⟩
  exact hk t t' ⟨hT', hlive⟩

theorem popAddrHeld {k : Address → Machine σ β} (hk : ∀ addr, Respects (Holding T live) (k addr) Q) :
    Respects (Holding T (a :: live)) (Evm.popAddr >>= k) Q := by
  intro c c' hT
  have hpop : Ensures Evm.popAddr c fun _ t ↦ t.stack.live = live := by
    simp only [Evm.popAddr, ensures_bind, ensures_get, hT.2, reduceCtorEq, if_false]
    refine ((returns_pop hT.2).mpr ?_ : Returns Evm.pop c _).ensures
    exact ensures_pure.mpr rfl
  refine related_bind ((h.popAddr c c' hT.1).and_left hpop) ?_
  rintro b t _ t' ⟨⟨rfl, _, hT'⟩, hlive⟩
  exact hk _ t t' ⟨hT', hlive⟩

theorem popIfHeld {p : Prop} [Decidable p] {k : Option ℤ → Machine σ β} {operand : List ℤ}
    (hlength : operand.length = if p then 1 else 0)
    (hk : Respects (Holding T live) (k operand.head?) Q) :
    Respects (Holding T (operand ++ live)) (popIf p >>= k) Q := by
  unfold popIf
  split_ifs at hlength ⊢
  · obtain ⟨value, rfl⟩ := List.length_eq_one_iff.mp hlength
    rw [map_eq_pure_bind, bind_assoc]
    exact h.popHeld hk
  · obtain rfl := List.length_eq_zero_iff.mp hlength
    exact hk

theorem callsNewAccount (addr : Address) (transfersValue : Bool) :
    Respects T (callsNewAccount E op addr transfersValue) (Keeps T fun _ ↦ True) := by
  have hempty : Respects T (Evm.callHost (E.host.empty addr)) (Keeps T fun _ ↦ True) :=
    (h.callHost fun _ ↦ .empty _).mono fun _ _ _ _ hQ ↦ ⟨hQ.1, trivial, hQ.2.2⟩
  refine .ite (fun _ ↦ .ite (fun _ ↦ ?_) fun _ ↦ ?_) fun _ ↦ .pure _ trivial
  · exact .ite (fun _ ↦ hempty) fun _ ↦ .pure _ trivial
  · exact (h.callHost fun _ ↦ .accountExists _).bind fun _ _ ↦ .pure _ trivial

theorem lacksFunds (value : ℤ) : Respects T (lacksFunds E value) (Keeps T fun _ ↦ True) := by
  refine .ite (fun _ ↦ ?_) fun _ ↦ .pure _ trivial
  exact (h.callHost fun _ ↦ .getBalance _).bind fun _ _ ↦ .pure _ trivial

theorem finishCall (initialGas : ℤ) (addr : Address) (value : Option ℤ) (args : Bytes)
    (retOffset retSize : ℤ) :
    Respects T (finishCall E op initialGas addr value args retOffset retSize)
      (Splits T F (BuiltFor (uint64 retOffset) (uint64 retSize)) (· = .stopped)) := by
  refine (h.callsNewAccount addr _).bind fun newAccount _ ↦ .onGet fun c c' hT ↦ ?_
  rw [(h.alike hT).gas]
  cases callGas E.config initialGas c.gas _ with
  | none => exact h.exitWith (N := (· = Built.stopped)) .outOfGas rfl c c' hT
  | some gas =>
    refine ((h.consumeGas _).check (fun ok hok ↦ ?_) fun ok hok ↦ ?_ : Respects T _ _) c c' hT
    · rw [if_pos hok]
      refine (h.callHost fun _ ↦ .getCode _).bind fun code _ ↦ (h.lacksFunds _).bind fun lacks _ ↦ ?_
      refine .ite (fun _ c c' hT ↦ ?_) fun _ c c' hT ↦ ?_
      · exact related_pure (.ok (.inl ⟨_, rfl⟩) hT)
      · exact related_pure (.ok (.inr ⟨_, rfl⟩) hT)
    · rw [if_neg (by rw [hok]; exact Bool.false_ne_true)]
      exact fun c c' hF ↦ related_pure (.failed rfl hF)

theorem returnFromCall (hcopy : CopySafe T offset size) (k : Contract) (s : σ) :
    Respects T (returnFromCall offset size (E.host.callx k s).1) (Ends T F) := by
  have hrest : Respects T (do
      Evm.addGas (E.host.callx k s).1.gasLeft
      modify fun c ↦ { c with returnData := (E.host.callx k s).1.returnValue }) (Ends T F) :=
    (h.addGas _).bind fun _ _ c c' hT ↦ related_modify (.inl (h.returned k s hT))
  refine (h.push (h.values.word ?_)).bind fun _ _ ↦ .ite (fun _ ↦ ?_) fun _ ↦ hrest
  · split_ifs <;> decide
  · exact (hcopy _).bind fun _ _ ↦ hrest

theorem consumeHashGas (length : ℤ) : Respects T (consumeHashGas op length) (Tests T F) :=
  .ite (fun _ ↦ h.consumeGas _) fun _ _ _ hT ↦ related_pure (.ok rfl hT)

theorem newAddress (salt : Option ℤ) (input : Bytes) :
    Respects T (newAddress E salt input) (Keeps T fun _ ↦ True) := by
  cases salt with
  | none =>
    rw [Evm.newAddress, map_eq_pure_bind]
    exact (h.callHost fun _ ↦ .getNonce _).bind fun _ _ ↦ .pure _ trivial
  | some salt => exact .pure _ trivial

theorem popIf (p : Prop) [Decidable p] :
    Respects T (popIf p : Machine σ (Option ℤ)) (Keeps T fun _ ↦ True) := by
  refine .ite (fun _ ↦ ?_) fun _ ↦ .pure _ trivial
  rw [map_eq_pure_bind]
  exact h.pop.bind fun _ _ ↦ .pure _ trivial

theorem endCall (type : CallType) (hcopy : CopySafe T offset size)
    {built : Built (Contract × ℕ × ℕ)} (hbuilt : BuiltFor offset size built) :
    Respects T (endCall E type built) (Ends T F) := by
  obtain ⟨k, rfl⟩ | ⟨k, rfl⟩ := hbuilt
  · exact (h.push (h.values.word (by decide))).bind fun _ _ ↦ (h.addGas _).ends
  · refine (h.callHost fun _ ↦ .callx _).bind fun result hresult ↦ ?_
    obtain ⟨s, rfl⟩ := hresult
    exact h.returnFromCall hcopy _ s

theorem opCall (hrun : Respects (Holding T live) (Evm.runCall E op) (Ends T F)) :
    Respects (Holding T live) (opCall E op) (Ends T F) := by
  have hexit : ∀ err, Respects (Holding T live) (Evm.exit err) (Ends T F) :=
    fun err c c' hT ↦ h.exit err c c' hT.1
  have hreset : Respects (Holding T live) Evm.resetReturnData
      (Keeps (Holding T live) fun _ ↦ True) :=
    fun _ _ hT ↦ related_modify ⟨rfl, trivial, h.noData hT.1, hT.2⟩
  have hpeek : Respects (Holding T live) (Evm.peekAt 3) (Keeps (Holding T live) fun _ ↦ True) := by
    refine .onGet fun c c' hT ↦ ?_
    rw [(h.alike hT.1).live]
    cases c.stack.live[3 - 1]? with
    | none => exact related_panic
    | some val => exact related_pure ⟨rfl, trivial, hT⟩
  refine hreset.bind fun _ _ ↦ .ite (fun _ ↦ hpeek.bind fun _ _ ↦ ?_) fun _ ↦ ?_
  · exact .ite (fun _ ↦ hexit _) fun _ ↦ hrun
  · exact .ite (fun _ ↦ hexit _) fun _ ↦ .ite (fun _ ↦ hexit _) fun _ ↦ hrun

theorem finishCreate (value length : ℤ) (salt : Option ℤ) (input : Bytes) :
    Respects T (finishCreate E op value length salt input)
      (Splits T F (· ≠ .stopped) (· = .stopped)) := by
  have hfail : ∀ {ok : Bool} {m : Machine σ (Built Contract)}, ok = false →
      Respects F (if ok then m else pure .stopped) (Splits T F (· ≠ .stopped) (· = .stopped)) := by
    rintro ok m rfl
    exact fun c c' hF ↦ related_pure (.failed rfl hF)
  refine (h.consumeGas 0).check (fun ok hok ↦ ?_) fun ok hok ↦ hfail hok
  rw [if_pos hok]
  refine (h.lacksFunds value).bind fun lacks _ ↦ .ite (fun _ c c' hT ↦ ?_) fun _ ↦ ?_
  · exact related_pure (.ok nofun hT)
  refine (h.consumeHashGas length).check (fun ok hok ↦ ?_) fun ok hok ↦ hfail hok
  rw [if_pos hok]
  refine .onGet fun c c' hT ↦ ?_
  rw [(h.alike hT).gas]
  refine ((h.consumeGas _).check (fun ok hok ↦ ?_) fun ok hok ↦ hfail hok : Respects T _ _) c c' hT
  rw [if_pos hok]
  exact (h.newAddress salt input).bind fun _ _ c c' hT ↦ related_pure (.ok nofun hT)

theorem returnFromCreate (address : Address) (k : Contract) (s : σ) :
    Respects T (returnFromCreate E op address (E.host.callx k s).1) (Ends T F) := by
  have hrest : ∀ val, isWord val → Respects T (do
      Evm.push val
      Evm.addGas (E.host.callx k s).1.gasLeft
      if (E.host.callx k s).1.reverted then
        modify fun c ↦ { c with returnData := (E.host.callx k s).1.returnValue }) (Ends T F) := by
    intro val hval
    refine (h.push (h.values.word hval)).bind fun _ _ ↦ (h.addGas _).bind fun _ _ ↦ ?_
    exact .ite (fun _ c c' hT ↦ related_modify (.inl (h.returned k s hT))) fun _ ↦ .done
  refine .ite (fun _ ↦ hrest _ (by decide)) fun _ ↦ ?_
  exact .ite (fun _ ↦ hrest _ (by decide)) fun _ ↦ hrest _ (isWord_address address)

theorem endCreate {built : Built Contract} (hbuilt : built ≠ .stopped) :
    Respects T (endCreate E op built) (Ends T F) := by
  cases built with
  | stopped => exact absurd rfl hbuilt
  | failed contract =>
    refine (h.push (h.values.word (by decide))).bind fun _ _ ↦ ?_
    cases contract with
    | none => exact .done
    | some contract => exact (h.addGas _).ends
  | contract contract =>
    refine (h.callHost fun _ ↦ .callx _).bind fun result hresult ↦ ?_
    obtain ⟨s, rfl⟩ := hresult
    exact h.returnFromCreate _ _ s

end Operates

namespace Respected

variable (h : Respected E W T F) {initialGas addr inOffset inSize retOffset retSize : ℤ}
  {operand live : List ℤ}
include h

theorem buildCallContract
    (hlength : operand.length = op.values) :
    Respects (Holding T (initialGas :: addr :: (operand ++ inOffset :: inSize :: retOffset ::
        retSize :: live))) (buildCallContract E op)
      (Splits (Reaching T (rangeEnd retOffset retSize)) F
        (fun built ↦ BuiltFor (uint64 retOffset) (uint64 retSize) built ∧
          isUint64 retOffset = true ∧ isUint64 retSize = true) (· = .stopped)) := by
  have hstopped : ∀ {V}, Respects F (pure .stopped : Machine σ (Built (Contract × ℕ × ℕ)))
      (Splits (Reaching T (rangeEnd retOffset retSize)) F V (· = .stopped)) :=
    fun c c' hF ↦ related_pure (.failed rfl hF)
  unfold Evm.buildCallContract
  refine h.popHeld (h.popAddrHeld fun addr ↦ h.popIfHeld hlength (h.popHeld (h.popHeld ?_)))
  refine h.popHeld (h.popHeld fun c c' hT ↦ ?_)
  refine (h.get2 inOffset inSize).check (fun a ha ↦ ?_) (fun a ha ↦ ?_) c c' hT.1
  · obtain ⟨args, rfl, _⟩ := ha
    refine (h.allocated retOffset retSize).check (fun ok hok ↦ ?_) fun ok hok ↦ ?_
    · rw [if_pos hok.1]
      refine ((h.reaching _).finishCall _ _ _ _ _ _).mono ?_
      rintro a t _ t' (⟨hmade, hT'⟩ | ⟨ha, hF⟩)
      · exact .ok ⟨hmade, hok.2⟩ hT'
      · exact .failed ha hF
    · rw [if_neg (by rw [hok]; exact Bool.false_ne_true)]
      exact hstopped
  · subst ha
    exact hstopped

theorem runCall
    (hlength : operand.length = op.values)
    (hcopy : isUint64 retOffset = true → isUint64 retSize = true →
      CopySafe (Reaching T (rangeEnd retOffset retSize)) (uint64 retOffset) (uint64 retSize)) :
    Respects (Holding T (initialGas :: addr :: (operand ++ inOffset :: inSize :: retOffset ::
      retSize :: live))) (runCall E op) (Ends T F) := by
  cases htype : callType op with
  | none =>
    rw [Evm.runCall, htype]
    exact .panic
  | some type =>
    rw [Evm.runCall, htype]
    refine (h.buildCallContract hlength).check (fun built hbuilt ↦ ?_) fun built hbuilt ↦ ?_
    · obtain ⟨hbuilt, hoffset, hsize⟩ := hbuilt
      refine ((h.reaching _).endCall type (hcopy hoffset hsize) hbuilt).mono ?_
      exact fun _ _ _ _ hQ ↦ hQ.imp_left And.left
    · subst hbuilt
      exact .gaveUp

theorem buildCreateContract : Respects T (buildCreateContract E op)
    (Splits T F (· ≠ .stopped) (· = .stopped)) := by
  unfold Evm.buildCreateContract
  refine h.pop.bind fun value _ ↦ h.pop.bind fun offset _ ↦ h.pop.bind fun length _ ↦ ?_
  refine (h.popIf _).bind fun salt _ ↦ (h.get2 offset length).check (fun a ha ↦ ?_) fun a ha ↦ ?_
  · obtain ⟨input, rfl, _⟩ := ha
    exact h.finishCreate value length salt input
  · subst ha
    exact fun c c' hF ↦ related_pure (.failed rfl hF)

theorem opCreate : Respects T (opCreate E op) (Ends T F) := by
  unfold Evm.opCreate
  refine .ite (fun _ ↦ h.exit _) fun _ ↦ .ite (fun _ ↦ h.exit _) fun _ ↦ ?_
  refine h.resetReturnData.bind fun _ _ ↦ h.buildCreateContract.check (fun built hbuilt ↦ ?_) ?_
  · exact h.endCreate hbuilt
  · rintro _ rfl
    exact .gaveUp

end Respected

end Mainnet.Evm
