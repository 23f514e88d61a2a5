import Mainnet.Evm.Meaning
import Mainnet.Evm.Progress
import Mainnet.Lib.Related

namespace Mainnet.Evm

open Types Mainnet.Runtime Lib Prog List Nat Slice

variable {σ α β : Type}

/-! ### What an instruction can do

Every instruction is put together from a few operations on the frame. A relation between two frames
that these operations keep is kept by every instruction. It may say that the two are one frame with
some invariant, or that they differ only in what no instruction sees. -/

inductive Moves (H : Host σ) (s : σ) : σ → Prop
  | accountExists (addr : Address) : Moves H s (H.accountExists addr s).2
  | getStorage (addr : Address) (key : Hash) : Moves H s (H.getStorage addr key s).2
  | setStorage (addr : Address) (key val : Hash) (config : ForksInTime) :
    Moves H s (H.setStorage addr key val config s).2
  | getBalance (addr : Address) : Moves H s (H.getBalance addr s).2
  | getCodeSize (addr : Address) : Moves H s (H.getCodeSize addr s).2
  | getCodeHash (addr : Address) : Moves H s (H.getCodeHash addr s).2
  | getCode (addr : Address) : Moves H s (H.getCode addr s).2
  | selfdestruct (addr beneficiary : Address) : Moves H s (H.selfdestruct addr beneficiary s).2
  | getTxContext : Moves H s (H.getTxContext s).2
  | getBlockHash (number : ℤ) : Moves H s (H.getBlockHash number s).2
  | emitLog (addr : Address) (topics : List Hash) (data : Bytes) :
    Moves H s (H.emitLog addr topics data s).2
  | callx (contract : Contract) : Moves H s (H.callx contract s).2
  | empty (addr : Address) : Moves H s (H.empty addr s).2
  | getNonce (addr : Address) : Moves H s (H.getNonce addr s).2

structure Alike (c c' : State σ) : Prop where
  ip : c'.ip = c.ip
  memory : c'.memory.live = c.memory.live
  live : c'.stack.live = c.stack.live
  gas : c'.gas = c.gas
  used : c'.currentConsumedGas = c.currentConsumedGas
  returnData : c'.returnData = c.returnData
  err : c'.err = c.err
  stop : c'.stop = c.stop
  host : c'.host = c.host

/-- What holds of every number that can come onto the stack, by an instruction other than a push of
data from the code. -/
structure Values (E : Env σ) (W : ℤ → Prop) : Prop where
  word {x : ℤ} : isWord x → W x
  land {x y : ℤ} : W x → W y → W (Int.land x y)
  lor {x y : ℤ} : W x → W y → W (Int.lor x y)
  xor {x y : ℤ} : W x → W y → W (Int.xor x y)
  balance (addr : Address) (s : σ) : W (E.host.getBalance addr s).1
  value : W (E.msg.value.getD 0)
  number (s : σ) : W (E.host.getTxContext s).1.number
  timestamp (s : σ) : W (E.host.getTxContext s).1.timestamp
  gasLimit (s : σ) : W (E.host.getTxContext s).1.gasLimit
  input : W E.msg.input.length
  code : W E.msg.code.length

theorem Values.any (E : Env σ) : Values E fun _ ↦ True := by
  constructor <;> intros <;> trivial

inductive Splits (T F : State σ → State σ → Prop) (V N : α → Prop) :
    α → State σ → α → State σ → Prop
  | ok {a : α} {t t' : State σ} : V a → T t t' → Splits T F V N a t a t'
  | failed {a : α} {t t' : State σ} : N a → F t t' → Splits T F V N a t a t'

abbrev Tests (T F : State σ → State σ → Prop) : Bool → State σ → Bool → State σ → Prop :=
  Splits T F (· = true) (· = false)

/-- `T` is kept by every operation of the frame that leaves its memory alone, and gives way to `F` when
the frame fails. The numbers on the stack all have `W`. -/
structure Operates (E : Env σ) (W : ℤ → Prop) (T F : State σ → State σ → Prop) : Prop where
  values : Values E W
  alike {c c' : State σ} : T c c' → Alike c c'
  words {c c' : State σ} : T c c' → ∀ w ∈ c.stack.live, W w
  size {c c' : State σ} : T c c' → W c.memory.len
  gasLeft {c c' : State σ} : T c c' → W c.gas
  dataSize {c c' : State σ} : T c c' → W c.returnData.length
  stack {c c' : State σ} {s s' : Stack} : T c c' → s'.live = s.live →
    (c'.stack = c.stack → s' = s) → (∀ w ∈ s.live, W w) →
    T { c with stack := s } { c' with stack := s' }
  halt {c c' : State σ} : T c c' → T { c with stop := true } { c' with stop := true }
  fail {c c' : State σ} (err : RuntimeError) : T c c' →
    F { c with stop := true, err := some err } { c' with stop := true, err := some err }
  gas {c c' : State σ} {gas gas' used used' : ℕ} : T c c' → gas' = gas → used' = used →
    gas ≤ c.gas ∨ gas < 2 ^ 64 → T { c with gas := gas, currentConsumedGas := used }
      { c' with gas := gas', currentConsumedGas := used' }
  noData {c c' : State σ} : T c c' → T { c with returnData := [] } { c' with returnData := [] }
  returned {c c' : State σ} (k : Contract) (s : σ) : T c c' →
    T { c with returnData := (E.host.callx k s).1.returnValue }
      { c' with returnData := (E.host.callx k s).1.returnValue }
  ret {c c' : State σ} (ret : Bytes) : T c c' → T { c with ret := ret } { c' with ret := ret }
  failedRet {c c' : State σ} (ret : Bytes) : F c c' → F { c with ret := ret } { c' with ret := ret }
  host {c c' : State σ} {s : σ} : T c c' → Moves E.host c.host s →
    T { c with host := s } { c' with host := s }

structure Respected (E : Env σ) (W : ℤ → Prop) (T F : State σ → State σ → Prop) : Prop
    extends Operates E W T F where
  write {c c' : State σ} {off : ℕ} {data : Bytes} : T c c' → off + data.length ≤ c.memory.len →
    T { c with memory := c.memory.write off data } { c' with memory := c'.memory.write off data }
  allocate {c c' : State σ} (offset size : ℤ) : T c c' →
    Related (allocateMemory E offset size) (allocateMemory E offset size) c c' (Tests T F)

def Respects (T : State σ → State σ → Prop) (m : Machine σ α)
    (Q : α → State σ → α → State σ → Prop) : Prop :=
  ∀ c c', T c c' → Related m m c c' Q

def Keeps (T : State σ → State σ → Prop) (V : α → Prop) (a : α) (t : State σ) (a' : α)
    (t' : State σ) : Prop :=
  a' = a ∧ V a ∧ T t t'

def Ends (T F : State σ → State σ → Prop) (_ : Unit) (t : State σ) (_ : Unit) (t' : State σ) :
    Prop :=
  T t t' ∨ F t t'

def Reaching (T : State σ → State σ → Prop) (n : ℕ) (c c' : State σ) : Prop :=
  T c c' ∧ n ≤ c.memory.len

def rangeEnd (offset size : ℤ) : ℕ := if size = 0 then 0 else uint64 offset + uint64 size

variable {T F : State σ → State σ → Prop}

namespace Respects

variable {m : Machine σ α} {f : α → Machine σ β} {V N : α → Prop}
  {Q : β → State σ → β → State σ → Prop} {T₁ : State σ → State σ → Prop} {n : Machine σ β}

theorem bind (hm : Respects T m (Keeps T₁ V))
    (hf : ∀ a, V a → Respects T₁ (f a) Q) : Respects T (m >>= f) Q := by
  refine fun c c' hT ↦ related_bind (hm c c' hT) ?_
  rintro a t _ t' ⟨rfl, hV, hT'⟩
  exact hf _ hV t t' hT'

theorem check (hm : Respects T m (Splits T₁ F V N))
    (hf : ∀ a, V a → Respects T₁ (f a) Q) (hn : ∀ a, N a → Respects F (f a) Q) :
    Respects T (m >>= f) Q := by
  refine fun c c' hT ↦ related_bind (hm c c' hT) ?_
  rintro a t _ t' (⟨hV, hT'⟩ | ⟨hN, hF⟩)
  · exact hf a hV t t' hT'
  · exact hn a hN t t' hF

theorem mono {R : β → State σ → β → State σ → Prop} (h : Respects T n Q)
    (hQR : ∀ a t a' t', Q a t a' t' → R a t a' t') : Respects T n R :=
  fun c c' hT ↦ (h c c' hT).mono hQR

theorem ite {p : Prop} [Decidable p] {m : Machine σ β} (hm : p → Respects T m Q)
    (hn : ¬p → Respects T n Q) : Respects T (if p then m else n) Q :=
  fun c c' hT ↦ related_ite (fun hp ↦ hm hp c c' hT) fun hp ↦ hn hp c c' hT

theorem onGet {f : State σ → Machine σ β}
    (hf : ∀ c c', T c c' → Related (f c) (f c') c c' Q) : Respects T (get >>= f) Q :=
  fun c c' hT ↦ related_onGet (hf c c' hT)

theorem panic : Respects T (Prog.panic : Machine σ β) Q := fun _ _ _ ↦ related_panic

theorem pure (a : α) (hV : V a) : Respects T (Pure.pure a : Machine σ α) (Keeps T V) :=
  fun _ _ hT ↦ related_pure ⟨rfl, hV, hT⟩

theorem done : Respects T (Pure.pure () : Machine σ Unit) (Ends T F) :=
  fun _ _ hT ↦ related_pure (.inl hT)

theorem gaveUp : Respects F (Pure.pure () : Machine σ Unit) (Ends T F) :=
  fun _ _ hF ↦ related_pure (.inr hF)

theorem ends {n : Machine σ Unit} {V : Unit → Prop} (h : Respects T n (Keeps T V)) :
    Respects T n (Ends T F) :=
  h.mono fun _ _ _ _ hQ ↦ .inl hQ.2.2

theorem thenDo {m : Machine σ Bool} {k : Machine σ Unit} (hm : Respects T m (Tests T F))
    (hk : Respects T k (Ends T F)) : Respects T (do if ← m then k) (Ends T F) := by
  refine hm.check (fun a ha ↦ ?_) fun a ha ↦ ?_
  · rw [if_pos ha]
    exact hk
  · rw [if_neg (by rw [ha]; exact Bool.false_ne_true)]
    exact .gaveUp

end Respects

theorem related_consumeGas {c c' : State σ} {Q : Bool → State σ → Bool → State σ → Prop} (gas : ℕ)
    (hgas : c'.gas = c.gas) (hused : c'.currentConsumedGas = c.currentConsumedGas)
    (hfail : ∀ used,
      Q false { c with currentConsumedGas := used, stop := true, err := some .outOfGas }
        false { c' with currentConsumedGas := used, stop := true, err := some .outOfGas })
    (hok : ∀ used gas, gas ≤ c.gas → Q true { c with currentConsumedGas := used, gas := gas }
      true { c' with currentConsumedGas := used, gas := gas }) :
    Related (consumeGas gas) (consumeGas gas) c c' Q := by
  unfold Related
  rw [consumeGas_apply, consumeGas_apply, hused]
  by_cases hlt : c.gas < gas
  · rw [if_pos hlt, if_pos (hgas ▸ hlt)]
    exact .returns (hfail _)
  · rw [if_neg hlt, if_neg (hgas ▸ hlt), hgas]
    exact .returns (hok _ _ (sub_le _ _))

theorem related_allocateMemory {E : Env σ} {c c' : State σ} (offset size : ℤ) (hT : T c c')
    (hgas : c'.gas = c.gas) (hused : c'.currentConsumedGas = c.currentConsumedGas)
    (hlast : c'.lastGasCost = c.lastGasCost) (hlen : c'.memory.len = c.memory.len)
    (hfail : ∀ err last used,
      F { c with lastGasCost := last, currentConsumedGas := used, stop := true, err := some err }
        { c' with lastGasCost := last, currentConsumedGas := used, stop := true, err := some err })
    (hgrow : ∀ n last used gas, c.memory.len ≤ n →
      T { c with
          lastGasCost := last, currentConsumedGas := used, gas := gas
          memory := extendByteSlice E.grow c.memory n }
        { c' with
          lastGasCost := last, currentConsumedGas := used, gas := gas
          memory := extendByteSlice E.grow c'.memory n }) :
    Related (allocateMemory E offset size) (allocateMemory E offset size) c c' (Tests T F) := by
  have hexit (err : RuntimeError) :
      Related (do exit err; pure false) (do exit err; pure false) c c' (Tests T F) := by
    have hF := hfail err c.lastGasCost c.currentConsumedGas
    nth_rewrite 2 [← hlast] at hF
    nth_rewrite 2 [← hused] at hF
    exact related_onModify (related_pure (.failed rfl hF))
  refine related_ite (fun _ ↦ hexit _) fun _ ↦ related_ite (fun _ ↦ related_pure (.ok rfl hT)) ?_
  refine fun _ ↦ related_ite (fun _ ↦ hexit _) fun _ ↦ related_onGet ?_
  rw [hlen, hlast]
  refine related_ite (fun hlt ↦ related_onModify ?_) fun _ ↦ related_pure (.ok rfl hT)
  generalize (memoryCost _ + 2 ^ 64 - _) % 2 ^ 64 = cost
  generalize memoryCost _ = last
  refine related_bind (related_consumeGas (Q := fun ok t ok' t' ↦
    Related _ _ t t' _) cost hgas hused (fun used ↦ ?_) fun used gas hle ↦ ?_) fun _ _ _ _ h ↦ h
  · exact related_onModify (related_pure (.failed rfl (hfail _ _ _)))
  · refine related_onModify (related_pure (.ok rfl (hgrow _ _ _ _ ?_)))
    omega
namespace Operates

variable {E : Env σ} {W : ℤ → Prop} (h : Operates E W T F)
include h

theorem setStack {f : State σ → Stack} {V : PUnit → Prop} (hV : V ⟨⟩)
    (hlive : ∀ c c', T c c' → (f c').live = (f c).live)
    (heq : ∀ c c', T c c' → c'.stack = c.stack → f c' = f c)
    (hW : ∀ c c', T c c' → ∀ w ∈ (f c).live, W w) :
    Respects T (modify fun c ↦ { c with stack := f c } : Machine σ PUnit) (Keeps T V) :=
  fun c c' hT ↦ related_modify ⟨rfl, hV, h.stack hT (hlive c c' hT) (heq c c' hT) (hW c c' hT)⟩

theorem exit (err : RuntimeError) : Respects T (exit err) (Ends T F) :=
  fun _ _ hT ↦ related_modify (.inr (h.fail err hT))

theorem exitWith {V N : α → Prop} (err : RuntimeError) {a : α} (hN : N a) :
    Respects T (do Evm.exit err; pure a) (Splits T F V N) :=
  fun _ _ hT ↦ related_bind (related_modify (h.fail err hT))
    fun _ _ _ _ hF ↦ related_pure (.failed hN hF)

theorem halts : Respects T (Evm.halt : Machine σ Unit) (Ends T F) :=
  fun _ _ hT ↦ related_modify (.inl (h.halt hT))

theorem callHost {method : σ → α × σ} (hmoves : ∀ s, Moves E.host s (method s).2) :
    Respects T (callHost method) (Keeps T fun a ↦ ∃ s, (method s).1 = a) := by
  refine .onGet fun c c' hT ↦ ?_
  rw [(h.alike hT).host]
  refine related_bind (Q := fun _ t _ t' ↦ T t t') (related_set (h.host hT (hmoves _))) ?_
  exact fun _ _ _ _ hT' ↦ related_pure ⟨rfl, ⟨_, rfl⟩, hT'⟩

theorem push {val : ℤ} (hW : W val) : Respects T (push val) (Keeps T fun _ ↦ True) := by
  refine h.setStack trivial (fun c c' hT ↦ ?_) (fun c c' _ hstack ↦ ?_) fun c c' hT ↦ ?_
  · exact congrArg (val :: ·) (h.alike hT).live
  · rw [hstack]
  · exact forall_mem_cons.mpr ⟨hW, h.words hT⟩

theorem pop : Respects T (pop : Machine σ ℤ) (Keeps T W) := by
  refine .onGet fun c c' hT ↦ ?_
  have hlive := (h.alike hT).live
  have hwords := h.words hT
  have hpop := @h.stack c c'
  cases hs : c.stack with
  | mk live dead =>
    cases hs' : c'.stack with
    | mk live' dead' =>
      rw [hs, hs'] at hlive hpop
      rw [hs] at hwords
      obtain rfl : live' = live := hlive
      cases live' with
      | nil => exact related_panic
      | cons a l =>
        obtain ⟨ha, hl⟩ := forall_mem_cons.mp hwords
        refine related_bind (related_set ?_) fun _ _ _ _ hT' ↦
          related_pure ⟨rfl, ha, hT'⟩
        refine hpop hT rfl (fun heq ↦ ?_) hl
        cases heq
        rfl

theorem top : Respects T (top : Machine σ ℤ) (Keeps T W) := by
  refine .onGet fun c c' hT ↦ ?_
  rw [(h.alike hT).live]
  have hwords := h.words hT
  cases hlive : c.stack.live with
  | nil => exact related_panic
  | cons a l => exact related_pure ⟨rfl, hwords a (hlive ▸ mem_cons_self), hT⟩

theorem setTop {val : ℤ} (hW : W val) : Respects T (setTop val) (Keeps T fun _ ↦ True) := by
  refine h.setStack trivial (fun c c' hT ↦ ?_) (fun c c' _ hstack ↦ ?_) fun c c' hT ↦ ?_
  · exact congrArg (val :: ·.tail) (h.alike hT).live
  · rw [hstack]
  · exact forall_mem_cons.mpr ⟨hW, fun w hw ↦ h.words hT w (mem_of_mem_tail hw)⟩

theorem setPopped (val : ℤ) : Respects T (setPopped val) (Keeps T fun _ ↦ True) := by
  refine h.setStack trivial (fun c c' hT ↦ ?_) (fun c c' _ hstack ↦ ?_) fun c c' hT ↦ ?_
  · exact (h.alike hT).live
  · rw [hstack]
  · exact h.words hT

theorem popHash : Respects T (popHash : Machine σ Hash) (Keeps T fun _ ↦ True) :=
  h.pop.bind fun _ _ ↦ .pure _ trivial

theorem popAddr : Respects T (popAddr : Machine σ Address) (Keeps T fun _ ↦ True) := by
  refine .onGet fun c c' hT ↦ ?_
  rw [(h.alike hT).live]
  refine related_ite (fun _ ↦ related_pure ⟨rfl, trivial, hT⟩) fun _ ↦ ?_
  exact h.pop.bind (fun _ _ ↦ .pure _ trivial) c c' hT

theorem stackAtLeast (n : ℕ) :
    Respects T (stackAtLeast n : Machine σ Bool) (Keeps T fun _ ↦ True) := by
  refine .onGet fun c c' hT ↦ ?_
  rw [(h.alike hT).live]
  exact related_pure ⟨rfl, trivial, hT⟩

theorem peekAt (n : ℕ) : Respects T (peekAt n : Machine σ ℤ) (Keeps T W) := by
  refine .onGet fun c c' hT ↦ ?_
  rw [(h.alike hT).live]
  have hwords := h.words hT
  cases hget : c.stack.live[n - 1]? with
  | none => exact related_panic
  | some val => exact related_pure ⟨rfl, hwords val (mem_of_getElem? hget), hT⟩

theorem swap (n : ℕ) : Respects T (swap n : Machine σ Unit) (Ends T F) := by
  refine .onGet fun c c' hT ↦ ?_
  have hlive := (h.alike hT).live
  have hwords := h.words hT
  rw [hlive]
  cases hget : c.stack.live[0]? with
  | none => exact related_panic
  | some a =>
    cases hget' : c.stack.live[n]? with
    | none => exact related_panic
    | some b =>
      refine related_set (.inl (h.stack hT rfl (fun heq ↦ by rw [heq]) fun w hw ↦ ?_))
      obtain hw | rfl := mem_or_eq_of_mem_set hw
      · obtain hw | rfl := mem_or_eq_of_mem_set hw
        · exact hwords w hw
        · exact hwords w (mem_of_getElem? hget')
      · exact hwords w (mem_of_getElem? hget)

theorem consumeGas (gas : ℕ) : Respects T (consumeGas gas : Machine σ Bool) (Tests T F) := by
  intro c c' hT
  have hgas := (h.alike hT).gas
  refine related_consumeGas gas hgas (h.alike hT).used (fun used ↦ ?_) fun used gas hle ↦ ?_
  · exact .failed rfl (h.fail .outOfGas (h.gas hT hgas (rfl : used = used) (.inl le_rfl)))
  · exact .ok rfl (h.gas hT rfl rfl (.inl hle))

theorem addGas (gas : ℕ) : Respects T (addGas gas : Machine σ Unit) (Keeps T fun _ ↦ True) := by
  intro c c' hT
  refine related_modify ⟨rfl, trivial, h.gas hT ?_ (h.alike hT).used (.inr ?_)⟩
  · rw [(h.alike hT).gas]
  · exact Nat.mod_lt _ (Nat.two_pow_pos 64)

theorem resetReturnData : Respects T (resetReturnData : Machine σ Unit) (Keeps T fun _ ↦ True) :=
  fun _ _ hT ↦ related_modify ⟨rfl, trivial, h.noData hT⟩

theorem charge (gas : ℕ) {k : Machine σ Unit} (hk : Respects T k (Ends T F)) :
    Respects T (do if ← Evm.consumeGas gas then k) (Ends T F) :=
  (h.consumeGas gas).thenDo hk

end Operates

namespace Respected

variable {E : Env σ} {W : ℤ → Prop} (h : Respected E W T F)
include h

theorem reaching (n : ℕ) : Respected E W (Reaching T n) F where
  values := h.values
  alike hT := h.alike hT.1
  words hT := h.words hT.1
  size hT := h.size hT.1
  gasLeft hT := h.gasLeft hT.1
  dataSize hT := h.dataSize hT.1
  stack hT hlive heq hW := ⟨h.stack hT.1 hlive heq hW, hT.2⟩
  halt hT := ⟨h.halt hT.1, hT.2⟩
  fail err hT := h.fail err hT.1
  gas hT hgas hused hle := ⟨h.gas hT.1 hgas hused hle, hT.2⟩
  noData hT := ⟨h.noData hT.1, hT.2⟩
  returned k s hT := ⟨h.returned k s hT.1, hT.2⟩
  ret ret hT := ⟨h.ret ret hT.1, hT.2⟩
  failedRet := h.failedRet
  host hT hmoves := ⟨h.host hT.1 hmoves, hT.2⟩
  write {c _ off data} hT hle := by
    refine ⟨h.write hT.1 hle, hT.2.trans (c.memory.len_write ?_).ge⟩
    exact hle.trans c.memory.len_le_cap
  allocate {c c'} offset size hT := by
    have hspec : Ensures (allocateMemory E offset size) c _ :=
      (allocateMemory_spec (Runs.refl c)).ensures
    refine ((h.allocate offset size hT.1).and_left hspec).mono ?_
    rintro _ t _ t' ⟨⟨ha, hT'⟩ | ⟨ha, hF⟩, hchecked⟩
    · cases hchecked with
      | ok hruns => exact .ok ha ⟨hT', hT.2.trans hruns.1.len⟩
      | stopped _ => cases ha
    · exact .failed ha hF

theorem allocated (offset size : ℤ) : Respects T (allocateMemory E offset size)
    (Splits (Reaching T (rangeEnd offset size)) F
      (fun ok ↦ ok = true ∧ isUint64 offset = true ∧ isUint64 size = true) (· = false)) := by
  intro c c' hT
  have hspec : Ensures (allocateMemory E offset size) c _ :=
    (allocateMemory_spec (Runs.refl c)).ensures
  refine ((h.allocate offset size hT).and_left hspec).mono ?_
  rintro _ t _ t' ⟨⟨ha, hT'⟩ | ⟨ha, hF⟩, hchecked⟩
  · cases hchecked with
    | ok hruns =>
      obtain ⟨_, _, hoffset, hsize, hlen⟩ := hruns
      refine .ok ⟨ha, hoffset, hsize⟩ ⟨hT', ?_⟩
      unfold rangeEnd
      split_ifs with hzero
      · exact zero_le _
      · exact hlen hzero
    | stopped _ => cases ha
  · exact .failed ha hF

theorem allocateThen (offset size : ℤ) {k : Machine σ Unit}
    (hk : isUint64 offset = true → isUint64 size = true →
      Respects (Reaching T (rangeEnd offset size)) k (Ends T F)) :
    Respects T (do if ← allocateMemory E offset size then k) (Ends T F) := by
  refine (h.allocated offset size).check (fun ok hok ↦ ?_) fun ok hok ↦ ?_
  · rw [if_pos hok.1]
    exact hk hok.2.1 hok.2.2
  · rw [if_neg (by rw [hok]; exact Bool.false_ne_true)]
    exact .gaveUp

theorem copyToMemory {c c' : State σ} (hT : T c c') {lo hi : ℕ} (data : Bytes) (hlo : lo ≤ hi)
    (hhi : hi ≤ c.memory.len) :
    Related (copyToMemory lo hi data) (copyToMemory lo hi data) c c' (Keeps T fun _ ↦ True) := by
  have hlen : c'.memory.len = c.memory.len := congrArg List.length (h.alike hT).memory
  obtain ⟨dst, hdst, hlength⟩ := c.memory.exists_slice hlo (hhi.trans c.memory.len_le_cap)
  obtain ⟨dst', hdst', hlength'⟩ := c'.memory.exists_slice hlo
    ((hhi.trans hlen.ge).trans c'.memory.len_le_cap)
  apply related_onGet
  rw [hdst, hdst']
  refine related_set ⟨rfl, trivial, ?_⟩
  rw [hlength, hlength']
  refine h.write hT ?_
  rw [length_take]
  omega

theorem setMemory (memOffset : ℕ) (input : Bytes) (size : ℕ) (dataOffset : ℤ) :
    Respects T (setMemory memOffset input size dataOffset) (Ends T F) := by
  refine .onGet fun c c' hT ↦ ?_
  rw [tail_congr (h.alike hT).memory]
  cases hdst : c.memory.tail memOffset with
  | none => exact related_panic
  | some dst =>
    dsimp only
    cases hout : setSlice dst input size dataOffset with
    | none => exact related_panic
    | some out =>
      refine related_set (.inl (h.write hT ?_))
      rw [setSlice_length hout]
      exact (length_of_tail hdst).le

theorem get2 (offset length : ℤ) : Respects T (get2 E offset length)
    (Splits T F (fun a ↦ ∃ data, a = some data ∧ data.length = uint64 length) (· = none)) := by
  refine .ite (fun hzero ↦ ?_) fun hlength ↦ ?_
  · subst hzero
    exact fun c c' hT ↦ related_pure (.ok ⟨[], rfl, rfl⟩ hT)
  refine (h.allocated offset length).check (fun ok hok ↦ ?_) fun ok hok ↦ ?_
  · rw [if_pos hok.1]
    refine .onGet fun c c' hT ↦ ?_
    have hend : uint64 offset + uint64 length ≤ c.memory.len := by
      have hreach := hT.2
      rwa [rangeEnd, if_neg hlength] at hreach
    have hlive := (h.alike hT.1).memory
    have hend' : uint64 offset + uint64 length ≤ c'.memory.len := by
      rwa [Slice.len, hlive]
    rw [slice_of_le_len _ (le_add_right _ _) hend,
      slice_of_le_len _ (le_add_right _ _) hend', hlive]
    refine related_pure (.ok ⟨_, rfl, ?_⟩ hT.1)
    rw [length_drop, length_take]
    exact (congrArg (· - uint64 offset) (min_eq_left hend)).trans (Nat.add_sub_cancel_left _ _)
  · rw [if_neg (by rw [hok]; exact Bool.false_ne_true)]
    exact fun c c' hF ↦ related_pure (.failed rfl hF)

end Respected

end Mainnet.Evm
