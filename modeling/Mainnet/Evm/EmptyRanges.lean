import Mainnet.Evm.TurnRespects

namespace Mainnet.Evm

open Types Mainnet.Runtime Lib Prog List Nat

variable {σ α β : Type} {E : Env σ} {op : OpCode}

/-- Where the offset and the size of a range of memory lie on the stack, counted from its top, for
the instructions that take both from there. -/
def OpCode.ranges : OpCode → List (ℕ × ℕ)
  | .SHA3 | .LOG _ | .RETURN | .REVERT => [(0, 1)]
  | .CREATE | .CREATE2 => [(1, 2)]
  | .CALLDATACOPY | .CODECOPY | .RETURNDATACOPY => [(0, 2)]
  | .EXTCODECOPY => [(1, 3)]
  | .CALL | .CALLCODE => [(3, 4), (5, 6)]
  | .DELEGATECALL | .STATICCALL => [(2, 3), (4, 5)]
  | _ => []

/-- The range is empty and begins at `offset`; return data is copied from its beginning. -/
structure EmptyAt (op : OpCode) (range : ℕ × ℕ) (offset : ℤ) (live : List ℤ) : Prop where
  begins : live[range.1]? = some offset
  size : live[range.2]? = some 0
  data : op = .RETURNDATACOPY → live[1]? = some 0

def State.withOperand (i : ℕ) (val : ℤ) (c : State σ) : State σ :=
  { c with stack := ⟨c.stack.live.set i val, c.stack.dead⟩ }

/-- The frames differ only in the numbers that they have popped; if they have failed it may be
anywhere on the stack. -/
def SameButPopped (c c' : State σ) : Prop :=
  ∃ stack, c' = { c with stack := stack } ∧ (c.err = none → stack.live = c.stack.live)

/-- An empty range at `offset` is free: the instruction does what it does where the range begins at
zero, and if it has no other range that is not empty, memory and what was paid for it stay as they
are. -/
def FreeRange (op : OpCode) (range : ℕ × ℕ) (offset : ℤ) (memory : Slice) : Prop :=
  ∀ {σ : Type} (E : Env σ) (c : State σ), c.memory = memory →
    (handler E op).stack ≤ c.stack.live.length → EmptyAt op range offset c.stack.live →
    Related (handler E op).inst (handler E op).inst c (c.withOperand range.1 0)
        (fun _ t _ t' ↦ SameButPopped t t') ∧
      ((∀ r ∈ op.ranges, c.stack.live[r.2]? = some 0) →
        Ensures (handler E op).inst c fun _ t ↦ t.memory = c.memory ∧ t.lastGasCost = c.lastGasCost)

def OpCode.freeAt (op : OpCode) (range : ℕ × ℕ) (offset : ℤ) (memory : Slice) : Bool :=
  match op with
  | .CALLDATACOPY | .CODECOPY | .EXTCODECOPY => isUint64 offset
  | .RETURNDATACOPY => isUint64 offset && offset ≤ memory.len
  | .CALL | .CALLCODE | .DELEGATECALL | .STATICCALL =>
    range.1 < 4 || isUint64 offset && offset ≤ memory.cap
  | _ => true

theorem get2_zero (E : Env σ) (offset : ℤ) : get2 E offset 0 = pure (some []) := rfl

variable {offset a : ℤ} {c : State σ} {range : ℕ × ℕ} {memory : Slice}

theorem allocateMemory_zero (E : Env σ) (h : isUint64 offset = true) :
    allocateMemory E offset 0 = pure true := by
  have hfit : (!isUint64 offset || !isUint64 0) = false := by
    rw [h]
    rfl
  rw [allocateMemory, if_neg (by rw [hfit]; exact Bool.false_ne_true), if_pos rfl]

theorem allocateMemory_overflow (E : Env σ) (h : isUint64 offset = false) (size : ℤ) :
    allocateMemory E offset size = (do exit .gasUintOverflow; pure false) := by
  have hfit : (!isUint64 offset || !isUint64 size) = true := by
    rw [h]
    rfl
  rw [allocateMemory, if_pos hfit]

def Beside (P : Slice → ℕ → Prop) (c c' : State σ) : Prop :=
  (∃ dead, c' = { c with stack := ⟨c.stack.live, dead⟩ }) ∧ P c.memory c.lastGasCost

def BothFailed (P : Slice → ℕ → Prop) (c c' : State σ) : Prop :=
  (∃ stack, c' = { c with stack := stack }) ∧ c.err ≠ none ∧ P c.memory c.lastGasCost

variable {P : Slice → ℕ → Prop}

abbrev EndAlike (P : Slice → ℕ → Prop) (m : Machine σ Unit) (c c' : State σ) : Prop :=
  Related m m c c' (Ends (Beside P) (BothFailed P))

theorem Beside.operates (E : Env σ) (P : Slice → ℕ → Prop) :
    Operates E (fun _ ↦ True) (Beside P) (BothFailed P) where
  values := .any E
  alike := by
    rintro c _ ⟨⟨dead, rfl⟩, _⟩
    constructor <;> rfl
  words _ _ _ := trivial
  size _ := trivial
  gasLeft _ := trivial
  dataSize _ := trivial
  stack := by
    rintro c _ s ⟨live', dead'⟩ ⟨⟨dead, rfl⟩, hP⟩ hlive _ _
    obtain rfl : live' = s.live := hlive
    exact ⟨⟨dead', rfl⟩, hP⟩
  halt := by
    rintro c _ ⟨⟨dead, rfl⟩, hP⟩
    exact ⟨⟨dead, rfl⟩, hP⟩
  fail := by
    rintro c _ err ⟨⟨dead, rfl⟩, hP⟩
    exact ⟨⟨_, rfl⟩, Option.some_ne_none err, hP⟩
  gas := by
    rintro c _ gas _ used _ ⟨⟨dead, rfl⟩, hP⟩ rfl rfl _
    exact ⟨⟨dead, rfl⟩, hP⟩
  noData := by
    rintro c _ ⟨⟨dead, rfl⟩, hP⟩
    exact ⟨⟨dead, rfl⟩, hP⟩
  returned := by
    rintro c _ k s ⟨⟨dead, rfl⟩, hP⟩
    exact ⟨⟨dead, rfl⟩, hP⟩
  ret := by
    rintro c _ ret ⟨⟨dead, rfl⟩, hP⟩
    exact ⟨⟨dead, rfl⟩, hP⟩
  failedRet := by
    rintro c _ ret ⟨⟨stack, rfl⟩, hfailed⟩
    exact ⟨⟨stack, rfl⟩, hfailed⟩
  host := by
    rintro c _ s ⟨⟨dead, rfl⟩, hP⟩ _
    exact ⟨⟨dead, rfl⟩, hP⟩

def capAtLeast (n : ℕ) (memory : Slice) (_ : ℕ) : Prop := n ≤ memory.cap

theorem Beside.respected (E : Env σ) (n : ℕ) :
    Respected E (fun _ ↦ True) (Beside (capAtLeast n)) (BothFailed (capAtLeast n)) where
  toOperates := Beside.operates E _
  write := by
    rintro c _ off data ⟨⟨dead, rfl⟩, hcap⟩ hle
    refine ⟨⟨dead, rfl⟩, hcap.trans (c.memory.cap_write ?_).ge⟩
    exact hle.trans c.memory.len_le_cap
  allocate := by
    rintro c _ offset size ⟨⟨dead, rfl⟩, hcap⟩
    refine related_allocateMemory offset size ⟨⟨dead, rfl⟩, hcap⟩ rfl rfl rfl rfl ?_ ?_
    · exact fun err _ _ ↦ ⟨⟨_, rfl⟩, Option.some_ne_none err, hcap⟩
    · exact fun _ _ _ _ _ ↦ ⟨⟨dead, rfl⟩, hcap.trans (extendByteSlice_cap _ _ _)⟩

theorem Beside.copySafe (n offset size : ℕ) :
    CopySafe (Beside (σ := σ) (capAtLeast n)) offset size := by
  intro data
  refine .onGet ?_
  rintro c _ ⟨⟨dead, rfl⟩, hcap⟩
  cases hdst : c.memory.slice offset (offset + size) with
  | none => exact related_panic
  | some dst =>
    refine related_set ⟨rfl, trivial, ⟨dead, rfl⟩, hcap.trans (c.memory.cap_write ?_).ge⟩
    rw [Slice.slice] at hdst
    split_ifs at hdst with hle
    cases hdst
    simp only [length_take, length_drop, length_append]
    omega

def Untouched (c : State σ) (memory : Slice) (last : ℕ) : Prop :=
  memory = c.memory ∧ last = c.lastGasCost

def Apart (P : Slice → ℕ → Prop) (live live' : List ℤ) (c c' : State σ) : Prop :=
  c.stack.live = live ∧ (∃ dead, c' = { c with stack := ⟨live', dead⟩ }) ∧ P c.memory c.lastGasCost

namespace Apart

variable {live live' : List ℤ} {c c' : State σ} {Q : β → State σ → β → State σ → Prop}

theorem beside (h : Apart P live live c c') : Beside P c c' := by
  obtain ⟨rfl, hleft, hP⟩ := h
  exact ⟨hleft, hP⟩

theorem exit (h : Apart P live live' c c') (err : RuntimeError) :
    EndAlike P (exit err) c c' := by
  obtain ⟨_, ⟨dead, rfl⟩, hP⟩ := h
  exact related_modify (.inr ⟨⟨_, rfl⟩, Option.some_ne_none err, hP⟩)

theorem pop {a a' : ℤ} {k k' : ℤ → Machine σ β} (h : Apart P (a :: live) (a' :: live') c c')
    (hk : ∀ t t', Apart P live live' t t' → Related (k a) (k' a') t t' Q) :
    Related (pop >>= k) (pop >>= k') c c' Q := by
  obtain ⟨hlive, ⟨dead', rfl⟩, hP⟩ := h
  obtain ⟨ip, memory, last, ⟨_, dead⟩, err, stop, gas, used, data, ret, host⟩ := c
  obtain rfl : _ = a :: live := hlive
  exact hk _ _ ⟨rfl, ⟨a' :: dead', rfl⟩, hP⟩

theorem popAddr {a : ℤ} {k k' : Address → Machine σ β}
    (h : Apart P (a :: live) (a :: live') c c')
    (hk : ∀ t t', Apart P live live' t t' →
      Related (k (bigToAddress a)) (k' (bigToAddress a)) t t' Q) :
    Related (popAddr >>= k) (popAddr >>= k') c c' Q := by
  obtain ⟨hlive, ⟨dead', rfl⟩, hP⟩ := h
  obtain ⟨ip, memory, last, ⟨_, dead⟩, err, stop, gas, used, data, ret, host⟩ := c
  obtain rfl : _ = a :: live := hlive
  exact hk _ _ ⟨rfl, ⟨a :: dead', rfl⟩, hP⟩

theorem popIf {p : Prop} [Decidable p] {operand : List ℤ} {k k' : Option ℤ → Machine σ β}
    (h : Apart P (operand ++ live) (operand ++ live') c c')
    (hlength : operand.length = if p then 1 else 0)
    (hk : ∀ t t', Apart P live live' t t' → Related (k operand.head?) (k' operand.head?) t t' Q) :
    Related (popIf p >>= k) (popIf p >>= k') c c' Q := by
  unfold Evm.popIf
  split_ifs at hlength ⊢
  · obtain ⟨value, rfl⟩ := length_eq_one_iff.mp hlength
    rw [map_eq_pure_bind, bind_assoc, bind_assoc]
    exact h.pop hk
  · obtain rfl := length_eq_zero_iff.mp hlength
    exact hk c c' h

theorem resetReturnData {k k' : Unit → Machine σ β} (h : Apart P live live' c c')
    (hk : ∀ t t', Apart P live live' t t' → Related (k ()) (k' ()) t t' Q) :
    Related (resetReturnData >>= k) (resetReturnData >>= k') c c' Q := by
  obtain ⟨hlive, ⟨dead', rfl⟩, hP⟩ := h
  exact hk _ _ ⟨hlive, ⟨dead', rfl⟩, hP⟩

end Apart

section

variable {c c' : State σ} {a a' : ℤ} {live : List ℤ}

theorem opSha3_empty (h : Apart P (a :: 0 :: live) (a' :: 0 :: live) c c') :
    EndAlike P (opSha3 E) c c' := by
  have ho := Beside.operates E P
  refine h.pop fun t t' h ↦ h.pop fun t t' h ↦ ?_
  rw [get2_zero, get2_zero, pure_bind]
  exact ho.charge _ (ho.push trivial).ends _ _ h.beside

theorem opHalt_empty (op : OpCode) (h : Apart P (a :: 0 :: live) (a' :: 0 :: live) c c') :
    EndAlike P (opHalt E op) c c' := by
  have ho := Beside.operates E P
  refine related_ite (fun _ ↦ h.exit _) fun _ ↦ h.pop fun t t' h ↦ h.pop fun t t' h ↦ ?_
  rw [get2_zero, get2_zero, pure_bind]
  refine related_onModify ?_
  refine Respects.ite (fun _ ↦ ho.exit _) (fun _ ↦ ho.halts) _ _ (ho.ret [] h.beside)

theorem opLog_empty (n : ℕ) (h : Apart P (a :: 0 :: live) (a' :: 0 :: live) c c') :
    EndAlike P (opLog E n) c c' := by
  have ho := Beside.operates E P
  refine related_ite (fun _ ↦ h.exit _) fun _ ↦ related_onGet ?_
  obtain ⟨hlive, ⟨dead, rfl⟩, _⟩ := id h
  rw [hlive]
  refine related_ite (fun _ ↦ ?_) fun _ ↦ h.exit _
  refine h.pop fun t t' h ↦ h.pop fun t t' h ↦ (ho.popTopics n).bind (fun topics _ ↦ ?_) _ _ h.beside
  rw [get2_zero, pure_bind]
  refine (ho.callHost fun _ ↦ .emitLog _ _ _).bind fun _ _ ↦ ho.charge _ ?_
  exact (ho.consumeGas _).check (fun _ _ ↦ .done) fun _ _ ↦ .gaveUp

theorem opCreate_empty {value : ℤ} (operand : List ℤ)
    (h : Apart P (value :: a :: 0 :: (operand ++ live)) (value :: a' :: 0 :: (operand ++ live)) c c')
    (hlength : operand.length = if op = .CREATE2 then 1 else 0) :
    EndAlike P (opCreate E op) c c' := by
  have ho := Beside.operates E P
  unfold opCreate
  refine related_ite (fun _ ↦ h.exit _) fun _ ↦ related_ite (fun _ ↦ h.exit _) fun _ ↦ ?_
  refine h.resetReturnData fun t t' h ↦ ?_
  unfold buildCreateContract
  simp only [bind_assoc]
  refine h.pop fun t t' h ↦ h.pop fun t t' h ↦ h.pop fun t t' h ↦ h.popIf hlength fun t t' h ↦ ?_
  rw [get2_zero, get2_zero, pure_bind]
  refine (ho.finishCreate _ _ _ _).check (fun built hbuilt ↦ ho.endCreate hbuilt) ?_ _ _ h.beside
  rintro _ rfl
  exact .gaveUp

theorem dataCopy_empty {dataOffset : ℤ} (input : Bytes) (ha : isUint64 a = true)
    (ha' : isUint64 a' = true)
    (h : Apart P (a :: dataOffset :: 0 :: live) (a' :: dataOffset :: 0 :: live) c c') :
    EndAlike P (dataCopy E input) c c' := by
  have ho := Beside.operates E P
  refine h.pop fun t t' h ↦ h.pop fun t t' h ↦ h.pop fun t t' h ↦ ?_
  rw [allocateMemory_zero E ha, allocateMemory_zero E ha', pure_bind, if_pos rfl]
  exact ho.charge _ .done _ _ h.beside

theorem opExtCodeCopy_empty {addr codeOffset : ℤ} (ha : isUint64 a = true)
    (ha' : isUint64 a' = true)
    (h : Apart P (addr :: a :: codeOffset :: 0 :: live) (addr :: a' :: codeOffset :: 0 :: live)
      c c') :
    EndAlike P (opExtCodeCopy E) c c' := by
  have ho := Beside.operates E P
  refine h.popAddr fun t t' h ↦ h.pop fun t t' h ↦ h.pop fun t t' h ↦ h.pop fun t t' h ↦ ?_
  rw [allocateMemory_zero E ha, allocateMemory_zero E ha', pure_bind, if_pos rfl]
  refine ho.charge _ (ho.charge _ ?_) _ _ h.beside
  exact (ho.callHost fun _ ↦ .getCode _).bind fun _ _ ↦ .done

theorem opReturnDataCopy_empty (ha : isUint64 a = true) (ha' : isUint64 a' = true)
    (hlen : uint64 a ≤ c.memory.len) (hlen' : uint64 a' ≤ c.memory.len)
    (h : Apart (Untouched c) (a :: 0 :: 0 :: live) (a' :: 0 :: 0 :: live) c c') :
    EndAlike (Untouched c) (opReturnDataCopy E) c c' := by
  have ho := Beside.operates E (Untouched c)
  refine related_ite (fun _ ↦ ?_) fun _ ↦ h.exit _
  refine h.pop fun t t' h ↦ h.pop fun t t' h ↦ h.pop fun t t' h ↦ ?_
  rw [allocateMemory_zero E ha, allocateMemory_zero E ha', pure_bind, pure_bind, if_pos rfl,
    if_pos rfl]
  refine related_ite (fun hfit ↦ absurd hfit (by decide)) fun _ ↦ ?_
  refine related_bind (ho.consumeGas _ _ _ h.beside) ?_
  rintro _ u _ u' (⟨rfl, hT⟩ | ⟨rfl, hF⟩)
  · refine related_bind (ho.setPopped _ _ _ hT) ?_
    rintro _ v _ _ ⟨-, -, ⟨dead, rfl⟩, hmemory, hlast⟩
    have htail {offset : ℕ} (h : offset ≤ c.memory.len) :
        v.memory.tail offset = some (v.memory.live.drop offset) := by
      rw [hmemory, Slice.tail, if_pos h]
    refine related_onGet (related_ite (fun hfit ↦ absurd hfit (by decide)) fun _ ↦ ?_)
    refine related_ite (fun hend ↦ absurd hend (not_lt_zero _)) fun _ ↦ ?_
    refine related_ite (fun _ ↦ ?_) fun hend ↦ absurd (zero_le _) hend
    have hdata : (v.returnData.take (uint64 (0 + 0))).drop (uint64 0) = [] := rfl
    rw [htail hlen, htail hlen', hdata]
    dsimp only
    rw [take_nil, take_nil, Slice.write_nil, Slice.write_nil]
    exact related_set (.inl ⟨⟨dead, rfl⟩, hmemory, hlast⟩)
  · exact related_pure (.inr hF)

end

def Built.withOutput (offset size : ℕ) : Built (Contract × ℕ × ℕ) → Built (Contract × ℕ × ℕ)
  | .contract (k, _, _) => .contract (k, offset, size)
  | built => built

theorem finishCall_eq (initialGas : ℤ) (addr : Address) (value : Option ℤ) (args : Bytes)
    (retOffset retSize : ℤ) :
    finishCall E op initialGas addr value args retOffset retSize = (do
      let built ← finishCall E op initialGas addr value args 0 0
      pure (built.withOutput (uint64 retOffset) (uint64 retSize))) := by
  unfold finishCall
  simp only [bind_assoc]
  refine bind_congr fun newAccount ↦ bind_congr fun c ↦ ?_
  cases callGas E.config initialGas c.gas _ with
  | none => simp only [bind_assoc, pure_bind, Built.withOutput]
  | some gas =>
    simp only [bind_assoc]
    refine bind_congr fun ok ↦ ?_
    cases ok with
    | false => rfl
    | true =>
      simp only [if_true, bind_assoc]
      refine bind_congr fun code ↦ bind_congr fun lacks ↦ ?_
      cases lacks <;> rfl

theorem returnFromCall_empty {offset : ℕ} (h : offset ≤ c.memory.cap) (result : ExecutionResult) :
    returnFromCall offset 0 result c = returnFromCall 0 0 result c := by
  have hcopy (data : Bytes) {offset : ℕ} {c : State σ} (h : offset ≤ c.memory.cap)
      (k : Unit → Machine σ Unit) : (copyToMemory offset (offset + 0) data >>= k) c = k () c :=
    congrArg (Option.bind · _) ((copyToMemory_empty offset data c).trans (if_pos h))
  have hpush (val : ℤ) (k : Unit → Machine σ Unit) : (push val >>= k) c =
      k () { c with stack := ⟨val :: c.stack.live, c.stack.dead.tail⟩ } := rfl
  unfold returnFromCall
  rw [hpush, hpush]
  generalize (if result.succeeded then (1 : ℤ) else 0) = val
  split_ifs
  · rw [hcopy, hcopy]
    · exact zero_le _
    · exact h
  · rfl

section

variable {c c' : State σ} {initialGas addr inOffset inSize retOffset retSize : ℤ}
  {operand live live' : List ℤ}

theorem Respected.finished {T F : State σ → State σ → Prop} {W : ℤ → Prop}
    (h : Respected E W T F) {gas : ℤ} {addr : Address} {value : Option ℤ} {args : Bytes}
    (retOffset retSize : ℤ) :
    Respects T (do
        if ← allocateMemory E retOffset retSize then
          finishCall E op gas addr value args retOffset retSize
        else pure .stopped)
      (Splits T F (BuiltFor (uint64 retOffset) (uint64 retSize)) (· = .stopped)) := by
  refine Respects.check (fun _ _ ↦ h.allocate retOffset retSize) ?_ ?_
  · rintro _ rfl
    exact h.finishCall _ _ _ _ _ _
  · rintro _ rfl
    exact fun _ _ hF ↦ related_pure (.failed rfl hF)

def callRest (E : Env σ) (op : OpCode) (type : CallType) (initialGas : ℤ) (addr : Address)
    (value : Option ℤ) (inOffset inSize retOffset retSize : ℤ) : Machine σ Unit :=
  (do
    match ← get2 E inOffset inSize with
    | none => pure .stopped
    | some args =>
      if ← allocateMemory E retOffset retSize then
        finishCall E op initialGas addr value args retOffset retSize
      else pure .stopped) >>= endCall E type

theorem Apart.opCall {type : CallType} {i n r m i' n' r' m' : ℤ} (htype : callType op = some type)
    (hlength : operand.length = op.values)
    (h : Apart P (initialGas :: addr :: (operand ++ i :: n :: r :: m :: live))
      (initialGas :: addr :: (operand ++ i' :: n' :: r' :: m' :: live)) c c')
    (hrest : ∀ t t', Beside P t t' → Related
      (callRest E op type initialGas (bigToAddress addr) operand.head? i n r m)
      (callRest E op type initialGas (bigToAddress addr) operand.head? i' n' r' m') t t'
      (Ends (Beside P) (BothFailed P))) :
    EndAlike P (opCall E op) c c' := by
  refine h.resetReturnData fun t t' h ↦ ?_
  have hrun : EndAlike P (runCall E op) t t' := by
    rw [runCall, htype, buildCallContract]
    simp only [bind_assoc]
    refine h.pop fun t t' h ↦ h.popAddr fun t t' h ↦ h.popIf hlength fun t t' h ↦ ?_
    refine h.pop fun t t' h ↦ h.pop fun t t' h ↦ h.pop fun t t' h ↦ h.pop fun t t' h ↦ ?_
    have hrest := hrest t t' h.beside
    simp only [callRest, bind_assoc] at hrest
    exact hrest
  refine related_ite (fun hcall ↦ ?_) fun _ ↦ ?_
  · obtain ⟨value, rfl⟩ := length_eq_one_iff.mp (hlength.trans (if_pos (.inl hcall.1)))
    refine related_bind (Q := fun val u val' u' ↦ val' = val ∧ u = t ∧ u' = t') ?_ ?_
    · refine related_onGet ?_
      obtain ⟨hlive, ⟨dead, rfl⟩, _⟩ := h
      rw [hlive]
      exact related_pure ⟨rfl, rfl, rfl⟩
    · rintro val _ _ _ ⟨rfl, rfl, rfl⟩
      exact related_ite (fun _ ↦ h.exit _) fun _ ↦ hrun
  · refine related_ite (fun _ ↦ h.exit _) fun _ ↦ ?_
    exact related_ite (fun _ ↦ h.exit _) fun _ ↦ hrun

theorem opCall_emptyInput {type : CallType} (a a' : ℤ) (htype : callType op = some type)
    (hlength : operand.length = op.values)
    (h : Apart (capAtLeast 0)
      (initialGas :: addr :: (operand ++ a :: 0 :: retOffset :: retSize :: live))
      (initialGas :: addr :: (operand ++ a' :: 0 :: retOffset :: retSize :: live)) c c') :
    EndAlike (capAtLeast 0) (opCall E op) c c' := by
  have hr := Beside.respected E 0
  refine h.opCall htype hlength (Respects.check (hr.finished retOffset retSize) ?_ ?_)
  · exact fun built hbuilt ↦ hr.endCall type (Beside.copySafe _ _ _) hbuilt
  · rintro _ rfl
    exact .gaveUp

theorem opCall_emptyOutput {type : CallType} {a : ℤ} (htype : callType op = some type)
    (hlength : operand.length = op.values) (ha : isUint64 a = true)
    (h : Apart (capAtLeast (uint64 a))
      (initialGas :: addr :: (operand ++ inOffset :: inSize :: a :: 0 :: live))
      (initialGas :: addr :: (operand ++ inOffset :: inSize :: 0 :: 0 :: live)) c c') :
    EndAlike (capAtLeast (uint64 a)) (opCall E op) c c' := by
  have hr := Beside.respected E (uint64 a)
  refine h.opCall htype hlength fun t t' hT ↦ ?_
  rw [callRest, callRest, bind_assoc, bind_assoc]
  refine related_bind (hr.get2 inOffset inSize _ _ hT) ?_
  rintro _ u _ u' (⟨⟨args, rfl, _⟩, hT⟩ | ⟨rfl, hF⟩)
  · dsimp only
    rw [allocateMemory_zero E ha, allocateMemory_zero E rfl, pure_bind, pure_bind, if_pos rfl,
      if_pos rfl, finishCall_eq, bind_assoc]
    refine related_bind (hr.finishCall _ _ _ _ 0 0 _ _ hT) ?_
    rintro built v _ v' (⟨⟨k, rfl⟩ | ⟨k, rfl⟩, hT⟩ | ⟨rfl, hF⟩)
    · exact hr.endCall type (Beside.copySafe _ 0 0) (.inl ⟨k, rfl⟩) _ _ hT
    · change Related (endCall E type (.contract (k, uint64 a, 0)))
        (endCall E type (.contract (k, 0, 0))) v v' _
      refine related_bind (hr.callHost (fun _ ↦ .callx _) _ _ hT) ?_
      rintro result w _ w' ⟨rfl, ⟨s, rfl⟩, hT⟩
      unfold Related
      rw [returnFromCall_empty hT.2]
      exact hr.returnFromCall (Beside.copySafe _ 0 0) _ s _ _ hT
    · exact related_pure (.inr hF)
  · exact related_pure (.inr hF)

theorem opCall_untouched {type : CallType} {a b : ℤ} (htype : callType op = some type)
    (hlength : operand.length = op.values)
    (hlive : c.stack.live = initialGas :: addr :: (operand ++ a :: 0 :: b :: 0 :: live)) :
    EndAlike (Untouched c) (opCall E op) c c := by
  have ho := Beside.operates E (Untouched c)
  have hcopy : CopySafe (Beside (σ := σ) (Untouched c)) (uint64 b) 0 := by
    refine copySafe_zero ?_ _
    rintro t _ ⟨⟨dead, rfl⟩, _⟩
    rfl
  have hstopped : Respects (BothFailed (Untouched c)) (endCall E type .stopped)
      (Ends (Beside (Untouched c)) (BothFailed (Untouched c))) := .gaveUp
  have hapart : Apart (Untouched c) c.stack.live c.stack.live c c :=
    ⟨rfl, ⟨c.stack.dead, rfl⟩, rfl, rfl⟩
  rw [hlive] at hapart
  refine hapart.opCall htype hlength fun t t' hT ↦ ?_
  rw [callRest, get2_zero, pure_bind]
  dsimp only
  cases hb : isUint64 b with
  | true =>
    rw [allocateMemory_zero E hb, pure_bind, if_pos rfl]
    refine (ho.finishCall _ _ _ _ _ _).check (fun built hbuilt ↦ ?_) ?_ _ _ hT
    · exact ho.endCall type hcopy hbuilt
    · rintro _ rfl
      exact hstopped
  | false =>
    rw [allocateMemory_overflow E hb, bind_assoc, bind_assoc]
    exact related_onModify (hstopped _ _ (ho.fail .gasUintOverflow hT))

end

section

variable {c c' : State σ}

theorem Beside.same (h : Beside P c c' ∨ BothFailed P c c') : SameButPopped c c' := by
  obtain ⟨⟨dead, rfl⟩, _⟩ | ⟨⟨stack, rfl⟩, herr, _⟩ := h
  · exact ⟨_, rfl, fun _ ↦ rfl⟩
  · exact ⟨_, rfl, fun hnone ↦ absurd hnone herr⟩

theorem related_untouched {m m' : Machine σ Unit}
    (h : Related m m' c c' (Ends (Beside (Untouched c)) (BothFailed (Untouched c)))) (p : Prop) :
    Related m m' c c' (fun _ t _ t' ↦ SameButPopped t t') ∧
      (p → Ensures m c fun _ t ↦ t.memory = c.memory ∧ t.lastGasCost = c.lastGasCost) := by
  refine ⟨h.mono fun _ _ _ _ hQ ↦ Beside.same hQ, fun _ ↦ h.ensures_left.mono ?_⟩
  rintro _ t ⟨_, _, ⟨_, hP⟩ | ⟨_, _, hP⟩⟩
  · exact hP
  · exact hP

end

theorem exists_two (live : List ℤ) {b : ℤ} (ha : live[0]? = some a) (hb : live[1]? = some b) :
    ∃ rest, live = a :: b :: rest := by
  obtain ⟨a, l₁, rfl, h₁⟩ := exists_cons (List.getElem?_eq_some_iff.mp hb).1
  obtain ⟨b, rest, rfl, _⟩ := exists_cons h₁
  cases ha
  cases hb
  exact ⟨rest, rfl⟩

theorem exists_three (live : List ℤ) {d : ℤ} (ha : live[0]? = some a)
    (hd : live[2]? = some d) : ∃ b rest, live = a :: b :: d :: rest := by
  obtain ⟨a, l₁, rfl, h₁⟩ := exists_cons (List.getElem?_eq_some_iff.mp hd).1
  obtain ⟨b, l₂, rfl, h₂⟩ := exists_cons h₁
  obtain ⟨d, rest, rfl, _⟩ := exists_cons h₂
  cases ha
  cases hd
  exact ⟨b, rest, rfl⟩

theorem opCall_free (htype : (callType op).isSome = true)
    (hstack : op.values + 6 ≤ c.stack.live.length)
    {i : ℕ} (hbegins : c.stack.live[i]? = some offset) (hsize : c.stack.live[i + 1]? = some 0)
    (hi : i = op.values + 2 ∨
      i = op.values + 4 ∧ isUint64 offset = true ∧ offset ≤ c.memory.cap) :
    Related (opCall E op) (opCall E op) c (c.withOperand i 0)
      (fun _ t _ t' ↦ SameButPopped t t') := by
  obtain ⟨initialGas, addr, inOffset, inSize, retOffset, retSize, operand, rest, hlive, hlength⟩ :=
    exists_call_operands hstack
  obtain ⟨type, htype⟩ := Option.isSome_iff_exists.mp htype
  rw [← hlength] at hi
  rw [hlive] at hbegins hsize
  obtain rfl | ⟨rfl, hfit, hcap⟩ := hi
  · obtain rfl : inSize = 0 := by simpa using hsize
    refine (opCall_emptyInput inOffset 0 htype hlength
      ⟨hlive, ⟨c.stack.dead, ?_⟩, zero_le _⟩).mono fun _ _ _ _ hQ ↦ Beside.same hQ
    simp [State.withOperand, hlive]
  · obtain rfl : retOffset = offset := by simpa using hbegins
    obtain rfl : retSize = 0 := by simpa using hsize
    have hle : uint64 retOffset ≤ c.memory.cap := by
      have := natCast_uint64 hfit
      omega
    refine (opCall_emptyOutput htype hlength hfit ⟨hlive, ⟨c.stack.dead, ?_⟩, hle⟩).mono
      fun _ _ _ _ hQ ↦ Beside.same hQ
    simp [State.withOperand, hlive]

theorem opCall_allEmpty (htype : (callType op).isSome = true)
    (hstack : op.values + 6 ≤ c.stack.live.length)
    (hin : c.stack.live[op.values + 3]? = some 0)
    (hout : c.stack.live[op.values + 5]? = some 0) :
    Ensures (opCall E op) c fun _ t ↦ t.memory = c.memory ∧ t.lastGasCost = c.lastGasCost := by
  obtain ⟨initialGas, addr, inOffset, inSize, retOffset, retSize, operand, rest, hlive, hlength⟩ :=
    exists_call_operands hstack
  obtain ⟨type, htype⟩ := Option.isSome_iff_exists.mp htype
  rw [← hlength, hlive] at hin hout
  obtain rfl : inSize = 0 := by simpa using hin
  obtain rfl : retSize = 0 := by simpa using hout
  exact (related_untouched (opCall_untouched htype hlength hlive) True).2 trivial

theorem freeRange_of_freeAt (hrange : range ∈ op.ranges)
    (h : op.freeAt range offset memory = true) :
    FreeRange op range offset memory := by
  rintro σ E c rfl hstack ⟨hbegins, hsize, hdata⟩
  have hapart : Apart (Untouched c) c.stack.live (c.stack.live.set range.1 0) c
    (c.withOperand range.1 0) := ⟨rfl, ⟨_, rfl⟩, rfl, rfl⟩
  cases op with
  | SHA3 | LOG n | RETURN | REVERT =>
    obtain rfl := mem_singleton.mp hrange
    obtain ⟨rest, hlive⟩ := exists_two _ hbegins hsize
    rw [hlive] at hapart
    refine related_untouched ?_ _
    first
    | exact opSha3_empty hapart
    | exact opLog_empty n hapart
    | exact opHalt_empty .RETURN hapart
    | exact opHalt_empty .REVERT hapart
  | CREATE =>
    obtain rfl := mem_singleton.mp hrange
    obtain ⟨value, live, hlive, _⟩ := exists_cons hstack
    rw [hlive] at hapart hbegins hsize
    obtain ⟨rest, rfl⟩ := exists_two live hbegins hsize
    exact related_untouched (opCreate_empty [] hapart rfl) _
  | CREATE2 =>
    obtain rfl := mem_singleton.mp hrange
    obtain ⟨value, live, hlive, hlength⟩ := exists_cons hstack
    rw [hlive] at hapart hbegins hsize
    obtain ⟨rest, rfl⟩ := exists_two live hbegins hsize
    obtain ⟨salt, rest, rfl, _⟩ := exists_cons (le_of_succ_le_succ (le_of_succ_le_succ hlength))
    exact related_untouched (opCreate_empty [salt] hapart rfl) _
  | CALLDATACOPY | CODECOPY =>
    obtain rfl := mem_singleton.mp hrange
    obtain ⟨dataOffset, rest, hlive⟩ := exists_three _ hbegins hsize
    rw [hlive] at hapart
    exact related_untouched (dataCopy_empty _ h rfl hapart) _
  | EXTCODECOPY =>
    obtain rfl := mem_singleton.mp hrange
    obtain ⟨addr, live, hlive, _⟩ := exists_cons hstack
    rw [hlive] at hapart hbegins hsize
    obtain ⟨codeOffset, rest, rfl⟩ := exists_three live hbegins hsize
    exact related_untouched (opExtCodeCopy_empty h rfl hapart) _
  | RETURNDATACOPY =>
    obtain rfl := mem_singleton.mp hrange
    obtain ⟨dataOffset, rest, hlive⟩ := exists_three _ hbegins hsize
    have hdata := hdata rfl
    rw [hlive] at hapart hdata
    obtain rfl : dataOffset = 0 := Option.some_inj.mp hdata
    obtain ⟨hfit, hle⟩ : isUint64 offset = true ∧ offset ≤ c.memory.len := by
      simpa [OpCode.freeAt] using h
    have hlen : uint64 offset ≤ c.memory.len := by
      have := natCast_uint64 hfit
      omega
    exact related_untouched (opReturnDataCopy_empty hfit rfl hlen (zero_le _) hapart) _
  | CALL | CALLCODE | DELEGATECALL | STATICCALL =>
    refine ⟨?_, fun hall ↦ opCall_allEmpty rfl hstack (hall _ (.head _)) (hall _ (.tail _ (.head _)))⟩
    obtain rfl | rfl := mem_pair.mp hrange
    · refine opCall_free ?_ ?_ hbegins hsize (.inl ?_)
      · rfl
      · exact hstack
      · rfl
    · refine opCall_free ?_ ?_ hbegins hsize (.inr ⟨?_, ?_⟩)
      · rfl
      · exact hstack
      · rfl
      · simpa [OpCode.freeAt] using h
  | _ => cases hrange

theorem FreeRange.ends (E : Env σ) (h : FreeRange op range offset memory)
    (hleft : Ensures (handler E op).inst c fun _ t ↦ t.err ≠ none) (hmemory : c.memory = memory)
    (hstack : (handler E op).stack ≤ c.stack.live.length)
    (hempty : EmptyAt op range offset c.stack.live) :
    ¬Returns (handler E op).inst (c.withOperand range.1 0) fun _ t ↦ t.err = none := by
  rintro ⟨_, t', heq, hnone⟩
  have hsame := (h E c hmemory hstack hempty).1
  unfold Related at hsame
  rw [heq] at hsame
  generalize hr : (handler E op).inst c = r at hsame
  cases hsame with
  | returns hQ =>
    obtain ⟨_, rfl, _⟩ := hQ
    exact hleft _ _ hr hnone

def withMemory (memory : Slice) (live : List ℤ) : State Unit :=
  { onStack live 100000 with memory := memory }

def askNothing (op : OpCode) (offset : ℤ) : List ℤ :=
  List.replicate (if op = .CALL ∨ op = .CALLCODE then 5 else 4) 0 ++ [offset, 0]

section

variable {op : OpCode} {type : CallType} (memory : Slice) (offset : ℤ)

def askedNothing (op : OpCode) : State Unit :=
  { withMemory memory [] with stack := ⟨[], (askNothing op offset).reverse⟩ }

theorem opCall_askNothing (htype : callType op = some type) :
    ∃ value, opCall idleFrame op (withMemory memory (askNothing op offset)) =
        ((do
          if ← allocateMemory idleFrame offset 0 then
            finishCall idleFrame op 0 (bigToAddress 0) value [] offset 0
          else pure .stopped) >>= endCall idleFrame type) (askedNothing memory offset op) ∧
      ∃ k t, finishCall idleFrame op 0 (bigToAddress 0) value [] 0 0
        (askedNothing memory offset op) = some (.contract (k, 0, 0), t) ∧ t.memory = memory ∧
          t.err = none := by
  have hrun : opCall idleFrame op (withMemory memory (askNothing op offset)) =
      runCall idleFrame op (withMemory memory (askNothing op offset)) := by
    cases op with
    | CALL | CALLCODE | DELEGATECALL | STATICCALL => rfl
    | _ => cases htype
  rw [hrun, runCall, htype]
  cases op with
  | CALL | CALLCODE => exact ⟨some 0, rfl, _, _, rfl, rfl, rfl⟩
  | DELEGATECALL | STATICCALL => exact ⟨none, rfl, _, _, rfl, rfl, rfl⟩
  | _ => cases htype

theorem endCall_askNothing (type : CallType) (k : Contract) (offset : ℕ) (t : State Unit) :
    ∃ t', t'.err = t.err ∧ endCall idleFrame type (.contract (k, offset, 0)) t =
      if offset ≤ t.memory.cap then some ((), t') else none := by
  have hcopy (s : State Unit) (f : Unit → Machine Unit Unit) :
      (copyToMemory offset (offset + 0) [1] >>= f) s =
        if offset ≤ s.memory.cap then f () s else none := by
    change (copyToMemory offset offset [1] s).bind _ = _
    rw [copyToMemory_empty]
    split_ifs <;> rfl
  refine ⟨{ t with
    stack := ⟨1 :: t.stack.live, t.stack.dead.tail⟩, gas := (t.gas + k.gas) % 2 ^ 64
    returnData := [1] }, rfl, ?_⟩
  change (do
    copyToMemory offset (offset + 0) [1]
    addGas k.gas
    modify fun c ↦ { c with returnData := [1] } : Machine Unit Unit)
      { t with stack := ⟨1 :: t.stack.live, t.stack.dead.tail⟩ } = _
  rw [hcopy]
  rfl

theorem opCall_fits (htype : callType op = some type) (hfit : isUint64 offset = true) :
    ∃ t', t'.err = none ∧ opCall idleFrame op (withMemory memory (askNothing op offset)) =
      if uint64 offset ≤ memory.cap then some ((), t') else none := by
  obtain ⟨value, hcall, k, t, hfinish, rfl, herr⟩ := opCall_askNothing memory offset htype
  rw [hcall, allocateMemory_zero _ hfit, pure_bind, if_pos rfl, finishCall_eq, bind_assoc]
  obtain ⟨t', herr', hend⟩ := endCall_askNothing type k (uint64 offset) t
  refine ⟨t', herr'.trans herr, ?_⟩
  rw [← hend]
  exact congrArg (Option.bind · _) hfinish

theorem opCall_askNothing_returns (op : OpCode) (htype : callType op = some type) :
    Returns (opCall idleFrame op) (withMemory memory (askNothing op 0)) fun _ t ↦ t.err = none := by
  obtain ⟨t', herr, hcall⟩ := opCall_fits memory 0 htype rfl
  exact ⟨_, _, hcall.trans (if_pos (zero_le _)), herr⟩

theorem opCall_askNothing_fails (htype : callType op = some type)
    (h : ¬(isUint64 offset && decide (offset ≤ memory.cap)) = true) :
    Ensures (opCall idleFrame op) (withMemory memory (askNothing op offset)) fun _ t ↦
      t.err ≠ none := by
  intro a t heq
  cases hfit : isUint64 offset with
  | false =>
    obtain ⟨value, hcall, _⟩ := opCall_askNothing memory offset htype
    rw [hcall, allocateMemory_overflow _ hfit] at heq
    cases heq
    exact Option.some_ne_none _
  | true =>
    obtain ⟨t', _, hcall⟩ := opCall_fits memory offset htype hfit
    have hlt : ¬offset ≤ memory.cap := by simpa [hfit] using h
    have hcap : ¬uint64 offset ≤ memory.cap := by
      have := natCast_uint64 hfit
      omega
    rw [hcall, if_neg hcap] at heq
    cases heq

end

theorem allocateFirst_overflows {E : Env Unit} {c t : State Unit} {m : Machine Unit Unit}
    {size : ℤ} (hfit : isUint64 offset = false) {k : Machine Unit Unit}
    (h : m c = (do if ← allocateMemory E offset size then k) t) :
    Ensures m c fun _ t ↦ t.err ≠ none := by
  intro a u heq
  rw [h, allocateMemory_overflow E hfit] at heq
  cases heq
  exact Option.some_ne_none _

theorem opReturnDataCopy_beyond {E : Env σ} {dataOffset : ℤ}
    {rest : List ℤ} (hlive : c.stack.live = offset :: dataOffset :: 0 :: rest)
    (hfit : isUint64 offset = true) (hlen : c.memory.len < uint64 offset) :
    Ensures (opReturnDataCopy E) c fun _ t ↦ t.err ≠ none := by
  have hexit (err : RuntimeError) (t : State σ) : Ensures (exit err) t fun _ t ↦ t.err ≠ none :=
    ensures_modify.mpr (Option.some_ne_none err)
  have htail : c.memory.tail (uint64 offset) = none := if_neg (not_le.mpr hlen)
  refine ensures_ite (fun _ ↦ ?_) fun _ ↦ hexit _ _
  refine ensures_bind.mpr ((returns_pop hlive).mpr ?_).ensures
  refine ensures_bind.mpr ((returns_pop rfl).mpr ?_).ensures
  refine ensures_bind.mpr ((returns_pop rfl).mpr ?_).ensures
  rw [allocateMemory_zero E hfit, pure_bind, if_pos rfl]
  refine ensures_ite (fun _ ↦ hexit _ _) fun _ ↦ ensures_bind.mpr (returns_consumeGas.mpr ?_).ensures
  by_cases hgas : c.gas < copyCost (uint64 0)
  · exact (if_pos hgas).mpr (ensures_pure.mpr (Option.some_ne_none _))
  refine (if_neg hgas).mpr (ensures_bind.mpr (ensures_modify.mpr (ensures_bind.mpr (ensures_get.mpr ?_))))
  refine ensures_ite (fun _ ↦ hexit _ _) fun _ ↦ ensures_ite (fun _ ↦ hexit _ _) fun _ ↦ ?_
  refine ensures_ite (fun _ ↦ ?_) fun _ ↦ ensures_panic
  rw [htail]
  exact ensures_panic

theorem opReturnDataCopy_fails (h : ¬(isUint64 offset && decide (offset ≤ memory.len)) = true) :
    Ensures (opReturnDataCopy idleFrame) (withMemory memory [offset, 0, 0]) fun _ t ↦
      t.err ≠ none := by
  cases hfit : isUint64 offset with
  | false => exact allocateFirst_overflows hfit rfl
  | true =>
    have hlt : ¬offset ≤ memory.len := by simpa [hfit] using h
    refine opReturnDataCopy_beyond rfl hfit ?_
    change memory.len < uint64 offset
    have := natCast_uint64 hfit
    omega

theorem freeAt_of_freeRange {op : OpCode}
    (hrange : range ∈ op.ranges) (h : FreeRange op range offset memory) :
    op.freeAt range offset memory = true := by
  by_contra hnot
  have hother {live : List ℤ} {op : OpCode} (hop : op ≠ .RETURNDATACOPY) :
    op = .RETURNDATACOPY → live[1]? = some 0 := fun h ↦ absurd h hop
  cases op with
  | CALLDATACOPY | CODECOPY =>
    obtain rfl := mem_singleton.mp hrange
    exact h.ends (c := withMemory memory [offset, 0, 0]) idleFrame
      (allocateFirst_overflows (Bool.eq_false_iff.mpr hnot) rfl) rfl le_rfl
      ⟨rfl, rfl, hother (by decide)⟩ ⟨_, _, rfl, rfl⟩
  | EXTCODECOPY =>
    obtain rfl := mem_singleton.mp hrange
    exact h.ends (c := withMemory memory [0, offset, 0, 0]) idleFrame
      (allocateFirst_overflows (Bool.eq_false_iff.mpr hnot) rfl) rfl le_rfl
      ⟨rfl, rfl, hother (by decide)⟩ ⟨_, _, rfl, rfl⟩
  | RETURNDATACOPY =>
    obtain rfl := mem_singleton.mp hrange
    refine h.ends idleFrame (opReturnDataCopy_fails hnot) rfl le_rfl ⟨rfl, rfl, fun _ ↦ rfl⟩ ?_
    obtain ⟨live, spare⟩ := memory
    cases live <;> exact ⟨_, _, rfl, rfl⟩
  | CALL | CALLCODE | DELEGATECALL | STATICCALL =>
    obtain rfl | rfl := mem_pair.mp hrange
    · exact hnot rfl
    · exact h.ends idleFrame (opCall_askNothing_fails memory offset rfl hnot) rfl le_rfl
        ⟨rfl, rfl, hother (by decide)⟩ (opCall_askNothing_returns memory _ rfl)
  | _ => exact hnot rfl

/-- An empty range is free wherever it begins, except that copies refuse offsets beyond 64 bits and
so do calls for their outputs; copies of return data and outputs have to begin within memory too. -/
theorem emptyRange_free_iff {range : ℕ × ℕ} (hrange : range ∈ op.ranges) (offset : ℤ)
    (memory : Slice) :
    FreeRange op range offset memory ↔ op.freeAt range offset memory = true :=
  ⟨freeAt_of_freeRange hrange, freeRange_of_freeAt hrange⟩

theorem emptyRange_free_atEnd : FreeRange .CALL (5, 6) 1 ⟨[7], []⟩ :=
  (emptyRange_free_iff (by decide) 1 ⟨[7], []⟩).mpr (by decide)

/-- A copy of no call data to offset `2 ^ 64` takes all the gas. -/
theorem run_copyNothing_overflows :
    run goLibrary quietHost
        (topCall [0x60, 0, 0x60, 0, 0x68, 1, 0, 0, 0, 0, 0, 0, 0, 0, 0x37]) allForks ⟨[], []⟩ () 10 =
      .done (⟨[], 0, 100, some .gasUintOverflow⟩, ()) := by
  decide +kernel

end Mainnet.Evm
