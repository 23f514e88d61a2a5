import Mainnet.Evm.Kept
import Mainnet.Tracer.StructTracer

namespace Mainnet.Tracer

open Types Mainnet.Runtime Evm Lib Prog List Option Function StructTracer

variable {σ : Type}

def StructTracer.entry (t : StructTracer) (addr : Address) (slot : Hash) : Option Hash :=
  (t.storage addr).bind (· slot)

theorem StructTracer.entry_setSlot (t : StructTracer) (addr : Address) (slot value x : Hash) :
    (t.setSlot addr slot value).entry addr x =
      if x = slot then some value else t.entry addr x := by
  unfold entry setSlot
  dsimp only
  rw [update_self, bind_some, update_apply]
  cases t.storage addr <;> rfl

structure StorageLaws (H : Host σ) : Prop where
  read_write (addr : Address) (key val : Hash) (config : ForksInTime) (s : σ) :
    (H.getStorage addr key (H.setStorage addr key val config s).2).1 = val
  read_read (addr : Address) (key key' : Hash) (s : σ) :
    (H.getStorage addr key' (H.getStorage addr key s).2).1 = (H.getStorage addr key' s).1

/-- The frames of its calls leave what is traced of the contract alone. -/
structure Spares (addr : Address)
    (callx : Contract → σ × StructTracer → ExecutionResult × (σ × StructTracer)) : Prop where
  config (k : Contract) (st : σ × StructTracer) : (callx k st).2.2.config = st.2.config
  storage (k : Contract) (st : σ × StructTracer) : (callx k st).2.2.storage addr = st.2.storage addr

structure SameEntries (addr : Address) (t : StructTracer) (c : State (σ × StructTracer)) : Prop where
  config : c.host.2.config = t.config
  storage : c.host.2.storage addr = t.storage addr

variable {E : Env σ} {getRefund : σ → ℕ}
  {callx : Contract → σ × StructTracer → ExecutionResult × (σ × StructTracer)}

theorem held_entries (hone : Spares E.msg.address callx) (t : StructTracer) :
    Held (tracedFrame E getRefund callx) (fun _ ↦ True) (SameEntries E.msg.address t)
      (SameEntries E.msg.address t) where
  values := .any _
  words _ _ _ := trivial
  size _ := trivial
  gasLeft _ := trivial
  dataSize _ := trivial
  stack h _ := ⟨h.config, h.storage⟩
  halt h := ⟨h.config, h.storage⟩
  fail _ h := ⟨h.config, h.storage⟩
  gas h _ := ⟨h.config, h.storage⟩
  noData h := ⟨h.config, h.storage⟩
  returned _ _ h := ⟨h.config, h.storage⟩
  ret _ h := ⟨h.config, h.storage⟩
  host h hmoves := by
    cases hmoves with
    | callx k => exact ⟨(hone.config k _).trans h.config, (hone.storage k _).trans h.storage⟩
    | _ => exact ⟨h.config, h.storage⟩
  write h _ := ⟨h.config, h.storage⟩
  allocate {c} offset size h := by
    refine Ensures.mono (related_allocateMemory (T := fun c _ ↦ SameEntries E.msg.address t c)
      (F := fun c _ ↦ SameEntries E.msg.address t c) offset size h (rfl : c.gas = c.gas) rfl rfl rfl
      (fun _ _ _ ↦ ⟨h.config, h.storage⟩) fun _ _ _ _ _ ↦ ⟨h.config, h.storage⟩).ensures ?_
    rintro _ t' (⟨_, h⟩ | ⟨_, h⟩)
    · exact (ite_self _).mpr h
    · exact (ite_self _).mpr h
  failedRet _ h := ⟨h.config, h.storage⟩

section

variable {E : Env σ} {c : State σ} {key val : ℤ} {live : List ℤ}

theorem opSload_reads (hlive : c.stack.live = key :: live) :
    Ensures (opSload E) c fun _ t ↦ t.err ≠ none ∨
      t.host = (E.host.getStorage E.msg.address (bigToHash key) c.host).2 := by
  refine ensures_bind.mpr ((returns_top hlive).mpr ?_).ensures
  generalize (if E.config.istanbul then 800 else if E.config.eip150 then 200 else 50) = gas
  refine ensures_bind.mpr (returns_consumeGas.mpr ?_).ensures
  by_cases hgas : c.gas < gas
  · exact (if_pos hgas).mpr (ensures_pure.mpr (.inl (some_ne_none _)))
  · refine (if_neg hgas).mpr (ensures_bind.mpr (ensures_bind.mpr (ensures_get.mpr ?_)))
    exact ensures_bind.mpr (ensures_set.mpr (ensures_pure.mpr (ensures_modify.mpr (.inr rfl))))

theorem opSStore_writes (hlive : c.stack.live = key :: val :: live) :
    Ensures (opSStore E) c fun _ t ↦ t.err ≠ none ∨ t.host =
      (E.host.setStorage E.msg.address (bigToHash key) (bigToHash val) E.config c.host).2 := by
  have hexit (err : RuntimeError) : Ensures (exit err) c fun _ t ↦ t.err ≠ none ∨ t.host =
      (E.host.setStorage E.msg.address (bigToHash key) (bigToHash val) E.config c.host).2 :=
    ensures_modify.mpr (.inl (some_ne_none err))
  refine ensures_ite (fun _ ↦ hexit _) fun _ ↦ ensures_bind.mpr (ensures_get.mpr ?_)
  refine ensures_ite (fun _ ↦ hexit _) fun _ ↦ ?_
  refine ensures_bind.mpr (ensures_bind.mpr ((returns_pop hlive).mpr (ensures_pure.mpr ?_)).ensures)
  refine ensures_bind.mpr (ensures_bind.mpr ((returns_pop rfl).mpr (ensures_pure.mpr ?_)).ensures)
  refine ensures_bind.mpr (ensures_bind.mpr (ensures_get.mpr (ensures_bind.mpr (ensures_set.mpr
    (ensures_pure.mpr ?_)))))
  refine ensures_bind.mpr (returns_consumeGas.mpr ?_).ensures
  split_ifs
  · exact ensures_pure.mpr (.inl (some_ne_none _))
  · exact ensures_pure.mpr (.inr rfl)

end

theorem captureStack_storage (t : StructTracer) (memory : Bytes) (stack : List ℤ) :
    ((t.captureMemory memory).captureStack stack).storage = t.storage ∧
      ((t.captureMemory memory).captureStack stack).config = t.config := by
  unfold captureStack captureMemory
  split_ifs <;> exact ⟨rfl, rfl⟩

section

variable {H : Host σ} {dead live : List ℤ} {key val : ℤ} {addr : Address} {s : σ} {t : StructTracer}

theorem captureStorage_load (h : t.config.enableStorage = true) :
    captureStorage H ((key :: live).reverse ++ dead) 0x54 addr (key :: live).length s t =
      ((H.getStorage addr (bigToHash key) s).2,
        t.setSlot addr (bigToHash key) (H.getStorage addr (bigToHash key) s).1) := by
  simp [captureStorage, h]

theorem captureStorage_store (h : t.config.enableStorage = true) :
    captureStorage H ((key :: val :: live).reverse ++ dead) 0x55 addr (key :: val :: live).length
        s t =
      (s, t.setSlot addr (bigToHash val) (bigToHash key)) := by
  simp [captureStorage, h]

end

theorem ofByte_storage (b : UInt8) : (OpCode.ofByte b = some .SLOAD ↔ b = 0x54) ∧
    (OpCode.ofByte b = some .SSTORE ↔ b = 0x55) := by
  have hall : ∀ n : Fin 256, (OpCode.ofByte (UInt8.ofNat n) = some .SLOAD ↔ UInt8.ofNat n = 0x54) ∧
      (OpCode.ofByte (UInt8.ofNat n) = some .SSTORE ↔ UInt8.ofNat n = 0x55) := by decide +kernel
  simpa using hall ⟨b.toNat, b.toNat_lt⟩

def nextOp (msg : Contract) (c : State σ) : Option OpCode :=
  msg.code[c.ip.toNat]?.bind OpCode.ofByte

def accessed (msg : Contract) (c : State σ) : Option Hash :=
  match nextOp msg c with
  | some .SLOAD | some .SSTORE => c.stack.live.head?.map bigToHash
  | _ => none

structure Succeeds (E : Env σ) (c c' : State σ) : Prop where
  running : c.stop = false
  turn : turn E c = some (true, c')
  err : c'.err = none

def slotValue (E : Env σ) (s : σ) (slot : Hash) : Hash :=
  (E.host.getStorage E.msg.address slot s).1

inductive Records (E : Env σ) (c : State (σ × StructTracer)) (st : σ × StructTracer) : Prop
  | other : accessed E.msg c = none →
    (∀ x, st.2.entry E.msg.address x = c.host.2.entry E.msg.address x) → Records E c st
  | load {key : ℤ} {live : List ℤ} : nextOp E.msg c = some .SLOAD → c.stack.live = key :: live →
    (∀ x, st.2.entry E.msg.address x = if c.host.2.interrupt = false ∧ x = bigToHash key then
      some (slotValue E c.host.1 (bigToHash key)) else c.host.2.entry E.msg.address x) →
    slotValue E st.1 (bigToHash key) = slotValue E c.host.1 (bigToHash key) → Records E c st
  | store {key val : ℤ} {live : List ℤ} : nextOp E.msg c = some .SSTORE →
    c.stack.live = key :: val :: live →
    (∀ x, st.2.entry E.msg.address x = if c.host.2.interrupt = false ∧ x = bigToHash val then
      some (bigToHash key) else c.host.2.entry E.msg.address x) →
    slotValue E st.1 (bigToHash key) = bigToHash val → Records E c st

theorem nextOp_eq {E : Env σ} {c : State σ} {b : UInt8} {op : OpCode} (h : NextOp E c b op) :
    nextOp E.msg c = some op := by
  rw [nextOp, h.byte, bind_some, h.op]

section

variable {c : State (σ × StructTracer)} {key val : ℤ} {live : List ℤ}

def shown (E : Env σ) (b : UInt8) (c : State (σ × StructTracer)) : σ × StructTracer :=
  (captureState E.host c.memory.live (c.stack.live.reverse ++ c.stack.dead) b E.msg.address
    c.stack.live.length c.host.1 c.host.2).2

theorem shown_other {b : UInt8} (hload : b ≠ 0x54) (hstore : b ≠ 0x55) :
    (shown E b c).2.config = c.host.2.config ∧ (shown E b c).2.storage = c.host.2.storage := by
  unfold shown captureState
  split_ifs
  · exact ⟨rfl, rfl⟩
  · unfold captureStorage
    rw [if_neg hload, if_neg hstore, ite_self]
    exact (captureStack_storage ..).symm

theorem shown_access {b : UInt8} {slot value : Hash} {s : σ}
    (henabled : c.host.2.config.enableStorage = true)
    (hcapture : ∀ t, t.config.enableStorage = true →
      captureStorage E.host (c.stack.live.reverse ++ c.stack.dead) b E.msg.address
        c.stack.live.length c.host.1 t = (s, t.setSlot E.msg.address slot value)) :
    ((shown E b c).1 = c.host.1 ∨ (shown E b c).1 = s) ∧
      (shown E b c).2.config = c.host.2.config ∧
      ∀ x, (shown E b c).2.entry E.msg.address x = if c.host.2.interrupt = false ∧ x = slot then
        some value else c.host.2.entry E.msg.address x := by
  unfold shown captureState
  split_ifs with hcancelled
  · refine ⟨.inl rfl, rfl, fun x ↦ (if_neg fun h ↦ ?_).symm⟩
    exact Bool.false_ne_true (h.1.symm.trans hcancelled)
  · obtain ⟨hstorage, hconfig⟩ := captureStack_storage c.host.2 c.memory.live
      (c.stack.live.reverse ++ c.stack.dead)
    rw [hcapture _ (hconfig ▸ henabled)]
    refine ⟨.inr rfl, hconfig, fun x ↦ ?_⟩
    rw [entry_setSlot, entry, hstorage]
    simp only [Bool.not_eq_true _ ▸ hcancelled, true_and]
    rfl

end

section

variable {c t : State (σ × StructTracer)} {b : UInt8}

theorem load_records (hlaws : StorageLaws E.host)
    (henabled : c.host.2.config.enableStorage = true)
    (hexec : Executes (tracedFrame E getRefund callx) c b .SLOAD)
    (hinst : (handler (tracedFrame E getRefund callx) .SLOAD).inst
      (begun (tracedFrame E getRefund callx) .SLOAD b c) = some ((), t)) (herr : t.err = none) :
    t.host.2.config = c.host.2.config ∧ Records E c t.host := by
  obtain rfl : b = 0x54 := (ofByte_storage b).1.mp hexec.next.op
  obtain ⟨key, live, hlive, -⟩ := exists_cons hexec.stack
  obtain hfailed | hhost := opSload_reads
    (c := begun (tracedFrame E getRefund callx) .SLOAD 0x54 c) hlive _ _ hinst
  · exact absurd herr hfailed
  obtain ⟨hstate, hconfig, hentry⟩ := shown_access henabled
    fun t ht ↦ by rw [hlive]; exact captureStorage_load ht
  have hvalue : slotValue E t.host.1 (bigToHash key) = slotValue E c.host.1 (bigToHash key) := by
    rw [hhost]
    refine (hlaws.read_read _ _ _ (shown E 0x54 c).1).trans ?_
    rcases hstate with hstate | hstate <;> rw [hstate]
    · rfl
    · exact hlaws.read_read ..
  exact ⟨(congrArg (·.2.config) hhost).trans hconfig, .load (nextOp_eq hexec.next) hlive
    (fun x ↦ (congrArg (·.2.entry E.msg.address x) hhost).trans (hentry x)) hvalue⟩

theorem store_records (hlaws : StorageLaws E.host)
    (henabled : c.host.2.config.enableStorage = true)
    (hexec : Executes (tracedFrame E getRefund callx) c b .SSTORE)
    (hinst : (handler (tracedFrame E getRefund callx) .SSTORE).inst
      (begun (tracedFrame E getRefund callx) .SSTORE b c) = some ((), t)) (herr : t.err = none) :
    t.host.2.config = c.host.2.config ∧ Records E c t.host := by
  obtain rfl : b = 0x55 := (ofByte_storage b).2.mp hexec.next.op
  obtain ⟨key, rest, hrest, hone⟩ := exists_cons hexec.stack
  obtain ⟨val, live, rfl, -⟩ := exists_cons hone
  obtain hfailed | hhost := opSStore_writes
    (c := begun (tracedFrame E getRefund callx) .SSTORE 0x55 c) hrest _ _ hinst
  · exact absurd herr hfailed
  obtain ⟨-, hconfig, hentry⟩ := shown_access henabled
    fun t ht ↦ by rw [hrest]; exact captureStorage_store ht
  have hvalue : slotValue E t.host.1 (bigToHash key) = bigToHash val := by
    rw [hhost]
    exact hlaws.read_write ..
  exact ⟨(congrArg (·.2.config) hhost).trans hconfig, .store (nextOp_eq hexec.next) hrest
    (fun x ↦ (congrArg (·.2.entry E.msg.address x) hhost).trans (hentry x)) hvalue⟩

theorem other_records (hone : Spares E.msg.address callx) {op : OpCode} (hload : op ≠ .SLOAD)
    (hstore : op ≠ .SSTORE) (hexec : Executes (tracedFrame E getRefund callx) c b op)
    (hinst : (handler (tracedFrame E getRefund callx) op).inst
      (begun (tracedFrame E getRefund callx) op b c) = some ((), t)) :
    t.host.2.config = c.host.2.config ∧ Records E c t.host := by
  have hb : b ≠ 0x54 ∧ b ≠ 0x55 := by
    refine ⟨fun h ↦ hload ?_, fun h ↦ hstore ?_⟩
    · exact some_inj.mp (hexec.next.op.symm.trans ((ofByte_storage b).1.mpr h))
    · exact some_inj.mp (hexec.next.op.symm.trans ((ofByte_storage b).2.mpr h))
  obtain ⟨hconfig, hstorage⟩ := shown_other hb.1 hb.2
  have hbegun : SameEntries E.msg.address c.host.2 (begun (tracedFrame E getRefund callx) op b c) :=
    ⟨hconfig, congrFun hstorage _⟩
  have hsame : SameEntries E.msg.address c.host.2 t := by
    obtain h | h := (held_entries hone c.host.2).handlerAnywhere (fun _ _ h ↦ ⟨h.config, h.storage⟩)
      (fun _ ↦ trivial) hbegun op hexec.stack _ _ hinst
    · exact h
    · exact h
  refine ⟨hsame.config, .other ?_ fun x ↦ congrArg (·.bind (· x)) hsame.storage⟩
  have hnext : nextOp E.msg c = some op := nextOp_eq hexec.next
  unfold accessed
  rw [hnext]
  split
  · next h => exact absurd (some_inj.mp h) hload
  · next h => exact absurd (some_inj.mp h) hstore
  · rfl

end

theorem step_records (hlaws : StorageLaws E.host) (hone : Spares E.msg.address callx)
    {c c' : State (σ × StructTracer)} (henabled : c.host.2.config.enableStorage = true)
    (h : Succeeds (tracedFrame E getRefund callx) c c') :
    c'.host.2.config = c.host.2.config ∧ Records E c c'.host := by
  obtain ⟨b, op, t, hexec, hinst, rfl⟩ := exists_executes h.turn
  change t.host.2.config = c.host.2.config ∧ Records E c t.host
  by_cases hload : op = .SLOAD
  · subst hload
    exact load_records hlaws henabled hexec hinst h.err
  by_cases hstore : op = .SSTORE
  · subst hstore
    exact store_records hlaws henabled hexec hinst h.err
  exact other_records hone hload hstore hexec hinst

def NoStray (addr : Address) (slots : List Hash) (t : StructTracer) : Prop :=
  ∀ x, t.entry addr x ≠ none → x ∈ slots

/-- The instruction on storage that leads from `c` to `st` is traced as it was executed: its slot has
the value that the host holds, and nothing else has an entry but the slots of earlier ones. -/
def TracedRight (E : Env σ) (slots : List Hash) (c : State (σ × StructTracer))
    (st : σ × StructTracer) : Prop :=
  ∀ slot, accessed E.msg c = some slot →
    st.2.entry E.msg.address slot = some (slotValue E st.1 slot) ∧
      NoStray E.msg.address (slot :: slots) st.2

/-- Where the tracer records the next instruction as it will be executed. Of `SSTORE` it records the
value as the slot and the slot as the value, so that they are equal or an earlier entry happens to
fit; a cancelled tracer records nothing. -/
def RecordsRight (E : Env σ) (slots : List Hash) (c : State (σ × StructTracer)) : Prop :=
  match nextOp E.msg c, c.stack.live with
  | some .SLOAD, key :: _ => c.host.2.interrupt = true →
    c.host.2.entry E.msg.address (bigToHash key) = some (slotValue E c.host.1 (bigToHash key))
  | some .SSTORE, key :: val :: _ =>
    (c.host.2.interrupt = false ∧ bigToHash key = bigToHash val) ∨
      c.host.2.entry E.msg.address (bigToHash key) = some (bigToHash val) ∧
        (c.host.2.interrupt = false → bigToHash val ∈ slots)
  | _, _ => True

/-- The states that a run of the frame from `c₀` goes through, with the slots that it has accessed.
The tracer can be cancelled at any time; the instructions so far have been traced rightly. -/
inductive Visits (E : Env σ) (F : Env (σ × StructTracer)) (c₀ : State (σ × StructTracer)) :
    List Hash → State (σ × StructTracer) → Prop
  | start : Visits E F c₀ [] c₀
  | cancel {slots : List Hash} {c : State (σ × StructTracer)} : Visits E F c₀ slots c →
    Visits E F c₀ slots { c with host := (c.host.1, c.host.2.cancel) }
  | turn {slots : List Hash} {c c' : State (σ × StructTracer)} : Visits E F c₀ slots c →
    Succeeds F c c' → RecordsRight E slots c →
    Visits E F c₀ ((accessed E.msg c).toList ++ slots) c'

section

variable {slots : List Hash} {c : State (σ × StructTracer)} {st : σ × StructTracer}

theorem noStray_iff {k y value : Hash} (hstray : NoStray E.msg.address slots c.host.2)
    (hentry : ∀ x, st.2.entry E.msg.address x = if c.host.2.interrupt = false ∧ x = y then
      some value else c.host.2.entry E.msg.address x) :
    NoStray E.msg.address (k :: slots) st.2 ↔ (c.host.2.interrupt = false → y ∈ k :: slots) := by
  constructor
  · intro h hrunning
    refine h _ ?_
    rw [hentry, if_pos ⟨hrunning, rfl⟩]
    exact some_ne_none _
  · intro h x hx
    rw [hentry x] at hx
    split_ifs at hx with hnew
    · exact hnew.2 ▸ h hnew.1
    · exact mem_cons_of_mem _ (hstray x hx)

theorem Records.tracedRight_iff (h : Records E c st)
    (hstray : NoStray E.msg.address slots c.host.2) :
    TracedRight E slots c st ↔ RecordsRight E slots c := by
  cases h with
  | other hnone =>
    refine iff_of_true (fun slot hslot ↦ absurd (hnone.symm.trans hslot) (some_ne_none _).symm) ?_
    unfold RecordsRight
    unfold accessed at hnone
    split
    · next hnext hlive => simp [hnext, hlive] at hnone
    · next hnext hlive => simp [hnext, hlive] at hnone
    · trivial
  | @load key live hnext hlive hentry hvalue =>
    have hslot : accessed E.msg c = some (bigToHash key) := by simp [accessed, hnext, hlive]
    have hright : RecordsRight E slots c ↔ (c.host.2.interrupt = true →
        c.host.2.entry E.msg.address (bigToHash key) =
          some (slotValue E c.host.1 (bigToHash key))) := by
      rw [RecordsRight, hnext, hlive]
    have hkept : NoStray E.msg.address (bigToHash key :: slots) st.2 :=
      (noStray_iff hstray hentry).mpr fun _ ↦ mem_cons_self
    rw [hright, TracedRight, hslot]
    simp only [some_inj, forall_eq', hkept, and_true, hentry, hvalue]
    cases c.host.2.interrupt <;> simp
  | @store key val live hnext hlive hentry hvalue =>
    have hslot : accessed E.msg c = some (bigToHash key) := by simp [accessed, hnext, hlive]
    have hright : RecordsRight E slots c ↔
        (c.host.2.interrupt = false ∧ bigToHash key = bigToHash val) ∨
          c.host.2.entry E.msg.address (bigToHash key) = some (bigToHash val) ∧
            (c.host.2.interrupt = false → bigToHash val ∈ slots) := by
      rw [RecordsRight, hnext, hlive]
    -- The tracer's entry is of the value: it is stray unless that is a slot as well.
    have hkept := noStray_iff (k := bigToHash key) hstray hentry
    rw [hright, TracedRight, hslot]
    simp only [some_inj, forall_eq', hkept, hentry, hvalue, mem_cons]
    by_cases heq : bigToHash key = bigToHash val
    · cases c.host.2.interrupt <;> simp [heq]
    · have hne : bigToHash val ≠ bigToHash key := fun h ↦ heq h.symm
      cases c.host.2.interrupt <;> simp [heq, hne]

theorem Records.noStray (h : Records E c st) (hstray : NoStray E.msg.address slots c.host.2)
    (hright : TracedRight E slots c st) :
    NoStray E.msg.address ((accessed E.msg c).toList ++ slots) st.2 := by
  cases hslot : accessed E.msg c with
  | some slot => exact (hright slot hslot).2
  | none =>
    cases h with
    | other _ hsame => exact fun x hx ↦ hstray x (hsame x ▸ hx)
    | load hnext hlive | store hnext hlive => simp [accessed, hnext, hlive] at hslot

end

theorem storage_traced_iff (hlaws : StorageLaws E.host) (hone : Spares E.msg.address callx)
    {c₀ c c' : State (σ × StructTracer)} {slots : List Hash}
    (henabled : c₀.host.2.config.enableStorage = true)
    (hnew : c₀.host.2.storage E.msg.address = none)
    (hvisits : Visits E (tracedFrame E getRefund callx) c₀ slots c)
    (h : Succeeds (tracedFrame E getRefund callx) c c') :
    TracedRight E slots c c'.host ↔ RecordsRight E slots c := by
  have hkept : c.host.2.config.enableStorage = true ∧ NoStray E.msg.address slots c.host.2 := by
    clear h
    induction hvisits with
    | start => exact ⟨henabled, fun x hx ↦ absurd (by simp [entry, hnew]) hx⟩
    | cancel _ ih => exact ih
    | turn _ hturn hright ih =>
      obtain ⟨hconfig, hrecords⟩ := step_records hlaws hone ih.1 hturn
      exact ⟨hconfig ▸ ih.1, hrecords.noStray ih.2 ((hrecords.tracedRight_iff ih.2).mpr hright)⟩
  exact (step_records hlaws hone hkept.1 h).2.tracedRight_iff hkept.2

def slotHost : Host (Hash → Hash) where
  accountExists _ s := (false, s)
  getStorage _ key s := (s key, s)
  setStorage _ key val _ s := (.modified, update s key val)
  getBalance _ s := (0, s)
  getCodeSize _ s := (0, s)
  getCodeHash _ s := (default, s)
  getCode _ s := ([], s)
  selfdestruct _ _ s := ((), s)
  getTxContext s := (default, s)
  getBlockHash _ s := (default, s)
  emitLog _ _ _ s := ((), s)
  callx contract s := (⟨[], contract.gas, 0, none⟩, s)
  empty _ s := (true, s)
  getNonce _ s := (0, s)
  captureState _ _ _ _ _ s := (false, s)
  executeState _ _ _ _ _ _ _ _ s := ((), s)

theorem storageLaws_slotHost : StorageLaws slotHost :=
  ⟨fun _ _ _ _ _ ↦ update_self .., fun _ _ _ _ ↦ rfl⟩

def slotFrame (code : Bytes) : Env (Hash → Hash) :=
  frame goLibrary slotHost (topCall code) allForks [0]

def tracedSlots (code : Bytes) : Env ((Hash → Hash) × StructTracer) :=
  tracedFrame (slotFrame code) (fun _ ↦ 0) fun k st ↦ (⟨[], k.gas, 0, none⟩, st)

def slotsStart : State ((Hash → Hash) × StructTracer) :=
  .init ⟨[], []⟩ 100000 (fun _ ↦ default, newStructTracer ⟨false, false, true, false⟩)

theorem storage_traced_load : ∃ c c',
    Loop.after (fun c ↦ !c.stop) (turn (tracedSlots [0x60, 1, 0x54])) 1 slotsStart = some c ∧
      Succeeds (tracedSlots [0x60, 1, 0x54]) c c' ∧
      accessed (topCall [0x60, 1, 0x54]) c = some (bigToHash 1) ∧
      TracedRight (slotFrame [0x60, 1, 0x54]) [] c c'.host := by
  refine ⟨_, _, rfl, ⟨rfl, rfl, rfl⟩, rfl, ?_⟩
  refine (storage_traced_iff (E := slotFrame [0x60, 1, 0x54]) storageLaws_slotHost
    ⟨fun _ _ ↦ rfl, fun _ _ ↦ rfl⟩ (rfl : slotsStart.host.2.config.enableStorage = true) rfl
    (.turn .start ⟨rfl, rfl, rfl⟩ trivial) ⟨rfl, rfl, rfl⟩).mpr ?_
  exact fun h ↦ absurd h Bool.false_ne_true

/-- `PUSH1 7; PUSH1 1; SSTORE` sets slot 1 to 7; the trace has no entry for it and says that slot 7 is
set to 1. -/
theorem store_traced_swapped : ∃ c c',
    Loop.after (fun c ↦ !c.stop) (turn (tracedSlots [0x60, 7, 0x60, 1, 0x55])) 2 slotsStart = some c ∧
      Succeeds (tracedSlots [0x60, 7, 0x60, 1, 0x55]) c c' ∧
      accessed (topCall [0x60, 7, 0x60, 1, 0x55]) c = some (bigToHash 1) ∧
      slotValue (slotFrame [0x60, 7, 0x60, 1, 0x55]) c'.host.1 (bigToHash 1) = bigToHash 7 ∧
      c'.host.2.entry (topCall [0x60, 7, 0x60, 1, 0x55]).address (bigToHash 1) = none ∧
      c'.host.2.entry (topCall [0x60, 7, 0x60, 1, 0x55]).address (bigToHash 7) =
        some (bigToHash 1) := by
  refine ⟨_, _, rfl, ⟨rfl, rfl, rfl⟩, rfl, ?_, ?_, ?_⟩
  · decide +kernel
  · decide +kernel
  · decide +kernel

end Mainnet.Tracer
