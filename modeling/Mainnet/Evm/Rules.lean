import Mainnet.Evm.Run

namespace Mainnet.Evm

open Types Mainnet.Runtime Lib Prog List Nat

theorem natCast_uint64 {x : ℤ} (h : isUint64 x = true) : (uint64 x : ℤ) = x := by
  obtain ⟨hpos, hlt⟩ := of_decide_eq_true h
  unfold uint64
  omega

namespace Slice

variable (b : Slice) {off : ℕ} {data : Bytes}

theorem len_le_cap : b.len ≤ b.cap := le_add_right _ _

theorem cap_write (h : off + data.length ≤ b.cap) : (b.write off data).cap = b.cap := by
  simp only [cap] at h
  simp [cap, write, len]
  omega

theorem len_write (h : off + data.length ≤ b.cap) : (b.write off data).len = b.len := by
  simp only [cap] at h
  simp [write, len]
  omega

theorem exists_slice {lo hi : ℕ} (hlo : lo ≤ hi) (hhi : hi ≤ b.cap) :
    ∃ data, b.slice lo hi = some data ∧ data.length = hi - lo := by
  refine ⟨_, if_pos ⟨hlo, hhi⟩, ?_⟩
  simp only [cap] at hhi
  simp
  omega

theorem write_nil (off : ℕ) : b.write off [] = b := by
  simp [write, len]

theorem slice_of_le_len {lo hi : ℕ} (hlo : lo ≤ hi) (hhi : hi ≤ b.len) :
    b.slice lo hi = some ((b.live.take hi).drop lo) := by
  rw [slice, if_pos ⟨hlo, hhi.trans b.len_le_cap⟩, take_append_of_le_length hhi]

theorem tail_congr {b b' : Slice} (h : b'.live = b.live) (lo : ℕ) : b'.tail lo = b.tail lo := by
  unfold tail len
  rw [h]

theorem length_of_tail {b : Slice} {lo : ℕ} {dst : Bytes} (h : b.tail lo = some dst) :
    lo + dst.length = b.len := by
  unfold tail at h
  split_ifs at h with hle
  cases h
  rw [length_drop]
  exact Nat.add_sub_cancel' hle

end Slice

theorem extendByteSlice_len (grow : ℕ → ℕ → ℕ) (b : Slice) (n : ℕ) :
    (extendByteSlice grow b n).len = n := by
  by_cases h : n ≤ b.live.length + b.spare.length <;> simp [extendByteSlice, Slice.len, h]
  omega

theorem extendByteSlice_cap (grow : ℕ → ℕ → ℕ) (b : Slice) (n : ℕ) :
    b.cap ≤ (extendByteSlice grow b n).cap := by
  by_cases h : n ≤ b.live.length + b.spare.length <;> simp [extendByteSlice, Slice.cap, h]
  omega

theorem length_overwrite (copied dst : Bytes) :
    (copied.take dst.length ++ dst.drop (copied.take dst.length).length).length = dst.length := by
  simp

variable {dst input : Bytes} {size dataOffset val offset : ℤ} {err : RuntimeError} {gas : ℕ}

theorem setSlice_length {out : Bytes} {size : ℕ}
    (h : setSlice dst input size dataOffset = some out) : out.length = dst.length := by
  simp only [setSlice, length_overwrite] at h
  split_ifs at h <;> cases h
  · simp
    omega
  · exact length_overwrite _ _
  · rw [length_append, length_append, length_take, length_drop, length_overwrite, length_replicate]
    omega

theorem setSlice_spec (input : Bytes) {size : ℕ} (dataOffset : ℤ) (h : size ≤ dst.length) :
    ∃ out, setSlice dst input size dataOffset = some out ∧ out.length = dst.length := by
  have hsome : (setSlice dst input size dataOffset).isSome = true := by
    simp only [setSlice, length_overwrite, if_pos h]
    split_ifs <;> rfl
  obtain ⟨out, hout⟩ := Option.isSome_iff_exists.mp hsome
  exact ⟨out, hout, setSlice_length hout⟩

variable {σ α : Type} {E : Env σ} {c₀ c c' : State σ} {d e : ℕ}

/-- A part of an instruction leads from `c` to `c'`, spends at least `d` gas and does not shrink
the memory. -/
structure Runs (d : ℕ) (c c' : State σ) : Prop where
  ip : c'.ip = c.ip
  gas : c'.gas + d ≤ c.gas
  len : c.memory.len ≤ c'.memory.len
  cap : c.memory.cap ≤ c'.memory.cap
  returnData : c'.returnData = c.returnData

/-- What an instruction achieves: the frame stops, or at least `d` gas is spent and the next
instruction is at a position. -/
def Progress (d : ℕ) (c c' : State σ) : Prop :=
  c'.stop = true ∨ c'.gas + d ≤ c.gas ∧ (0 ≤ c.ip → -1 ≤ c'.ip)

abbrev Progresses {α : Type} (d : ℕ) (m : Machine σ α) (c : State σ) : Prop :=
  Returns m c fun _ ↦ Progress d c

namespace Runs

theorem refl (c : State σ) : Runs 0 c c := ⟨rfl, le_rfl, le_rfl, le_rfl, rfl⟩

theorem same (h : Runs d c₀ c) (hip : c'.ip = c.ip) (hgas : c'.gas = c.gas)
    (hmemory : c'.memory = c.memory) (hdata : c'.returnData = c.returnData) : Runs d c₀ c' where
  ip := hip.trans h.ip
  gas := by rw [hgas]; exact h.gas
  len := by rw [hmemory]; exact h.len
  cap := by rw [hmemory]; exact h.cap
  returnData := hdata.trans h.returnData

theorem weaken (h : Runs d c₀ c) (hle : e ≤ d) : Runs e c₀ c :=
  ⟨h.ip, (Nat.add_le_add_left hle _).trans h.gas, h.len, h.cap, h.returnData⟩

theorem write (h : Runs d c₀ c) {off : ℕ} {data : Bytes} (hfit : off + data.length ≤ c.memory.cap) :
    Runs d c₀ { c with memory := c.memory.write off data } where
  ip := h.ip
  gas := h.gas
  len := h.len.trans (c.memory.len_write hfit).ge
  cap := h.cap.trans (c.memory.cap_write hfit).ge
  returnData := h.returnData

theorem progress (h : Runs d c₀ c) (hle : e ≤ d) : Progress e c₀ c := by
  refine .inr ⟨(Nat.add_le_add_left hle _).trans h.gas, fun hip ↦ ?_⟩
  rw [h.ip]
  omega

end Runs

variable {Q : Unit → State σ → Prop} {k : Machine σ Unit}

/-! ### Rules for the operations on the state

Each says how a program goes on after the operation, in a state of which only `Runs` and the stack
are known. -/

@[simp] theorem returns_exit :
    Returns (exit err) c Q ↔ Q () { c with stop := true, err := some err } :=
  returns_modify

theorem exit_progress : Returns (exit err) c fun _ ↦ Progress d c₀ :=
  returns_exit.mpr (.inl rfl)

@[simp] theorem returns_halt : Returns halt c Q ↔ Q () { c with stop := true } :=
  returns_modify

section Stack

variable {Q : α → State σ → Prop} {a : ℤ} {live : List ℤ}

theorem returns_pop {Q : ℤ → State σ → Prop} (h : c.stack.live = a :: live) :
    Returns pop c Q ↔ Q a { c with stack := ⟨live, a :: c.stack.dead⟩ } := by
  obtain ⟨ip, memory, last, ⟨live', dead⟩, err, stop, gas, used, data, ret, host⟩ := c
  subst h
  simp only [pop, returns_bind, returns_get, returns_set, returns_pure]

theorem returns_top {Q : ℤ → State σ → Prop} (h : c.stack.live = a :: live) :
    Returns top c Q ↔ Q a c := by
  simp only [top, returns_bind, returns_get, h, returns_pure]

theorem consumeGas_apply (gas : ℕ) (c : State σ) :
    consumeGas gas c = some (if c.gas < gas then
        (false, { c with
          currentConsumedGas := (c.currentConsumedGas + gas) % 2 ^ 64, stop := true,
          err := some .outOfGas })
      else (true, { c with
        currentConsumedGas := (c.currentConsumedGas + gas) % 2 ^ 64, gas := c.gas - gas })) := by
  change (if c.gas < gas then _ else _ : Machine σ Bool) _ = _
  split_ifs <;> rfl

variable {gas : ℕ} {k : ℤ → Machine σ α} {val : ℤ}

theorem returns_consumeGas {Q : Bool → State σ → Prop} :
    Returns (consumeGas gas) c Q ↔
      if c.gas < gas then Q false { c with
        currentConsumedGas := (c.currentConsumedGas + gas) % 2 ^ 64, stop := true,
        err := some .outOfGas }
      else Q true { c with
        currentConsumedGas := (c.currentConsumedGas + gas) % 2 ^ 64, gas := c.gas - gas } := by
  simp only [consumeGas, returns_bind, returns_modify, returns_get]
  split_ifs <;> simp only [returns_bind, returns_exit, returns_modify, returns_pure]

theorem pop_then (hr : Runs d c₀ c) (h : c.stack.live = a :: live)
    (hk : ∀ c', Runs d c₀ c' → c'.stack.live = live → Returns (k a) c' Q) :
    Returns (pop >>= k) c Q :=
  returns_bind.mpr ((returns_pop h).mpr (hk _ (hr.same rfl rfl rfl rfl) rfl))

theorem popAddr_then {k : Address → Machine σ α} (hr : Runs d c₀ c)
    (h : c.stack.live = a :: live)
    (hk : ∀ addr c', Runs d c₀ c' → c'.stack.live = live → Returns (k addr) c' Q) :
    Returns (popAddr >>= k) c Q := by
  simp only [popAddr, returns_bind, returns_get, h, reduceCtorEq, if_false]
  rw [← returns_bind]
  refine pop_then hr h fun c' hr' h' ↦ returns_pure.mpr (hk _ c' hr' h')

theorem setPopped_then {k : Unit → Machine σ α} (hr : Runs d c₀ c)
    (hk : ∀ c', Runs d c₀ c' → c'.memory = c.memory → Returns (k ()) c' Q) :
    Returns (setPopped val >>= k) c Q :=
  returns_bind.mpr (returns_modify.mpr (hk _ (hr.same rfl rfl rfl rfl) rfl))

theorem push_then {k : Unit → Machine σ α} (hr : Runs d c₀ c)
    (hk : ∀ c', Runs d c₀ c' → c'.memory = c.memory → Returns (k ()) c' Q) :
    Returns (push val >>= k) c Q :=
  returns_bind.mpr (returns_modify.mpr (hk _ (hr.same rfl rfl rfl rfl) rfl))

theorem callHost_then {β : Type} {method : σ → β × σ} {k : β → Machine σ α} (hr : Runs d c₀ c)
    (hk : ∀ b c', Runs d c₀ c' → c'.stack = c.stack → c'.memory = c.memory →
      Returns (k b) c' Q) : Returns (callHost method >>= k) c Q := by
  simp only [callHost, returns_bind, returns_get, returns_set, returns_pure]
  exact hk _ _ (hr.same rfl rfl rfl rfl) rfl rfl

end Stack

theorem push_progress (hr : Runs d c₀ c) (hle : e ≤ d) :
    Returns (push val) c fun _ ↦ Progress e c₀ :=
  returns_modify.mpr ((hr.same rfl rfl rfl rfl).progress hle)

theorem setTop_progress (hr : Runs d c₀ c) (hle : e ≤ d) :
    Returns (setTop val) c fun _ ↦ Progress e c₀ :=
  returns_modify.mpr ((hr.same rfl rfl rfl rfl).progress hle)

inductive Checked (R : State σ → Prop) : Bool → State σ → Prop
  | ok {c : State σ} : R c → Checked R true c
  | stopped {c : State σ} : c.stop = true → Checked R false c

theorem consumeGas_spec (hr : Runs d c₀ c) : Returns (consumeGas gas) c
    (Checked fun c' ↦ Runs (d + gas) c₀ c' ∧ c'.stack = c.stack ∧ c'.memory = c.memory) := by
  simp only [consumeGas, returns_bind, returns_modify, returns_get]
  apply returns_ite
  · intro _
    exact returns_bind.mpr (returns_exit.mpr (returns_pure.mpr (.stopped rfl)))
  · intro hgas
    have hle : gas ≤ c.gas := not_lt.mp hgas
    refine returns_bind.mpr (returns_modify.mpr (returns_pure.mpr (.ok ⟨?_, rfl, rfl⟩)))
    refine ⟨hr.ip, ?_, hr.len, hr.cap, hr.returnData⟩
    have := hr.gas
    show c.gas - gas + (d + gas) ≤ c₀.gas
    omega

def words (n : ℕ) : ℕ := (n + 31) / 32

def expansion (last n : ℕ) : ℕ := (memoryCost (words n) + 2 ^ 64 - last) % 2 ^ 64

structure Affordable (offset size : ℤ) (c : State σ) : Prop where
  isUint64_offset : isUint64 offset = true
  isUint64_size : isUint64 size = true
  bound : size ≠ 0 → uint64 offset ≤ 0xffffffffe0 ∧ uint64 size ≤ 0xffffffffe0
  gas : size ≠ 0 → c.memory.len < uint64 offset + uint64 size →
    expansion c.lastGasCost (uint64 offset + uint64 size) ≤ c.gas

inductive Allocates (E : Env σ) (offset size : ℤ) (c : State σ) : Bool → State σ → Prop
  | failed {c' : State σ} : ¬Affordable offset size c → c'.stop = true → c'.err ≠ none →
    c'.memory = c.memory → Allocates E offset size c false c'
  | within : isUint64 offset = true → isUint64 size = true →
    (size ≠ 0 → offset + size ≤ c.memory.len) → Allocates E offset size c true c
  | grows {n used : ℕ} : isUint64 offset = true → isUint64 size = true → size ≠ 0 →
    offset + size = n → c.memory.len < n → n < 2 ^ 41 - 32 → expansion c.lastGasCost n ≤ c.gas →
    Allocates E offset size c true
      { c with
        lastGasCost := memoryCost (words n)
        currentConsumedGas := used
        gas := c.gas - expansion c.lastGasCost n
        memory := extendByteSlice E.grow c.memory (words n * 32) }

theorem natCast_uint64_add (ho : isUint64 offset = true)
    (hs : isUint64 size = true) : offset + size = (uint64 offset + uint64 size : ℕ) := by
  rw [cast_add, natCast_uint64 ho, natCast_uint64 hs]

theorem allocateMemory_allocates (E : Env σ) (offset size : ℤ) (c : State σ) :
    Returns (allocateMemory E offset size) c (Allocates E offset size c) := by
  unfold allocateMemory
  refine returns_ite (fun hfit ↦ ?_) fun hfit ↦ ?_
  · refine returns_bind.mpr (returns_exit.mpr (returns_pure.mpr (.failed ?_ rfl nofun rfl)))
    intro h
    rw [h.isUint64_offset, h.isUint64_size] at hfit
    cases hfit
  have hfit : isUint64 offset = true ∧ isUint64 size = true := by simpa using hfit
  have hend := natCast_uint64_add hfit.1 hfit.2
  refine returns_ite (fun hzero ↦ ?_) fun hzero ↦ ?_
  · exact returns_pure.mpr (.within hfit.1 hfit.2 fun h ↦ absurd hzero h)
  refine returns_ite (fun hbound ↦ ?_) fun hbound ↦ ?_
  · refine returns_bind.mpr (returns_exit.mpr (returns_pure.mpr (.failed ?_ rfl nofun rfl)))
    intro h
    have := h.bound hzero
    omega
  refine returns_bind.mpr (returns_get.mpr (returns_ite (fun hgrow ↦ ?_) fun hgrow ↦ ?_))
  · refine returns_bind.mpr (returns_modify.mpr (returns_bind.mpr (returns_consumeGas.mpr ?_)))
    by_cases hgas : c.gas < expansion c.lastGasCost (uint64 offset + uint64 size)
    · refine (if_pos hgas).mpr ?_
      refine returns_bind.mpr (returns_exit.mpr (returns_pure.mpr (.failed ?_ rfl nofun rfl)))
      exact fun h ↦ absurd (h.gas hzero hgrow) (not_le.mpr hgas)
    · refine (if_neg hgas).mpr (returns_bind.mpr (returns_modify.mpr (returns_pure.mpr ?_)))
      exact .grows hfit.1 hfit.2 hzero hend hgrow (by omega) (not_lt.mp hgas)
  · exact returns_pure.mpr (.within hfit.1 hfit.2 fun _ ↦ by omega)

structure Covered (offset size : ℤ) (memory : Slice) : Prop where
  isUint64_offset : isUint64 offset = true
  isUint64_size : isUint64 size = true
  le_len : size ≠ 0 → uint64 offset + uint64 size ≤ memory.len

theorem Covered.le_cap (h : Covered offset size c.memory) (hr : Runs d c₀ c)
    (hempty : size = 0 → offset ≤ c₀.memory.cap) :
    uint64 offset + uint64 size ≤ c.memory.cap := by
  by_cases hzero : size = 0
  · have hoffset := natCast_uint64 h.isUint64_offset
    have hle := hempty hzero
    have hcap := hr.cap
    subst hzero
    change uint64 offset + 0 ≤ _
    omega
  · exact (h.le_len hzero).trans c.memory.len_le_cap

theorem allocateMemory_spec (hr : Runs d c₀ c) :
    Returns (allocateMemory E offset size) c (Checked fun c' ↦
      Runs d c₀ c' ∧ c'.stack = c.stack ∧ Covered offset size c'.memory) := by
  refine (allocateMemory_allocates E offset size c).mono ?_
  rintro _ c' (⟨_, hstop, _⟩ | ⟨ho, hs, hwithin⟩ | @⟨n, _, ho, hs, _, hend, hgrow, _, _⟩)
  · exact .stopped hstop
  · refine .ok ⟨hr, rfl, ho, hs, fun hsize ↦ ?_⟩
    have := natCast_uint64_add ho hs
    have := hwithin hsize
    omega
  · have hlen := extendByteSlice_len E.grow c.memory (words n * 32)
    have hcap := extendByteSlice_cap E.grow c.memory (words n * 32)
    have hle : n ≤ words n * 32 := by
      unfold words
      omega
    refine .ok ⟨⟨hr.ip, ?_, ?_, hr.cap.trans hcap, hr.returnData⟩, rfl, ho, hs, fun _ ↦ ?_⟩
    · exact (Nat.add_le_add_right (Nat.sub_le _ _) _).trans hr.gas
    · exact hr.len.trans ((hgrow.le.trans hle).trans hlen.ge)
    · have := natCast_uint64_add ho hs
      exact (by omega : uint64 offset + uint64 size ≤ n).trans (hle.trans hlen.ge)

theorem check {m : Machine σ Bool} {R : State σ → Prop}
    (hm : Returns m c (Checked R)) (hk : ∀ c', R c' → Returns k c' fun _ ↦ Progress e c₀) :
    Returns (do if ← m then k) c fun _ ↦ Progress e c₀ := by
  refine returns_bind.mpr (hm.mono ?_)
  rintro _ c' (hR | hstop)
  · exact hk c' hR
  · exact returns_pure.mpr (.inl hstop)

theorem charge (hr : Runs d c₀ c)
    (hk : ∀ c', Runs (d + gas) c₀ c' → c'.stack = c.stack → c'.memory = c.memory →
      Returns k c' fun _ ↦ Progress e c₀) :
    Returns (do if ← consumeGas gas then k) c fun _ ↦ Progress e c₀ :=
  check (consumeGas_spec hr) fun c' h ↦ hk c' h.1 h.2.1 h.2.2

theorem allocate (hr : Runs d c₀ c)
    (hk : ∀ c', Runs d c₀ c' → c'.stack = c.stack → Covered offset size c'.memory →
      Returns k c' fun _ ↦ Progress e c₀) :
    Returns (do if ← allocateMemory E offset size then k) c fun _ ↦ Progress e c₀ :=
  check (allocateMemory_spec hr) fun c' h ↦ hk c' h.1 h.2.1 h.2.2

theorem get2_then {length : ℤ} {k : Option Bytes → Machine σ α} {Q : α → State σ → Prop}
    (hr : Runs d c₀ c) (hstop : ∀ c', c'.stop = true → Returns (k none) c' Q)
    (hk : ∀ data c', Runs d c₀ c' → c'.stack = c.stack → Returns (k (some data)) c' Q) :
    Returns (get2 E offset length >>= k) c Q := by
  refine returns_bind.mpr ?_
  unfold get2
  apply returns_ite
  · intro _
    exact returns_pure.mpr (hk [] c hr rfl)
  intro hlength
  refine returns_bind.mpr ((allocateMemory_spec hr).mono ?_)
  rintro _ c' (⟨hr', hstack, hcovered⟩ | hstopped)
  · obtain ⟨data, hdata, -⟩ := c'.memory.exists_slice (le_add_right (uint64 offset) (uint64 length))
      ((hcovered.le_len hlength).trans c'.memory.len_le_cap)
    simp only [if_true, returns_bind, returns_get, hdata, returns_pure]
    exact hk data c' hr' hstack
  · exact returns_pure.mpr (hstop c' hstopped)

theorem copyToMemory_empty (offset : ℕ) (data : Bytes) (c : State σ) :
    copyToMemory offset offset data c =
      if offset ≤ c.memory.cap then some ((), c) else none := by
  have hget : (get : Machine σ (State σ)) c = some (c, c) := rfl
  refine (bind_apply hget _).trans ?_
  by_cases hcap : offset ≤ c.memory.cap
  · have hslice : c.memory.slice offset offset = some [] := by
      unfold Slice.slice
      rw [if_pos ⟨le_rfl, hcap⟩, drop_eq_nil_of_le (length_take_le _ _)]
    rw [hslice, if_pos hcap]
    change some ((), { c with memory := c.memory.write offset (data.take 0) }) = _
    rw [take_zero, Slice.write_nil]
  · have hslice : c.memory.slice offset offset = none := if_neg fun h ↦ hcap h.2
    rw [hslice, if_neg hcap]
    rfl

theorem copyToMemory_spec {lo hi : ℕ} {data : Bytes} (hr : Runs d c₀ c) (hlo : lo ≤ hi)
    (hhi : hi ≤ c.memory.cap) : Returns (copyToMemory lo hi data) c fun _ ↦ Runs d c₀ := by
  obtain ⟨dst, hdst, hlength⟩ := c.memory.exists_slice hlo hhi
  simp only [copyToMemory, returns_bind, returns_get, hdst, returns_set]
  apply hr.write
  rw [length_take]
  omega

theorem setMemory_progress {memOffset size : ℕ}
    (hr : Runs d c₀ c) (h : memOffset + size ≤ c.memory.len) (hle : e ≤ d) :
    Returns (setMemory memOffset input size dataOffset) c fun _ ↦ Progress e c₀ := by
  have hdst : (c.memory.live.drop memOffset).length = c.memory.len - memOffset := length_drop
  obtain ⟨out, hout, hlength⟩ := setSlice_spec input dataOffset
    (by omega : size ≤ (c.memory.live.drop memOffset).length)
  have hcap := c.memory.len_le_cap
  simp only [setMemory, Slice.tail, le_of_add_right_le h, if_true, hout, returns_bind,
    returns_get, returns_set]
  exact (hr.write (by omega)).progress hle

end Mainnet.Evm
