import Mainnet.Evm.Rules

namespace Mainnet.Evm

open Types Mainnet.Runtime Lib Prog List Nat

variable {σ : Type} {E : Env σ} {c : State σ} {d : ℕ} {α : Type} {n : ℕ} {c₀ : State σ}
  {input : Bytes} {f : α → ℤ}

theorem exists_cons {l : List α} (h : n + 1 ≤ l.length) : ∃ a t, l = a :: t ∧ n ≤ t.length := by
  cases l with
  | nil => simp at h
  | cons a t => exact ⟨a, t, rfl, le_of_succ_le_succ h⟩

section

variable {β : Type} {k : ℤ → Machine σ β} {Q : β → State σ → Prop} (h : n + 1 ≤ c.stack.live.length)
include h

theorem popAny_then (hr : Runs d c₀ c)
    (hk : ∀ a c', Runs d c₀ c' → n ≤ c'.stack.live.length → Returns (k a) c' Q) :
    Returns (pop >>= k) c Q := by
  obtain ⟨a, live, hlive, hn⟩ := exists_cons h
  exact pop_then hr hlive fun c' hr' hlive' ↦ hk a c' hr' (hlive' ▸ hn)

theorem popHash_then {k : Hash → Machine σ β} (hr : Runs d c₀ c)
    (hk : ∀ hash c', Runs d c₀ c' → n ≤ c'.stack.live.length → Returns (k hash) c' Q) :
    Returns (popHash >>= k) c Q :=
  returns_bind.mpr (popAny_then h hr fun _ c' hr' h' ↦ returns_pure.mpr (hk _ c' hr' h'))

theorem topAny_then (hk : ∀ a, Returns (k a) c Q) : Returns (top >>= k) c Q := by
  obtain ⟨a, live, hlive, -⟩ := exists_cons h
  exact returns_bind.mpr ((returns_top hlive).mpr (hk a))

end

theorem unary_progress (f : ℤ → ℤ) (hr : Runs d c₀ c)
    (h : 1 ≤ c.stack.live.length) : Returns (unary f) c fun _ ↦ Progress 0 c₀ :=
  topAny_then h fun _ ↦ setTop_progress hr (zero_le _)

theorem binary_progress (f : ℤ → ℤ → ℤ × ℤ) (h : 2 ≤ c.stack.live.length) :
    Progresses 0 (binary f) c := by
  refine popAny_then h (.refl c) fun a c' hr h' ↦ topAny_then h' fun b ↦ ?_
  exact setPopped_then hr fun _ hr' _ ↦ setTop_progress hr' le_rfl

theorem ternary_progress (f : ℤ → ℤ → ℤ → ℤ × ℤ) (h : 3 ≤ c.stack.live.length) :
    Progresses 0 (ternary f) c := by
  refine popAny_then h (.refl c) fun a c₁ hr₁ h₁ ↦ ?_
  refine popAny_then h₁ hr₁ fun b c₂ hr₂ h₂ ↦ topAny_then h₂ fun z ↦ ?_
  exact returns_modify.mpr ((hr₂.same rfl rfl rfl rfl).progress le_rfl)

theorem sinceFork_progress {active : Bool} {inst : Machine σ Unit}
    (h : Progresses d inst c) : Progresses d (sinceFork active inst) c := by
  cases active with
  | false => exact exit_progress
  | true => exact h

theorem opSignExtension_progress (h : 1 ≤ c.stack.live.length)
    (hsafe : ∀ ext ∈ c.stack.live.head?, 0 ≤ ext) : Progresses 0 opSignExtension c := by
  obtain ⟨ext, live, hlive, -⟩ := exists_cons h
  have hext : 0 ≤ ext := hsafe ext (by simp [hlive])
  refine pop_then (.refl c) hlive fun c' hr hlive' ↦ returns_bind.mpr (returns_get.mpr ?_)
  rw [hlive']
  apply returns_ite
  · intro _
    exact returns_pure.mpr (hr.progress le_rfl)
  · intro hbound
    -- The bit is small because the index is at most 32 and not negative.
    have hle : uint64 ext ≤ 32 := (mod_le _ _).trans (by omega)
    have hne : live ≠ [] := fun h ↦ hbound (.inr h)
    dsimp only
    rw [if_pos (by omega)]
    exact unary_progress _ hr (hlive' ▸ length_pos_of_ne_nil hne)

theorem opExp_progress (h : 2 ≤ c.stack.live.length) : Progresses 0 (opExp E) c := by
  refine popAny_then h (.refl c) fun x c₁ hr₁ h₁ ↦ topAny_then h₁ fun y ↦ ?_
  refine charge hr₁ fun c₂ hr₂ _ _ ↦ setPopped_then hr₂ fun c₃ hr₃ _ ↦ ?_
  exact setTop_progress hr₃ (zero_le _)

theorem opMload_progress (h : 1 ≤ c.stack.live.length) : Progresses 0 (opMload E) c := by
  refine popAny_then h (.refl c) fun offset c₁ hr₁ _ ↦ get2_then hr₁ ?_ ?_
  · exact fun c' hstop ↦ returns_pure.mpr (.inl hstop)
  · exact fun data c' hr _ ↦ push_progress hr le_rfl

theorem opMStore_progress (h : 2 ≤ c.stack.live.length)
    (hsafe : ∀ val ∈ c.stack.live[1]?, val.natAbs < 2 ^ 256) : Progresses 0 (opMStore E) c := by
  obtain ⟨offset, l₁, hlive, h₁⟩ := exists_cons h
  obtain ⟨val, live, rfl, -⟩ := exists_cons h₁
  have hval : val.natAbs < 2 ^ 256 := hsafe val (by simp [hlive])
  refine pop_then (.refl c) hlive fun c₁ hr₁ hlive₁ ↦ ?_
  refine pop_then hr₁ hlive₁ fun c₂ hr₂ _ ↦ allocate hr₂ fun c₃ hr₃ _ hcovered ↦ ?_
  rw [if_pos hval]
  have hlen : uint64 offset + 32 ≤ c₃.memory.len := hcovered.le_len (by decide)
  refine (copyToMemory_spec hr₃ (le_add_right _ _) (hlen.trans c₃.memory.len_le_cap)).mono ?_
  exact fun _ c' hr ↦ hr.progress le_rfl

theorem opMStore8_progress (h : 2 ≤ c.stack.live.length) : Progresses 0 (opMStore8 E) c := by
  refine popAny_then h (.refl c) fun offset c₁ hr₁ h₁ ↦ ?_
  refine popAny_then h₁ hr₁ fun val c₂ hr₂ _ ↦ allocate hr₂ fun c₃ hr₃ _ hcovered ↦ ?_
  have hlen : uint64 offset < c₃.memory.len := hcovered.le_len (by decide)
  refine returns_bind.mpr (returns_get.mpr ?_)
  rw [if_pos hlen]
  have hfit : uint64 offset + 1 ≤ c₃.memory.cap := hlen.trans_le c₃.memory.len_le_cap
  exact returns_set.mpr ((hr₃.write hfit).progress le_rfl)

theorem opSload_progress (h : 1 ≤ c.stack.live.length) : Progresses 1 (opSload E) c := by
  refine topAny_then h fun loc ↦ charge (.refl c) fun c₁ hr₁ _ _ ↦ ?_
  refine callHost_then hr₁ fun val c₂ hr₂ _ _ ↦ setTop_progress hr₂ ?_
  split_ifs <;> decide

theorem one_le_storageCost (config : ForksInTime) (status : StorageStatus) :
    1 ≤ storageCost config status := by
  cases status <;> simp only [storageCost] <;> (repeat' split) <;> decide

theorem opSStore_progress (h : 2 ≤ c.stack.live.length) : Progresses 1 (opSStore E) c := by
  refine returns_ite (fun _ ↦ exit_progress) fun _ ↦ returns_bind.mpr (returns_get.mpr ?_)
  refine returns_ite (fun _ ↦ exit_progress) fun _ ↦ ?_
  refine popHash_then h (.refl c) fun key c₁ hr₁ h₁ ↦ popHash_then h₁ hr₁ fun val c₂ hr₂ _ ↦ ?_
  refine callHost_then hr₂ fun status c₃ hr₃ _ _ ↦ ?_
  refine returns_bind.mpr ((consumeGas_spec hr₃).mono ?_)
  rintro _ c' (⟨hr, -⟩ | hstop)
  · exact returns_pure.mpr (hr.progress ((one_le_storageCost _ _).trans (le_add_left _ _)))
  · exact returns_pure.mpr (.inl hstop)

theorem opSha3_progress (h : 2 ≤ c.stack.live.length) : Progresses 0 (opSha3 E) c := by
  refine popAny_then h (.refl c) fun offset c₁ hr₁ h₁ ↦ ?_
  refine popAny_then h₁ hr₁ fun length c₂ hr₂ _ ↦ get2_then hr₂ ?_ ?_
  · exact fun c' hstop ↦ returns_pure.mpr (.inl hstop)
  · exact fun data c' hr _ ↦ charge hr fun c'' hr' _ _ ↦ push_progress hr' (zero_le _)

theorem opPop_progress (h : 1 ≤ c.stack.live.length) : Progresses 0 opPop c :=
  popAny_then h (.refl c) fun _ _ hr _ ↦ returns_pure.mpr (hr.progress le_rfl)

theorem hostPush_progress {method : σ → α × σ} : Progresses 0 (do push (f (← callHost method))) c :=
  callHost_then (.refl c) fun _ _ hr _ _ ↦ push_progress hr le_rfl

theorem statePush_progress {f : State σ → ℤ} : Progresses 0 (do push (f (← get))) c :=
  returns_bind.mpr (returns_get.mpr (push_progress (.refl c) le_rfl))

theorem addressPush_progress {gas : ℕ} {method : Address → σ → α × σ}
    (h : 1 ≤ c.stack.live.length) (hgas : 1 ≤ gas) : Progresses 1 (do
      let addr ← popAddr
      if ← consumeGas gas then push (f (← callHost (method addr)))) c := by
  obtain ⟨a, live, hlive, -⟩ := exists_cons h
  refine popAddr_then (.refl c) hlive fun addr c₁ hr₁ _ ↦ charge hr₁ fun c₂ hr₂ _ _ ↦ ?_
  exact callHost_then hr₂ fun _ _ hr₃ _ _ ↦ push_progress hr₃ (by omega)

section

variable (h : 1 ≤ c.stack.live.length)
include h

theorem opBalance_progress : Progresses 1 (opBalance E) c := by
  refine addressPush_progress (f := id) h ?_
  split_ifs <;> decide

theorem opExtCodeSize_progress : Progresses 1 (opExtCodeSize E) c := by
  refine addressPush_progress (f := fun size : ℤ ↦ size % 2 ^ 64) h ?_
  split_ifs <;> decide

theorem opExtCodeHash_progress : Progresses 1 (opExtCodeHash E) c := by
  obtain ⟨a, live, hlive, -⟩ := exists_cons h
  apply sinceFork_progress
  refine popAddr_then (.refl c) hlive fun addr c₁ hr₁ _ ↦ charge hr₁ fun c₂ hr₂ _ _ ↦ ?_
  have hgas : 1 ≤ 0 + if E.config.istanbul = true then 700 else 400 := by split_ifs <;> decide
  refine callHost_then hr₂ fun empty c₃ hr₃ _ _ ↦ returns_ite (fun _ ↦ ?_) fun _ ↦ ?_
  · exact push_progress hr₃ hgas
  · exact callHost_then hr₃ fun _ _ hr₄ _ _ ↦ push_progress hr₄ hgas

theorem opCallDataLoad_progress : Progresses 0 (opCallDataLoad E) c := by
  refine topAny_then h fun offset ↦ ?_
  obtain ⟨buf, hbuf, -⟩ := setSlice_spec E.msg.input offset
    (by simp : 32 ≤ (replicate 32 (0 : UInt8)).length)
  rw [hbuf]
  exact setTop_progress (.refl c) le_rfl

theorem opBlockHash_progress : Progresses 0 (opBlockHash E) c := by
  refine topAny_then h fun num ↦ returns_ite (fun _ ↦ ?_) fun _ ↦ setTop_progress (.refl c) le_rfl
  refine callHost_then (.refl c) fun ctx c₁ hr₁ _ _ ↦ returns_ite (fun _ ↦ ?_) fun _ ↦ ?_
  · exact callHost_then hr₁ fun _ _ hr₂ _ _ ↦ setTop_progress hr₂ le_rfl
  · exact setTop_progress hr₁ le_rfl

end

theorem copy_progress {memOffset dataOffset length : ℤ} {e : ℕ}
    (hr : Runs d c₀ c) (hcovered : Covered memOffset length c.memory) (hle : e ≤ d) :
    Returns (if uint64 length ≠ 0 then
        setMemory (uint64 memOffset) input (uint64 length) dataOffset
      else pure ()) c fun _ ↦ Progress e c₀ := by
  refine returns_ite (fun hsize ↦ ?_) fun _ ↦ returns_pure.mpr (hr.progress hle)
  have hne : length ≠ 0 := by
    rintro rfl
    exact hsize rfl
  exact setMemory_progress hr (hcovered.le_len hne) hle

theorem dataCopy_progress (h : 3 ≤ c.stack.live.length) : Progresses 0 (dataCopy E input) c := by
  refine popAny_then h (.refl c) fun memOffset c₁ hr₁ h₁ ↦ ?_
  refine popAny_then h₁ hr₁ fun dataOffset c₂ hr₂ h₂ ↦ popAny_then h₂ hr₂ fun length c₃ hr₃ _ ↦ ?_
  refine allocate hr₃ fun c₄ hr₄ _ hcovered ↦ charge hr₄ fun c₅ hr₅ _ hmemory ↦ ?_
  exact copy_progress hr₅ (hmemory ▸ hcovered) (zero_le _)

theorem opExtCodeCopy_progress (h : 4 ≤ c.stack.live.length) :
    Progresses 1 (opExtCodeCopy E) c := by
  obtain ⟨address, l₁, hlive, h₁⟩ := exists_cons h
  obtain ⟨memOffset, l₂, rfl, h₂⟩ := exists_cons h₁
  obtain ⟨codeOffset, l₃, rfl, h₃⟩ := exists_cons h₂
  obtain ⟨length, live, rfl, -⟩ := exists_cons h₃
  refine popAddr_then (.refl c) hlive fun addr c₁ hr₁ hlive₁ ↦ ?_
  refine pop_then hr₁ hlive₁ fun c₂ hr₂ hlive₂ ↦ pop_then hr₂ hlive₂ fun c₃ hr₃ hlive₃ ↦ ?_
  refine pop_then hr₃ hlive₃ fun c₄ hr₄ _ ↦ allocate hr₄ fun c₅ hr₅ _ hcovered ↦ ?_
  refine charge hr₅ fun c₆ hr₆ _ hmemory₆ ↦ charge hr₆ fun c₇ hr₇ _ hmemory₇ ↦ ?_
  refine callHost_then hr₇ fun code c₈ hr₈ _ hmemory₈ ↦ copy_progress hr₈ ?_ ?_
  · rwa [hmemory₈, hmemory₇, hmemory₆]
  · split_ifs <;> omega

theorem opReturnDataCopy_progress (h : 3 ≤ c.stack.live.length)
    (hsafe : ∀ memOffset dataOffset length live, c.stack.live = memOffset :: dataOffset :: length ::
      live → length = 0 → memOffset ≤ c.memory.len) : Progresses 0 (opReturnDataCopy E) c := by
  obtain ⟨memOffset, l₁, hlive, h₁⟩ := exists_cons h
  obtain ⟨dataOffset, l₂, rfl, h₂⟩ := exists_cons h₁
  obtain ⟨length, live, rfl, -⟩ := exists_cons h₂
  have hzero := hsafe memOffset dataOffset length live hlive
  apply sinceFork_progress
  refine pop_then (.refl c) hlive fun c₁ hr₁ hlive₁ ↦ ?_
  refine pop_then hr₁ hlive₁ fun c₂ hr₂ hlive₂ ↦ pop_then hr₂ hlive₂ fun c₃ hr₃ _ ↦ ?_
  refine allocate hr₃ fun c₄ hr₄ _ hcovered ↦ returns_ite (fun _ ↦ exit_progress) fun hoffset ↦ ?_
  refine charge hr₄ fun c₅ hr₅ _ hmemory₅ ↦ setPopped_then hr₅ fun c₆ hr₆ hmemory₆ ↦ ?_
  refine returns_bind.mpr (returns_get.mpr ?_)
  refine returns_ite (fun _ ↦ exit_progress) fun hend ↦ ?_
  refine returns_ite (fun _ ↦ exit_progress) fun _ ↦ ?_
  have huint : ∀ x, ¬(!isUint64 x) = true → (uint64 x : ℤ) = x :=
    fun x hx ↦ natCast_uint64 (by simpa using hx)
  have hlength := natCast_uint64 hcovered.isUint64_size
  have hmem := natCast_uint64 hcovered.isUint64_offset
  have hle : uint64 dataOffset ≤ uint64 (dataOffset + length) := by
    have := huint dataOffset hoffset
    have := huint (dataOffset + length) hend
    omega
  have hlen : uint64 memOffset ≤ c₆.memory.len := by
    have := hr₆.len
    by_cases hzero' : length = 0
    · have := hzero hzero'
      omega
    · have := hcovered.le_len hzero'
      rw [hmemory₆, hmemory₅]
      omega
  have hcap := c₆.memory.len_le_cap
  have hdst : (c₆.memory.live.drop (uint64 memOffset)).length =
    c₆.memory.len - uint64 memOffset := length_drop
  rw [if_pos hle, Slice.tail, if_pos hlen]
  refine returns_set.mpr ((hr₆.write ?_).progress (zero_le _))
  rw [length_take]
  omega

theorem selfDestructCost_runs (address : Address) (hr : Runs d c₀ c) :
    Returns (selfDestructCost E address) c fun _ ↦ Runs d c₀ := by
  refine returns_ite (fun _ ↦ ?_) fun _ ↦ returns_pure.mpr hr
  refine returns_ite (fun _ ↦ ?_) fun _ ↦ ?_
  · refine callHost_then hr fun empty c₁ hr₁ _ _ ↦ returns_ite (fun _ ↦ ?_) fun _ ↦ ?_
    · refine callHost_then hr₁ fun balance c₂ hr₂ _ _ ↦ returns_ite (fun _ ↦ ?_) fun _ ↦ ?_
      · exact returns_pure.mpr hr₂
      · exact returns_pure.mpr hr₂
    · exact returns_pure.mpr hr₁
  · refine callHost_then hr fun found c₁ hr₁ _ _ ↦ returns_ite (fun _ ↦ ?_) fun _ ↦ ?_
    · exact returns_pure.mpr hr₁
    · exact returns_pure.mpr hr₁

theorem opSelfDestruct_progress (h : 1 ≤ c.stack.live.length) :
    Progresses 1 (opSelfDestruct E) c := by
  obtain ⟨a, live, hlive, -⟩ := exists_cons h
  refine returns_ite (fun _ ↦ exit_progress) fun _ ↦ ?_
  refine popAddr_then (.refl c) hlive fun address c₁ hr₁ _ ↦ ?_
  refine returns_bind.mpr ((selfDestructCost_runs address hr₁).mono fun gas c₂ hr₂ ↦ ?_)
  refine charge hr₂ fun c₃ hr₃ _ _ ↦ callHost_then hr₃ fun _ c₄ _ _ _ ↦ ?_
  exact returns_halt.mpr (.inl rfl)

theorem jumpTo_progress (dest : ℤ) (hr : Runs d c₀ c)
    (hbitmap : E.msg.code.length / 8 < E.bitmap.length) :
    Returns (jumpTo E dest) c fun _ ↦ Progress 0 c₀ := by
  have hvalid : Returns (validJumpdest E dest) c fun _ c' ↦ c' = c := by
    refine returns_ite (fun _ ↦ returns_pure.mpr rfl) fun hdest ↦ ?_
    have hlt : uint64 dest / 8 < E.bitmap.length := by
      have : uint64 dest < E.msg.code.length := by
        by_contra hge
        exact hdest (.inr (not_lt.mp hge))
      omega
    rw [isSet, getElem?_eq_getElem hlt]
    exact returns_pure.mpr rfl
  refine returns_bind.mpr (hvalid.mono ?_)
  rintro valid c' rfl
  refine returns_ite (fun _ ↦ ?_) fun _ ↦ exit_progress
  refine returns_modify.mpr (.inr ⟨hr.gas.trans' (le_add_right _ _), ?_⟩)
  intro _
  dsimp only
  omega

theorem opJump_progress (h : 1 ≤ c.stack.live.length)
    (hbitmap : E.msg.code.length / 8 < E.bitmap.length) : Progresses 0 (opJump E) c := by
  exact popAny_then h (.refl c) fun dest c₁ hr₁ _ ↦ jumpTo_progress dest hr₁ hbitmap

theorem opJumpi_progress (h : 2 ≤ c.stack.live.length)
    (hbitmap : E.msg.code.length / 8 < E.bitmap.length) : Progresses 0 (opJumpi E) c := by
  refine popAny_then h (.refl c) fun dest c₁ hr₁ h₁ ↦ popAny_then h₁ hr₁ fun cond c₂ hr₂ _ ↦ ?_
  refine returns_ite (fun _ ↦ jumpTo_progress dest hr₂ hbitmap) fun _ ↦ ?_
  exact returns_pure.mpr (hr₂.progress le_rfl)

theorem opPush_progress (n : ℕ) (hip : c.ip.toNat < E.msg.code.length) :
    Progresses 0 (opPush E n) c := by
  have hpush : ∀ val : ℤ, Progresses 0 (do push val; modify fun c ↦ { c with ip := c.ip + n }) c := by
    intro val
    refine returns_bind.mpr (returns_modify.mpr (returns_modify.mpr (.inr ⟨le_rfl, fun _ ↦ ?_⟩)))
    dsimp only
    omega
  refine returns_bind.mpr (returns_get.mpr ?_)
  rw [if_pos (succ_le_of_lt hip)]
  exact returns_ite (fun _ ↦ hpush _) fun _ ↦ hpush _

theorem opDup_progress (hn : n ≠ 0) : Progresses 0 (opDup n) c := by
  refine returns_bind.mpr (returns_bind.mpr (returns_get.mpr (returns_pure.mpr ?_)))
  refine returns_ite (fun hle ↦ ?_) fun _ ↦ exit_progress
  have hlt : n - 1 < c.stack.live.length := by
    have := of_decide_eq_true hle
    omega
  refine returns_bind.mpr (returns_bind.mpr (returns_get.mpr ?_))
  rw [getElem?_eq_getElem hlt]
  exact returns_pure.mpr (push_progress (.refl c) le_rfl)

theorem opSwap_progress (n : ℕ) : Progresses 0 (opSwap n) c := by
  refine returns_bind.mpr (returns_bind.mpr (returns_get.mpr (returns_pure.mpr ?_)))
  refine returns_ite (fun hle ↦ ?_) fun _ ↦ exit_progress
  have hlt : n < c.stack.live.length := of_decide_eq_true hle
  refine returns_bind.mpr (returns_get.mpr ?_)
  rw [getElem?_eq_getElem hlt, getElem?_eq_getElem (zero_lt_of_lt hlt)]
  exact returns_set.mpr (((Runs.refl c).same rfl rfl rfl rfl).progress le_rfl)

theorem popTopics_runs {size : ℕ} (hr : Runs d c₀ c)
    (h : size ≤ c.stack.live.length) : Returns (popTopics size) c fun _ ↦ Runs d c₀ := by
  induction size generalizing c with
  | zero => exact returns_pure.mpr hr
  | succ n ih =>
    refine popHash_then h hr fun _ c₁ hr₁ h₁ ↦ returns_bind.mpr ?_
    exact (ih hr₁ h₁).mono fun _ c' hr' ↦ returns_pure.mpr hr'

theorem opLog_progress (size : ℕ) : Progresses 0 (opLog E size) c := by
  refine returns_ite (fun _ ↦ exit_progress) fun _ ↦ ?_
  refine returns_bind.mpr (returns_bind.mpr (returns_get.mpr (returns_pure.mpr ?_)))
  refine returns_ite (fun hle ↦ ?_) fun _ ↦ exit_progress
  have hle : size + 2 ≤ c.stack.live.length := by
    have := of_decide_eq_true hle
    omega
  refine popAny_then hle (.refl c) fun mStart c₁ hr₁ h₁ ↦ ?_
  refine popAny_then h₁ hr₁ fun mSize c₂ hr₂ h₂ ↦ ?_
  refine returns_bind.mpr ((popTopics_runs hr₂ h₂).mono fun topics c₃ hr₃ ↦ ?_)
  refine get2_then hr₃ (fun c' hstop ↦ returns_pure.mpr (.inl hstop)) fun data c₄ hr₄ _ ↦ ?_
  refine callHost_then hr₄ fun _ c₅ hr₅ _ _ ↦ charge hr₅ fun c₆ hr₆ _ _ ↦ ?_
  refine returns_bind.mpr ((consumeGas_spec hr₆).mono ?_)
  rintro _ c' (⟨hr, -⟩ | hstop)
  · exact returns_pure.mpr (hr.progress (zero_le _))
  · exact returns_pure.mpr (.inl hstop)

end Mainnet.Evm
