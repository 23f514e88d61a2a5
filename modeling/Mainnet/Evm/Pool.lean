import Mainnet.Evm.Kept

namespace Mainnet.Evm

open Types Mainnet.Runtime Lib Prog List Nat Slice

variable {σ : Type} {E : Env σ} {c : State σ}

def Slice.Clean (b : Slice) : Prop := ∃ n, b.spare = replicate n 0

variable {b : Slice} {off : ℕ} {data : Bytes} {c' : State σ}

theorem Slice.write_within (h : off + data.length ≤ b.len) :
    b.write off data =
      ⟨b.live.take off ++ data ++ b.live.drop (off + data.length), b.spare⟩ := by
  have hoff : off ≤ b.live.length := (le_add_right _ _).trans h
  have hlen : (b.live.take off ++ data ++ b.live.drop (off + data.length)).length = b.len := by
    simp only [length_append, length_take, length_drop, len] at h ⊢
    omega
  have hall : (b.live ++ b.spare).take off ++ data ++ (b.live ++ b.spare).drop (off + data.length) =
      b.live.take off ++ data ++ b.live.drop (off + data.length) ++ b.spare := by
    rw [take_append_of_le_length hoff, drop_append_of_le_length h]
    simp only [append_assoc]
  rw [write, hall, take_left' hlen, drop_left' hlen]

theorem Slice.Clean.write (h : b.Clean)
    (hle : off + data.length ≤ b.len) : (b.write off data).Clean := by
  rw [write_within hle]
  exact h

theorem extendByteSlice_clean (grow : ℕ → ℕ → ℕ) (h : b.Clean) {n : ℕ} (hle : b.len ≤ n) :
    (extendByteSlice grow b n).live = b.live ++ replicate (n - b.len) 0 ∧
      (extendByteSlice grow b n).Clean := by
  obtain ⟨live, spare⟩ := b
  obtain ⟨k, rfl⟩ : ∃ k, spare = replicate k 0 := h
  change live.length ≤ n at hle
  rw [extendByteSlice]
  dsimp only
  rw [length_append, length_replicate]
  split_ifs with hfit
  · rw [take_append, drop_append, take_of_length_le hle,
      drop_eq_nil_of_le hle, take_replicate, drop_replicate, nil_append, min_eq_left (by omega)]
    exact ⟨rfl, _, rfl⟩
  · rw [append_assoc, ← replicate_add]
    refine ⟨?_, _, rfl⟩
    change _ = live ++ replicate (n - live.length) 0
    rw [show k + (n - (live.length + k)) = n - live.length by omega]

/-- What `releaseState` puts into the pool: `reset` clears both slices up to their lengths and cuts
them to nothing. -/
def release (memory bitmap : Slice) : Pooled :=
  ⟨replicate memory.len 0 ++ memory.spare, replicate bitmap.len 0 ++ bitmap.spare⟩

def bitmapSlice (L : Library) (pooled : Pooled) (code bitmap : Bytes) : Slice :=
  ⟨bitmap, (extendByteSlice L.grow ⟨[], pooled.bitmap⟩ (code.length / 8 + 1)).spare⟩

/-- The states that the pool can hand out: new ones, and those of runs that have returned. A run that
panics releases nothing, and the calls that a run makes have states of their own. -/
inductive Released (L : Library) : Pooled → Prop
  | fresh : Released L ⟨[], []⟩
  | used {σ : Type} {H : Host σ} {msg : Contract} {config : ForksInTime} {pooled : Pooled}
      {bitmap : Bytes} {host : σ} {fuel : ℕ} {c : State σ} : Released L pooled →
    setCode L.grow ⟨[], pooled.bitmap⟩ msg.code = some bitmap →
    runLoop (frame L H msg config bitmap) fuel (.init pooled msg.gas host) = .done c →
    Released L (release c.memory (bitmapSlice L pooled msg.code bitmap))

theorem kept_clean (E : Env σ) :
    Kept E (fun _ ↦ True) (fun c ↦ c.memory.Clean) fun c ↦ c.memory.Clean where
  values := .any E
  words _ _ _ := trivial
  size _ := trivial
  gasLeft _ := trivial
  dataSize _ := trivial
  stack h _ := h
  halt h := h
  fail _ h := h
  gas h _ := h
  noData h := h
  returned _ _ h := h
  ret _ h := h
  host h _ := h
  hooks h _ := h
  write h hle := h.write hle
  allocate {c} offset size h ok t heq := by
    refine (ite_self _).mpr ?_
    cases (allocateMemory_allocates E offset size c).ensures _ _ heq with
    | failed _ _ _ hmemory => exact hmemory ▸ h
    | within _ _ _ => exact h
    | grows _ _ _ _ hgrow _ _ =>
      refine (extendByteSlice_clean E.grow h ?_).2
      unfold words
      omega
  ended h := h
  failedRet _ h := h
  failedHooks h _ := h
  failedTwice _ h := h
  failedNext h := h

structure Pooled.Clean (pooled : Pooled) : Prop where
  memory : ∃ n, pooled.memory = replicate n 0
  bitmap : ∃ n, pooled.bitmap = replicate n 0

theorem runLoop_clean {fuel : ℕ} (h : runLoop E fuel c = .done c')
    (hc : c.memory.Clean) : c'.memory.Clean := by
  refine Loop.loop_invariant (I := fun c ↦ c.memory.Clean) (fun s b s' _ hturn hs ↦ ?_) h hc
  have hkept := (kept_clean E).turnAnywhere (fun _ _ h ↦ h) (fun _ ↦ trivial) hs
  exact (hkept _ _ hturn).elim id And.right

theorem release_clean {memory bitmap : Slice} (hm : memory.Clean) (hb : bitmap.Clean) :
    (release memory bitmap).Clean := by
  obtain ⟨m, hm⟩ := hm
  obtain ⟨b, hb⟩ := hb
  refine ⟨⟨memory.len + m, ?_⟩, bitmap.len + b, ?_⟩
  · rw [replicate_add, ← hm]
    rfl
  · rw [replicate_add, ← hb]
    rfl

theorem Released.clean {L : Library} {pooled : Pooled} (h : Released L pooled) : pooled.Clean := by
  induction h with
  | fresh => exact ⟨⟨0, rfl⟩, 0, rfl⟩
  | @used _ _ msg _ pooled bitmap _ _ c _ _ hrun ih =>
    refine release_clean (runLoop_clean hrun ih.memory) ?_
    exact (extendByteSlice_clean L.grow (b := ⟨[], pooled.bitmap⟩) ih.bitmap (zero_le _)).2

theorem setCode_clean (grow : ℕ → ℕ → ℕ) (buf : Slice) (h : buf.Clean) (hlive : buf.live = [])
    (code : Bytes) : setCode grow buf code =
      markJumpdests code.length code 0 (replicate (code.length / 8 + 1) 0) := by
  have hlen : buf.len = 0 := congrArg length hlive
  have hext := (extendByteSlice_clean grow h (hlen.le.trans (zero_le (code.length / 8 + 1)))).1
  rw [setCode, hext, hlive, hlen, nil_append, Nat.sub_zero]

/-- Frames that differ only in how many zeros their memory has in reserve. -/
def Twin (c c' : State σ) : Prop :=
  c.memory.Clean ∧ ∃ n, c' = { c with memory := ⟨c.memory.live, replicate n 0⟩ }

theorem Twin.alike {c : State σ} (h : Twin c c') : Alike c c' := by
  obtain ⟨_, n, rfl⟩ := h
  constructor <;> rfl

theorem Twin.allocate (offset size : ℤ) {c : State σ} (h : Twin c c') :
    Related (allocateMemory E offset size) (allocateMemory E offset size) c c'
      (Tests Twin Twin) := by
  obtain ⟨hclean, n, rfl⟩ := h
  refine related_allocateMemory offset size ⟨hclean, n, rfl⟩ rfl rfl rfl rfl ?_ ?_
  · exact fun _ _ _ ↦ ⟨hclean, n, rfl⟩
  · intro needLen _ _ _ hle
    obtain ⟨hlive, hclean'⟩ := extendByteSlice_clean E.grow hclean hle
    have hcut := extendByteSlice_clean E.grow (⟨n, rfl⟩ : Clean ⟨c.memory.live, replicate n 0⟩) hle
    obtain ⟨hlive', m, hspare⟩ := hcut
    refine ⟨hclean', m, ?_⟩
    congr 1
    rw [hlive]
    exact congrArg₂ mk hlive' hspare

theorem Twin.respected (E : Env σ) : Respected E (fun _ ↦ True) Twin Twin where
  values := .any E
  alike := Twin.alike
  words _ _ _ := trivial
  size _ := trivial
  gasLeft _ := trivial
  dataSize _ := trivial
  stack := by
    rintro c _ s s' ⟨hclean, n, rfl⟩ _ heq _
    obtain rfl := heq rfl
    exact ⟨hclean, n, rfl⟩
  halt := by
    rintro c _ ⟨hclean, n, rfl⟩
    exact ⟨hclean, n, rfl⟩
  fail := by
    rintro c _ err ⟨hclean, n, rfl⟩
    exact ⟨hclean, n, rfl⟩
  gas := by
    rintro c _ gas _ used _ ⟨hclean, n, rfl⟩ rfl rfl _
    exact ⟨hclean, n, rfl⟩
  noData := by
    rintro c _ ⟨hclean, n, rfl⟩
    exact ⟨hclean, n, rfl⟩
  returned := by
    rintro c _ k s ⟨hclean, n, rfl⟩
    exact ⟨hclean, n, rfl⟩
  ret := by
    rintro c _ ret ⟨hclean, n, rfl⟩
    exact ⟨hclean, n, rfl⟩
  failedRet := by
    rintro c _ ret ⟨hclean, n, rfl⟩
    exact ⟨hclean, n, rfl⟩
  host := by
    rintro c _ s ⟨hclean, n, rfl⟩ _
    exact ⟨hclean, n, rfl⟩
  write := by
    rintro c _ off data ⟨hclean, n, rfl⟩ hle
    refine ⟨hclean.write hle, n, ?_⟩
    congr 1
    rw [write_within hle]
    exact write_within (b := ⟨c.memory.live, replicate n 0⟩) hle
  allocate offset size := Twin.allocate offset size

theorem Twin.traced (E : Env σ) : Traced E Twin Twin where
  stack := by
    rintro c _ ⟨_, n, rfl⟩
    rfl
  hooks := by
    rintro c _ s ⟨hclean, n, rfl⟩ _
    exact ⟨hclean, n, rfl⟩
  ended := by
    rintro c _ ⟨hclean, n, rfl⟩
    exact ⟨hclean, n, rfl⟩
  failed := Twin.alike
  failedHooks := by
    rintro c _ s ⟨hclean, n, rfl⟩ _
    exact ⟨hclean, n, rfl⟩
  failedTwice := by
    rintro c _ err ⟨hclean, n, rfl⟩
    exact ⟨hclean, n, rfl⟩
  failedNext := by
    rintro c _ ⟨hclean, n, rfl⟩
    exact ⟨hclean, n, rfl⟩

/-- If the next instruction is a call that asks for no output, the place for it is within memory. -/
def outputsWithin (msg : Contract) (c : State σ) : Bool :=
  match msg.code[c.ip.toNat]?.bind OpCode.ofByte with
  | some op => op.outputWithin c.stack.live c.memory.len
  | none => true

theorem NextOp.outputWithin {b : UInt8} {op : OpCode} (h : NextOp E c b op)
    (hc : outputsWithin E.msg c = true) : op.outputWithin c.stack.live c.memory.len = true := by
  rw [outputsWithin, h.byte, Option.bind_some, h.op] at hc
  exact hc

theorem Twin.turn {c : State σ} (h : Twin c c') (hc : outputsWithin E.msg c = true) :
    Related (turn E) (turn E) c c' fun go t go' t' ↦ go' = go ∧ Twin t t' := by
  have hR := Twin.respected E
  have hip : ∀ (c c' : State σ) ip, Twin c c' → Twin { c with ip := ip } { c' with ip := ip } := by
    rintro c _ ip ⟨hclean, n, rfl⟩
    exact ⟨hclean, n, rfl⟩
  refine ((Twin.traced E).turn hR Twin Twin h (fun b op hop hstack t t' hT _
    hstackt hmemory ↦ ?_) (fun t t' hT ↦ hT.alike.live) (fun t t' hT ↦ hR.fail _ hT) ?_).mono ?_
  · have hwithin := hop.outputWithin hc
    rw [← hstackt, ← hmemory] at hwithin
    rw [← hstackt] at hstack
    cases hcall : callType op with
    | none =>
      exact hR.handler op hcall (fun _ ↦ hip) (fun n _ ↦ hR.opPush hip (fun _ ↦ trivial) n) t t' hT
    | some type =>
      have htype : (callType op).isSome = true := by rw [hcall]; rfl
      cases op with
      | CALL | CALLCODE | DELEGATECALL | STATICCALL => exact hR.callWithin hT htype hstack hwithin
      | _ => cases hcall
  · rintro t t' hT _
    rw [hT.alike.ip]
    exact hip t t' _ hT
  · exact fun go t go' t' hgo ↦ ⟨hgo.1, hgo.2.elim id And.right⟩

theorem Twin.result {c : State σ} (h : Twin c c') (msg : Contract) :
    State.result msg c' = State.result msg c := by
  obtain ⟨_, n, rfl⟩ := h
  rfl

/-- A run on a state from the pool gives what the same run gives on a new one, with the same calls to
the host, unless a call asks for no output beyond the end of memory. -/
theorem run_released {L : Library} {pooled : Pooled} (h : Released L pooled) (H : Host σ)
    (msg : Contract) (config : ForksInTime) (host : σ)
    (hcalls : ∀ bitmap, setCode L.grow ⟨[], []⟩ msg.code = some bitmap →
      ∀ c, Loop.Reaches (fun c ↦ !c.stop) (turn (frame L H msg config bitmap))
        (.init ⟨[], []⟩ msg.gas host) c → c.stop = false → outputsWithin msg c = true)
    (fuel : ℕ) :
    run L H msg config pooled host fuel = run L H msg config ⟨[], []⟩ host fuel := by
  obtain ⟨⟨n, hmemory⟩, hbitmap⟩ := h.clean
  have hcode : setCode L.grow ⟨[], pooled.bitmap⟩ msg.code = setCode L.grow ⟨[], []⟩ msg.code := by
    rw [setCode_clean L.grow ⟨[], pooled.bitmap⟩ hbitmap rfl,
      setCode_clean L.grow ⟨[], []⟩ ⟨0, rfl⟩ rfl]
  rw [run, run, hcode]
  cases hset : setCode L.grow ⟨[], []⟩ msg.code with
  | none => rfl
  | some bitmap =>
    have hinit : Twin (.init ⟨[], []⟩ msg.gas host) (.init pooled msg.gas host) := by
      refine ⟨⟨0, rfl⟩, n, ?_⟩
      rw [← hmemory]
      rfl
    have hsame : Loop.Result.Same Twin
        (runLoop (frame L H msg config bitmap) fuel (.init ⟨[], []⟩ msg.gas host))
        (runLoop (frame L H msg config bitmap) fuel (.init pooled msg.gas host)) := by
      refine Loop.loop_same (fun s s' hT ↦ ?_) (fun s s' hT ↦ hT)
        (fun s s' hT _ (hok : outputsWithin msg s = true) ↦ ?_) hinit (fun t ht hguard ↦ ?_) fuel
      · exact congrArg not hT.alike.stop
      · refine Matched.mono (hT.turn hok) fun go t go' t' _ hgo ↦ ⟨hgo.1, ?_⟩
        rw [ite_self]
        exact hgo.2
      · exact hcalls bitmap hset t ht (by simpa using hguard)
    dsimp only
    generalize runLoop _ fuel (State.init ⟨[], []⟩ msg.gas host) = r at hsame ⊢
    generalize runLoop _ fuel (State.init pooled msg.gas host) = r' at hsame ⊢
    cases hsame with
    | done hT => exact congrArg Loop.Result.done (hT.result msg)
    | panic | unfinished => rfl

def afterStore : Pooled := ⟨replicate 32 0, replicate 8 0⟩

theorem released_afterStore : Released goLibrary afterStore := by
  have hrun : ∃ c, runLoop (frame goLibrary quietHost (topCall [0x60, 42, 0x60, 0, 0x52]) allForks
      [0]) 10 (.init ⟨[], []⟩ 100 ()) = .done c ∧ c.memory.len = 32 ∧ c.memory.spare = [] :=
    ⟨_, rfl, rfl, rfl⟩
  obtain ⟨c, hrun, hlen, hspare⟩ := hrun
  have hreleased := Released.used (L := goLibrary) .fresh rfl hrun
  rwa [release, hlen, hspare] at hreleased

def callNothing : Bytes := [0x60, 0, 0x60, 1, 0x60, 0, 0x60, 0, 0x60, 0, 0x60, 0, 0x60, 0, 0xf1]

def fundedCall (gas : ℕ) (code : Bytes) : Contract := { topCall code with gas := gas }

theorem run_released_storeThenCall :
    run goLibrary quietHost (fundedCall 1000 ([0x60, 42, 0x60, 0, 0x52] ++ callNothing)) allForks
        afterStore () 1002 =
      run goLibrary quietHost (fundedCall 1000 ([0x60, 42, 0x60, 0, 0x52] ++ callNothing)) allForks
        ⟨[], []⟩ () 1002 := by
  refine run_released released_afterStore quietHost _ allForks () ?_ 1002
  intro bitmap hbitmap c hreach hrunning
  cases (by decide +kernel : setCode _ _ _ = some [0, 0, 0]).symm.trans hbitmap
  refine hreach.of_checkAll (by decide +kernel : Loop.checkAll _ _ _ 20 _ = true) ?_
  simp [hrunning]

/-- On a new state the call panics, and on one that has stored a word it does not. -/
theorem run_callNothing_leaks :
    run goLibrary quietHost (fundedCall 1000 callNothing) allForks ⟨[], []⟩ () 1002 = .panic ∧
      Released goLibrary afterStore ∧
      run goLibrary quietHost (fundedCall 1000 callNothing) allForks afterStore () 1002 =
        .done (⟨[], 279, 721, none⟩, ()) :=
  ⟨by decide +kernel, released_afterStore, by decide +kernel⟩

end Mainnet.Evm
