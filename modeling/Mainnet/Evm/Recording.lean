import Mainnet.Evm.Run

namespace Mainnet.Evm

open Types Mainnet.Runtime Lib Prog Nat

inductive HostCall
  | setStorage (addr : Address) (key val : Hash)
  | emitLog (addr : Address) (topics : List Hash) (data : Bytes)
  | selfdestruct (addr beneficiary : Address)
  | callx (contract : Contract) (result : ExecutionResult)
deriving DecidableEq

/-- Someone who follows the calls that a host gets, in a log that is part of the host's state. -/
structure Observer (σ : Type) where
  Log : Type
  log : σ → Log
  note : HostCall → Log → Log

/-- Every call that changes the world is noted in the log, and nothing else is. -/
structure Observer.Sees {σ : Type} (O : Observer σ) (H : Host σ) : Prop where
  accountExists : ∀ addr s, O.log (H.accountExists addr s).2 = O.log s
  getStorage : ∀ addr key s, O.log (H.getStorage addr key s).2 = O.log s
  setStorage : ∀ addr key val config s, O.log (H.setStorage addr key val config s).2 =
    O.note (.setStorage addr key val) (O.log s)
  getBalance : ∀ addr s, O.log (H.getBalance addr s).2 = O.log s
  getCodeSize : ∀ addr s, O.log (H.getCodeSize addr s).2 = O.log s
  getCodeHash : ∀ addr s, O.log (H.getCodeHash addr s).2 = O.log s
  getCode : ∀ addr s, O.log (H.getCode addr s).2 = O.log s
  selfdestruct : ∀ addr beneficiary s, O.log (H.selfdestruct addr beneficiary s).2 =
    O.note (.selfdestruct addr beneficiary) (O.log s)
  getTxContext : ∀ s, O.log (H.getTxContext s).2 = O.log s
  getBlockHash : ∀ number s, O.log (H.getBlockHash number s).2 = O.log s
  emitLog : ∀ addr topics data s, O.log (H.emitLog addr topics data s).2 =
    O.note (.emitLog addr topics data) (O.log s)
  callx : ∀ contract s, O.log (H.callx contract s).2 =
    O.note (.callx contract (H.callx contract s).1) (O.log s)
  empty : ∀ addr s, O.log (H.empty addr s).2 = O.log s
  getNonce : ∀ addr s, O.log (H.getNonce addr s).2 = O.log s
  captureState : ∀ memory stack op addr sp s,
    O.log (H.captureState memory stack op addr sp s).2 = O.log s
  executeState : ∀ addr ip op gas cost data depth err s,
    O.log (H.executeState addr ip op gas cost data depth err s).2 = O.log s

abbrev Recorded (σ : Type) := σ × List HostCall

variable {σ α β : Type}

def silently (method : σ → α × σ) (s : Recorded σ) : α × Recorded σ :=
  ((method s.1).1, (method s.1).2, s.2)

def noting (call : α → HostCall) (method : σ → α × σ) (s : Recorded σ) : α × Recorded σ :=
  ((method s.1).1, (method s.1).2, call (method s.1).1 :: s.2)

def record (H : Host σ) : Host (Recorded σ) where
  accountExists addr := silently (H.accountExists addr)
  getStorage addr key := silently (H.getStorage addr key)
  setStorage addr key val config :=
    noting (fun _ ↦ .setStorage addr key val) (H.setStorage addr key val config)
  getBalance addr := silently (H.getBalance addr)
  getCodeSize addr := silently (H.getCodeSize addr)
  getCodeHash addr := silently (H.getCodeHash addr)
  getCode addr := silently (H.getCode addr)
  selfdestruct addr beneficiary :=
    noting (fun _ ↦ .selfdestruct addr beneficiary) (H.selfdestruct addr beneficiary)
  getTxContext := silently H.getTxContext
  getBlockHash number := silently (H.getBlockHash number)
  emitLog addr topics data :=
    noting (fun _ ↦ .emitLog addr topics data) (H.emitLog addr topics data)
  callx contract := noting (.callx contract) (H.callx contract)
  empty addr := silently (H.empty addr)
  getNonce addr := silently (H.getNonce addr)
  captureState memory stack op addr sp := silently (H.captureState memory stack op addr sp)
  executeState addr ip op gas cost data depth err :=
    silently (H.executeState addr ip op gas cost data depth err)

def recorder (σ : Type) : Observer (Recorded σ) := ⟨List HostCall, Prod.snd, List.cons⟩

theorem recorder_sees (H : Host σ) : (recorder σ).Sees (record H) := by
  constructor <;> intros <;> rfl

def Observer.blind (σ : Type) : Observer σ := ⟨Unit, fun _ ↦ (), fun _ _ ↦ ()⟩

theorem Observer.blind_sees (H : Host σ) : (blind σ).Sees H := by
  constructor <;> intros <;> rfl

variable {O : Observer σ} {E : Env σ} {c c' c'' : State σ} {d e : ℕ}

/-- From `c` to `c'` no gas has come in, at least `d` has gone unless the frame has stopped, and
no call has been recorded. -/
structure Quiet (O : Observer σ) (d : ℕ) (c c' : State σ) : Prop where
  gas : c'.gas ≤ c.gas
  stop : c.stop = true → c'.stop = true
  spent : c'.stop = true ∨ c'.gas + d ≤ c.gas
  log : O.log c'.host = O.log c.host

namespace Quiet

theorem refl (O : Observer σ) (c : State σ) : Quiet O 0 c c := ⟨le_rfl, id, .inr le_rfl, rfl⟩

theorem same (hgas : c'.gas = c.gas) (hstop : c'.stop = c.stop)
    (hlog : O.log c'.host = O.log c.host) :
    Quiet O 0 c c' :=
  ⟨hgas.le, hstop.trans, .inr hgas.le, hlog⟩

theorem trans (h : Quiet O d c c') (h' : Quiet O e c' c'') : Quiet O (d + e) c c'' where
  gas := h'.gas.trans h.gas
  stop hstop := h'.stop (h.stop hstop)
  spent := by
    obtain hstop | hd := h.spent
    · exact .inl (h'.stop hstop)
    · refine h'.spent.imp_right fun he ↦ ?_
      omega
  log := h'.log.trans h.log

theorem weaken (h : Quiet O d c c') (hle : e ≤ d) : Quiet O e c c' :=
  ⟨h.gas, h.stop, h.spent.imp_right fun hd ↦ (Nat.add_le_add_left hle _).trans hd, h.log⟩

theorem stopped (hstop : c'.stop = true) (hgas : c'.gas = c.gas)
    (hlog : O.log c'.host = O.log c.host) :
    Quiet O d c c' :=
  ⟨hgas.le, fun _ ↦ hstop, .inl hstop, hlog⟩

end Quiet

def Calm (O : Observer σ) (d : ℕ) (m : Machine σ α) : Prop :=
  ∀ c, Ensures m c fun _ ↦ Quiet O d c

namespace Calm

variable {m : Machine σ α} {f : α → Machine σ β}

theorem weaken (h : Calm O d m) (hle : e ≤ d) : Calm O e m :=
  fun c ↦ (h c).mono fun _ _ hq ↦ hq.weaken hle

theorem pure (a : α) : Calm O 0 (Pure.pure a : Machine σ α) :=
  fun _ ↦ ensures_pure.mpr (.same rfl rfl rfl)

theorem panic : Calm O d (panic : Machine σ α) :=
  fun _ ↦ ensures_panic

theorem bind (h : Calm O d m) (hf : ∀ a, Calm O e (f a)) : Calm O (d + e) (m >>= f) :=
  fun c ↦ ensures_bind.mpr ((h c).mono fun a c' hq ↦ (hf a c').mono fun _ _ hq' ↦ hq.trans hq')

theorem andThen (h : Calm O 0 m) (hf : ∀ a, Calm O e (f a)) : Calm O e (m >>= f) :=
  zero_add e ▸ h.bind hf

theorem ite {p : Prop} [Decidable p] {n : Machine σ α} (hm : Calm O d m)
    (hn : Calm O d n) : Calm O d (if p then m else n) :=
  fun c ↦ ensures_ite (fun _ ↦ hm c) fun _ ↦ hn c

theorem onGet {f : State σ → Machine σ β}
    (hf : ∀ c, Ensures (f c) c fun _ ↦ Quiet O d c) : Calm O d (get >>= f) :=
  fun c ↦ ensures_bind.mpr (ensures_get.mpr (hf c))

theorem modify {f : State σ → State σ} (hf : ∀ c, Quiet O d c (f c)) :
    Calm O d (modify f : Machine σ PUnit) :=
  fun c ↦ ensures_modify.mpr (hf c)

end Calm

def Checks (O : Observer σ) (d : ℕ) (m : Machine σ α) (p : α → Prop) : Prop :=
  ∀ c, Ensures m c fun a c' ↦ Quiet O d c c' ∧ (¬p a → c'.stop = true)

namespace Checks

variable {m : Machine σ α} {f : α → Machine σ β} {p : α → Prop}
  {q : β → Prop}

theorem calm (h : Checks O d m p) : Calm O d m :=
  fun c ↦ (h c).mono fun _ _ hq ↦ hq.1

theorem of_calm (h : Calm O d m) (hp : ∀ a, p a) : Checks O d m p :=
  fun c ↦ (h c).mono fun a _ hq ↦ ⟨hq, fun hn ↦ absurd (hp a) hn⟩

theorem panic : Checks O d (panic : Machine σ α) p :=
  fun _ ↦ ensures_panic

theorem pure {a : α} (h : p a) : Checks O 0 (Pure.pure a : Machine σ α) p :=
  fun _ ↦ ensures_pure.mpr ⟨.same rfl rfl rfl, fun hn ↦ absurd h hn⟩

theorem stopped (err : RuntimeError) (a : α) :
    Checks O d (do exit err; Pure.pure a : Machine σ α) p :=
  fun _ ↦ ensures_bind.mpr (ensures_modify.mpr (ensures_pure.mpr ⟨.stopped rfl rfl rfl, fun _ ↦ rfl⟩))

theorem ite {b : Prop} [Decidable b] {n : Machine σ α} (hm : Checks O d m p)
    (hn : Checks O d n p) : Checks O d (if b then m else n) p :=
  fun c ↦ ensures_ite (fun _ ↦ hm c) fun _ ↦ hn c

theorem andThen (h : Calm O 0 m) (hf : ∀ a, Checks O e (f a) q) : Checks O e (m >>= f) q := by
  refine fun c ↦ ensures_bind.mpr ((h c).mono fun a c' hq ↦ (hf a c').mono fun b c'' hq' ↦ ?_)
  exact ⟨zero_add e ▸ hq.trans hq'.1, hq'.2⟩

theorem bind (h : Checks O d m p) (hf : ∀ a, p a → Checks O e (f a) q)
    (hstop : ∀ a, ¬p a → Calm O 0 (f a)) : Checks O (d + e) (m >>= f) q := by
  refine fun c ↦ ensures_bind.mpr ((h c).mono fun a c' hq ↦ ?_)
  by_cases hp : p a
  · exact (hf a hp c').mono fun b c'' hq' ↦ ⟨hq.1.trans hq'.1, hq'.2⟩
  · refine (hstop a hp c').mono fun b c'' hq' ↦ ?_
    have hstopped : c''.stop = true := hq'.stop (hq.2 hp)
    exact ⟨⟨hq'.gas.trans hq.1.gas, fun _ ↦ hstopped, .inl hstopped, hq'.log.trans hq.1.log⟩,
      fun _ ↦ hstopped⟩

theorem check (h : Checks O d m p) (hf : ∀ a, p a → Calm O e (f a))
    (hstop : ∀ a, ¬p a → Calm O 0 (f a)) : Calm O (d + e) (m >>= f) :=
  (h.bind (q := fun _ ↦ True) (fun a ha ↦ .of_calm (hf a ha) fun _ ↦ trivial) hstop).calm

theorem thenDo {m : Machine σ Bool} {k : Machine σ Unit}
    (h : Checks O d m (· = true)) (hk : Calm O e k) : Calm O (d + e) (do if ← m then k) :=
  h.check (fun a ha ↦ by rwa [if_pos ha]) fun a ha ↦ by rw [if_neg ha]; exact .pure _

end Checks

section Operations

theorem calm_get : Calm O 0 (get : Machine σ (State σ)) :=
  fun _ ↦ ensures_get.mpr (.same rfl rfl rfl)

theorem calm_exit (err : RuntimeError) : Calm O d (exit err : Machine σ Unit) :=
  .modify fun _ ↦ .stopped rfl rfl rfl

theorem calm_halt : Calm O d (halt : Machine σ Unit) :=
  .modify fun _ ↦ .stopped rfl rfl rfl

theorem calm_callHost {method : σ → α × σ} (h : ∀ s, O.log (method s).2 = O.log s) :
    Calm O 0 (callHost method) := by
  refine .onGet fun c ↦ ensures_bind.mpr (ensures_set.mpr (ensures_pure.mpr ?_))
  exact .same rfl rfl (h c.host)

theorem calm_push (val : ℤ) : Calm O 0 (push val : Machine σ Unit) :=
  .modify fun _ ↦ .same rfl rfl rfl

theorem calm_pop : Calm O 0 (pop : Machine σ ℤ) := by
  refine .onGet fun c ↦ ?_
  split
  · exact ensures_bind.mpr (ensures_set.mpr (ensures_pure.mpr (.same rfl rfl rfl)))
  · exact ensures_panic

theorem calm_top : Calm O 0 (top : Machine σ ℤ) := by
  refine .andThen calm_get fun c ↦ ?_
  split
  · exact .pure _
  · exact .panic

theorem calm_setTop (val : ℤ) : Calm O 0 (setTop val : Machine σ Unit) :=
  .modify fun _ ↦ .same rfl rfl rfl

theorem calm_setPopped (val : ℤ) : Calm O 0 (setPopped val : Machine σ Unit) :=
  .modify fun _ ↦ .same rfl rfl rfl

theorem calm_popHash : Calm O 0 (popHash : Machine σ Hash) :=
  .andThen calm_pop fun _ ↦ .pure _

theorem calm_popAddr : Calm O 0 (popAddr : Machine σ Address) :=
  .andThen calm_get fun _ ↦ .ite (.pure _) (.andThen calm_pop fun _ ↦ .pure _)

theorem calm_stackAtLeast (n : ℕ) : Calm O 0 (stackAtLeast n : Machine σ Bool) :=
  .andThen calm_get fun _ ↦ .pure _

theorem calm_peekAt (n : ℕ) : Calm O 0 (peekAt n : Machine σ ℤ) := by
  refine .andThen calm_get fun c ↦ ?_
  split
  · exact .pure _
  · exact .panic

theorem calm_swap (n : ℕ) : Calm O 0 (swap n : Machine σ Unit) := by
  refine .onGet fun c ↦ ?_
  split
  · exact ensures_set.mpr (.same rfl rfl rfl)
  · exact ensures_panic

theorem calm_resetReturnData : Calm O 0 (resetReturnData : Machine σ Unit) :=
  .modify fun _ ↦ .same rfl rfl rfl

theorem consumeGas_checks (gas : ℕ) :
    Checks O gas (consumeGas gas : Machine σ Bool) (· = true) := by
  refine .andThen (.modify fun _ ↦ .same rfl rfl rfl) fun _ c ↦ ?_
  refine ensures_bind.mpr (ensures_get.mpr (ensures_ite (fun _ ↦ ?_) fun hgas ↦ ?_))
  · exact Checks.stopped _ _ c
  · refine ensures_bind.mpr (ensures_modify.mpr (ensures_pure.mpr ⟨?_, fun h ↦ absurd rfl h⟩))
    have hle : gas ≤ c.gas := not_lt.mp hgas
    exact ⟨Nat.sub_le _ _, id, .inr (Nat.sub_add_cancel hle).le, rfl⟩

theorem calm_consumeGas (gas : ℕ) : Calm O gas (consumeGas gas : Machine σ Bool) :=
  (consumeGas_checks gas).calm

theorem allocateMemory_checks (offset size : ℤ) :
    Checks O 0 (allocateMemory E offset size) (· = true) := by
  refine .ite (.stopped _ _) (.ite (.pure rfl) (.ite (.stopped _ _) (.andThen calm_get fun c ↦ ?_)))
  refine .ite ?_ (.pure rfl)
  refine .andThen (.modify fun _ ↦ .same rfl rfl rfl) fun _ ↦ ?_
  refine .andThen ((calm_consumeGas _).weaken (zero_le _)) fun ok ↦ ?_
  exact .ite (.andThen (.modify fun _ ↦ .same rfl rfl rfl) fun _ ↦ .pure rfl) (.stopped _ _)

theorem get2_checks (offset length : ℤ) : Checks O 0 (get2 E offset length) (· ≠ none) := by
  refine .ite (.pure nofun) ((allocateMemory_checks offset length).bind (e := 0) ?_ ?_)
  · intro ok hok
    rw [if_pos hok]
    refine .andThen calm_get fun c ↦ ?_
    split
    · exact .pure nofun
    · exact .panic
  · intro ok hok
    rw [if_neg hok]
    exact .pure _

theorem calm_copyToMemory (lo hi : ℕ) (data : Bytes) :
    Calm O 0 (copyToMemory lo hi data : Machine σ Unit) := by
  refine .onGet fun c ↦ ?_
  split
  · exact ensures_set.mpr (.same rfl rfl rfl)
  · exact ensures_panic

theorem calm_setMemory (memOffset : ℕ) (input : Bytes) (size : ℕ) (dataOffset : ℤ) :
    Calm O 0 (setMemory memOffset input size dataOffset : Machine σ Unit) := by
  refine .onGet fun c ↦ ?_
  split
  · exact ensures_panic
  · split
    · exact ensures_panic
    · exact ensures_set.mpr (.same rfl rfl rfl)

theorem calm_validJumpdest (dest : ℤ) : Calm O 0 (validJumpdest E dest) := by
  refine .ite (.pure _) ?_
  split
  · exact .pure _
  · exact .panic

theorem calm_charge (gas : ℕ) {k : Machine σ Unit} (hk : Calm O 0 k) :
    Calm O gas (do if ← consumeGas gas then k) :=
  (consumeGas_checks gas).thenDo hk

theorem calm_allocate (offset size : ℤ) {k : Machine σ Unit} (hk : Calm O d k) :
    Calm O d (do if ← allocateMemory E offset size then k) :=
  zero_add d ▸ (allocateMemory_checks offset size).thenDo hk

end Operations

end Mainnet.Evm
