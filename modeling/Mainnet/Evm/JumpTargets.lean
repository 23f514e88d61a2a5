import Mainnet.Evm.Pool

namespace Mainnet.Evm

open Types Mainnet.Runtime Lib Prog List Option Nat

variable {σ : Type} {E : Env σ} {c : State σ} {code bitmap : Bytes}

def dataWidth (b : UInt8) : ℕ := if 0x60 ≤ b.toNat ∧ b.toNat ≤ 0x7f then b.toNat - 0x5f else 0

inductive StartsFrom (code : Bytes) : ℕ → ℕ → Prop
  | here (i : ℕ) : StartsFrom code i i
  | skip {i j : ℕ} {b : UInt8} : code[i]? = some b → StartsFrom code (i + 1 + dataWidth b) j →
    StartsFrom code i j

variable {i j : ℕ} {b : UInt8} {bitmap' : Bytes} {op : OpCode}

theorem StartsFrom.le (h : StartsFrom code i j) : i ≤ j := by
  induction h with
  | here i => exact le_rfl
  | skip _ _ ih => omega

theorem StartsFrom.next (h : StartsFrom code i j) (hb : code[j]? = some b) :
    StartsFrom code i (j + 1 + dataWidth b) := by
  induction h with
  | here i => exact .skip hb (.here _)
  | skip hi _ ih => exact .skip hi (ih hb)

def JumpdestFrom (code : Bytes) (i j : ℕ) : Prop := StartsFrom code i j ∧ code[j]? = some 0x5b

theorem jumpdestFrom_iff (hb : code[i]? = some b) :
    JumpdestFrom code i j ↔ j = i ∧ b = 0x5b ∨ JumpdestFrom code (i + 1 + dataWidth b) j := by
  constructor
  · rintro ⟨hstart, hj⟩
    cases hstart with
    | here => exact .inl ⟨rfl, some_inj.mp (hb.symm.trans hj)⟩
    | skip hi hrest =>
      obtain rfl := some_inj.mp (hi.symm.trans hb)
      exact .inr ⟨hrest, hj⟩
  · rintro (⟨rfl, rfl⟩ | ⟨hstart, hj⟩)
    · exact ⟨.here _, hb⟩
    · exact ⟨.skip hb hstart, hj⟩

theorem not_jumpdestFrom_of_le (h : code.length ≤ i) : ¬JumpdestFrom code i j := by
  rintro ⟨hstart, hj⟩
  have := hstart.le
  have := (List.getElem?_eq_some_iff.mp hj).1
  omega

theorem testBit_setBit (b : UInt8) (i k : ℕ) (hi : i < 8) :
    (UInt8.ofNat (b.toNat ||| 1 <<< i)).toNat.testBit k = (b.toNat.testBit k || decide (k = i)) := by
  have hlt : b.toNat ||| 1 <<< i < 2 ^ 8 :=
    Nat.or_lt_two_pow b.toNat_lt (by rw [Nat.one_shiftLeft]; exact Nat.pow_lt_pow_right (by decide) hi)
  rw [UInt8.toNat_ofNat_of_lt' hlt, Nat.testBit_or, Nat.one_shiftLeft, Nat.testBit_two_pow]
  simp only [eq_comm]

theorem isSet_setBit (h : setBit bitmap i = some bitmap') :
    isSet bitmap' j = some true ↔ j = i ∨ isSet bitmap j = some true := by
  obtain ⟨b, hb, rfl⟩ := map_eq_some_iff.mp h
  have hlt := (List.getElem?_eq_some_iff.mp hb).1
  by_cases hbyte : j / 8 = i / 8
  · rw [isSet, isSet, hbyte, List.getElem?_set_self hlt, hb, map_some, map_some,
      testBit_setBit _ _ _ (mod_lt _ (by decide))]
    simp only [some_inj, Bool.or_eq_true, decide_eq_true_eq]
    rw [or_comm]
    have : j % 8 = i % 8 ↔ j = i := by omega
    rw [this]
  · rw [isSet, isSet, List.getElem?_set_ne (Ne.symm hbyte)]
    have : j ≠ i := by rintro rfl; exact hbyte rfl
    simp only [this, false_or]

theorem isPushOp_iff (b : UInt8) : isPushOp b = true ↔ 0x60 ≤ b.toNat ∧ b.toNat ≤ 0x7f := by
  rw [isPushOp, beq_iff_eq, ← UInt8.toNat_inj, UInt8.toNat_shiftRight]
  change b.toNat >>> 5 = 3 ↔ _
  rw [shiftRight_eq_div_pow]
  omega

theorem markJumpdests_isSet {fuel : ℕ} (hfuel : code.length ≤ i + fuel)
    (h : markJumpdests fuel (code.drop i) i bitmap = some bitmap') (j : ℕ) :
    isSet bitmap' j = some true ↔ isSet bitmap j = some true ∨ JumpdestFrom code i j := by
  induction fuel generalizing i bitmap with
  | zero =>
    have hempty := not_jumpdestFrom_of_le (j := j) (by omega : code.length ≤ i)
    cases h
    simp only [hempty, or_false]
  | succ fuel ih =>
    cases hrest : code.drop i with
    | nil =>
      have hempty := not_jumpdestFrom_of_le (j := j) (drop_eq_nil_iff.mp hrest)
      rw [hrest] at h
      cases h
      simp only [hempty, or_false]
    | cons b rest =>
      have hb : code[i]? = some b := by
        rw [← head?_drop, hrest]
        rfl
      have hnext : ∀ k, rest.drop k = code.drop (i + 1 + k) := by
        intro k
        rw [add_assoc, ← drop_drop, hrest, add_comm 1 k, drop_succ_cons]
      have hone : rest = code.drop (i + 1) := hnext 0
      rw [hrest, markJumpdests] at h
      split_ifs at h with hpush hdest
      · obtain ⟨hlo, hhi⟩ := (isPushOp_iff b).mp hpush
        have hwidth : i + (b.toNat - 0x60 + 2) = i + 1 + dataWidth b := by
          rw [dataWidth, if_pos ⟨hlo, hhi⟩]
          omega
        dsimp only at h
        rw [hnext, hwidth, show i + 1 + (b.toNat - 0x60 + 2 - 1) = i + 1 + dataWidth b by omega] at h
        have hne : ¬(j = i ∧ b = 0x5b) := by
          rintro ⟨-, rfl⟩
          exact absurd hlo (by decide)
        rw [ih (by omega) h, jumpdestFrom_iff hb, or_iff_right hne]
      · obtain ⟨marked, hset, hscan⟩ := bind_eq_some_iff.mp h
        subst hdest
        rw [hone] at hscan
        rw [ih (by omega) hscan, isSet_setBit hset, jumpdestFrom_iff hb,
          show dataWidth 0x5b = 0 from rfl]
        tauto
      · have hwidth : dataWidth b = 0 := by
          rw [dataWidth, if_neg (fun h ↦ hpush ((isPushOp_iff b).mpr h))]
        rw [hone] at h
        rw [ih (by omega) h, jumpdestFrom_iff hb, or_iff_right (mt And.right hdest), hwidth]

theorem setCode_isSet (grow : ℕ → ℕ → ℕ) (buf : Slice) (hclean : buf.Clean) (hlive : buf.live = [])
    (h : setCode grow buf code = some bitmap) (j : ℕ) :
    isSet bitmap j = some true ↔ JumpdestFrom code 0 j := by
  rw [setCode_clean grow _ hclean hlive] at h
  have hzero : isSet (replicate (code.length / 8 + 1) 0) j ≠ some true := by
    rw [isSet, getElem?_replicate]
    split_ifs
    · simp
    · simp
  rw [markJumpdests_isSet (i := 0) (by omega) h j]
  simp only [hzero, false_or]

theorem dataWidth_of_push {n : ℕ} (h : OpCode.ofByte b = some (.PUSH n)) : dataWidth b = n := by
  obtain ⟨hpush, rfl⟩ := OpCode.ofByte_push h
  rw [dataWidth, if_pos hpush]

theorem dataWidth_of_ne (h : OpCode.ofByte b = some op)
    (hne : ∀ n, op ≠ .PUSH n) : dataWidth b = 0 := by
  dsimp only [OpCode.ofByte] at h
  split_ifs at h with hpush
  · cases h
    exact absurd rfl (hne _)
  all_goals rw [dataWidth, if_neg hpush]

/-- Where an instruction at `p` leads: past its data, unless it is a jump, or to a marked position, if
it is one. -/
def Follows (E : Env σ) (op : OpCode) (b : UInt8) (p ip : ℤ) : Prop :=
  ip = p + 1 + dataWidth b ∧ op ≠ .JUMP ∨
    (op = .JUMP ∨ op = .JUMPI) ∧ ∃ dest : ℕ, ip = dest ∧ isSet E.bitmap dest = some true

theorem kept_ip (E : Env σ) (p : ℤ) :
    Kept E (fun _ ↦ True) (fun c ↦ c.ip = p) fun c ↦ c.stop = true where
  values := .any E
  words _ _ _ := trivial
  size _ := trivial
  gasLeft _ := trivial
  dataSize _ := trivial
  stack h _ := h
  halt h := h
  fail _ _ := rfl
  gas h _ := h
  noData h := h
  returned _ _ h := h
  ret _ h := h
  host h _ := h
  hooks h _ := h
  write h _ := h
  allocate {c} offset size h ok t heq := by
    cases (allocateMemory_allocates E offset size c).ensures _ _ heq with
    | failed _ hstop _ _ => exact hstop
    | within _ _ _ | grows _ _ _ _ _ _ _ => exact h
  ended _ := rfl
  failedRet _ h := h
  failedHooks h _ := h
  failedTwice _ _ := rfl
  failedNext h := h

theorem opPush_ip (n : ℕ) : Ensures (opPush E n) c fun _ t ↦ t.ip = c.ip + n := by
  refine ensures_bind.mpr (ensures_get.mpr (ensures_ite (fun _ ↦ ?_) fun _ ↦ ensures_panic))
  refine ensures_ite (fun _ ↦ ?_) fun _ ↦ ?_
  all_goals exact ensures_bind.mpr (ensures_modify.mpr (ensures_modify.mpr rfl))

theorem pop_ip : Ensures pop c fun _ t ↦ t.ip = c.ip := by
  refine ensures_bind.mpr (ensures_get.mpr ?_)
  split
  · exact ensures_bind.mpr (ensures_set.mpr (ensures_pure.mpr rfl))
  · exact ensures_panic

theorem jumpTo_marked (dest : ℤ) : Ensures (jumpTo E dest) c fun _ t ↦
    t.stop = true ∨ ∃ d : ℕ, t.ip + 1 = d ∧ isSet E.bitmap d = some true := by
  have hvalid : Ensures (validJumpdest E dest) c fun ok _ ↦
      ok = true → isSet E.bitmap (uint64 dest) = some true := by
    refine ensures_ite (fun _ ↦ ensures_pure.mpr nofun) fun _ ↦ ?_
    split
    · rename_i b hb
      exact ensures_pure.mpr fun h ↦ h ▸ hb
    · exact ensures_panic
  refine ensures_bind.mpr (hvalid.mono fun ok t hok ↦ ensures_ite (fun h ↦ ?_) fun _ ↦ ?_)
  · exact ensures_modify.mpr (.inr ⟨uint64 dest, sub_add_cancel _ _, hok h⟩)
  · exact ensures_modify.mpr (.inl rfl)

theorem handler_follows (hop : OpCode.ofByte b = some op)
    (hstack : (handler E op).stack ≤ c.stack.live.length) :
    Ensures (handler E op).inst c fun _ t ↦
      t.stop = true ∨ Follows E op b c.ip (t.ip + 1) := by
  by_cases hjump : op = .JUMP ∨ op = .JUMPI
  · have hwidth : dataWidth b = 0 :=
      dataWidth_of_ne hop (by rintro n rfl; simp at hjump)
    have hmarked (dest : ℤ) (t : State σ) : Ensures (jumpTo E dest) t fun _ t ↦
        t.stop = true ∨ Follows E op b c.ip (t.ip + 1) :=
      (jumpTo_marked dest).mono fun _ _ h ↦ h.imp_right fun h ↦ .inr ⟨hjump, h⟩
    obtain rfl | rfl := hjump
    · exact ensures_bind.mpr (pop_ip.mono fun dest t _ ↦ hmarked dest t)
    · refine ensures_bind.mpr (pop_ip.mono fun dest t ht ↦ ?_)
      refine ensures_bind.mpr (pop_ip.mono fun cond u hu ↦ ?_)
      refine ensures_ite (fun _ ↦ hmarked dest u) fun _ ↦ ensures_pure.mpr (.inr (.inl ⟨?_, nofun⟩))
      rw [hu, ht, hwidth]
      simp
  by_cases hpush : ∃ n, op = .PUSH n
  · obtain ⟨n, rfl⟩ := hpush
    refine (opPush_ip n).mono fun _ t ht ↦ .inr (.inl ⟨?_, nofun⟩)
    rw [ht, dataWidth_of_push hop]
    ring
  · have hne : ∀ n, op ≠ .PUSH n := fun n hn ↦ hpush ⟨n, hn⟩
    refine ((kept_ip E c.ip).handler rfl op hstack (fun h ↦ absurd h hjump)
      fun n hn ↦ absurd hn (hne n)).mono fun _ t ht ↦ ?_
    obtain hip | hstop := ht
    · refine .inr (.inl ⟨?_, fun h ↦ hjump (.inl h)⟩)
      rw [hip, dataWidth_of_ne hop hne]
      simp
    · exact .inl hstop

theorem turn_follows (E : Env σ) (c : State σ) : Ensures (turn E) c fun go t ↦ t.stop = true ∨
    go = true ∧ ∃ b op, NextOp E c b op ∧ Follows E op b c.ip t.ip := by
  refine (kept_ip E c.ip).turn (fun t ↦ ∃ b op, NextOp E c b op ∧
    Follows E op b c.ip (t.ip + 1)) _ rfl ?_ (fun _ _ ↦ rfl) fun t h _ ↦ h
  intro b op hop hstack t _ ht hst _
  refine (handler_follows hop.op (hst ▸ hstack)).mono fun _ u hu ↦ hu.symm.imp_left fun hu ↦ ?_
  exact ⟨b, op, hop, ht ▸ hu⟩

theorem Follows.start {p ip : ℤ}
    (hbitmap : ∀ i, isSet E.bitmap i = some true → StartsFrom E.msg.code 0 i)
    (h : Follows E op b p ip) (hp : 0 ≤ p) (hb : E.msg.code[p.toNat]? = some b)
    (hstart : StartsFrom E.msg.code 0 p.toNat) : 0 ≤ ip ∧ StartsFrom E.msg.code 0 ip.toNat := by
  obtain ⟨rfl, _⟩ | ⟨_, dest, rfl, hset⟩ := h
  · refine ⟨by omega, ?_⟩
    have hnext := hstart.next hb
    rwa [show (p + 1 + dataWidth b).toNat = p.toNat + 1 + dataWidth b by omega]
  · exact ⟨Int.natCast_nonneg _, hbitmap _ hset⟩

theorem reaches_start {c₀ : State σ} (hbitmap : ∀ i, isSet E.bitmap i = some true →
      StartsFrom E.msg.code 0 i) (h : Loop.Reaches (fun c ↦ !c.stop) (turn E) c₀ c)
    (hip : c₀.ip = 0) (hrunning : c.stop = false) :
    0 ≤ c.ip ∧ StartsFrom E.msg.code 0 c.ip.toNat := by
  have hinv : c.stop = true ∨ 0 ≤ c.ip ∧ StartsFrom E.msg.code 0 c.ip.toNat := by
    refine h.invariant (I := fun c ↦ c.stop = true ∨ 0 ≤ c.ip ∧
      StartsFrom E.msg.code 0 c.ip.toNat) ?_ (.inr (by rw [hip]; exact ⟨le_rfl, .here 0⟩))
    rintro s s' hguard hturn (hstop | ⟨hnonneg, hstart⟩)
    · rw [hstop] at hguard
      cases hguard
    · obtain hstop | ⟨_, b, op, hop, hfollows⟩ := turn_follows E s _ _ hturn
      · exact .inl hstop
      · exact .inr (hfollows.start hbitmap hnonneg hop.byte hstart)
  exact hinv.resolve_left (by simp [hrunning])

/-- The bitmap marks the jump targets of the code, on a state from the pool as on a new one, and in a
run the instruction pointer is always at the start of an instruction: past the data of the one
before, or at a target after a jump. -/
theorem jumpdests_sound {L : Library} {pooled : Pooled} (h : Released L pooled) (H : Host σ)
    (msg : Contract) (config : ForksInTime) (host : σ) :
    ∃ bitmap, setCode L.grow ⟨[], pooled.bitmap⟩ msg.code = some bitmap ∧
      (∀ i, isSet bitmap i = some true ↔ StartsFrom msg.code 0 i ∧ msg.code[i]? = some 0x5b) ∧
      ∀ c, Loop.Reaches (fun c ↦ !c.stop) (turn (frame L H msg config bitmap))
          (.init pooled msg.gas host) c → c.stop = false →
        (0 ≤ c.ip ∧ StartsFrom msg.code 0 c.ip.toNat) ∧
        ∀ b op go c', NextOp (frame L H msg config bitmap) c b op →
          turn (frame L H msg config bitmap) c = some (go, c') →
          c'.stop = true ∨ Follows (frame L H msg config bitmap) op b c.ip c'.ip := by
  obtain ⟨bitmap, hset, _⟩ := setCode_spec L.grow ⟨[], pooled.bitmap⟩ msg.code
  have hmarks := setCode_isSet L.grow ⟨[], pooled.bitmap⟩ h.clean.bitmap rfl hset
  refine ⟨bitmap, hset, hmarks, fun c hreach hrunning ↦ ⟨?_, fun b op go c' hop hturn ↦ ?_⟩⟩
  · exact reaches_start (E := frame L H msg config bitmap) (fun i hi ↦ ((hmarks i).mp hi).1)
      hreach rfl hrunning
  · refine (turn_follows _ c _ _ hturn).imp_right ?_
    rintro ⟨_, b', op', hop', hfollows⟩
    obtain rfl := some_inj.mp (hop'.byte.symm.trans hop.byte)
    obtain rfl := some_inj.mp (hop'.op.symm.trans hop.op)
    exact hfollows

theorem jumpdests_sound_pushData :
    ∃ bitmap, setCode goLibrary.grow ⟨[], afterStore.bitmap⟩ [0x60, 0x5b, 0x5b] = some bitmap ∧
      isSet bitmap 1 ≠ some true ∧ isSet bitmap 2 = some true := by
  obtain ⟨bitmap, hset, hmarks, _⟩ := jumpdests_sound released_afterStore quietHost
    (topCall [0x60, 0x5b, 0x5b]) allForks ()
  refine ⟨bitmap, hset, fun h ↦ ?_, (hmarks 2).mpr ⟨.skip rfl (.here 2), rfl⟩⟩
  obtain ⟨hstart, _⟩ := (hmarks 1).mp h
  cases hstart with
  | skip hb hrest =>
    cases hb
    exact absurd hrest.le (by decide)

end Mainnet.Evm
