import Mainnet.Evm.Kept

namespace Mainnet.Evm

open Types Mainnet.Runtime Lib Prog List

variable {σ : Type} {E : Env σ} {c₀ c c' : State σ} {offset size : ℤ}

/-- A successful call of `allocateMemory`: its range, the length of the memory before and after it,
and what it charged. -/
structure Access where
  offset : ℤ
  size : ℤ
  before : ℕ
  after : ℕ
  charge : ℕ
deriving DecidableEq

/-- The accesses on the way from `c₀` to `c`, the latest first. Every other operation of the frame
leaves the length of the memory alone, and `lastGasCost` with it. -/
inductive Ledger (E : Env σ) (c₀ : State σ) : List Access → State σ → Prop
  | start : Ledger E c₀ [] c₀
  | other {l : List Access} {c c' : State σ} : Ledger E c₀ l c → c'.memory.len = c.memory.len →
    c'.lastGasCost = c.lastGasCost → (c'.err = none → c.err = none) → Ledger E c₀ l c'
  | access {l : List Access} {c c' : State σ} {offset size : ℤ} : Ledger E c₀ l c → c.err = none →
    allocateMemory E offset size c = some (true, c') →
    Ledger E c₀ (⟨offset, size, c.memory.len, c'.memory.len, c.gas - c'.gas⟩ :: l) c'
  | failed {l : List Access} {c c' : State σ} {offset size : ℤ} : Ledger E c₀ l c →
    allocateMemory E offset size c = some (false, c') → Ledger E c₀ l c'

def price (w : ℕ) : ℕ := 3 * w + w * w / 512

def Covers (l : List Access) (n : ℕ) : Prop :=
  32 ∣ n ∧ ∀ a ∈ l, a.size ≠ 0 → a.offset + a.size ≤ n

structure Exact (l : List Access) (len : ℕ) : Prop where
  total : (l.map Access.charge).sum = price (len / 32)
  least : IsLeast {n | Covers l n} len
  charge : ∀ a ∈ l, a.charge + price (a.before / 32) = price (a.after / 32)

structure Ledger.Sound (l : List Access) (c : State σ) : Prop where
  least : IsLeast {n | Covers l n} c.memory.len
  lt : c.memory.len < 2 ^ 41
  last : c.err = none → c.lastGasCost = memoryCost (c.memory.len / 32)
  total : (l.map Access.charge).sum ≡ memoryCost (c.memory.len / 32) [MOD 2 ^ 64]
  exact : c.memory.len < 2 ^ 37 → Exact l c.memory.len

variable {w n : ℕ} {a : Access} {l : List Access}

theorem memoryCost_eq_price (h : w < 2 ^ 32) : memoryCost w = price w := by
  have hsq : w * w < 2 ^ 64 := by nlinarith
  rw [memoryCost, price, Nat.mod_eq_of_lt hsq]

theorem price_mono {v : ℕ} (h : v ≤ w) : price v ≤ price w := by
  unfold price
  have := Nat.mul_le_mul h h
  omega

theorem memoryCost_lt (h : w < 2 ^ 36) : memoryCost w < 2 ^ 64 := by
  unfold memoryCost
  omega

theorem price_modEq_iff (h : w < 2 ^ 36) : price w ≡ memoryCost w [MOD 2 ^ 64] ↔ w < 2 ^ 32 := by
  have hsq : w * w < 2 ^ 72 := by nlinarith
  have hfits : w * w < 2 ^ 64 ↔ w < 2 ^ 32 := Nat.mul_self_lt_mul_self_iff (n := 2 ^ 32)
  rw [← hfits, Nat.ModEq, price, memoryCost]
  generalize w * w = s at hsq
  omega

theorem covers_cons : Covers (a :: l) n ↔ (a.size ≠ 0 → a.offset + a.size ≤ n) ∧ Covers l n := by
  rw [Covers, Covers, forall_mem_cons, and_left_comm]

theorem Ledger.Sound.within (h : Ledger.Sound l c)
    (ha : a.size ≠ 0 → a.offset + a.size ≤ c.memory.len) (hbefore : a.before = c.memory.len)
    (hafter : a.after = c.memory.len) (hcharge : a.charge = 0) : Ledger.Sound (a :: l) c := by
  have hleast : IsLeast {n | Covers (a :: l) n} c.memory.len :=
    ⟨covers_cons.mpr ⟨ha, h.least.1⟩, fun n hn ↦ h.least.2 (covers_cons.mp hn).2⟩
  have htotal : ((a :: l).map Access.charge).sum = (l.map Access.charge).sum := by
    rw [map_cons, sum_cons, hcharge, Nat.zero_add]
  refine ⟨hleast, h.lt, h.last, htotal ▸ h.total, fun hlt ↦ ?_⟩
  have hexact := h.exact hlt
  refine ⟨htotal.trans hexact.total, hleast, forall_mem_cons.mpr ⟨?_, hexact.charge⟩⟩
  rw [hcharge, hbefore, hafter, Nat.zero_add]

theorem Ledger.Sound.grows (h : Ledger.Sound l c)
    (herr : c.err = none) (hsize : a.size ≠ 0) (hend : a.offset + a.size = n)
    (hgrow : c.memory.len < n) (hn : n < 2 ^ 41 - 32) (hlen : c'.memory.len = words n * 32)
    (hlast : c'.lastGasCost = memoryCost (words n)) (hbefore : a.before = c.memory.len)
    (hafter : a.after = c'.memory.len) (hcharge : a.charge = expansion c.lastGasCost n) :
    Ledger.Sound (a :: l) c' := by
  have hwords : c'.memory.len / 32 = words n := by
    rw [hlen, Nat.mul_div_cancel _ (by decide)]
  have hle : n ≤ words n * 32 := by
    unfold words
    omega
  have hlt : words n < 2 ^ 36 := by
    unfold words
    omega
  have hleast : IsLeast {m | Covers (a :: l) m} c'.memory.len := by
    refine ⟨covers_cons.mpr ⟨fun _ ↦ by omega, ⟨words n, by omega⟩, fun b hb hb0 ↦ ?_⟩, ?_⟩
    · exact (h.least.1.2 b hb hb0).trans (by omega)
    · intro m hm
      obtain ⟨ha, ⟨k, rfl⟩, -⟩ := covers_cons.mp hm
      have hm := ha hsize
      rw [hlen]
      unfold words
      omega
  have hold : memoryCost (c.memory.len / 32) < 2 ^ 64 := by
    have := h.lt
    exact memoryCost_lt (by omega)
  have hnew := memoryCost_lt hlt
  rw [expansion, h.last herr] at hcharge
  refine ⟨hleast, by omega, fun _ ↦ hlast.trans (by rw [hwords]), ?_, fun hshort ↦ ?_⟩
  · have htotal := h.total
    rw [map_cons, sum_cons, hcharge, hwords]
    rw [Nat.ModEq] at htotal ⊢
    omega
  · have hexact := h.exact (by omega)
    rw [memoryCost_eq_price (by omega : c.memory.len / 32 < 2 ^ 32)] at hcharge hold
    rw [memoryCost_eq_price (by omega : words n < 2 ^ 32)] at hcharge hnew
    have hmono : price (c.memory.len / 32) ≤ price (words n) := price_mono (by omega)
    have hpaid : a.charge + price (c.memory.len / 32) = price (words n) := by omega
    refine ⟨?_, hleast, forall_mem_cons.mpr ⟨?_, hexact.charge⟩⟩
    · rw [map_cons, sum_cons, hexact.total, hwords, hpaid]
    · rw [hbefore, hafter, hwords, hpaid]

theorem Ledger.sound (h : Ledger E c₀ l c) (hlen : c₀.memory.len = 0)
    (hlast : c₀.lastGasCost = 0) : Ledger.Sound l c := by
  induction h with
  | start =>
    have hleast : IsLeast {n | Covers [] n} c₀.memory.len := by
      rw [hlen]
      exact ⟨⟨dvd_zero _, by simp⟩, fun _ _ ↦ Nat.zero_le _⟩
    refine ⟨hleast, by omega, fun _ ↦ ?_, ?_, fun _ ↦ ⟨?_, hleast, by simp⟩⟩
    · rw [hlast, hlen]
      rfl
    · rw [hlen]
      rfl
    · rw [hlen]
      rfl
  | other _ hsame hcost herr ih =>
    refine ⟨hsame ▸ ih.least, hsame ▸ ih.lt, fun h ↦ ?_, hsame ▸ ih.total, hsame ▸ ih.exact⟩
    rw [hcost, hsame, ih.last (herr h)]
  | access hl herr heq ih =>
    cases (allocateMemory_allocates E _ _ _).ensures _ _ heq with
    | within _ _ ha => exact ih.within ha rfl rfl (Nat.sub_self _)
    | grows _ _ hsize hend hgrow hn hgas =>
      have hlen := extendByteSlice_len E.grow
      exact ih.grows herr hsize hend hgrow hn (hlen _ _) rfl rfl rfl (Nat.sub_sub_self hgas)
  | failed _ heq ih =>
    cases (allocateMemory_allocates E _ _ _).ensures _ _ heq with
    | failed _ _ herr hmemory =>
      exact ⟨hmemory ▸ ih.least, hmemory ▸ ih.lt, fun h ↦ absurd h herr, hmemory ▸ ih.total,
        hmemory ▸ ih.exact⟩

def Extends (E : Env σ) (c₀ : State σ) (l : List Access) (c : State σ) : Prop :=
  ∃ l', Ledger E c₀ (l' ++ l) c

theorem Extends.other (h : Extends E c₀ l c)
    (hlen : c'.memory.len = c.memory.len) (hlast : c'.lastGasCost = c.lastGasCost)
    (herr : c'.err = none → c.err = none) : Extends E c₀ l c' :=
  h.imp fun _ hl ↦ hl.other hlen hlast herr

theorem kept_extends (E : Env σ) (c₀ : State σ) (l : List Access) :
    Kept E (fun _ ↦ True) (fun c ↦ Extends E c₀ l c ∧ c.err = none)
      fun c ↦ Extends E c₀ l c ∧ c.stop = true where
  values := .any E
  words _ _ _ := trivial
  size _ := trivial
  gasLeft _ := trivial
  dataSize _ := trivial
  stack h _ := ⟨h.1.other rfl rfl id, h.2⟩
  halt h := ⟨h.1.other rfl rfl id, h.2⟩
  fail _ h := ⟨h.1.other rfl rfl nofun, rfl⟩
  gas h _ := ⟨h.1.other rfl rfl id, h.2⟩
  noData h := ⟨h.1.other rfl rfl id, h.2⟩
  returned _ _ h := ⟨h.1.other rfl rfl id, h.2⟩
  ret _ h := ⟨h.1.other rfl rfl id, h.2⟩
  host h _ := ⟨h.1.other rfl rfl id, h.2⟩
  hooks h _ := ⟨h.1.other rfl rfl id, h.2⟩
  write {c _ _} h hle :=
    ⟨h.1.other (c.memory.len_write (hle.trans c.memory.len_le_cap)) rfl id, h.2⟩
  allocate {c} offset size h ok t heq := by
    obtain ⟨⟨l', hl⟩, herr⟩ := h
    cases ok with
    | true =>
      refine ⟨⟨_ :: l', hl.access herr heq⟩, ?_⟩
      cases (allocateMemory_allocates E _ _ _).ensures _ _ heq with
      | within _ _ _ | grows _ _ _ _ _ _ _ => exact herr
    | false =>
      cases (allocateMemory_allocates E _ _ _).ensures _ _ heq with
      | failed _ hstop _ _ => exact ⟨⟨l', hl.failed heq⟩, hstop⟩
  ended h := ⟨h.1.other rfl rfl id, rfl⟩
  failedRet _ h := ⟨h.1.other rfl rfl id, h.2⟩
  failedHooks h _ := ⟨h.1.other rfl rfl id, h.2⟩
  failedTwice _ h := ⟨h.1.other rfl rfl nofun, rfl⟩
  failedNext h := ⟨h.1.other rfl rfl id, h.2⟩

theorem turn_extends (hl : Ledger E c₀ l c) (herr : c.err = none) :
    Ensures (turn E) c fun _ c' ↦ Extends E c₀ l c' ∧ (c'.stop = true ∨ c'.err = none) := by
  have hturn := (kept_extends E c₀ l).turnAnywhere (fun _ _ h ↦ ⟨h.1.other rfl rfl id, h.2⟩)
    (fun _ ↦ trivial) (c := c) ⟨⟨[], hl⟩, herr⟩
  refine hturn.mono fun go c' hgo ↦ ?_
  obtain ⟨hext, hstop⟩ | ⟨_, hext, herr⟩ := hgo
  · exact ⟨hext, .inl hstop⟩
  · exact ⟨hext, .inr herr⟩

theorem exists_ledger (h : Loop.Reaches (fun c ↦ !c.stop) (turn E) c₀ c) (herr : c₀.err = none)
    (hstop : c.stop = false) : ∃ l, Ledger E c₀ l c ∧ c.err = none := by
  have hinv : c.stop = true ∨ ∃ l, Ledger E c₀ l c ∧ c.err = none := by
    refine h.invariant (I := fun c ↦ c.stop = true ∨ ∃ l, Ledger E c₀ l c ∧ c.err = none) ?_
      (.inr ⟨[], .start, herr⟩)
    rintro s s' hguard hturn (hstop | ⟨l, hl, herr⟩)
    · rw [hstop] at hguard
      cases hguard
    · obtain ⟨⟨l', hl'⟩, hrun⟩ := turn_extends hl herr _ _ hturn
      exact hrun.imp_right fun herr' ↦ ⟨l' ++ l, hl', herr'⟩
  exact hinv.resolve_left (by simp [hstop])

/-- What has been paid for memory is its price if and only if every range that has been accessed ends
below `2 ^ 37`, where the square of the number of words still fits into 64 bits. The second part ties
the ledgers to the runs of frames: a turn of a running frame continues a ledger of it. -/
theorem memory_charge_exact_iff (E : Env σ) (pooled : Pooled) (gas : ℕ) (host : σ) :
    (∀ l c, Ledger E (.init pooled gas host) l c →
      (Exact l c.memory.len ↔ ∀ a ∈ l, a.size ≠ 0 → a.offset + a.size ≤ 2 ^ 37 - 32)) ∧
    ∀ c go c', Loop.Reaches (fun c ↦ !c.stop) (turn E) (.init pooled gas host) c →
      c.stop = false → turn E c = some (go, c') →
      ∃ l l', Ledger E (.init pooled gas host) l c ∧
        Ledger E (.init pooled gas host) (l' ++ l) c' := by
  constructor
  · intro l c hl
    have hsound := hl.sound rfl rfl
    have hlt := hsound.lt
    constructor
    · intro hexact
      have htotal := hsound.total
      rw [hexact.total, price_modEq_iff (by omega)] at htotal
      obtain ⟨⟨k, hk⟩, hcovers⟩ := hsound.least.1
      exact fun a ha hsize ↦ (hcovers a ha hsize).trans (by omega)
    · intro hbound
      have hle : c.memory.len ≤ 2 ^ 37 - 32 :=
        hsound.least.2 ⟨by decide, fun a ha hsize ↦ (hbound a ha hsize).trans (by decide)⟩
      exact hsound.exact (by omega)
  · intro c go c' hreach hstop hturn
    obtain ⟨l, hl, herr⟩ := exists_ledger hreach rfl hstop
    obtain ⟨⟨l', hl'⟩, _⟩ := turn_extends hl herr _ _ hturn
    exact ⟨l, l', hl, hl'⟩

theorem opMload_grows {rest : List ℤ} (hlive : c.stack.live = offset :: rest)
    (hn : offset + 32 = n) (h : Affordable offset 32 c) (hgrow : c.memory.len < n) :
    Returns (opMload E) c fun _ t ↦ t.stack.live.length = rest.length + 1 ∧
      t.memory.len = words n * 32 ∧ t.gas + expansion c.lastGasCost n = c.gas := by
  refine returns_bind.mpr ((returns_pop hlive).mpr (returns_bind.mpr ?_))
  refine returns_ite (fun h ↦ by cases h) fun _ ↦ returns_bind.mpr ?_
  refine (allocateMemory_allocates E offset 32 _).mono ?_
  rintro _ t (⟨hfail, _⟩ | ⟨_, _, hwithin⟩ | @⟨m, _, _, _, _, hend, _, _, hgas⟩)
  · exact absurd ⟨h.isUint64_offset, h.isUint64_size, h.bound, h.gas⟩ hfail
  · have hle := hwithin (by decide)
    change offset + 32 ≤ (c.memory.len : ℤ) at hle
    omega
  · obtain rfl : m = n := Nat.cast_injective (hend.symm.trans hn)
    have hlen := extendByteSlice_len E.grow c.memory (words m * 32)
    have hle : uint64 offset + uint64 32 ≤ words m * 32 := by
      have := natCast_uint64_add h.isUint64_offset h.isUint64_size
      unfold words
      omega
    obtain ⟨data, hdata, -⟩ := Slice.exists_slice _ (Nat.le_add_right (uint64 offset) _)
      (hle.trans (hlen.ge.trans (Slice.len_le_cap _)))
    rw [if_pos rfl]
    refine returns_bind.mpr (returns_get.mpr ?_)
    simp only [hdata, returns_pure]
    refine returns_modify.mpr ⟨rfl, hlen, Nat.sub_add_cancel hgas⟩

def loadHigh : Env Unit :=
  frame goLibrary quietHost (topCall [0x64, 0x1f, 0xff, 0xff, 0xff, 0xe0, 0x51]) allForks [0]

/-- The load takes `3 * 2 ^ 32` gas for memory that costs `2 ^ 55` more. -/
theorem loadHigh_undercharged :
    ∃ c go c', Loop.Reaches (fun c ↦ !c.stop) (turn loadHigh) (.init ⟨[], []⟩ (2 ^ 34) ()) c ∧
      c.stop = false ∧ turn loadHigh c = some (go, c') ∧ c'.memory.len = 2 ^ 37 ∧
      c'.gas + 3 + 3 * 2 ^ 32 = c.gas ∧ price (2 ^ 32) = 3 * 2 ^ 32 + 2 ^ 55 ∧
      ∀ l, Ledger loadHigh (.init ⟨[], []⟩ (2 ^ 34) ()) l c' → ¬Exact l c'.memory.len := by
  let c₁ : State Unit :=
    { onStack [2 ^ 37 - 32] (2 ^ 34 - 3) with ip := 6, currentConsumedGas := 3 }
  have hfirst : Loop.after (fun c ↦ !c.stop) (turn loadHigh) 1 (.init ⟨[], []⟩ (2 ^ 34) ()) =
      some c₁ := rfl
  have hturn : Returns (turn loadHigh) c₁ fun _ c ↦
      c.memory.len = 2 ^ 37 ∧ c.gas + 3 + 3 * 2 ^ 32 = 2 ^ 34 - 3 := by
    have hnext : NextOp loadHigh c₁ 0x51 .MLOAD := ⟨by decide, rfl, rfl⟩
    rw [Returns, hnext.turn]
    refine returns_bind.mpr ⟨(), c₁, rfl, returns_bind.mpr (returns_get.mpr ?_)⟩
    rw [if_neg (by decide)]
    refine returns_bind.mpr (returns_consumeGas.mpr ((if_neg (by decide)).mpr ?_))
    rw [if_pos rfl]
    refine returns_bind.mpr ⟨(), _, rfl, returns_bind.mpr ?_⟩
    refine (opMload_grows (n := 2 ^ 37) rfl rfl ⟨rfl, rfl, by decide, by decide⟩ (by decide)).mono ?_
    rintro _ c ⟨hlive, hlen, hgas⟩
    refine returns_bind.mpr (returns_get.mpr ?_)
    rw [hlive, if_neg (by decide)]
    refine returns_bind.mpr (returns_modify.mpr (returns_pure.mpr ⟨hlen, ?_⟩))
    have hcost : expansion 0 (2 ^ 37) = 3 * 2 ^ 32 := by decide
    change c.gas + expansion 0 (2 ^ 37) = 2 ^ 34 - 3 - 3 at hgas
    change c.gas + 3 + 3 * 2 ^ 32 = 2 ^ 34 - 3
    omega
  obtain ⟨go, c', hturn, hlen, hgas⟩ := hturn
  refine ⟨c₁, go, c', .of_after hfirst, rfl, hturn, hlen, hgas, by decide, fun l hl hexact ↦ ?_⟩
  have htotal := (hl.sound rfl rfl).total
  rw [hexact.total, hlen] at htotal
  exact absurd ((price_modEq_iff (by decide)).mp htotal) (by decide)

end Mainnet.Evm
