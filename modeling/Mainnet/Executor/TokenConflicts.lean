import Mainnet.Lib.BigEndian
import Mainnet.Executor.AccessSets

namespace Mainnet.Executor

open Types Parallel List

inductive Call
  | transfer (recipient : Address)
  | approve (spender : Address)
  | transferFrom (owner recipient : Address)
  | mint (account : Address)
  | burn (account : Address)
  | balanceOf (account : Address)
  | allowance (owner spender : Address)
  | totalSupply
deriving DecidableEq

open Call

inductive Entry
  | balance (account : Address)
  | allowance (owner spender : Address)
  | supply
deriving DecidableEq

namespace Call

def selector : Call → Bytes
  | transfer _ => [0xa9, 0x05, 0x9c, 0xbb]
  | approve _ => [0x09, 0x5e, 0xa7, 0xb3]
  | transferFrom _ _ => [0x23, 0xb8, 0x72, 0xdd]
  | mint _ => [0x40, 0xc1, 0x0f, 0x19]
  | burn _ => [0x42, 0x96, 0x6c, 0x68]
  | balanceOf _ => [0x70, 0xa0, 0x82, 0x31]
  | allowance _ _ => [0xdd, 0x62, 0xed, 0x3e]
  | totalSupply => [0x18, 0x16, 0x0d, 0xdd]

def addresses : Call → List Address
  | transfer a | approve a | mint a | burn a | balanceOf a => [a]
  | transferFrom a b | allowance a b => [a, b]
  | totalSupply => []

def word (a : Address) : Bytes := replicate 12 0 ++ a.bytes

/-- The input is the ABI encoding of the call; `rest` holds the amount and anything after it. -/
def Encodes (c : Call) (input : Bytes) : Prop :=
  ∃ rest, input = c.selector ++ c.addresses.flatMap word ++ rest

def writes (c : Call) (sender : Address) : List Entry :=
  match c with
  | transfer recipient => [.balance sender, .balance recipient]
  | approve spender => [.allowance sender spender]
  | transferFrom owner recipient =>
    [.balance owner, .balance recipient, .allowance owner sender]
  | mint account | burn account => [.balance account, .supply]
  | _ => []

def reads (c : Call) : List Entry :=
  match c with
  | balanceOf account => [.balance account]
  | allowance owner spender => [.allowance owner spender]
  | totalSupply => [.supply]
  | _ => []

end Call

def Overlap (c₁ : Call) (s₁ : Address) (c₂ : Call) (s₂ : Address) : Prop :=
  ∃ e, (e ∈ c₁.writes s₁ ∧ e ∈ c₂.writes s₂ ++ c₂.reads) ∨
    (e ∈ c₂.writes s₂ ∧ e ∈ c₁.writes s₁ ++ c₁.reads)

/-- An address in a key: the sender of the transaction in its checksummed text, or an argument in
the raw hexadecimal text of the input. -/
inductive Slot
  | sender (a : Address)
  | argument (a : Address)
deriving DecidableEq

inductive EntryKey
  | balance (account : Slot)
  | allowance (owner spender : Slot)
  | supply
deriving DecidableEq

open EntryKey

namespace Call

def writeKeys (c : Call) (sender : Address) : List EntryKey :=
  match c with
  | transfer recipient => [.balance (.sender sender), .balance (.argument recipient)]
  | approve spender => [.allowance (.sender sender) (.argument spender)]
  | transferFrom owner recipient =>
    [.balance (.argument owner), .balance (.argument recipient),
      .allowance (.argument owner) (.sender sender)]
  | mint account | burn account => [.balance (.argument account), .supply]
  | _ => []

def readKeys (c : Call) : List EntryKey :=
  match c with
  | balanceOf account => [.balance (.argument account)]
  | allowance owner spender => [.allowance (.argument owner) (.argument spender)]
  | totalSupply => [.supply]
  | _ => []

end Call

variable (K : Keys)

def Slot.text : Slot → String
  | sender a => K.text a
  | argument a => encodeToHex a.bytes

def EntryKey.text (token : Address) : EntryKey → String
  | balance account => balanceKey (account.text K)
  | allowance owner spender => allowanceKey (owner.text K) (spender.text K)
  | supply => supplyKey (K.text token)

def Slot.Agree : Slot → Slot → Prop
  | sender a, sender b => a = b
  | argument a, argument b => a = b
  | sender a, argument b => a = b ∧ CaseFree K.keccak256 a
  | argument a, sender b => a = b ∧ CaseFree K.keccak256 a

def EntryKey.Agree : EntryKey → EntryKey → Prop
  | balance a, balance b => a.Agree K b
  | allowance a b, allowance c d => a.Agree K c ∧ b.Agree K d
  | supply, supply => True
  | _, _ => False

section Texts

variable {K} {token : Address}

theorem Slot.text_eq_iff (x y : Slot) : x.text K = y.text K ↔ x.Agree K y := by
  cases x <;> cases y <;> simp only [Slot.text, Slot.Agree, Keys.text]
  · exact string_inj
  · exact string_eq_encodeToHex
  · rw [eq_comm, string_eq_encodeToHex, eq_comm]
    exact and_congr_right fun h ↦ by rw [h]
  · rw [encodeToHex_inj]
    exact ⟨FixedBytes.ext, fun h ↦ h ▸ rfl⟩

theorem Slot.length_text (x : Slot) : (x.text K).toList.length = 42 := by
  cases x with
  | sender a => exact length_string
  | argument a => exact length_encodeToHex

theorem string_append_left_inj (s : String) {x y : String} : s ++ x = s ++ y ↔ x = y := by
  rw [← String.toList_inj, String.toList_append, String.toList_append, append_cancel_left_eq,
    String.toList_inj]

theorem string_append_inj {x y x' y' : String} (h : x.toList.length = x'.toList.length) :
    x ++ y = x' ++ y' ↔ x = x' ∧ y = y' := by
  refine ⟨fun heq ↦ ?_, fun ⟨hx, hy⟩ ↦ by rw [hx, hy]⟩
  rw [← String.toList_inj, String.toList_append, String.toList_append] at heq
  obtain ⟨hx, hy⟩ := append_inj heq h
  exact ⟨String.toList_inj.mp hx, String.toList_inj.mp hy⟩

theorem string_append_getElem (s x : String) {i : ℕ} {ch : Char} (h : s.toList[i]? = some ch) :
    (s ++ x).toList[i]? = some ch := by
  rw [String.toList_append, List.getElem?_append_left (List.getElem?_eq_some_iff.mp h).1, h]

def EntryKey.kind : EntryKey → Char
  | balance _ => 'b'
  | allowance _ _ => 'a'
  | supply => 's'

theorem EntryKey.text_kind (token : Address) (e : EntryKey) :
    (e.text K token).toList[6]? = some e.kind := by
  cases e <;> exact string_append_getElem _ _ rfl

theorem EntryKey.text_eq_iff (e f : EntryKey) : e.text K token = f.text K token ↔ e.Agree K f := by
  have hkind : e.text K token = f.text K token → e.kind = f.kind := by
    intro h
    have heq := text_kind (K := K) token e
    rw [h, text_kind] at heq
    exact (Option.some.inj heq).symm
  cases e with
  | balance a =>
    cases f with
    | balance b => exact (string_append_left_inj _).trans (Slot.text_eq_iff a b)
    | _ => exact iff_of_false (fun h ↦ absurd (hkind h) (by simp [kind])) id
  | allowance a b =>
    cases f with
    | allowance c d =>
      refine (string_append_left_inj _).trans ?_
      rw [string_append_inj (by rw [Slot.length_text, Slot.length_text]), string_append_left_inj,
        Slot.text_eq_iff, Slot.text_eq_iff]
      rfl
    | _ => exact iff_of_false (fun h ↦ absurd (hkind h) (by simp [kind])) id
  | supply =>
    cases f with
    | supply => exact iff_of_true rfl trivial
    | _ => exact iff_of_false (fun h ↦ absurd (hkind h) (by simp [kind])) id

theorem EntryKey.text_ne_address (e : EntryKey) (a : Address) : e.text K token ≠ K.text a := by
  intro h
  have hzero : (K.text a).toList[0]? = some '0' := string_append_getElem _ _ (by decide)
  have hkey : (e.text K token).toList[0]? = some 'a' := by
    cases e <;> exact string_append_getElem _ _ (by decide)
  rw [h, hzero] at hkey
  exact absurd hkey (by decide)

end Texts

section Extract

variable {K} {c : Call} {t : Transaction} {token : Address}

theorem Call.Encodes.selector (h : c.Encodes t.input) :
    ¬ t.input.length < 4 ∧ t.input.take 4 = c.selector := by
  obtain ⟨rest, h⟩ := h
  have hlen : c.selector.length = 4 := by cases c <;> rfl
  rw [h, append_assoc]
  refine ⟨?_, ?_⟩
  · rw [length_append, hlen]
    omega
  · rw [take_append_of_le_length hlen.ge, take_of_length_le hlen.le]

theorem length_word (a : Address) : (word a).length = 32 := by
  rw [word, length_append, length_replicate, a.length_eq]

theorem extractAddressFromInput_word (before rest : Bytes) (a : Address) :
    extractAddressFromInput (before ++ (word a ++ rest)) before.length = encodeToHex a.bytes := by
  rw [extractAddressFromInput, if_neg (by rw [length_append, length_append, length_word]; omega),
    ← drop_drop, drop_left, word, append_assoc, drop_left' (by simp), take_left' a.length_eq]

theorem Call.Encodes.argument (h : c.Encodes t.input) (before : List Address) {a : Address}
    {as : List Address} (ha : c.addresses = before ++ a :: as) :
    4 + 32 * before.length + 32 ≤ t.input.length ∧
      extractAddressFromInput t.input (4 + 32 * before.length) = encodeToHex a.bytes := by
  obtain ⟨rest, h⟩ := h
  have hlen : (c.selector ++ before.flatMap word).length = 4 + 32 * before.length := by
    have hselector : c.selector.length = 4 := by cases c <;> rfl
    simp [hselector, length_flatMap, length_word, Nat.mul_comm]
  have hinput : t.input =
      (c.selector ++ before.flatMap word) ++ (word a ++ (as.flatMap word ++ rest)) := by
    rw [h, ha]
    simp [append_assoc]
  have hextract := extractAddressFromInput_word (c.selector ++ before.flatMap word)
    (as.flatMap word ++ rest) a
  rw [hlen, ← hinput] at hextract
  refine ⟨?_, hextract⟩
  rw [hinput, length_append, hlen, length_append, length_word]
  omega

theorem Call.Encodes.first {a : Address} {as : List Address} (h : c.Encodes t.input)
    (ha : c.addresses = a :: as) :
    36 ≤ t.input.length ∧ extractAddressFromInput t.input 4 = encodeToHex a.bytes :=
  h.argument [] ha

theorem Call.Encodes.second {a b : Address} (h : c.Encodes t.input) (ha : c.addresses = [a, b]) :
    68 ≤ t.input.length ∧ extractAddressFromInput t.input 36 = encodeToHex b.bytes :=
  h.argument [a] ha

theorem readEntries_eq (h : c.Encodes t.input) (ht : t.toAddr = some token) :
    readEntries K t = c.readKeys.map (text K token) := by
  obtain ⟨hlen, hsel⟩ := h.selector
  rw [readEntries, if_neg hlen, hsel]
  cases c with
  | balanceOf a =>
    obtain ⟨h36, ha⟩ := h.first rfl
    simp [selector, isBalanceOfMethod, h36, ha, readKeys, text, Slot.text]
  | allowance a b =>
    obtain ⟨-, ha⟩ := h.first rfl
    obtain ⟨h68, hb⟩ := h.second rfl
    simp [selector, isBalanceOfMethod, isAllowanceMethod, h68, ha, hb, readKeys,
      text, Slot.text]
  | totalSupply =>
    simp [selector, isBalanceOfMethod, isAllowanceMethod, isTotalSupplyMethod, ht, readKeys,
      text]
  | _ => simp [selector, isBalanceOfMethod, isAllowanceMethod, isTotalSupplyMethod, readKeys]

theorem writeEntries_eq (h : c.Encodes t.input) (ht : t.toAddr = some token) :
    writeEntries K t = (c.writeKeys (K.getSender t).1).map (text K token) := by
  obtain ⟨hlen, hsel⟩ := h.selector
  rw [writeEntries, if_neg hlen, hsel]
  cases c with
  | transfer a =>
    obtain ⟨h36, ha⟩ := h.first rfl
    simp [selector, isTransferMethod, h36, ha, writeKeys, text, Slot.text]
  | approve a =>
    obtain ⟨h36, ha⟩ := h.first rfl
    simp [selector, isTransferMethod, isApproveMethod, h36, ha, writeKeys, text,
      Slot.text]
  | transferFrom a b =>
    obtain ⟨-, ha⟩ := h.first rfl
    obtain ⟨h68, hb⟩ := h.second rfl
    simp [selector, isTransferMethod, isApproveMethod, isTransferFromMethod, h68, ha, hb,
      writeKeys, text, Slot.text]
  | mint a =>
    obtain ⟨h36, ha⟩ := h.first rfl
    simp [selector, isTransferMethod, isApproveMethod, isTransferFromMethod, isMintMethod, ht, h36,
      ha, writeKeys, text, Slot.text]
  | burn a =>
    obtain ⟨h36, ha⟩ := h.first rfl
    simp [selector, isTransferMethod, isApproveMethod, isTransferFromMethod, isMintMethod,
      isBurnMethod, ht, h36, ha, writeKeys, text, Slot.text]
  | _ => simp [selector, isTransferMethod, isApproveMethod, isTransferFromMethod, isMintMethod,
      isBurnMethod, writeKeys]

end Extract

section Conflicts

variable {K} {token : Address} {t₁ t₂ : Transaction} {c₁ c₂ : Call}

theorem intersects_keys {A A' : List Address} {E E' : List EntryKey} :
    intersects (A.map K.text ++ E.map (text K token))
        (A'.map K.text ++ E'.map (text K token)) = true ↔
      (∃ a ∈ A, a ∈ A') ∨ ∃ e ∈ E, ∃ f ∈ E', e.Agree K f := by
  rw [intersects_iff]
  constructor
  · rintro ⟨s, hs, hs'⟩
    rcases mem_append.mp hs with hs | hs <;> rcases mem_append.mp hs' with hs' | hs' <;>
      obtain ⟨x, hx, rfl⟩ := mem_map.mp hs <;> obtain ⟨y, hy, heq⟩ := mem_map.mp hs'
    · exact .inl ⟨x, hx, string_inj.mp heq ▸ hy⟩
    · exact absurd heq (y.text_ne_address x)
    · exact absurd heq.symm (x.text_ne_address y)
    · exact .inr ⟨x, hx, y, hy, (text_eq_iff x y).mp heq.symm⟩
  · rintro (⟨a, ha, ha'⟩ | ⟨e, he, f, hf, hagree⟩)
    · exact ⟨K.text a, mem_append_left _ (mem_map_of_mem ha),
        mem_append_left _ (mem_map_of_mem ha')⟩
    · refine ⟨e.text K token, mem_append_right _ (mem_map_of_mem he), ?_⟩
      rw [(text_eq_iff e f).mpr hagree]
      exact mem_append_right _ (mem_map_of_mem hf)

theorem extractWriteSet_eq {c : Call} {t : Transaction} (h : c.Encodes t.input)
    (ht : t.toAddr = some token) : extractWriteSet K t =
      ((K.getSender t).1 :: if 0 < t.value then [token] else []).map K.text ++
        (c.writeKeys (K.getSender t).1).map (text K token) := by
  rw [extractWriteSet, writeEntries_eq h ht, ht]
  split <;> rfl

theorem extractReadSet_eq {c : Call} {t : Transaction} (h : c.Encodes t.input)
    (ht : t.toAddr = some token) : extractReadSet K t =
      [(K.getSender t).1, token].map K.text ++ c.readKeys.map (text K token) := by
  rw [extractReadSet, readEntries_eq h ht, ht]
  rfl

variable (K)

/-- What makes the extracted sets of two calls on a token meet: a common sender, a value paid to
the token, a sender that is the token, or a written entry that both name by the same text. -/
def Clash (token : Address) (t₁ t₂ : Transaction) (c₁ c₂ : Call) : Prop :=
  ((K.getSender t₁).1 = (K.getSender t₂).1 ∨ 0 < t₁.value ∨ 0 < t₂.value ∨
    (K.getSender t₁).1 = token ∨ (K.getSender t₂).1 = token) ∨
  (∃ e ∈ c₁.writeKeys (K.getSender t₁).1,
    ∃ f ∈ c₂.writeKeys (K.getSender t₂).1 ++ c₂.readKeys, e.Agree K f) ∨
  ∃ e ∈ c₁.readKeys, ∃ f ∈ c₂.writeKeys (K.getSender t₂).1, e.Agree K f

variable {K}

theorem addresses_meet (token s₁ s₂ : Address) (p₁ p₂ : Prop) [Decidable p₁] [Decidable p₂] :
    (∃ a ∈ s₁ :: (if p₁ then [token] else []), a ∈ s₂ :: if p₂ then [token] else []) ∨
      (∃ a ∈ [s₁, token], a ∈ s₂ :: if p₂ then [token] else []) ∨
      (∃ a ∈ s₁ :: (if p₁ then [token] else []), a ∈ [s₂, token]) ↔
    s₁ = s₂ ∨ p₁ ∨ p₂ ∨ s₁ = token ∨ s₂ = token := by
  by_cases h₁ : p₁ <;> by_cases h₂ : p₂ <;> simp [h₁, h₂, eq_comm]
  tauto

theorem regroup {a₁ a₂ a₃ w₁ w₂ w₃ : Prop} :
    (a₁ ∨ w₁) ∨ (a₂ ∨ w₂) ∨ a₃ ∨ w₃ ↔ (a₁ ∨ a₂ ∨ a₃) ∨ (w₁ ∨ w₃) ∨ w₂ := by
  tauto

theorem conflicts_iff_clash {r₁ r₂ : ℕ} (hr : r₁ ≠ r₂) (h₁ : c₁.Encodes t₁.input)
    (h₂ : c₂.Encodes t₂.input) (ht₁ : t₁.toAddr = some token) (ht₂ : t₂.toAddr = some token) :
    conflicts (parallelTx K r₁ t₁) (parallelTx K r₂ t₂) = true ↔ Clash K token t₁ t₂ c₁ c₂ := by
  have hentries : (∃ e ∈ c₁.writeKeys (K.getSender t₁).1,
        ∃ f ∈ c₂.writeKeys (K.getSender t₂).1 ++ c₂.readKeys, e.Agree K f) ↔
      (∃ e ∈ c₁.writeKeys (K.getSender t₁).1, ∃ f ∈ c₂.writeKeys (K.getSender t₂).1, e.Agree K f) ∨
        ∃ e ∈ c₁.writeKeys (K.getSender t₁).1, ∃ f ∈ c₂.readKeys, e.Agree K f := by
    simp only [mem_append, or_and_right, exists_or, and_or_left]
  rw [conflicts, parallelTx, parallelTx, if_neg hr, setsConflict, Bool.or_eq_true, Bool.or_eq_true,
    extractWriteSet_eq h₁ ht₁, extractWriteSet_eq h₂ ht₂, extractReadSet_eq h₁ ht₁,
    extractReadSet_eq h₂ ht₂, intersects_keys, intersects_keys, intersects_keys, regroup,
    addresses_meet, Clash, hentries]

/-- For two calls on one token, an overlap of the touched entries is reported exactly when the
extracted sets clash; sharing an entry is not enough, since one account has two texts. -/
theorem token_conflict_iff (K : Keys) (token : Address) (t₁ t₂ : Transaction) (c₁ c₂ : Call)
    (r₁ r₂ : ℕ) (hr : r₁ ≠ r₂) (h₁ : c₁.Encodes t₁.input) (h₂ : c₂.Encodes t₂.input)
    (ht₁ : t₁.toAddr = some token) (ht₂ : t₂.toAddr = some token) :
    (Overlap c₁ (K.getSender t₁).1 c₂ (K.getSender t₂).1 →
        conflicts (parallelTx K r₁ t₁) (parallelTx K r₂ t₂) = true) ↔
      (Overlap c₁ (K.getSender t₁).1 c₂ (K.getSender t₂).1 → Clash K token t₁ t₂ c₁ c₂) := by
  rw [conflicts_iff_clash hr h₁ h₂ ht₁ ht₂]

def lettersAddress : Address :=
  bytesToAddress (Lib.BigEndian.toBytes 0x7e5f4552091a69125d5dfcb7b8c2659029395bdf)

def letterKeys : Keys where
  keccak256 _ := bytesToHash (Lib.BigEndian.toBytes
    0xa8aaec6aceafa450816b295770adcd144ce18d630d6ce74288aa4f1569eda4ca)
  getSender t := (t.fromAddr, true)

def tokenTx (sender : Address) (c : Call) : Transaction :=
  { (default : Transaction) with
    fromAddr := sender
    toAddr := some (repdigit 3)
    input := c.selector ++ c.addresses.flatMap word ++ replicate 32 0 }

theorem tokenTx_encodes (sender : Address) (c : Call) : c.Encodes (tokenTx sender c).input :=
  ⟨replicate 32 0, rfl⟩

theorem token_conflict_recipient :
    conflicts (parallelTx letterKeys 0 (tokenTx lettersAddress (.transfer (repdigit 4))))
      (parallelTx letterKeys 1 (tokenTx (repdigit 2) (.transfer (repdigit 4)))) = true := by
  have hiff := token_conflict_iff letterKeys (repdigit 3) (tokenTx lettersAddress (.transfer (repdigit 4)))
    (tokenTx (repdigit 2) (.transfer (repdigit 4))) _ _ 0 1 (by decide) (tokenTx_encodes _ _)
    (tokenTx_encodes _ _) rfl rfl
  refine hiff.mpr (fun _ ↦ .inr (.inl ⟨.balance (.argument (repdigit 4)), ?_,
    .balance (.argument (repdigit 4)), ?_, rfl⟩)) ⟨.balance (repdigit 4), .inl ⟨?_, ?_⟩⟩ <;>
    simp [writeKeys, writes]

/-- The sender of one transfer is the recipient of the other, but its two texts differ. -/
theorem token_conflict_missed :
    ¬ ∀ (K : Keys) (token : Address) (t₁ t₂ : Transaction) (c₁ c₂ : Call) (r₁ r₂ : ℕ), r₁ ≠ r₂ →
      c₁.Encodes t₁.input → c₂.Encodes t₂.input → t₁.toAddr = some token → t₂.toAddr = some token →
      (K.getSender t₁).2 = true → (K.getSender t₂).2 = true →
      Overlap c₁ (K.getSender t₁).1 c₂ (K.getSender t₂).1 →
      conflicts (parallelTx K r₁ t₁) (parallelTx K r₂ t₂) = true := by
  intro hall
  have hconf := hall letterKeys (repdigit 3) (tokenTx lettersAddress (.transfer (repdigit 4)))
    (tokenTx (repdigit 2) (.transfer lettersAddress)) _ _ 0 1 (by decide) (tokenTx_encodes _ _)
    (tokenTx_encodes _ _) rfl rfl rfl rfl
    ⟨.balance lettersAddress, .inl ⟨mem_cons_self, by simp [writes]⟩⟩
  exact absurd hconf (by decide +kernel)

end Conflicts

end Mainnet.Executor
