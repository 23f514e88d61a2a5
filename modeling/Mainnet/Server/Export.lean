import Mainnet.Lib.Run
import Mainnet.Types.RoundTrip

namespace Mainnet.Server

open Types Lib List Nat

/-- The chain of a node at the end of a run. While it is appended to, the node has the blocks up to
its head. -/
structure NodeChain (C : Codec) where
  blocks : List Block
  number_eq : ∀ (i : ℕ) (b : Block), blocks[i]? = some b → b.header.number = i
  hash_eq : ∀ b ∈ blocks, b.header.hash = C.headerHash b.header
  typed : ∀ b ∈ blocks, b.Typed
  length_lt : blocks.length < 2 ^ 64

open NodeChain

def NodeChain.getBlockByNumber {C : Codec} (chain : NodeChain C) (head number : ℕ) : Option Block :=
  if number ≤ head then chain.blocks[number]? else none

structure ExportEvent where
  fromNumber : ℕ
  toNumber : ℕ
  latest : ℕ
  data : Bytes
deriving DecidableEq

inductive ExportError
  /-- "to must be greater than from" -/
  | invalidRange
  /-- "pendingFrom or pendingTo is nil" -/
  | pendingNil
deriving DecidableEq

def defaultMaxGRPCPayloadSize : ℕ := 512 * 1024

def maxHeaderInfoSize : ℕ := 3 * 8

structure BlockStreamWriter where
  buf : Bytes
  pendingFrom : Option ℕ
  pendingTo : Option ℕ
  sent : List ExportEvent

namespace BlockStreamWriter

variable (w : BlockStreamWriter)

/-- `latest` is the number of the head when the event is made. -/
def flush (latest : ℕ) : Except ExportError BlockStreamWriter :=
  if w.buf = [] then .ok w
  else
    match w.pendingFrom, w.pendingTo with
    | some fromNumber, some toNumber =>
      .ok ⟨[], none, none, w.sent ++ [⟨fromNumber, toNumber, latest, w.buf⟩]⟩
    | _, _ => .error .pendingNil

def appendBlock (maxPayload : ℕ) (R : Fastrlp) (latest : ℕ) (b : Block) :
    Except ExportError BlockStreamWriter := do
  let data := Block.marshalRLP R b
  let w ←
    if maxPayload ≤ maxHeaderInfoSize + w.buf.length + data.length then w.flush latest
    else .ok w
  .ok { w with
    buf := w.buf ++ data
    pendingFrom := w.pendingFrom.or (some b.header.number)
    pendingTo := some b.header.number }

end BlockStreamWriter

inductive ExportStatus
  | running
  | finished
  | failed (e : ExportError)
deriving DecidableEq

structure Export where
  i : ℕ
  writer : BlockStreamWriter
  status : ExportStatus

/-- The head of the chain when a turn asks for the header, for the block and for the latest number. -/
structure View where
  header : ℕ
  stored : ℕ
  latest : ℕ

namespace Export

variable {C : Codec} (chain : NodeChain C)

def begin (fromNumber toNumber : ℕ) : Export :=
  ⟨fromNumber, ⟨[], none, none, []⟩,
    if toNumber ≠ 0 ∧ toNumber ≤ fromNumber then .failed .invalidRange else .running⟩

def canLoop (toNumber : ℕ) (header i : ℕ) : Bool :=
  if toNumber = 0 then decide (i ≤ header) else decide (i ≤ toNumber)

def finish (s : Export) (latest : ℕ) : Export :=
  match s.writer.flush latest with
  | .ok writer => { s with writer := writer, status := .finished }
  | .error e => { s with status := .failed e }

def step (maxPayload toNumber : ℕ) (s : Export) (v : View) : Export :=
  match s.status with
  | .running =>
    if canLoop toNumber v.header s.i then
      match chain.getBlockByNumber v.stored s.i with
      | none => s.finish v.latest
      | some block =>
        match s.writer.appendBlock maxPayload C.toFastrlp v.latest block with
        | .ok writer => { s with i := (s.i + 1) % 2 ^ 64, writer := writer }
        | .error e => { s with status := .failed e }
    else s.finish v.latest
  | _ => s

def runUpTo (maxPayload fromNumber toNumber : ℕ) (views : List View) : Export :=
  Run.exec (step chain maxPayload toNumber) (begin fromNumber toNumber) views

def run : ℕ → ℕ → List View → Export := runUpTo chain defaultMaxGRPCPayloadSize

end Export

def NodeChain.rlpBlocks {C : Codec} (chain : NodeChain C) (a b : ℕ) : Bytes :=
  ((chain.blocks.drop a).take (b - a)).flatMap (Block.marshalRLP C.toFastrlp)

section Contiguous

variable {C : Codec} {chain : NodeChain C} {a b c : ℕ} {events : List ExportEvent}

theorem NodeChain.rlpBlocks_self : chain.rlpBlocks a a = [] := by
  rw [rlpBlocks, Nat.sub_self, take_zero, flatMap_nil]

theorem NodeChain.rlpBlocks_append (hab : a ≤ b) (hbc : b ≤ c) :
    chain.rlpBlocks a b ++ chain.rlpBlocks b c = chain.rlpBlocks a c := by
  have hdrop : chain.blocks.drop b = (chain.blocks.drop a).drop (b - a) := by
    rw [drop_drop, Nat.add_sub_cancel' hab]
  rw [rlpBlocks, rlpBlocks, rlpBlocks, ← flatMap_append, hdrop, ← take_add]
  congr 2
  omega

theorem NodeChain.rlpBlocks_succ {block : Block} (h : chain.blocks[a]? = some block) :
    chain.rlpBlocks a (a + 1) = Block.marshalRLP C.toFastrlp block := by
  obtain ⟨hlt, hat⟩ := List.getElem?_eq_some_iff.mp h
  rw [rlpBlocks, Nat.add_sub_cancel_left, List.drop_eq_getElem_cons hlt, hat]
  simp

inductive Contiguous (chain : NodeChain C) : ℕ → List ExportEvent → ℕ → Prop
  | nil (a : ℕ) : Contiguous chain a [] a
  | cons {a b : ℕ} {e : ExportEvent} {es : List ExportEvent} :
      e.fromNumber = a → a ≤ e.toNumber → e.data = chain.rlpBlocks a (e.toNumber + 1) →
      Contiguous chain (e.toNumber + 1) es b → Contiguous chain a (e :: es) b

theorem Contiguous.le (h : Contiguous chain a events b) : a ≤ b := by
  induction h with
  | nil a => exact le_refl a
  | cons _ hle _ _ ih => omega

theorem Contiguous.snoc (h : Contiguous chain a events b) {e : ExportEvent}
    (hfrom : e.fromNumber = b) (hle : b ≤ e.toNumber)
    (hdata : e.data = chain.rlpBlocks b (e.toNumber + 1)) :
    Contiguous chain a (events ++ [e]) (e.toNumber + 1) := by
  induction h with
  | nil a => exact .cons hfrom hle hdata (.nil _)
  | cons hfrom' hle' hdata' _ ih => exact .cons hfrom' hle' hdata' (ih hfrom hle hdata)

theorem Contiguous.split {es fs : List ExportEvent} (h : Contiguous chain a (es ++ fs) b) :
    ∃ c, Contiguous chain a es c ∧ Contiguous chain c fs b := by
  induction es generalizing a with
  | nil => exact ⟨a, .nil a, h⟩
  | cons e es ih =>
    cases h with
    | cons hfrom hle hdata hrest =>
      obtain ⟨c, hes, hfs⟩ := ih hrest
      exact ⟨c, .cons hfrom hle hdata hes, hfs⟩

section

variable (h : Contiguous chain a events b)
include h

theorem Contiguous.data_eq : events.flatMap ExportEvent.data = chain.rlpBlocks a b := by
  induction h with
  | nil a => rw [rlpBlocks_self, flatMap_nil]
  | cons _ hle hdata hrest ih =>
    rw [flatMap_cons, ih, hdata]
    exact rlpBlocks_append (by omega) hrest.le

theorem Contiguous.lt (hne : events ≠ []) : a < b := by
  cases h with
  | nil => exact absurd rfl hne
  | cons _ hle _ hrest => exact lt_of_le_of_lt hle hrest.le

theorem Contiguous.head_eq {e : ExportEvent} (he : events.head? = some e) : e.fromNumber = a := by
  cases h with
  | nil => cases he
  | cons hfrom _ _ _ => rwa [← Option.some.inj he]

theorem Contiguous.unique (h' : Contiguous chain a events c) : b = c := by
  induction h with
  | nil =>
    cases h'
    rfl
  | cons _ _ _ _ ih =>
    cases h' with
    | cons _ _ _ hrest => exact ih hrest

theorem Contiguous.last_eq {e : ExportEvent}
    (he : events.getLast? = some e) : b = e.toNumber + 1 := by
  rw [← dropLast_append_getLast? e he] at h
  obtain ⟨c, -, hlast⟩ := h.split
  cases hlast with
  | cons _ _ _ hrest =>
    cases hrest
    rfl

end

theorem Contiguous.only_first (h : Contiguous chain a events 1) (hne : events ≠ []) :
    a = 0 ∧ events.map ExportEvent.toNumber = [0] := by
  cases h with
  | nil => exact absurd rfl hne
  | @cons _ _ e es _ hle _ hrest =>
    have hle' := hrest.le
    have hnil : es = [] := by
      by_contra hes
      have := hrest.lt hes
      omega
    subst hnil
    have hzero : e.toNumber = 0 := by omega
    exact ⟨by omega, by rw [map_singleton, hzero]⟩

theorem NodeChain.rlpBlocks_ne_nil (hR : ∀ v, C.marshal v ≠ []) (hab : a < b)
    (hb : b ≤ chain.blocks.length) : chain.rlpBlocks a b ≠ [] := by
  have hat : chain.blocks[a]? = some (chain.blocks.get ⟨a, by omega⟩) :=
    getElem?_eq_getElem (by omega)
  rw [← rlpBlocks_append (le_succ a) hab, rlpBlocks_succ hat]
  exact append_ne_nil_of_left_ne_nil (hR _) _

end Contiguous

section Invariant

variable {C : Codec} {chain : NodeChain C} {fromNumber toNumber p i : ℕ}
  {w : BlockStreamWriter}

structure BlockStreamWriter.Holds (chain : NodeChain C) (fromNumber p i : ℕ)
    (w : BlockStreamWriter) : Prop where
  sent : Contiguous chain fromNumber w.sent p
  le : p ≤ i
  bounded : p < i → i ≤ chain.blocks.length
  buf : w.buf = chain.rlpBlocks p i
  pendingFrom : w.pendingFrom = if p < i then some p else none
  pendingTo : p < i → w.pendingTo = some (i - 1)

/-- Blocks `p` to `i - 1` are pending; an event of several blocks has less data than `maxPayload`. -/
def BlockStreamWriter.Bounded (maxPayload p i : ℕ) (w : BlockStreamWriter) : Prop :=
  (p + 1 < i → w.buf.length < maxPayload) ∧
    ∀ e ∈ w.sent, e.fromNumber < e.toNumber → e.data.length < maxPayload

section

variable (h : w.Holds chain fromNumber p i) (maxPayload : ℕ)
include h

theorem BlockStreamWriter.Holds.flush (hR : ∀ v, C.marshal v ≠ []) (latest : ℕ) :
    ∃ w', w.flush latest = .ok w' ∧ w'.Holds chain fromNumber i i ∧
      (w.Bounded maxPayload p i → w'.Bounded maxPayload i i) := by
  rcases lt_or_ge p i with hlt | hge
  · have hne : w.buf ≠ [] := by
      rw [h.buf]
      exact rlpBlocks_ne_nil hR hlt (h.bounded hlt)
    have hfrom := h.pendingFrom
    rw [if_pos hlt] at hfrom
    refine ⟨_, by rw [BlockStreamWriter.flush, if_neg hne, hfrom, h.pendingTo hlt], ?_⟩
    have hsucc : i - 1 + 1 = i := by omega
    have hsent := h.sent.snoc (e := ⟨p, i - 1, latest, w.buf⟩) rfl (by simp only; omega)
      (by simp only [hsucc]; exact h.buf)
    simp only [hsucc] at hsent
    refine ⟨⟨hsent, le_refl i, by omega, rlpBlocks_self.symm, by rw [if_neg (lt_irrefl i)],
      by omega⟩, fun hb ↦ ⟨by omega, fun e he hlt ↦ ?_⟩⟩
    rcases mem_append.mp he with he | he
    · exact hb.2 e he hlt
    · rw [mem_singleton.mp he] at hlt ⊢
      exact hb.1 (by simp only at hlt; omega)
  · obtain rfl : p = i := le_antisymm h.le hge
    have hbuf : w.buf = [] := by rw [h.buf, rlpBlocks_self]
    exact ⟨w, by rw [BlockStreamWriter.flush, if_pos hbuf], h, id⟩

theorem BlockStreamWriter.Holds.append {block : Block}
    (hat : chain.blocks[i]? = some block) :
    ({ w with
        buf := w.buf ++ Block.marshalRLP C.toFastrlp block
        pendingFrom := w.pendingFrom.or (some block.header.number)
        pendingTo := some block.header.number } : BlockStreamWriter).Holds chain fromNumber p
      (i + 1) := by
  have hnumber := chain.number_eq i block hat
  obtain ⟨hlt, -⟩ := List.getElem?_eq_some_iff.mp hat
  have hle := h.le
  refine ⟨h.sent, le_succ_of_le h.le, fun _ ↦ hlt, ?_, ?_, fun _ ↦ by simp [hnumber]⟩
  · simp only [h.buf, ← rlpBlocks_succ hat]
    exact rlpBlocks_append h.le (le_succ i)
  · simp only [h.pendingFrom, hnumber, if_pos (lt_succ_of_le hle)]
    split
    · rfl
    · rw [Option.none_or, show p = i by omega]

theorem BlockStreamWriter.Holds.appendBlock
    (hR : ∀ v, C.marshal v ≠ []) (latest : ℕ) {block : Block}
    (hat : chain.blocks[i]? = some block) :
    ∃ w' p', w.appendBlock maxPayload C.toFastrlp latest block = .ok w' ∧ p' ≤ i ∧
      w'.Holds chain fromNumber p' (i + 1) ∧
      (w.Bounded maxPayload p i → w'.Bounded maxPayload p' (i + 1)) := by
  rw [BlockStreamWriter.appendBlock]
  dsimp only
  split
  · obtain ⟨w', hflush, hw', hbounded⟩ := h.flush maxPayload hR latest
    exact ⟨_, i, by rw [hflush]; rfl, le_refl i, hw'.append hat,
      fun hb ↦ ⟨by omega, (hbounded hb).2⟩⟩
  · refine ⟨_, p, rfl, h.le, h.append hat, fun hb ↦ ⟨fun _ ↦ ?_, hb.2⟩⟩
    rw [length_append]
    omega

end

namespace Export

structure InRange (chain : NodeChain C) (fromNumber toNumber : ℕ) (s : Export) : Prop where
  bounded : s.status = .running → toNumber ≠ 0 → s.i ≤ toNumber + 1
  running : s.status = .running → ∃ p, s.writer.Holds chain fromNumber p s.i ∧
    (p < s.i ∨ s.writer.sent = [])
  finished : s.status = .finished → s.writer.Holds chain fromNumber s.i s.i ∧
    (toNumber ≠ 0 → s.i = toNumber + 1)
  failed : ∀ e, s.status = .failed e → s.writer.sent = []

variable {s : Export}

theorem holds_begin : (begin fromNumber toNumber).writer.Holds chain fromNumber fromNumber
    fromNumber := by
  have hself := lt_irrefl fromNumber
  exact ⟨.nil _, le_refl _, fun hlt ↦ absurd hlt hself, rlpBlocks_self.symm,
    by rw [if_neg hself]; rfl, fun hlt ↦ absurd hlt hself⟩

theorem begin_not_finished : (begin fromNumber toNumber).status ≠ .finished := by
  rw [begin]
  split <;> exact nofun

theorem inRange_begin : InRange chain fromNumber toNumber (begin fromNumber toNumber) := by
  refine ⟨fun hrun hne ↦ ?_, fun _ ↦ ⟨fromNumber, holds_begin, .inr rfl⟩,
    fun hf ↦ absurd hf begin_not_finished, fun _ _ ↦ rfl⟩
  simp only [begin] at hrun ⊢
  split at hrun
  · cases hrun
  · omega

section

variable (h : InRange chain fromNumber toNumber s)
include h

theorem InRange.contiguous : ∃ p, Contiguous chain fromNumber s.writer.sent p := by
  cases hs : s.status with
  | running =>
    obtain ⟨p, hp, -⟩ := h.running hs
    exact ⟨p, hp.sent⟩
  | finished => exact ⟨_, (h.finished hs).1.sent⟩
  | failed e => exact ⟨_, by rw [h.failed e hs]; exact .nil fromNumber⟩

theorem InRange.complete (hto : toNumber ≠ 0)
    {es rest : List ExportEvent} (hsent : s.writer.sent = es ++ rest) (hne : es ≠ [])
    (hes : Contiguous chain fromNumber es (toNumber + 1)) :
    s.status = .finished ∧ es = s.writer.sent := by
  have hcover : ∀ p, Contiguous chain fromNumber s.writer.sent p →
      Contiguous chain (toNumber + 1) rest p := by
    intro p hp
    rw [hsent] at hp
    obtain ⟨c, hc, hrest⟩ := hp.split
    rwa [hc.unique hes] at hrest
  cases hs : s.status with
  | running =>
    obtain ⟨p, hp, hlt | hnil⟩ := h.running hs
    · have := (hcover p hp.sent).le
      have := h.bounded hs hto
      omega
    · rw [hnil] at hsent
      exact absurd (append_eq_nil_iff.mp hsent.symm).1 hne
  | finished =>
    obtain ⟨hi, hend⟩ := h.finished hs
    have hrest := hcover _ hi.sent
    rw [hend hto] at hrest
    have hnil : rest = [] := by
      by_contra hr
      exact lt_irrefl _ (hrest.lt hr)
    rw [hsent, hnil, append_nil]
    exact ⟨rfl, rfl⟩
  | failed e =>
    rw [h.failed e hs] at hsent
    exact absurd (append_eq_nil_iff.mp hsent.symm).1 hne

end

/-- A turn appends the block that comes next, or it sends what is pending and ends. -/
theorem step_cases (maxPayload : ℕ) (hR : ∀ v, C.marshal v ≠ []) (hrun : s.status = .running)
    (hp : s.writer.Holds chain fromNumber p s.i) {v : View} (hv : v.stored < chain.blocks.length) :
    ∃ w', (∃ p', canLoop toNumber v.header s.i = true ∧ s.i ≤ v.stored ∧ p' ≤ s.i ∧
        s.step chain maxPayload toNumber v = { s with i := s.i + 1, writer := w' } ∧
        w'.Holds chain fromNumber p' (s.i + 1) ∧
        (s.writer.Bounded maxPayload p s.i → w'.Bounded maxPayload p' (s.i + 1))) ∨
      ((canLoop toNumber v.header s.i = true → v.stored < s.i) ∧
        s.step chain maxPayload toNumber v = { s with writer := w', status := .finished } ∧
        w'.Holds chain fromNumber s.i s.i ∧
        (s.writer.Bounded maxPayload p s.i → w'.Bounded maxPayload s.i s.i)) := by
  have hlen := chain.length_lt
  by_cases hcan : canLoop toNumber v.header s.i = true ∧ s.i ≤ v.stored
  · have hat : chain.blocks[s.i]? = some (chain.blocks.get ⟨s.i, by omega⟩) :=
      getElem?_eq_getElem (by omega)
    obtain ⟨w', p', happend, hp', hw', hbounded⟩ := hp.appendBlock maxPayload hR v.latest hat
    refine ⟨w', .inl ⟨p', hcan.1, hcan.2, hp', ?_, hw', hbounded⟩⟩
    simp only [Export.step, hrun, hcan.1, getBlockByNumber, hcan.2, hat, if_true, happend,
      mod_eq_of_lt (show s.i + 1 < 2 ^ 64 by omega)]
  · obtain ⟨w', hflush, hw', hbounded⟩ := hp.flush maxPayload hR v.latest
    refine ⟨w', .inr ⟨fun hc ↦ not_le.mp fun hle ↦ hcan ⟨hc, hle⟩, ?_, hw', hbounded⟩⟩
    simp only [Export.step, hrun, getBlockByNumber, Export.finish, hflush]
    split
    · rw [if_neg fun hle ↦ hcan ⟨‹_›, hle⟩]
    · rfl

theorem InRange.step {maxPayload : ℕ} (h : InRange chain fromNumber toNumber s) (hR : ∀ v, C.marshal v ≠ [])
    {v : View} (hv : v.stored < chain.blocks.length) (hto : toNumber ≤ v.stored) :
    InRange chain fromNumber toNumber (s.step chain maxPayload toNumber v) := by
  cases hrun : s.status with
  | finished | failed e => rwa [Export.step, hrun]
  | running =>
    obtain ⟨p, hp, -⟩ := h.running hrun
    have hbounded := h.bounded hrun
    obtain ⟨w', ⟨p', hcan, -, hp', heq, hw', -⟩ | ⟨hcan, heq, hw', -⟩⟩ :=
      step_cases maxPayload hR hrun hp hv
    · rw [heq]
      refine ⟨fun _ hne ↦ ?_, fun _ ↦ ⟨p', hw', .inl (lt_succ_of_le hp')⟩, ?_, ?_⟩
      · rw [canLoop, if_neg hne] at hcan
        exact succ_le_succ (of_decide_eq_true hcan)
      · exact fun hf ↦ absurd (hrun.symm.trans hf) nofun
      · exact fun e hf ↦ absurd (hrun.symm.trans hf) nofun
    · rw [heq]
      refine ⟨nofun, nofun, fun _ ↦ ⟨hw', fun hne ↦ ?_⟩, nofun⟩
      rw [canLoop, if_neg hne, decide_eq_true_eq] at hcan
      have hle := hbounded hne
      show s.i = toNumber + 1
      omega

theorem inRange_run (hR : ∀ v, C.marshal v ≠ []) (fromNumber : ℕ) {views : List View}
    (hviews : ∀ v ∈ views, toNumber ≤ v.stored ∧ v.stored < chain.blocks.length) :
    InRange chain fromNumber toNumber (run chain fromNumber toNumber views) :=
  Run.exec_invariant_mem inRange_begin fun v hv _ hs ↦ hs.step hR (hviews v hv).2 (hviews v hv).1

end Export

end Invariant

end Mainnet.Server
