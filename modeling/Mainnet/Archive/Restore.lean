import Mainnet.Archive.Backup

namespace Mainnet.Archive

open Types List

inductive RestoreError
  | stream (e : StreamError)
  /-- "expected metadata in archive but doesn't exist" -/
  | noMetadata
  /-- "the hash of genesis block (%s) does not match blockchain genesis (%s)" -/
  | genesis (block genesis : Hash)
  | verify
  | write
deriving DecidableEq

/-- A block or an error that `nextBlock` returns, and whether a signal has come by the time that the
channel is looked at next. The stream ends where the list does. -/
abbrev Read := Except StreamError Block × Bool

def getHashByNumber (chain : List Block) (number : ℕ) : Hash :=
  (chain[number]?).elim zeroHash fun b ↦ b.header.hash

def consumeCommonBlocks (chain : List Block) :
    List Read → Except RestoreError (Option (Block × List Read))
  | [] => .ok none
  | (.error e, _) :: _ => .error (.stream e)
  | (.ok block, signal) :: reads =>
    if block.header.number = 0 then
      if block.header.hash ≠ getHashByNumber chain 0 then
        .error (.genesis block.header.hash (getHashByNumber chain 0))
      else consumeCommonBlocks chain reads
    else if getHashByNumber chain block.header.number ≠ block.header.hash then
      .ok (some (block, reads))
    else if signal then .ok none
    else consumeCommonBlocks chain reads

inductive Action
  | verified (b : Block)
  | wrote (b : Block)
deriving DecidableEq

variable {σ : Type} (verifyFinalizedBlock : σ → Block → Bool) (writeBlock : σ → Block → Option σ)

def importLoop (s : σ) (nextBlock : Block) (reads : List Read) :
    Except RestoreError Unit × List Action :=
  if verifyFinalizedBlock s nextBlock then
    match writeBlock s nextBlock with
    | none => (.error .write, [.verified nextBlock])
    | some s =>
      let (result, actions) :=
        match reads with
        | [] => (.ok (), [])
        | (.error e, _) :: _ => (.error (.stream e), [])
        | (.ok block, signal) :: reads =>
          if signal then (.ok (), []) else importLoop s block reads
      (result, .verified nextBlock :: .wrote nextBlock :: actions)
  else (.error .verify, [])

/-- The local chain is looked at before anything is written to the ledger `s`. -/
def importBlocks (chain : List Block) (s : σ) (metadata : Except StreamError (Option Metadata))
    (reads : List Read) : Except RestoreError Unit × List Action :=
  match metadata with
  | .error e => (.error (.stream e), [])
  | .ok none => (.error .noMetadata, [])
  | .ok (some metadata) =>
    if (chain[metadata.latest]?).any fun b ↦ b.header.hash = metadata.latestHash then (.ok (), [])
    else
      match consumeCommonBlocks chain reads with
      | .error e => (.error e, [])
      | .ok none => (.ok (), [])
      | .ok (some (firstBlock, reads)) =>
        importLoop verifyFinalizedBlock writeBlock s firstBlock reads

def Known (chain : List Block) (b : Block) : Bool :=
  (chain[b.header.number]?).any fun c ↦ c.header.hash = b.header.hash

def Next (b c : Block) : Prop :=
  c.header.number = b.header.number + 1 ∧ c.header.parentHash = b.header.hash

instance (b c : Block) : Decidable (Next b c) := inferInstanceAs (Decidable (_ ∧ _))

/-- No block of the archive has the hash of another one of the chain, or the one of no block. -/
structure NoCollision (chain archive : List Block) : Prop where
  header_eq : ∀ b ∈ archive, ∀ c ∈ chain, c.header.hash = b.header.hash → c.header = b.header
  ne_zero : ∀ b ∈ archive, b.header.hash ≠ zeroHash

def untouched (archive : List Block) : List Read := archive.map fun b ↦ (.ok b, false)

def writes (blocks : List Block) : List Action := blocks.flatMap fun b ↦ [.verified b, .wrote b]

variable {verifyFinalizedBlock writeBlock} {chain archive : List Block} {s : σ}
  {actions : List Action}

theorem known_iff {b : Block} (hb : b.header.hash ≠ zeroHash) :
    Known chain b = true ↔ getHashByNumber chain b.header.number = b.header.hash := by
  rw [Known, getHashByNumber]
  cases chain[b.header.number]? with
  | none => exact iff_of_false nofun hb.symm
  | some c => simp

theorem importLoop_ok {b : Block}
    (h : importLoop verifyFinalizedBlock writeBlock s b (untouched archive) = (.ok (), actions)) :
    actions = writes (b :: archive) := by
  induction archive generalizing s b actions with
  | nil =>
    rw [importLoop] at h
    split at h
    · split at h
      · cases h
      · exact (Prod.mk.inj h).2.symm
    · cases h
  | cons c archive ih =>
    rw [importLoop] at h
    split at h
    · split at h
      · cases h
      · obtain ⟨hresult, rfl⟩ := Prod.mk.inj h
        have hrest := ih (Prod.ext hresult rfl)
        exact congrArg (fun l ↦ .verified b :: .wrote b :: l) hrest
    · cases h

theorem consume_import_ok (hzero : ∀ b ∈ archive, b.header.hash ≠ zeroHash)
    (h : (match consumeCommonBlocks chain (untouched archive) with
      | .error e => (.error e, [])
      | .ok none => (.ok (), [])
      | .ok (some (firstBlock, reads)) =>
        importLoop verifyFinalizedBlock writeBlock s firstBlock reads) = (.ok (), actions)) :
    actions = writes (archive.dropWhile (Known chain)) := by
  induction archive with
  | nil => exact (Prod.mk.inj h).2.symm
  | cons b archive ih =>
    have hknown : Known chain b = true ↔ _ := known_iff (hzero b mem_cons_self)
    by_cases hk : Known chain b = true
    · have hhash := hknown.mp hk
      have hnext : consumeCommonBlocks chain (untouched (b :: archive)) =
          consumeCommonBlocks chain (untouched archive) := by
        by_cases h0 : b.header.number = 0
        · rw [h0] at hhash
          simp [untouched, consumeCommonBlocks, h0, hhash]
        · simp [untouched, consumeCommonBlocks, h0, hhash]
      rw [dropWhile_cons_of_pos hk]
      exact ih (fun c hc ↦ hzero c (mem_cons_of_mem b hc)) (hnext ▸ h)
    · have hhash := mt hknown.mpr hk
      rw [dropWhile_cons_of_neg hk]
      by_cases h0 : b.header.number = 0
      · rw [h0] at hhash
        simp [untouched, consumeCommonBlocks, h0, Ne.symm hhash] at h
      · simp only [untouched, map_cons, consumeCommonBlocks, if_neg h0, if_pos hhash] at h
        exact importLoop_ok h

theorem all_known (hchain : chain.IsChain Next) (harchive : archive.IsChain Next)
    (hcollision : NoCollision chain archive) {last : Block}
    (hlast : archive.getLast? = some last) (hknown : Known chain last = true) :
    ∀ b ∈ archive, Known chain b = true := by
  induction archive with
  | nil => simp
  | cons b archive ih =>
    cases archive with
    | nil =>
      obtain rfl : b = last := Option.some.inj hlast
      exact forall_mem_singleton.mpr hknown
    | cons c rest =>
      obtain ⟨⟨hnumber, hparent⟩, hrest⟩ := isChain_cons_cons.mp harchive
      have hall := ih hrest ⟨fun b hb ↦ hcollision.header_eq b (mem_cons_of_mem _ hb),
        fun b hb ↦ hcollision.ne_zero b (mem_cons_of_mem _ hb)⟩ hlast
      refine forall_mem_cons.mpr ⟨?_, hall⟩
      have hc := hall c mem_cons_self
      rw [Known, hnumber] at hc
      obtain ⟨d, hd, hhash⟩ := Option.any_eq_true _ _ |>.mp hc
      obtain ⟨hlt, hat⟩ := List.getElem?_eq_some_iff.mp hd
      have hheader := hcollision.header_eq c (by simp) d (mem_of_getElem? hd)
        (of_decide_eq_true hhash)
      have hlink := (isChain_iff_getElem.mp hchain b.header.number hlt).2
      rw [hat, hheader, hparent] at hlink
      rw [Known, getElem?_eq_getElem (by omega)]
      exact decide_eq_true hlink.symm

/-- A restore that returns without an error and without a signal has written the blocks from the
first one on that the local chain does not have, each after its verification. -/
theorem import_missing (verifyFinalizedBlock : σ → Block → Bool) (writeBlock : σ → Block → Option σ)
    (s : σ) (chain archive : List Block) (last : Block) (hchain : chain.IsChain Next)
    (harchive : archive.IsChain Next) (hcollision : NoCollision chain archive)
    (hlast : archive.getLast? = some last)
    (h : importBlocks verifyFinalizedBlock writeBlock chain s
      (.ok (some ⟨last.header.number, last.header.hash⟩)) (untouched archive) = (.ok (), actions)) :
    actions = writes (archive.dropWhile (Known chain)) := by
  rw [importBlocks] at h
  split at h
  · rename_i hknown
    rw [dropWhile_eq_nil_iff.mpr (all_known hchain harchive hcollision hlast hknown)]
    exact (Prod.mk.inj h).2.symm
  · exact consume_import_ok hcollision.ne_zero h

theorem import_missing_one :
    writes [⟨firstHeader, [], []⟩] =
      writes ([⟨genesisHeader, [], []⟩, ⟨firstHeader, [], []⟩].dropWhile
        (Known [⟨genesisHeader, [], []⟩])) :=
  import_missing (fun _ _ ↦ true) (fun _ _ ↦ some ()) () [⟨genesisHeader, [], []⟩] _
    ⟨firstHeader, [], []⟩ (by decide) (by decide) ⟨by decide +kernel, by decide +kernel⟩ rfl
    (by decide +kernel)

end Mainnet.Archive
