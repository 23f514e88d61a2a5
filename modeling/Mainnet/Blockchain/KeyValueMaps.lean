import Mainnet.Lib.TypedStore
import Mainnet.Types.StoreRoundTrip
import Mainnet.Blockchain.KeyValue

namespace Mainnet.Blockchain

open Types Lib Rlp List Option BigEndian KV FixedBytes

inductive Key
  | canonicalHash (n : UInt64)
  | headHash
  | headNumber
  | forks
  | totalDifficulty (hash : Hash)
  | header (hash : Hash)
  | body (hash : Hash)
  | receipts (hash : Hash)
  | txLookup (hash : Hash)
deriving DecidableEq

namespace Key

abbrev Val : Key → Type
  | .canonicalHash _ => Hash
  | .headHash => Hash
  | .headNumber => UInt64
  | .forks => List Hash
  | .totalDifficulty _ => ℤ
  | .header _ => Header
  | .body _ => Body
  | .receipts _ => List Receipt
  | .txLookup _ => Hash

def path : Key → Bytes
  | .canonicalHash n => CANONICAL ++ encodeUint n
  | .headHash => HEAD ++ HASH
  | .headNumber => HEAD ++ NUMBER
  | .forks => FORK ++ EMPTY
  | .totalDifficulty hash => DIFFICULTY ++ hash.bytes
  | .header hash => HEADER ++ hash.bytes
  | .body hash => BODY ++ hash.bytes
  | .receipts hash => RECEIPTS ++ hash.bytes
  | .txLookup hash => TX_LOOKUP ++ hash.bytes

def encode (C : Codec) : (k : Key) → k.Val → Bytes
  | .canonicalHash _, hash => hash.bytes
  | .headHash, hash => hash.bytes
  | .headNumber, n => encodeUint n
  | .forks, hashes => C.marshal (forksMarshalRLPWith hashes)
  | .totalDifficulty _, diff => toBytes diff.natAbs
  | .header _, h => C.marshal h.marshalRLPWith
  | .body _, b => C.marshal b.marshalRLPWith
  | .receipts _, rs => C.marshal (receiptsMarshalStoreRLPWith rs)
  | .txLookup _, blockHash => C.marshal (newFixed blockHash)

/-- The values that can be read back: total difficulties without sign, headers and transactions with
their own hash, receipts with a status of one byte. -/
def Good (C : Codec) : (k : Key) → k.Val → Prop
  | .totalDifficulty _, diff => 0 ≤ diff
  | .header _, h => h.Hashed C
  | .body _, b => b.Hashed C
  | .receipts _, rs => ∀ r ∈ rs, r.Storable
  | _, _ => True

theorem encodeUint_injective : Function.Injective encodeUint := by
  intro a b h
  have hab := congrArg ofBytes h
  rw [encodeUint, encodeUint, ofBytes_putUint64 a.toNat_lt, ofBytes_putUint64 b.toNat_lt] at hab
  exact UInt64.toNat_inj.mp hab

theorem path_injective : Function.Injective path := by
  intro a b h
  cases a <;> cases b <;>
    simp_all [path, CANONICAL, HEAD, FORK, DIFFICULTY, HEADER, BODY, RECEIPTS, TX_LOOKUP, HASH,
      NUMBER, encodeUint_injective.eq_iff, FixedBytes.ext_iff]

end Key

abbrev Maps := TypedStore.Maps Key.Val

def noMaps : Maps := fun _ ↦ none

def Write.puts : Write → List (TypedStore.Entry Key.Val)
  | .canonicalHash n hash => [⟨.canonicalHash n, hash⟩]
  | .headHash h => [⟨.headHash, h⟩]
  | .headNumber n => [⟨.headNumber, n⟩]
  | .forks hashes => [⟨.forks, hashes⟩]
  | .totalDifficulty hash diff => [⟨.totalDifficulty hash, diff⟩]
  | .header h => [⟨.header h.hash, h⟩]
  | .canonicalHeader h diff =>
    [⟨.header h.hash, h⟩, ⟨.headHash, h.hash⟩, ⟨.headNumber, UInt64.ofNat h.number⟩,
      ⟨.canonicalHash (UInt64.ofNat h.number), h.hash⟩, ⟨.totalDifficulty h.hash, diff⟩]
  | .body hash b => [⟨.body hash, b⟩]
  | .receipts hash rs => [⟨.receipts hash, rs⟩]
  | .txLookup hash blockHash => [⟨.txLookup hash, blockHash⟩]

def Write.Good (C : Codec) (w : Write) : Prop := ∀ e ∈ w.puts, Key.Good C e.1 e.2

def mapsAfter (ws : List Write) : Maps := ws.foldl (fun m w ↦ w.puts.foldl TypedStore.put m) noMaps

variable {C : Codec} {db : KV} {m : Maps}

abbrev Represents (C : Codec) : KV → Maps → Prop :=
  TypedStore.Represents Key.path (Key.encode C) (Key.Good C)

theorem KV.write_eq (w : Write) :
    db.write C w = w.puts.foldl
      (fun db e ↦ Function.update db (Key.path e.1) (some (Key.encode C e.1 e.2))) db := by
  cases w <;> rfl

theorem represents_writes {ws : List Write} (h : ∀ w ∈ ws, w.Good C) (hr : Represents C db m) :
    Represents C (db.writes C ws) (ws.foldl (fun m w ↦ w.puts.foldl TypedStore.put m) m) := by
  induction ws generalizing db m with
  | nil => exact hr
  | cons w ws ih =>
    have hw := hr.puts Key.path_injective (h w mem_cons_self)
    rw [← write_eq] at hw
    exact ih (fun w' hw' ↦ h w' (mem_cons_of_mem _ hw')) hw

def found {α : Type} : Option α → Except StorageError α
  | none => .error .notFound
  | some a => .ok a

variable {α : Type} {p k : Bytes} {o : Option α} {item : α → Value}
  {obj : Value → Except UnmarshalError α}

theorem readRLP_eq (hC : C.Faithful) {read : α → α}
    (hget : db.get p k = o.map fun a ↦ C.marshal (item a))
    (hobj : ∀ a ∈ o, obj (item a) = .ok (read a)) :
    db.readRLP C p k obj = found (o.map read) := by
  rw [readRLP, hget]
  cases o with
  | none => rfl
  | some a => simp only [map_some, unmarshalRlp_marshal hC, hobj a rfl, found]

theorem readRLP_self (hC : C.Faithful)
    (hget : db.get p k = o.map fun a ↦ C.marshal (item a)) (hobj : ∀ a ∈ o, obj (item a) = .ok a) :
    db.readRLP C p k obj = found o :=
  (readRLP_eq hC hget hobj).trans (congrArg found map_id')

theorem forksUnmarshalRLPFrom_marshal (forks : List Hash) :
    forksUnmarshalRLPFrom (forksMarshalRLPWith forks) = .ok forks :=
  Outcome.mapM_map_self fun h _ ↦ by rw [getHash_newFixed]; rfl

structure Reads (C : Codec) (db : KV) (m : Maps) : Prop where
  canonicalHash : ∀ n, db.readCanonicalHash n = m (.canonicalHash n)
  headHash : db.readHeadHash = m .headHash
  headNumber : db.readHeadNumber = m .headNumber
  forks : db.readForks C = found (m .forks)
  totalDifficulty : ∀ hash, db.readTotalDifficulty hash = m (.totalDifficulty hash)
  header : ∀ hash, db.readHeader C hash = found (m (.header hash))
  body : ∀ hash, db.readBody C hash = found (m (.body hash))
  receipts : ∀ hash, db.readReceipts C hash = found ((m (.receipts hash)).map (map Receipt.stored))
  txLookup : ∀ hash, db.readTxLookup C hash = .ok (m (.txLookup hash))

theorem map_bytesToHash (o : Option Hash) : (o.map bytes).map bytesToHash = o := by
  cases o with
  | none => rfl
  | some h => exact congrArg some (ofBytes_bytes h)

theorem Represents.reads (hC : C.Faithful) (h : Represents C db m) : Reads C db m where
  canonicalHash n := by
    have hget : db.get CANONICAL (encodeUint n) = (m (.canonicalHash n)).map bytes :=
      h.get (.canonicalHash n)
    rw [readCanonicalHash, hget, map_bytesToHash]
  headHash := by
    have hget : db.get HEAD HASH = (m .headHash).map bytes := h.get .headHash
    rw [readHeadHash, hget, map_bytesToHash]
  headNumber := by
    have hget : db.get HEAD NUMBER = (m .headNumber).map encodeUint := h.get .headNumber
    rw [readHeadNumber, hget]
    cases m .headNumber with
    | none => rfl
    | some n =>
      simp only [map_some, encodeUint, length_putUint64, decodeUint,
        ofBytes_putUint64 n.toNat_lt, UInt64.ofNat_toNat, ne_eq, not_true, if_false]
  forks := readRLP_self hC (h.get .forks) fun forks _ ↦ forksUnmarshalRLPFrom_marshal forks
  totalDifficulty hash := by
    have hget : db.get DIFFICULTY hash.bytes =
        (m (.totalDifficulty hash)).map fun diff ↦ toBytes diff.natAbs :=
      h.get (.totalDifficulty hash)
    rw [readTotalDifficulty, hget]
    cases hm : m (.totalDifficulty hash) with
    | none => rfl
    | some diff =>
      have hpos : 0 ≤ diff := h.good _ _ hm
      simp only [map_some, ofBytes_toBytes, Int.natAbs_of_nonneg hpos]
  header hash := readRLP_self hC (h.get (.header hash)) fun _ hm ↦
    Header.unmarshalRLPFrom_of_hashed (h.good _ _ hm)
  body hash := readRLP_self hC (h.get (.body hash)) fun _ hm ↦
    Body.unmarshalRLPFrom_marshalRLPWith (h.good _ _ hm)
  receipts hash := readRLP_eq hC (h.get (.receipts hash)) fun _ hm ↦
    receiptsUnmarshalStoreRLPFrom_marshal (h.good _ _ hm)
  txLookup hash := by
    have hget : db.get TX_LOOKUP hash.bytes =
        (m (.txLookup hash)).map fun blockHash ↦ C.marshal (newFixed blockHash) :=
      h.get (.txLookup hash)
    rw [readTxLookup, hget]
    cases m (.txLookup hash) with
    | none => rfl
    | some blockHash =>
      simp only [map_some, bind_some, hC.parse_marshal, getFixed_newFixed]

/-- After any calls with values that can be read back the storage is a family of independent maps; no
call, with whatever values, changes a cell that it does not name. -/
theorem reads_writes (hC : C.Faithful) {ws : List Write} (hws : ∀ w ∈ ws, w.Good C) :
    Reads C (emptyKV.writes C ws) (mapsAfter ws) ∧
      ∀ (db : KV) (w : Write) (k : Key), (∀ e ∈ w.puts, e.1 ≠ k) →
        db.write C w k.path = db k.path := by
  refine ⟨(represents_writes hws TypedStore.represents_empty).reads hC, fun db w k hk ↦ ?_⟩
  rw [write_eq, TypedStore.puts_of_ne Key.path_injective hk]

def wideReceipt : Receipt := { (default : Receipt) with status := some 256 }

/-- A status of two bytes is read back as `0`, and a negative difficulty without its sign. -/
theorem readReceipts_wide :
    (emptyKV.writes wireCodec [.receipts zeroHash [wideReceipt]]).readReceipts wireCodec zeroHash =
      .ok [{ wideReceipt with status := some 0 }] ∧
    (emptyKV.writes wireCodec [.totalDifficulty zeroHash (-5)]).readTotalDifficulty zeroHash =
      some 5 := by
  have hget : (emptyKV.writes wireCodec [.receipts zeroHash [wideReceipt]]).get RECEIPTS
      zeroHash.bytes = some (wireCodec.marshal (receiptsMarshalStoreRLPWith [wideReceipt])) := by
    simp only [KV.writes, foldl, KV.write, KV.writeReceipts, KV.writeRLP, KV.set, KV.get,
      Function.update_self]
  have hobj : receiptsUnmarshalStoreRLPFrom (receiptsMarshalStoreRLPWith [wideReceipt]) =
      .ok [{ wideReceipt with status := some 0 }] := by
    decide +kernel
  refine ⟨?_, by decide +kernel⟩
  rw [readReceipts, readRLP, hget]
  simp only [unmarshalRlp_marshal (R := wireCodec.toFastrlp) rlpCodec_faithful, hobj]

noncomputable def storedWrites : List Write :=
  let header := wireBlock.header.computeHash wireCodec
  let txs := wireBlock.transactions.map (Transaction.computeHash wireCodec.toKeccak)
  let uncles := wireBlock.uncles.map (Header.computeHash wireCodec)
  [.canonicalHeader header 7, .body header.hash ⟨txs, uncles⟩, .receipts header.hash wireReceipts,
    .forks [header.hash], .txLookup (txs.headD default).hash header.hash]

theorem reads_writes_storedWrites :
    Reads wireCodec (emptyKV.writes wireCodec storedWrites) (mapsAfter storedWrites) ∧
      ∀ (db : KV) (w : Write) (k : Key), (∀ e ∈ w.puts, e.1 ≠ k) →
        db.write wireCodec w k.path = db k.path := by
  have hblock : wireBlock.Typed := ⟨by decide, by decide, by decide⟩
  have hreceipts : ∀ r ∈ wireReceipts, r.Storable := by
    have h : ∀ r ∈ wireReceipts, r.Typed ∧ ∀ s ∈ r.status, s < 256 := by decide
    exact fun r hr ↦ ⟨(h r hr).1, (h r hr).2⟩
  refine reads_writes rlpCodec_faithful ?_
  simp only [storedWrites, forall_mem_cons, Write.Good, Write.puts, Key.Good]
  exact ⟨⟨hblock.header.hashed, trivial, trivial, trivial, by decide, by simp⟩,
    ⟨hblock.hashed, by simp⟩, ⟨hreceipts, by simp⟩, ⟨trivial, by simp⟩, ⟨trivial, by simp⟩, by simp⟩

end Mainnet.Blockchain
