import Mathlib.Data.List.FinRange
import Mainnet.Lib.FirstFit
import Mainnet.Types.Basic

namespace Mainnet.Parallel

open Types Lib List FirstFit

/-- A transaction with its declared access sets; `ref` is the pointer by which the executor
handles it. -/
structure ParallelTx where
  ref : ℕ
  tx : Option Transaction
  readSet : List String
  writeSet : List String
deriving DecidableEq

inductive ExecError
  | nilValue
  | zeroHash
deriving DecidableEq

inductive ParallelError
  | nilList
deriving DecidableEq

structure ExecutionResult where
  tx : ParallelTx
  result : Except ExecError Hash

def executeTx (tx : ParallelTx) : Except ExecError Hash :=
  match tx.tx with
  | none => .error .nilValue
  | some t => if t.hash = zeroHash then .error .zeroHash else .ok t.hash

/-- The goroutines of a batch write their results to their own positions. -/
def executeBatch (txs : List ParallelTx) : List ExecutionResult :=
  txs.map fun tx ↦ ⟨tx, executeTx tx⟩

def intersects (a b : List String) : Bool :=
  if a.length = 0 ∨ b.length = 0 then false
  else if a.length > b.length then a.any fun s ↦ decide (s ∈ b)
  else b.any fun s ↦ decide (s ∈ a)

def setsConflict (tx1 tx2 : ParallelTx) : Bool :=
  intersects tx1.writeSet tx2.writeSet || (intersects tx1.readSet tx2.writeSet ||
    intersects tx1.writeSet tx2.readSet)

def conflicts (tx1 tx2 : ParallelTx) : Bool :=
  if tx1.ref = tx2.ref then false else setsConflict tx1 tx2

def groupTransactions (txs : List ParallelTx) : List (List ParallelTx) :=
  firstFit conflicts txs

/-- The first `none` stands for a nil slice, an inner one for a nil pointer. -/
def executeTransactions (txs : Option (List (Option ParallelTx))) :
    Except ParallelError (List ExecutionResult) :=
  match txs with
  | none => .error .nilList
  | some txs =>
    let validTxs := (txs.filterMap id).filter fun tx ↦ tx.tx.isSome
    .ok ((groupTransactions validTxs).flatMap executeBatch)

theorem intersects_iff {a b : List String} : intersects a b = true ↔ ∃ s, s ∈ a ∧ s ∈ b := by
  rw [intersects]
  split_ifs with hempty hlen
  · have hnot : ¬ ∃ s, s ∈ a ∧ s ∈ b := by
      rintro ⟨s, ha, hb⟩
      rcases hempty with h | h
      · exact ne_nil_of_mem ha (length_eq_zero_iff.mp h)
      · exact ne_nil_of_mem hb (length_eq_zero_iff.mp h)
    simpa using hnot
  · simp
  · simp [and_comm]

def schedule (txs : List ParallelTx) : List (List (Fin txs.length)) :=
  firstFit (fun i j ↦ conflicts (txs.get i) (txs.get j)) (finRange txs.length)

theorem groupTransactions_eq (txs : List ParallelTx) :
    groupTransactions txs = (schedule txs).map (map txs.get) := by
  rw [schedule, ← firstFit_map, map_get_finRange, groupTransactions]

theorem mem_schedule {txs : List ParallelTx} {i : Fin txs.length} {g : ℕ} :
    i ∈ (schedule txs).getD g [] ↔ groupOf conflicts txs i = g := by
  have hgroup : groupOf (fun i j ↦ conflicts (txs.get i) (txs.get j))
      (finRange txs.length) i = groupOf conflicts txs i := by
    rw [← groupOf_map, map_get_finRange]
  rw [schedule, mem_firstFit, ← hgroup]
  constructor
  · rintro ⟨j, hj, hg⟩
    obtain ⟨hlt, heq⟩ := List.getElem?_eq_some_iff.mp hj
    have hij : j = i := by simpa using congrArg Fin.val heq
    rw [← hij, hg]
  · intro hg
    exact ⟨i, by simp, hg⟩

end Mainnet.Parallel
