import Mathlib.Data.List.Induction
import Mainnet.Syncer.PeerStatuses

namespace Mainnet.Syncer

open List

def NoForkPeer.isBetter (p t : NoForkPeer) : Bool :=
  if p.number ≠ t.number then t.number < p.number else p.distance < t.distance

/-- `peers` are the values of the map in the order `Range` visits them. -/
def bestPeer (skipList : List String) (peers : List NoForkPeer) : Option NoForkPeer :=
  peers.foldl (fun best peer ↦
    if skipList.contains peer.id then best
    else match best with
      | none => some peer
      | some b => if peer.isBetter b then some peer else some b) none

/-- What the `select` of `bulkSyncWithPeer` gets: a block, with the answers of the chain and of the
callback to it, or a timeout. A stream that ends is closed. -/
inductive Arrival
  | block (number : ℕ) (verified written stop : Bool)
  | timeout

inductive Effect
  | wait
  | write (number : ℕ) (stop : Bool)
  | return
deriving DecidableEq

inductive BulkError
  | getBlocks
  | verify
  | write
  | timeout

structure BulkSync where
  lastReceivedNumber : ℕ
  shouldTerminate : Bool
  err : Option BulkError

def receive (lastReceivedNumber : ℕ) (shouldTerminate : Bool) :
    List Arrival → BulkSync × List Effect
  | [] => (⟨lastReceivedNumber, shouldTerminate, none⟩, [])
  | .timeout :: _ => (⟨lastReceivedNumber, shouldTerminate, some .timeout⟩, [])
  | .block number verified written stop :: arrivals =>
    if number = 0 then receive lastReceivedNumber shouldTerminate arrivals
    else if !verified then (⟨lastReceivedNumber, false, some .verify⟩, [])
    else if !written then (⟨lastReceivedNumber, false, some .write⟩, [])
    else (receive number stop arrivals).map id (.write number stop :: ·)

def bulkSyncWithPeer : Option (List Arrival) → BulkSync × List Effect
  | none => (⟨0, false, some .getBlocks⟩, [])
  | some arrivals => receive 0 false arrivals

/-- What `Sync` does after it: `behind` if it ended below the peer's height, `rest` otherwise. -/
def BulkSync.onward (result : BulkSync) (height : ℕ) (behind rest : List Effect) : List Effect :=
  if result.lastReceivedNumber < height then behind
  else if result.shouldTerminate then [.return]
  else rest

structure Round where
  header : ℕ
  peers : List NoForkPeer
  blocks : Option (List Arrival)

/-- The effects of `Sync`, with one round for each status event it gets; after them it waits. -/
def sync (skipList : List String) : List Round → List Effect
  | [] => [.wait]
  | round :: rounds => .wait ::
    match bestPeer skipList round.peers with
    | none => sync [] rounds
    | some best =>
      if best.number ≤ round.header then sync skipList rounds
      else
        let (result, writes) := bulkSyncWithPeer round.blocks
        writes ++
          result.onward best.number (sync (best.id :: skipList) rounds) (sync skipList rounds)

def Honours : List Effect → Prop
  | [] => True
  | .write _ true :: effects => effects = [.return]
  | _ :: effects => Honours effects

def Over : List Arrival → Prop
  | .block number _ _ _ :: arrivals => number = 0 ∧ Over arrivals
  | _ => True

/-- The callback returns true only for the last block, and that one reaches the height. -/
def StopsLast (height : ℕ) : List Arrival → Prop
  | .block number verified written stop :: arrivals =>
    if number = 0 then StopsLast height arrivals
    else verified → written →
      if stop then height ≤ number ∧ Over arrivals else StopsLast height arrivals
  | _ => True

/-- The best peer is not skipped, and no peer that is not skipped is better. -/
theorem bestPeer_spec (skipList : List String) (peers : List NoForkPeer) :
    (bestPeer skipList peers = none ↔ ∀ p ∈ peers, p.id ∈ skipList) ∧
      ∀ best ∈ bestPeer skipList peers, (best ∈ peers ∧ best.id ∉ skipList) ∧
        ∀ p ∈ peers, p.id ∉ skipList → ¬ p.isBetter best := by
  induction peers using reverseRecOn with
  | nil => simp [bestPeer]
  | append_singleton peers p ih =>
    unfold bestPeer at ih ⊢
    rw [foldl_append, foldl_cons, foldl_nil]
    generalize foldl _ none peers = best at ih ⊢
    cases best with
    | none => grind [NoForkPeer.isBetter]
    | some b =>
      obtain ⟨hb, hmax⟩ := ih.2 b rfl
      dsimp only
      split_ifs <;> grind [NoForkPeer.isBetter]

section Stream

variable (height : ℕ) {last : ℕ} {behind rest : List Effect} (hbehind : behind ≠ [.return])
  (hrest : rest ≠ [.return])
include hbehind hrest

theorem onward_eq_return_iff (result : BulkSync) :
    result.onward height behind rest = [.return] ↔
      height ≤ result.lastReceivedNumber ∧ result.shouldTerminate := by
  unfold BulkSync.onward
  split
  · next h => simp [hbehind, Nat.not_le.mpr h]
  · next h => cases result.shouldTerminate <;> simp [hrest, Nat.le_of_not_lt h]

theorem receive_true_eq_iff (arrivals : List Arrival) :
    (receive last true arrivals).2 ++ (receive last true arrivals).1.onward height behind rest =
      [.return] ↔ height ≤ last ∧ Over arrivals := by
  have honward := onward_eq_return_iff height hbehind hrest
  induction arrivals with
  | nil => simp [receive, honward, Over]
  | cons arrival arrivals ih =>
    cases arrival with
    | timeout => simp [receive, honward, Over]
    | block number verified written stop =>
      rw [receive, Over]
      split
      · next h => exact ih.trans (by rw [and_iff_right h])
      · next h => cases verified <;> cases written <;> simp [honward, h]

theorem honours_receive_iff (arrivals : List Arrival) :
    Honours ((receive last false arrivals).2 ++
        (receive last false arrivals).1.onward height behind rest) ↔
      StopsLast height arrivals ∧
        Honours ((receive last false arrivals).1.onward height behind rest) := by
  induction arrivals generalizing last with
  | nil => simp [receive, StopsLast]
  | cons arrival arrivals ih =>
    cases arrival with
    | timeout => simp [receive, StopsLast]
    | block number verified written stop =>
      rw [receive, StopsLast]
      split
      · exact ih
      · cases verified <;> cases written <;> try simp
        cases stop with
        | false => simpa [Honours] using ih
        | true =>
          have hstop := @receive_true_eq_iff height number _ _ hbehind hrest arrivals
          simp only [Honours, hstop, if_true, iff_self_and]
          intro h
          rcases append_eq_singleton_iff.mp (hstop.mpr h) with ⟨-, h⟩ | ⟨-, h⟩ <;> simp [h, Honours]

theorem honours_bulkSyncWithPeer_iff (blocks : Option (List Arrival)) :
    Honours ((bulkSyncWithPeer blocks).2 ++
        (bulkSyncWithPeer blocks).1.onward height behind rest) ↔
      (∀ arrivals ∈ blocks, StopsLast height arrivals) ∧
        Honours ((bulkSyncWithPeer blocks).1.onward height behind rest) := by
  cases blocks with
  | none => simp [bulkSyncWithPeer]
  | some arrivals => simpa [bulkSyncWithPeer] using honours_receive_iff height hbehind hrest arrivals

end Stream

/-- In every round that syncs with a peer the callback stops at the last block of the stream. -/
def StopsEach (skipList : List String) : List Round → Prop
  | [] => True
  | round :: rounds =>
    match bestPeer skipList round.peers with
    | none => StopsEach [] rounds
    | some best =>
      if best.number ≤ round.header then StopsEach skipList rounds
      else
        (∀ arrivals ∈ round.blocks, StopsLast best.number arrivals) ∧
        if (bulkSyncWithPeer round.blocks).1.lastReceivedNumber < best.number then
          StopsEach (best.id :: skipList) rounds
        else (bulkSyncWithPeer round.blocks).1.shouldTerminate ∨ StopsEach skipList rounds

theorem sync_ne_return (skipList : List String) (rounds : List Round) :
    sync skipList rounds ≠ [.return] := by
  cases rounds <;> simp [sync]

theorem sync_honours_iff (rounds : List Round) : Honours (sync [] rounds) ↔ StopsEach [] rounds := by
  generalize ([] : List String) = skipList
  induction rounds generalizing skipList with
  | nil => simp [sync, Honours, StopsEach]
  | cons round rounds ih =>
    have hwait : ∀ effects, Honours (.wait :: effects) ↔ Honours effects := fun _ ↦ by simp [Honours]
    rw [sync, hwait, StopsEach]
    cases bestPeer skipList round.peers with
    | none => exact ih []
    | some best =>
      dsimp only
      split
      · exact ih skipList
      · rw [honours_bulkSyncWithPeer_iff _ (sync_ne_return _ _) (sync_ne_return _ _), BulkSync.onward]
        refine and_congr_right fun _ ↦ ?_
        split
        · exact ih _
        · split
          · next h => simp [Honours, h]
          · next h => simp [ih, h]

/-- The peer has three blocks and the callback returns true for the first of them. -/
theorem sync_not_honours :
    sync [] [⟨0, [⟨"a", 3, 1⟩], some [.block 1 true true true, .block 2 true true false,
        .block 3 true true false]⟩] =
      [.wait, .write 1 true, .write 2 false, .write 3 false, .wait] ∧
    ¬ Honours [.wait, .write 1 true, .write 2 false, .write 3 false, .wait] :=
  ⟨by decide, by simp [Honours]⟩

end Mainnet.Syncer
