import Mainnet.Lib.Timeline
import Mainnet.Lib.Outcome
import Mainnet.Validators.Set

namespace Mainnet.Validators

open Types Lib List Option Nat Timeline

structure Vote where
  validator : Address
  candidate : Validator
  authorize : Bool
deriving DecidableEq

def Vote.equal (v vv : Vote) : Bool :=
  decide (v.validator = vv.validator) && v.candidate.equal vv.candidate &&
    decide (v.authorize = vv.authorize)

theorem Vote.equal_iff (v vv : Vote) : v.equal vv = true ↔ v = vv := by
  cases v; cases vv
  simp [Vote.equal, Validator.equal_iff, and_assoc]

structure Snapshot where
  number : ℕ
  hash : Hash
  votes : List Vote
  set : ValidatorSet
deriving DecidableEq

open Snapshot

namespace Snapshot

variable (s : Snapshot)

def equal (ss : Snapshot) : Bool :=
  decide (s.votes.length = ss.votes.length) &&
    (s.votes.zip ss.votes).all (fun p ↦ p.1.equal p.2) && s.set.equal ss.set

def count (h : Vote → Bool) : ℕ := s.votes.countP h

def addVote (voter : Address) (candidate : Validator) (authorize : Bool) : Snapshot :=
  { s with votes := s.votes ++ [⟨voter, candidate, authorize⟩] }

/-- `Copy` leaves number and hash at their zero values. -/
def copy : Snapshot := ⟨0, zeroHash, s.votes, s.set⟩

def countByVoterAndCandidate (voter : Address) (candidate : Validator) : ℕ :=
  s.count fun v ↦ decide (v.validator = voter) && v.candidate.equal candidate

def countByCandidate (candidate : Validator) : ℕ := s.count fun v ↦ v.candidate.equal candidate

def removeVotes (shouldRemoveFn : Vote → Bool) : Snapshot :=
  { s with votes := s.votes.filter fun v ↦ !shouldRemoveFn v }

def removeVotesByVoter (address : Address) : Snapshot :=
  s.removeVotes fun v ↦ decide (v.validator = address)

def removeVotesByCandidate (candidate : Validator) : Snapshot :=
  s.removeVotes fun v ↦ v.candidate.equal candidate

end Snapshot

inductive StoreError
  | invalidNonce
  | snapshotNotFound
  | unauthorizedProposer
  | incorrectNonce
  | multipleVotesBySameValidator
  | signerNotFound (number : ℕ)
  | signer
  | candidate
  | set (e : SetError)
deriving DecidableEq

structure SnapshotStore where
  lastNumber : ℕ
  list : List Snapshot
deriving DecidableEq

/-- The loop of `findClosestSnapshotIndex` with `hi = high + 1`; `none` is an index out of range. -/
def closestLoop (l : List Snapshot) (blockNum : ℕ) : ℕ → ℕ → ℕ → Option ℕ
  | 0, _, _ => none
  | fuel + 1, low, hi =>
    if low < hi then
      match l[(hi - 1 + low) / 2]? with
      | none => none
      | some s =>
        if blockNum < s.number then closestLoop l blockNum fuel low ((hi - 1 + low) / 2)
        else if blockNum > s.number then closestLoop l blockNum fuel ((hi - 1 + low) / 2 + 1) hi
        else some ((hi - 1 + low) / 2)
    else if hi = 0 then none
    else
      match l[low]?, l[hi - 1]? with
      | some upper, some lower =>
        some (if upper.number - blockNum < blockNum - lower.number then hi - 1 else low)
      | _, _ => none

def findClosestSnapshotIndex (l : List Snapshot) (blockNum : ℕ) : Option ℕ :=
  match l.head?, l.getLast? with
  | some first, some last =>
    if blockNum < first.number then some 0
    else if blockNum > last.number then some (l.length - 1)
    else closestLoop l blockNum (l.length + 1) 0 l.length
  | _, _ => none

namespace SnapshotStore

variable (s : SnapshotStore)

def updateLastBlock (num : ℕ) : SnapshotStore := { s with lastNumber := num }

/-- `none` is the panic on an empty list. -/
def deleteLower (num : ℕ) : Option SnapshotStore :=
  (findClosestSnapshotIndex s.list num).map fun pruneIndex ↦
    { s with list := s.list.drop pruneIndex }

def find (num : ℕ) : Option Snapshot :=
  match s.list.getLast? with
  | none => none
  | some last =>
    if last.number < num then some last
    else
      let i := Search.search s.list.length fun i ↦ (s.list[i]?).all fun snap ↦ num ≤ snap.number
      match s.list[i]? with
      | none => none
      | some snap =>
        if i = 0 then some snap
        else if snap.number = num then some snap
        else s.list[i - 1]?

def add (snap : Snapshot) : SnapshotStore :=
  { s with list := (s.list ++ [snap]).insertionSort fun a b ↦ a.number ≤ b.number }

def getValidatorsByHeight (height : ℕ) : Except StoreError ValidatorSet :=
  match s.find height with
  | none => .error .snapshotNotFound
  | some snapshot => .ok snapshot.set

def votes (height : ℕ) : Except StoreError (List Vote) :=
  match s.find height with
  | none => .error .snapshotNotFound
  | some snapshot => .ok snapshot.votes

end SnapshotStore

section Numbers

variable (f : Snapshot → Snapshot) (hf : ∀ s, (f s).number = s.number)

include hf

theorem closestLoop_map (l : List Snapshot) (num fuel low hi : ℕ) :
    closestLoop (l.map f) num fuel low hi = closestLoop l num fuel low hi := by
  induction fuel generalizing low hi with
  | zero => rfl
  | succ fuel ih =>
    unfold closestLoop
    simp only [getElem?_map, ih]
    cases l[(hi - 1 + low) / 2]? <;> cases l[low]? <;> cases l[hi - 1]? <;>
      simp only [map_some, map_none, hf]

theorem findClosestSnapshotIndex_map (l : List Snapshot) (num : ℕ) :
    findClosestSnapshotIndex (l.map f) num = findClosestSnapshotIndex l num := by
  simp only [findClosestSnapshotIndex, head?_map, getLast?_map, closestLoop_map f hf, length_map]
  cases l.head? <;> cases l.getLast? <;> simp only [map_some, map_none, hf]

end Numbers

section Closest

variable {l : List Snapshot} {num i : ℕ}

theorem closestLoop_hit (h : Ascending number l) (hi : i < l.length)
    (heq : l[i].number = num) {fuel low high : ℕ} (hlow : low ≤ i) (hhigh : i < high)
    (hlen : high ≤ l.length) (hfuel : high - low ≤ fuel) : closestLoop l num fuel low high = some i := by
  induction fuel generalizing low high with
  | zero => omega
  | succ fuel ih =>
    have hmid : (high - 1 + low) / 2 < l.length := by omega
    rw [closestLoop, if_pos (by omega), getElem?_eq_getElem hmid]
    dsimp only
    rcases lt_trichotomy ((high - 1 + low) / 2) i with hlt | hmi | hgt
    · have hkey := h.lt hmid hi hlt
      rw [if_neg (by omega), if_pos (by omega)]
      exact ih (by omega) hhigh hlen (by omega)
    · simp only [hmi, heq, lt_irrefl, if_false]
    · have hkey := h.lt hi hmid hgt
      rw [if_pos (by omega)]
      exact ih hlow hgt (by omega) (by omega)

theorem closestLoop_gap (h : Ascending number l) (hi : i + 1 < l.length)
    (hlt : l[i].number < num) (hgt : num < l[i + 1].number) {fuel low high : ℕ} (hlow : low ≤ i + 1)
    (hhigh : i < high) (hlen : high ≤ l.length) (hfuel : high - low < fuel) :
    closestLoop l num fuel low high =
      some (if l[i + 1].number - num < num - l[i].number then i else i + 1) := by
  induction fuel generalizing low high with
  | zero => omega
  | succ fuel ih =>
    rw [closestLoop]
    by_cases hc : low < high
    · have hmid : (high - 1 + low) / 2 < l.length := by omega
      rw [if_pos hc, getElem?_eq_getElem hmid]
      dsimp only
      rcases lt_or_ge i ((high - 1 + low) / 2) with hm | hm
      · have hkey := h.le hi hmid hm
        rw [if_pos (by omega)]
        exact ih hlow hm (by omega) (by omega)
      · have hkey := h.le hmid (by omega) hm
        rw [if_neg (by omega), if_pos (by omega)]
        exact ih (by omega) hhigh hlen (by omega)
    · obtain rfl : low = i + 1 := by omega
      obtain rfl : high = i + 1 := by omega
      rw [if_neg hc, if_neg (by omega), getElem?_eq_getElem hi, Nat.add_sub_cancel,
        getElem?_eq_getElem (by omega)]

/-- Pruning at `num` drops the snapshot in force at `num`: there is a later one, and it is not
closer to `num`. -/
def DropsInForce (l : List Snapshot) (num : ℕ) : Prop :=
  ∃ p n, inForce number l num = some p ∧
    next number l num = some n ∧ p.number < num ∧ num - p.number ≤ n.number - num

theorem dropsInForce_iff (h : Ascending number l) (hi : i < l.length)
    (hle : l[i].number ≤ num) (hnext : ∀ hj : i + 1 < l.length, num < l[i + 1].number) :
    DropsInForce l num ↔ ∃ hj : i + 1 < l.length, l[i].number < num ∧
      num - l[i].number ≤ l[i + 1].number - num := by
  rw [DropsInForce, inForce_eq h hi hle hnext, next_eq h hi hle hnext]
  constructor
  · rintro ⟨p, n, hp, hn, hlt, hd⟩
    obtain ⟨hj, rfl⟩ := List.getElem?_eq_some_iff.mp hn
    cases hp
    exact ⟨hj, hlt, hd⟩
  · rintro ⟨hj, hlt, hd⟩
    exact ⟨_, _, rfl, getElem?_eq_getElem hj, hlt, hd⟩

theorem findClosestSnapshotIndex_eq [Decidable (DropsInForce l num)]
    (h : Ascending number l) (hi : i < l.length) (hle : l[i].number ≤ num)
    (hnext : ∀ hj : i + 1 < l.length, num < l[i + 1].number) :
    findClosestSnapshotIndex l num = some (if DropsInForce l num then i + 1 else i) := by
  have hdrops := dropsInForce_iff h hi hle hnext
  have hfirst : l[0].number ≤ l[i].number := h.le _ _ (zero_le i)
  rw [findClosestSnapshotIndex, head?_eq_getElem?, getLast?_eq_getElem?,
    getElem?_eq_getElem (by omega : 0 < l.length),
    getElem?_eq_getElem (by omega : l.length - 1 < l.length)]
  dsimp only
  rw [if_neg (by omega)]
  by_cases hj : i + 1 < l.length
  · have hgt := hnext hj
    have hlast : l[i + 1].number ≤ l[l.length - 1].number := h.le _ _ (by omega)
    rw [if_neg (by omega)]
    rcases lt_or_eq_of_le hle with hlt | heq
    · rw [closestLoop_gap h hj hlt hgt (by omega) hi le_rfl (by omega)]
      by_cases hd : DropsInForce l num
      · obtain ⟨_, _, hdist⟩ := hdrops.mp hd
        rw [if_pos hd, if_neg (by omega)]
      · have hdist : l[i + 1].number - num < num - l[i].number := by
          by_contra hnot
          exact hd (hdrops.mpr ⟨hj, hlt, by omega⟩)
        rw [if_neg hd, if_pos hdist]
    · have hd : ¬ DropsInForce l num := fun hd ↦ by
        obtain ⟨_, hlt, _⟩ := hdrops.mp hd
        omega
      rw [if_neg hd, closestLoop_hit h hi heq (by omega) hi le_rfl (by omega)]
  · have hd : ¬ DropsInForce l num := fun hd ↦ hj (hdrops.mp hd).1
    obtain rfl : i = l.length - 1 := by omega
    rw [if_neg hd]
    rcases lt_or_eq_of_le hle with hlt | heq
    · rw [if_pos hlt]
    · rw [if_neg (by omega), closestLoop_hit h hi heq (by omega) hi le_rfl (by omega)]

end Closest

namespace SnapshotStore

variable {s : SnapshotStore} {num : ℕ}

theorem find_lookup (s : SnapshotStore) (num : ℕ) : s.find num = lookup number s.list num := by
  unfold find Timeline.lookup
  cases s.list.getLast? with
  | none => rfl
  | some last =>
    dsimp only
    by_cases hlt : last.number < num
    · rw [if_pos hlt, if_pos hlt]
    · rw [if_neg hlt, if_neg hlt]
      generalize Search.search s.list.length _ = i
      cases s.list[i]? <;> rfl

theorem search_position {l : List Snapshot} (h : l.Pairwise fun a b ↦ a.number ≤ b.number)
    (hlast : l.length - 1 < l.length) (hge : num ≤ l[l.length - 1].number) {i : ℕ}
    (hi : Search.search l.length (fun i ↦ (l[i]?).all fun snap ↦ num ≤ snap.number) = i) :
    ∃ hlt : i < l.length, num ≤ l[i].number ∧ ∀ j, (hj : j < i) → l[j].number < num := by
  obtain ⟨-, hbelow, hat⟩ := Search.search_spec l.length
    (f := fun i ↦ (l[i]?).all fun snap ↦ num ≤ snap.number) (fun a b hab ha ↦ by
      rcases lt_or_ge b l.length with hb | hb
      · rw [getElem?_eq_getElem hb]
        rw [getElem?_eq_getElem (by omega)] at ha
        have hkey : l[a].number ≤ l[b].number := by
          rcases hab.eq_or_lt with rfl | hlt
          · exact le_rfl
          · exact pairwise_iff_getElem.mp h a b _ _ hlt
        simp only [all_some, decide_eq_true_eq] at ha ⊢
        omega
      · rw [getElem?_eq_none hb, all_none])
  rw [hi] at hbelow hat
  have hlow : ∀ j, (hj : j < l.length) → j < i → l[j].number < num := by
    intro j hj hji
    have hf := hbelow j hji
    simp only [getElem?_eq_getElem hj, all_some, decide_eq_false_iff_not] at hf
    exact not_le.mp hf
  have hlt : i < l.length := by
    by_contra hout
    have hf := hlow (l.length - 1) hlast (by omega)
    omega
  refine ⟨hlt, ?_, fun j hj ↦ hlow j (hj.trans hlt) hj⟩
  simpa only [getElem?_eq_getElem hlt, all_some, decide_eq_true_eq] using hat hlt

section

variable (h : Ascending number s.list)
include h

theorem find_eq (num : ℕ) : s.find num = (inForce number s.list num).or s.list.head? := by
  obtain ⟨last, l⟩ := s
  replace h : Ascending number l := h
  simp only [find]
  rcases Nat.eq_zero_or_pos l.length with hl | hl
  · obtain rfl := length_eq_zero_iff.mp hl
    rfl
  have hlast : l.length - 1 < l.length := by omega
  rw [getLast?_eq_getElem?, getElem?_eq_getElem hlast]
  dsimp only
  by_cases hlt : l[l.length - 1].number < num
  · rw [if_pos hlt, inForce_eq h hlast hlt.le (fun hj ↦ by omega), some_or]
  · rw [if_neg hlt]
    generalize hsearch : Search.search l.length
      (fun i ↦ (l[i]?).all fun snap ↦ num ≤ snap.number) = i
    obtain ⟨hi, hge, hbelow⟩ :=
      search_position (h.imp fun hab ↦ hab.le) hlast (not_lt.mp hlt) hsearch
    rw [getElem?_eq_getElem hi]
    dsimp only
    by_cases heq : l[i].number = num
    · have hin := inForce_eq h hi heq.le (fun hj ↦ heq ▸ h.lt hi hj (lt_succ_self i))
      simp only [hin, heq, if_true, ite_self, some_or]
    · rcases Nat.eq_zero_or_pos i with rfl | hpos
      · rw [if_pos rfl, inForce_eq_none h (fun _ ↦ by omega), none_or,
          head?_eq_getElem?, getElem?_eq_getElem hl]
      · have hprev : i - 1 < l.length := by omega
        have hlow := hbelow (i - 1) (by omega)
        rw [if_neg (by omega), if_neg heq, getElem?_eq_getElem hprev,
          inForce_eq h hprev hlow.le ?_, some_or]
        intro hj
        simp only [Nat.sub_add_cancel hpos]
        omega

theorem find_of_inForce {snap : Snapshot}
    (hs : inForce number s.list num = some snap) : s.find num = some snap := by
  rw [find_eq h, hs, some_or]

theorem find_drop {i height last : ℕ}
    (hi : i < s.list.length) (hle : s.list[i].number ≤ height) :
    (⟨last, s.list.drop i⟩ : SnapshotStore).find height = s.find height := by
  obtain ⟨k, hk, hkle, hknext⟩ := exists_position h ⟨_, getElem_mem hi, hle⟩
  have hin := inForce_eq h hk hkle hknext
  rw [find_of_inForce h hin]
  exact find_of_inForce (h.drop (i := i)) ((inForce_drop hi hle).trans hin)

end

def SameAnswers (s s' : SnapshotStore) (height : ℕ) : Prop :=
  s'.find height = s.find height ∧ s'.getValidatorsByHeight height = s.getValidatorsByHeight height ∧
    s'.votes height = s.votes height

theorem sameAnswers_iff {s' : SnapshotStore} {height : ℕ} :
    SameAnswers s s' height ↔ s'.find height = s.find height := by
  constructor
  · exact And.left
  · intro hf
    refine ⟨hf, ?_, ?_⟩
    · rw [getValidatorsByHeight, hf, getValidatorsByHeight]
    · rw [SnapshotStore.votes, hf, SnapshotStore.votes]

/-- Pruning keeps every answer from `num` on exactly when it keeps the snapshot in force at `num`.
Where it does not, the following snapshot answers for the heights before its own. -/
theorem deleteLower_answers (s : SnapshotStore) (num : ℕ)
    (hasc : Ascending number s.list) (hbelow : ∃ p ∈ s.list, p.number ≤ num) :
    ∃ s', s.deleteLower num = some s' ∧
      ((∀ height ≥ num, SameAnswers s s' height) ↔ ¬ DropsInForce s.list num) ∧
      (DropsInForce s.list num → ∃ p n, inForce number s.list num = some p ∧
        next number s.list num = some n ∧ ∀ height ≥ num,
          (height < n.number → s.find height = some p ∧ s'.find height = some n) ∧
          (n.number ≤ height → SameAnswers s s' height)) := by
  classical
  obtain ⟨i, hi, hle, hnext⟩ := exists_position hasc hbelow
  rw [deleteLower, findClosestSnapshotIndex_eq hasc hi hle hnext, map_some]
  refine ⟨_, rfl, ?_⟩
  by_cases hd : DropsInForce s.list num
  · obtain ⟨hj, hlt, -⟩ := (dropsInForce_iff hasc hi hle hnext).mp hd
    rw [if_pos hd]
    have hpruned : ∀ height ≥ num, height < s.list[i + 1].number →
        s.find height = some s.list[i] ∧
        (⟨s.lastNumber, s.list.drop (i + 1)⟩ : SnapshotStore).find height = some s.list[i + 1] := by
      intro height hge hbefore
      refine ⟨find_of_inForce hasc (inForce_eq hasc hi (hle.trans hge) fun _ ↦ hbefore), ?_⟩
      rw [find_eq (hasc.drop (i := i + 1)),
        inForce_eq_none (hasc.drop (i := i + 1)) (fun _ ↦ by simpa using hbefore),
        none_or, head?_drop, getElem?_eq_getElem hj]
    refine ⟨⟨fun hsame ↦ ?_, fun hnd ↦ absurd hd hnd⟩, fun _ ↦ ?_⟩
    · obtain ⟨hold, hnew⟩ := hpruned num le_rfl (hnext hj)
      have heq := sameAnswers_iff.mp (hsame num le_rfl)
      rw [hold, hnew, some.injEq] at heq
      have hkey : s.list[i].number < s.list[i + 1].number := hasc.lt _ _ (lt_succ_self i)
      rw [heq] at hkey
      omega
    · refine ⟨_, _, inForce_eq hasc hi hle hnext,
        (next_eq hasc hi hle hnext).trans (getElem?_eq_getElem hj), ?_⟩
      exact fun height hge ↦ ⟨hpruned height hge,
        fun hafter ↦ sameAnswers_iff.mpr (find_drop hasc hj hafter)⟩
  · rw [if_neg hd]
    refine ⟨⟨fun _ ↦ hd, fun _ height hge ↦ ?_⟩, fun hd' ↦ absurd hd' hd⟩
    exact sameAnswers_iff.mpr (find_drop hasc hi (hle.trans hge))

def emptySet : ValidatorSet := ⟨.ecdsa, [], by simp⟩

def numbered (numbers : List ℕ) : SnapshotStore :=
  ⟨10, numbers.map fun number ↦ ⟨number, zeroHash, [], emptySet⟩⟩

theorem deleteLower_answers_twenty :
    ∃ s', (numbered [10, 19, 25, 30]).deleteLower 20 = some s' ∧
      ¬ ∀ height ≥ 20, SameAnswers (numbered [10, 19, 25, 30]) s' height := by
  obtain ⟨s', hs', hiff, -⟩ := deleteLower_answers (numbered [10, 19, 25, 30]) 20
    (by decide) ⟨⟨10, zeroHash, [], emptySet⟩, by decide, by decide⟩
  refine ⟨s', hs', fun hsame ↦ hiff.mp hsame ?_⟩
  exact ⟨⟨19, zeroHash, [], emptySet⟩, ⟨25, zeroHash, [], emptySet⟩, by decide +kernel,
    by decide +kernel, by decide, by decide⟩

/-- Pruning 0, 30 at block 10 changes the answer at block 10 from 0 to 30. -/
theorem deleteLower_changes_answer :
    ¬ ∀ (s : SnapshotStore) (num : ℕ), Ascending number s.list →
      (∃ p ∈ s.list, p.number ≤ num) → ∀ s', s.deleteLower num = some s' →
        ∀ height ≥ num, SameAnswers s s' height := by
  intro hall
  have hsame := hall (numbered [0, 30]) 10 (by decide)
    ⟨⟨0, zeroHash, [], emptySet⟩, by decide, by decide⟩ (numbered [30]) (by decide +kernel) 10 le_rfl
  exact absurd hsame.1 (by decide +kernel)

theorem foldl_add (snaps : List Snapshot) (hs : s.list.Pairwise fun a b ↦ a.number ≤ b.number) :
    ((snaps.foldl add s).list.Pairwise fun a b ↦ a.number ≤ b.number) ∧
      (snaps.foldl add s).list ~ s.list ++ snaps := by
  induction snaps generalizing s with
  | nil => exact ⟨hs, by rw [append_nil, foldl_nil]⟩
  | cons snap snaps ih =>
    obtain ⟨hsorted, hperm⟩ := ih (s := s.add snap) (pairwise_insertionSort _ _)
    refine ⟨hsorted, hperm.trans ?_⟩
    rw [append_cons]
    exact (perm_insertionSort _ _).append_right snaps

/-- The snapshot that answers for `num`: the greatest number at most `num`, or the first. -/
def Answers (l : List Snapshot) (num : ℕ) (snap : Snapshot) : Prop :=
  (snap ∈ l ∧ snap.number ≤ num ∧ ∀ t ∈ l, t.number ≤ num → t.number ≤ snap.number) ∨
    ((∀ t ∈ l, num < t.number) ∧ l.head? = some snap)

theorem find_answers (h : Ascending number s.list) (hne : s.list ≠ []) (num : ℕ) :
    ∃ snap, s.find num = some snap ∧ Answers s.list num snap := by
  by_cases hex : ∃ t ∈ s.list, t.number ≤ num
  · obtain ⟨i, hi, hle, hnext⟩ := exists_position h hex
    refine ⟨_, find_of_inForce h (inForce_eq h hi hle hnext), .inl ⟨getElem_mem hi, hle, ?_⟩⟩
    intro t ht htn
    obtain ⟨k, hk, rfl⟩ := mem_iff_getElem.mp ht
    refine h.le hk hi (not_lt.mp fun hik ↦ ?_)
    have hlt := hnext (lt_of_le_of_lt hik hk)
    exact absurd htn (not_le.mpr (hlt.trans_le (h.le _ hk hik)))
  · push Not at hex
    obtain ⟨snap, hhead⟩ := ne_none_iff_exists'.mp (mt head?_eq_none_iff.mp hne)
    refine ⟨snap, ?_, .inr ⟨hex, hhead⟩⟩
    rw [find_eq h, inForce_eq_none h fun h0 ↦ hex _ (getElem_mem h0), none_or, hhead]

theorem add_find (lastNumber : ℕ) (snaps : List Snapshot) (hne : snaps ≠ [])
    (hd : (snaps.map number).Nodup) :
    (snaps.foldl add ⟨lastNumber, []⟩).list ~ snaps ∧
      Ascending number (snaps.foldl add ⟨lastNumber, []⟩).list ∧
      ∀ num, ∃ snap, (snaps.foldl add ⟨lastNumber, []⟩).find num = some snap ∧
        Answers (snaps.foldl add ⟨lastNumber, []⟩).list num snap := by
  obtain ⟨hsorted, hperm⟩ := foldl_add (s := ⟨lastNumber, []⟩) snaps Pairwise.nil
  rw [nil_append] at hperm
  have hasc := (ascending_iff_nodup hsorted).mpr ((hperm.map number).nodup_iff.mpr hd)
  exact ⟨hperm, hasc, find_answers hasc fun hnil ↦ hne (hnil ▸ hperm).nil_eq.symm⟩

theorem add_find_gap : ∃ snap,
    ((numbered [30, 0, 19]).list.foldl add ⟨10, []⟩).find 20 = some snap ∧
      Answers ((numbered [30, 0, 19]).list.foldl add ⟨10, []⟩).list 20 snap :=
  (add_find 10 (numbered [30, 0, 19]).list (by decide) (by decide)).2.2 20

end SnapshotStore

end Mainnet.Validators
