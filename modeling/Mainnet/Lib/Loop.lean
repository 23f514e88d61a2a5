import Mathlib.Order.Basic

namespace Mainnet.Lib.Loop

inductive Result (σ : Type)
  | done (s : σ)
  | panic
  | unfinished
deriving DecidableEq

def Result.map {σ τ : Type} (f : σ → τ) : Result σ → Result τ
  | .done s => .done (f s)
  | .panic => .panic
  | .unfinished => .unfinished

variable {σ : Type} (guard : σ → Bool) (body : σ → Option (Bool × σ))

/-- `for guard { body }`: the body panics, breaks with `false`, or goes on with `true`. -/
def loop : ℕ → σ → Result σ
  | 0, _ => .unfinished
  | n + 1, s =>
    if guard s then
      match body s with
      | none => .panic
      | some (false, s') => .done s'
      | some (true, s') => loop n s'
    else .done s

inductive Reaches : σ → σ → Prop
  | refl (s : σ) : Reaches s s
  | turn {s s' t : σ} : guard s = true → body s = some (true, s') → Reaches s' t → Reaches s t

variable {guard body} {I : σ → Prop} {s t : σ} {fuel n : ℕ}

theorem Reaches.invariant (hbody : ∀ s s', guard s = true → body s = some (true, s') → I s → I s')
    (h : Reaches guard body s t) (hs : I s) : I t := by
  induction h with
  | refl s => exact hs
  | turn hguard hstep _ ih => exact ih (hbody _ _ hguard hstep hs)

theorem loop_invariant (hbody : ∀ s b s', guard s = true → body s = some (b, s') → I s → I s')
    (h : loop guard body fuel s = .done t) (hs : I s) : I t := by
  induction fuel generalizing s with
  | zero => cases h
  | succ n ih =>
    rw [loop] at h
    split_ifs at h with hguard
    · split at h
      · cases h
      · cases h
        exact hbody _ _ _ hguard ‹_› hs
      · exact ih h (hbody _ _ _ hguard ‹_› hs)
    · cases h
      exact hs

theorem loop_stopped (h : guard s = false) (hfuel : fuel ≠ 0) :
    loop guard body fuel s = .done s := by
  obtain ⟨n, rfl⟩ := Nat.exists_eq_succ_of_ne_zero hfuel
  simp [loop, h]

theorem loop_turn (h : guard s = true) (hfuel : fuel ≠ 0) :
    loop guard body fuel s =
      match body s with
      | none => .panic
      | some (false, s') => .done s'
      | some (true, s') => loop guard body (fuel - 1) s' := by
  obtain ⟨n, rfl⟩ := Nat.exists_eq_succ_of_ne_zero hfuel
  simp [loop, h]

theorem loop_done {Inv : σ → Prop} {μ : σ → ℕ} {ok : σ → Prop}
    (hbody : ∀ s, Inv s → guard s = true → ok s → ∃ b s', body s = some (b, s') ∧
      (b = true → guard s' = true → Inv s' ∧ μ s' < μ s)) (hs : Inv s)
    (hok : ∀ t, Reaches guard body s t → guard t = true → ok t) :
    ∃ t, ∀ fuel, μ s + 2 ≤ fuel → loop guard body fuel s = .done t := by
  induction hn : μ s using Nat.strongRecOn generalizing s with
  | ind n ih =>
    subst hn
    cases hguard : guard s with
    | false => exact ⟨s, fun fuel hfuel ↦ loop_stopped hguard (by omega)⟩
    | true =>
      obtain ⟨b, s', heq, hnext⟩ := hbody s hs hguard (hok s (.refl s) hguard)
      cases b with
      | false =>
        refine ⟨s', fun fuel hfuel ↦ ?_⟩
        rw [loop_turn hguard (by omega), heq]
      | true =>
        obtain ⟨t, ht⟩ : ∃ t, ∀ fuel, μ s + 1 ≤ fuel → loop guard body fuel s' = .done t := by
          cases hguard' : guard s' with
          | false => exact ⟨s', fun fuel hfuel ↦ loop_stopped hguard' (by omega)⟩
          | true =>
            obtain ⟨hinv, hlt⟩ := hnext rfl hguard'
            obtain ⟨t, ht⟩ := ih (μ s') hlt hinv (fun t ht ↦ hok t (.turn hguard heq ht)) rfl
            exact ⟨t, fun fuel hfuel ↦ ht fuel (by omega)⟩
        refine ⟨t, fun fuel hfuel ↦ ?_⟩
        rw [loop_turn hguard (by omega), heq]
        exact ht (fuel - 1) (by omega)

def after (guard : σ → Bool) (body : σ → Option (Bool × σ)) : ℕ → σ → Option σ
  | 0, s => some s
  | n + 1, s =>
    if guard s then
      match body s with
      | some (true, s') => after guard body n s'
      | _ => none
    else none

theorem after_succ (h : after guard body (n + 1) s = some t) :
    ∃ s', guard s = true ∧ body s = some (true, s') ∧ after guard body n s' = some t := by
  rw [after] at h
  split at h
  · split at h
    · exact ⟨_, ‹_›, ‹_›, h⟩
    · cases h
  · cases h

theorem Reaches.of_after (h : after guard body n s = some t) : Reaches guard body s t := by
  induction n generalizing s with
  | zero =>
    cases h
    exact .refl _
  | succ n ih =>
    obtain ⟨s', hguard, hbody, hrest⟩ := after_succ h
    exact .turn hguard hbody (ih hrest)

section Measure

variable {μ : σ → ℕ} (hbody : ∀ s s', guard s = true → body s = some (true, s') →
  guard s' = true → μ s' < μ s)
include hbody

theorem after_le {n : ℕ} {s t : σ} (h : after guard body n s = some t) (ht : guard t = true) :
    n + μ t ≤ μ s := by
  induction n generalizing s with
  | zero =>
    cases h
    omega
  | succ n ih =>
    obtain ⟨s', hguard, hstep, hrest⟩ := after_succ h
    have hle := ih hrest
    have hguard' : guard s' = true := by
      cases n with
      | zero =>
        cases hrest
        exact ht
      | succ n => exact (after_succ hrest).choose_spec.1
    have := hbody s s' hguard hstep hguard'
    omega

theorem loop_ends (s : σ) :
    ∃ r, r ≠ .unfinished ∧ ∀ fuel, μ s + 2 ≤ fuel → loop guard body fuel s = r := by
  induction hn : μ s using Nat.strongRecOn generalizing s with
  | ind n ih =>
    subst hn
    cases hguard : guard s with
    | false => exact ⟨.done s, nofun, fun fuel hfuel ↦ loop_stopped hguard (by omega)⟩
    | true =>
      cases hstep : body s with
      | none =>
        refine ⟨.panic, nofun, fun fuel hfuel ↦ ?_⟩
        rw [loop_turn hguard (by omega), hstep]
      | some next =>
        obtain ⟨go, s'⟩ := next
        cases go with
        | false =>
          refine ⟨.done s', nofun, fun fuel hfuel ↦ ?_⟩
          rw [loop_turn hguard (by omega), hstep]
        | true =>
          obtain ⟨r, hr, hloop⟩ : ∃ r, r ≠ .unfinished ∧
              ∀ fuel, μ s + 1 ≤ fuel → loop guard body fuel s' = r := by
            cases hguard' : guard s' with
            | false => exact ⟨.done s', nofun, fun fuel hfuel ↦ loop_stopped hguard' (by omega)⟩
            | true =>
              have hlt := hbody s s' hguard hstep hguard'
              obtain ⟨r, hr, hloop⟩ := ih (μ s') hlt s' rfl
              exact ⟨r, hr, fun fuel hfuel ↦ hloop fuel (by omega)⟩
          refine ⟨r, hr, fun fuel hfuel ↦ ?_⟩
          rw [loop_turn hguard (by omega), hstep]
          exact hloop (fuel - 1) (by omega)

end Measure

/-- The loop ends within `n` turns, and `p` holds wherever the guard does. -/
def checkAll (guard : σ → Bool) (body : σ → Option (Bool × σ)) (p : σ → Bool) : ℕ → σ → Bool
  | 0, s => !guard s
  | n + 1, s => !guard s || p s &&
    match body s with
    | some (true, s') => checkAll guard body p n s'
    | _ => true

theorem Reaches.of_checkAll {p : σ → Bool} (h : checkAll guard body p n s = true)
    (hreach : Reaches guard body s t) (ht : guard t = true) : p t = true := by
  induction hreach generalizing n with
  | refl s =>
    cases n with
    | zero => simp [checkAll, ht] at h
    | succ n =>
      simp only [checkAll, ht, Bool.not_true, Bool.false_or, Bool.and_eq_true] at h
      exact h.1
  | turn hguard hbody _ ih =>
    cases n with
    | zero => simp [checkAll, hguard] at h
    | succ n =>
      simp only [checkAll, hguard, hbody, Bool.not_true, Bool.false_or, Bool.and_eq_true] at h
      exact ih h.2 ht

end Mainnet.Lib.Loop
