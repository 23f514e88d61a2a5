import Mathlib.Data.List.Basic

namespace Mainnet.Lib.Machine

variable {σ α : Type} (step : σ → α → Option σ)

/-- A run of the machine; `none` if one of the steps is not possible where it is taken. -/
def run (s : σ) : List α → Option σ
  | [] => some s
  | a :: as => (step s a).bind fun s' ↦ run s' as

def Stuck (s : σ) : Prop := ∀ a, step s a = none

variable {step} {I : σ → Prop} {s s' : σ} {as : List α}

theorem run_cons {a : α} :
    run step s (a :: as) = some s' ↔ ∃ t, step s a = some t ∧ run step t as = some s' :=
  Option.bind_eq_some_iff

theorem run_invariant (hstep : ∀ s a t, I s → step s a = some t → I t) (hs : I s)
    (h : run step s as = some s') : I s' := by
  induction as generalizing s with
  | nil =>
    obtain rfl := Option.some.inj h
    exact hs
  | cons a as ih =>
    obtain ⟨t, ht, h⟩ := run_cons.mp h
    exact ih (hstep s a t hs ht) h

theorem run_measure {left : σ → ℕ} (hstep : ∀ s a t, I s → step s a = some t → I t)
    (hleft : ∀ s a t, I s → step s a = some t → left t < left s) (hs : I s)
    (h : run step s as = some s') : as.length + left s' ≤ left s := by
  induction as generalizing s with
  | nil =>
    obtain rfl := Option.some.inj h
    exact Nat.le_of_eq (Nat.zero_add _)
  | cons a as ih =>
    obtain ⟨t, ht, h⟩ := run_cons.mp h
    have hrest := ih (hstep s a t hs ht) h
    have hfirst := hleft s a t hs ht
    rw [List.length_cons]
    omega

theorem run_append {as bs : List α} :
    run step s (as ++ bs) = (run step s as).bind fun t ↦ run step t bs := by
  induction as generalizing s with
  | nil => rfl
  | cons a as ih =>
    rw [List.cons_append, run, run, Option.bind_assoc]
    exact congrArg _ (funext fun t ↦ ih)

end Mainnet.Lib.Machine
