import Mathlib.Logic.Function.Basic

namespace Mainnet.Lib.TypedStore

open List Function

variable {κ α β : Type} {V : κ → Type} [DecidableEq κ] [DecidableEq α]

/-- One independent cell for each key, with the key's own type of values. -/
abbrev Maps (V : κ → Type) := (k : κ) → Option (V k)

abbrev Entry (V : κ → Type) := Σ k, V k

def put (m : Maps V) (e : Entry V) : Maps V := update m e.1 (some e.2)

/-- An untyped store that holds the cells under their paths; `good` is known of every value. -/
structure Represents (path : κ → α) (encode : (k : κ) → V k → β) (good : (k : κ) → V k → Prop)
    (db : α → Option β) (m : Maps V) : Prop where
  get : ∀ k, db (path k) = (m k).map (encode k)
  good : ∀ k v, m k = some v → good k v

variable {path : κ → α} {encode : (k : κ) → V k → β} {good : (k : κ) → V k → Prop}
  {db : α → Option β} {m : Maps V}

omit [DecidableEq κ] [DecidableEq α] in
theorem represents_empty : Represents path encode good (fun _ ↦ none) fun _ ↦ none :=
  ⟨fun _ ↦ rfl, fun _ _ h ↦ by cases h⟩

theorem Represents.put (h : Represents path encode good db m) (hpath : Injective path)
    {e : Entry V} (he : good e.1 e.2) :
    Represents path encode good
      (update db (path e.1) (some (encode e.1 e.2))) (put m e) := by
  obtain ⟨k, v⟩ := e
  refine ⟨fun l ↦ ?_, fun l w hl ↦ ?_⟩
  · by_cases hk : l = k
    · subst hk
      rw [TypedStore.put, update_self, update_self]
      rfl
    · rw [TypedStore.put, update_of_ne hk, update_of_ne fun hp ↦ hk (hpath hp)]
      exact h.get l
  · by_cases hk : l = k
    · subst hk
      rw [TypedStore.put, update_self] at hl
      exact Option.some.inj hl ▸ he
    · rw [TypedStore.put, update_of_ne hk] at hl
      exact h.good l w hl

theorem Represents.puts (h : Represents path encode good db m) (hpath : Injective path)
    {es : List (Entry V)} (hes : ∀ e ∈ es, good e.1 e.2) :
    Represents path encode good
      (es.foldl (fun db e ↦ update db (path e.1) (some (encode e.1 e.2))) db)
      (es.foldl TypedStore.put m) := by
  induction es generalizing db m with
  | nil => exact h
  | cons e es ih =>
    exact ih (h.put hpath (hes e mem_cons_self)) fun e' he' ↦ hes e' (mem_cons_of_mem _ he')

omit [DecidableEq κ] in
theorem puts_of_ne (hpath : Injective path) {k : κ} {es : List (Entry V)}
    (hes : ∀ e ∈ es, e.1 ≠ k) :
    es.foldl (fun db e ↦ update db (path e.1) (some (encode e.1 e.2))) db (path k) =
      db (path k) := by
  induction es generalizing db with
  | nil => rfl
  | cons e es ih =>
    rw [foldl_cons, ih fun e' he' ↦ hes e' (mem_cons_of_mem _ he'),
      update_of_ne fun hp ↦ hes e mem_cons_self (hpath hp).symm]

end Mainnet.Lib.TypedStore
