import Mainnet.Lib.Prog
import Mainnet.Lib.Loop

namespace Mainnet.Lib.Prog

variable {σ α β : Type}

/-- Two runs go the same way: both panic, or both return and `Q` holds. -/
inductive Matched (Q : α → σ → α → σ → Prop) : Option (α × σ) → Option (α × σ) → Prop
  | panic : Matched Q none none
  | returns {a a' : α} {s s' : σ} : Q a s a' s' → Matched Q (some (a, s)) (some (a', s'))

variable {r r' : Option (α × σ)} {f f' : σ → σ} {P : α → σ → Prop}

theorem Matched.mono {Q R : α → σ → α → σ → Prop} (h : Matched Q r r')
    (hQR : ∀ a s a' s', r = some (a, s) → Q a s a' s' → R a s a' s') : Matched R r r' := by
  cases h with
  | panic => exact .panic
  | returns hQ => exact .returns (hQR _ _ _ _ rfl hQ)

theorem Matched.bind {Q : α → σ → α → σ → Prop} {R : β → σ → β → σ → Prop}
    {f f' : α × σ → Option (β × σ)} (h : Matched Q r r')
    (hf : ∀ a s a' s', Q a s a' s' → Matched R (f (a, s)) (f' (a', s'))) :
    Matched R (r.bind f) (r'.bind f') := by
  cases h with
  | panic => exact .panic
  | returns hQ => exact hf _ _ _ _ hQ

def Related (m m' : Prog σ α) (s s' : σ) (Q : α → σ → α → σ → Prop) : Prop :=
  Matched Q (m s) (m' s')

variable {m m' : Prog σ α} {s s' : σ} {Q R : α → σ → α → σ → Prop}

theorem Related.mono (h : Related m m' s s' Q) (hQR : ∀ a t a' t', Q a t a' t' → R a t a' t') :
    Related m m' s s' R :=
  Matched.mono h fun a t a' t' _ ↦ hQR a t a' t'

theorem Related.and_left (h : Related m m' s s' Q) (hm : Ensures m s P) :
    Related m m' s s' fun a t a' t' ↦ Q a t a' t' ∧ P a t :=
  Matched.mono h fun a t _ _ heq hQ ↦ ⟨hQ, hm a t heq⟩

theorem Related.refl (hm : Ensures m s P) :
    Related m m s s fun a t a' t' ↦ a' = a ∧ t' = t ∧ P a t := by
  unfold Related
  cases hr : m s with
  | none => exact .panic
  | some r => exact .returns ⟨rfl, rfl, hm _ _ hr⟩

theorem Related.ensures (h : Related m m s s Q) : Ensures m s fun a t ↦ Q a t a t := by
  intro a t heq
  unfold Related at h
  rw [heq] at h
  cases h with
  | returns hQ => exact hQ

theorem Related.ensures_left (h : Related m m' s s' Q) :
    Ensures m s fun a t ↦ ∃ a' t', Q a t a' t' := by
  intro a t heq
  unfold Related at h
  rw [heq] at h
  generalize m' s' = r at h
  cases h with
  | returns hQ => exact ⟨_, _, hQ⟩

theorem related_panic : Related (panic : Prog σ α) panic s s' Q := .panic

theorem related_pure {a a' : α} (h : Q a s a' s') : Related (pure a) (pure a') s s' Q := .returns h

theorem related_bind {f f' : α → Prog σ β} {R : β → σ → β → σ → Prop} (hm : Related m m' s s' Q)
    (hf : ∀ a t a' t', Q a t a' t' → Related (f a) (f' a') t t' R) :
    Related (m >>= f) (m' >>= f') s s' R :=
  Matched.bind hm fun a t a' t' ↦ hf a t a' t'

theorem related_onGet {f f' : σ → Prog σ α} (h : Related (f s) (f' s') s s' Q) :
    Related (get >>= f) (get >>= f') s s' Q :=
  h

theorem related_set {t t' : σ} {Q : PUnit → σ → PUnit → σ → Prop} (h : Q ⟨⟩ t ⟨⟩ t') :
    Related (set t : Prog σ PUnit) (set t') s s' Q :=
  .returns h

theorem related_modify {Q : PUnit → σ → PUnit → σ → Prop}
    (h : Q ⟨⟩ (f s) ⟨⟩ (f' s')) : Related (modify f : Prog σ PUnit) (modify f') s s' Q :=
  .returns h

theorem related_onModify {k k' : PUnit → Prog σ α} (h : Related (k ⟨⟩) (k' ⟨⟩) (f s) (f' s') Q) :
    Related (modify f >>= k) (modify f' >>= k') s s' Q :=
  h

theorem related_ite {c : Prop} [Decidable c] {n n' : Prog σ α} (hm : c → Related m m' s s' Q)
    (hn : ¬c → Related n n' s s' Q) :
    Related (if c then m else n) (if c then m' else n') s s' Q := by
  by_cases hc : c
  · rw [if_pos hc, if_pos hc]
    exact hm hc
  · rw [if_neg hc, if_neg hc]
    exact hn hc

end Prog

namespace Loop

open Prog

variable {σ : Type} {guard : σ → Bool} {body body' : σ → Option (Bool × σ)} {T F : σ → σ → Prop}
  {ok : σ → Prop}

inductive Result.Same (F : σ → σ → Prop) : Result σ → Result σ → Prop
  | done {s s' : σ} : F s s' → Same F (.done s) (.done s')
  | panic : Same F .panic .panic
  | unfinished : Same F .unfinished .unfinished

theorem loop_same (hguard : ∀ s s', T s s' → guard s' = guard s) (hdone : ∀ s s', T s s' → F s s')
    (hbody : ∀ s s', T s s' → guard s = true → ok s →
      Matched (fun go t go' t' ↦ go' = go ∧ if go then T t t' else F t t') (body s) (body' s'))
    {s s' : σ} (hs : T s s') (hok : ∀ t, Reaches guard body s t → guard t = true → ok t)
    (fuel : ℕ) : Result.Same F (loop guard body fuel s) (loop guard body' fuel s') := by
  induction fuel generalizing s s' with
  | zero => exact .unfinished
  | succ n ih =>
    unfold loop
    rw [hguard s s' hs]
    cases hg : guard s with
    | false => exact .done (hdone s s' hs)
    | true =>
      have hturn := hbody s s' hs hg (hok s (.refl s) hg)
      generalize hr : body s = r at hturn
      generalize body' s' = r' at hturn
      cases hturn with
      | panic => exact .panic
      | @returns go go' t t' h =>
        obtain ⟨rfl, hrest⟩ := h
        cases go' with
        | false => exact .done hrest
        | true => exact ih hrest fun u hu ↦ hok u (.turn hg hr hu)

end Loop

end Mainnet.Lib
