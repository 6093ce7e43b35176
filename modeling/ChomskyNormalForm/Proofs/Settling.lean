import ChomskyNormalForm.Analysis.Rounds
import ChomskyNormalForm.Proofs.Outcome

namespace ChomskyNormalForm

variable {σ : Type} {round : Nat → σ → σ × Bool} {P : Nat → σ → Prop}

/-- An invariant that counts the rounds that changed something, and fails when there are too many of
them, leads to a state in which a round changes nothing. -/
theorem settle_eq_ok (step : ∀ k s, P k s → (round (k + 1) s).2 = true →
    P (k + 1) (round (k + 1) s).1) {limit k :
    Nat} (bound : ∀ j s, P j s → j < k + limit) {s : σ} (hs : P k s) :
    ∃ j t, P j t ∧ (round (j + 1) t).2 = false ∧
      settle round limit (k + 1) s = .ok (round (j + 1) t).1 := by
  induction limit generalizing k s with
  | zero =>
    have h := bound k s hs
    omega
  | succ limit ih =>
    cases hr : (round (k + 1) s).2 with
    | true =>
      have h' := step k s hs hr
      obtain ⟨j, t, hj, ht, he⟩ := ih (fun j t hj ↦ by have h := bound j t hj; omega) h'
      refine ⟨j, t, hj, ht, ?_⟩
      rw [settle, ← he]
      split
      · rename_i he
        rw [he]
      · rename_i he
        simp [he] at hr
    | false =>
      refine ⟨k, s, hs, hr, ?_⟩
      rw [settle]
      split
      · rename_i he
        simp [he] at hr
      · rename_i he
        rw [he]

theorem settled_eq_ok {what : String} {limit : Nat}
    (step : ∀ k s, P k s → (round (k + 1) s).2 = true → P (k + 1) (round (k + 1) s).1)
    (bound : ∀ k s, P k s → k < limit) {s : σ} (hs : P 0 s) :
    ∃ k t, P k t ∧ (round (k + 1) t).2 = false ∧
      settled what limit round s = .ok (round (k + 1) t).1 := by
  have bound' : ∀ k s, P k s → k < 0 + limit :=
    fun k s hk ↦ (Nat.zero_add limit).symm ▸ bound k s hk
  obtain ⟨k, t, hk, ht, he⟩ := settle_eq_ok (k := 0) step bound' hs
  exact ⟨k, t, hk, ht, by rw [settled, he]; rfl⟩

theorem settled_induct {I : σ → Prop} {what : String} {limit : Nat} {s t : σ}
    (step : ∀ k s, I s → I (round k s).1) (hs : I s) (h : settled what limit round s = .ok t) :
    I t := by
  have settle_induct : ∀ limit k s, I s → settle round limit k s = .ok t → I t := by
    intro limit
    induction limit with
    | zero => exact fun k s _ h ↦ nomatch h
    | succ limit ih =>
      intro k s hs h
      have hr := step k s hs
      rw [settle] at h
      split at h
      · rename_i he
        rw [he] at hr
        exact ih _ _ hr h
      · rename_i he
        rw [he] at hr
        cases h
        exact hr
  exact settle_induct limit 1 s hs (mapError_eq_ok.1 h)

theorem settled_matches {τ : Type} {round' : Nat → τ → τ × Bool} {R : σ → τ → Prop}
    (what : String) (limit : Nat) (step : ∀ k s t, R s t → R (round k s).1 (round' k t).1 ∧
      (round k s).2 = (round' k t).2) {s : σ} {t : τ}
    (h : R s t) : Matches Eq R (settled what limit round s) (settled what limit round' t) := by
  have settle_matches : ∀ n k s t, R s t →
      Matches Eq R ((settle round n k s).mapError fun _ ↦ Fault.divergence what limit)
        ((settle round' n k t).mapError fun _ ↦ Fault.divergence what limit) := by
    intro n
    induction n with
    | zero => exact fun _ _ _ _ ↦ .error rfl
    | succ n ih =>
      intro k s t h
      obtain ⟨hr, hflag⟩ := step k s t h
      rw [settle, settle]
      cases hs : round k s with
      | mk s' flag =>
        cases ht : round' k t with
        | mk t' flag' =>
          rw [hs, ht] at hr hflag
          obtain rfl : flag = flag' := hflag
          cases flag with
          | true => exact ih _ _ _ hr
          | false => exact .ok hr
  exact settle_matches limit 1 s t h

end ChomskyNormalForm
