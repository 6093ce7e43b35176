namespace ChomskyNormalForm

variable {α β ε φ : Type}

theorem ok_bind {a : α} {f : α → Except ε β} : (Except.ok a >>= f) = f a := rfl

theorem bind_eq_ok {x : Except ε α} {f : α → Except ε β} {b : β} :
    x >>= f = .ok b ↔ ∃ a, x = .ok a ∧ f a = .ok b := by
  cases x with
  | error e =>
    constructor
    · intro h
      exact nomatch h
    · intro ⟨a, h, _⟩
      exact nomatch h
  | ok a =>
    constructor
    · exact fun h ↦ ⟨a, rfl, h⟩
    · intro ⟨c, h, hb⟩
      cases h
      exact hb

theorem exists_eq_ok {x : Except ε α} (h : x.toOption.isSome = true) : ∃ a, x = .ok a := by
  cases x with
  | ok a => exact ⟨a, rfl⟩
  | error e => exact nomatch h

theorem map_eq_ok {x : Except ε α} {f : α → β} {b : β} :
    x.map f = .ok b ↔ ∃ a, x = .ok a ∧ f a = b := by
  cases x <;> simp [Except.map]

theorem map_eq_error {x : Except ε α} {f : α → β} {e : ε} : x.map f = .error e ↔ x = .error e := by
  cases x <;> simp [Except.map]

theorem mapError_eq_ok {x : Except φ α} {f : φ → ε} {a : α} : x.mapError f = .ok a ↔ x = .ok a := by
  cases x with
  | ok b =>
    change (.ok b : Except ε α) = .ok a ↔ _
    simp
  | error d =>
    change (.error (f d) : Except ε α) = .ok a ↔ _
    simp

theorem mapError_eq_error {x : Except φ α} {f : φ → ε} {e : ε} :
    x.mapError f = .error e ↔ ∃ d, x = .error d ∧ f d = e := by
  cases x with
  | ok b =>
    change (.ok b : Except ε α) = .error e ↔ _
    simp
  | error d =>
    change (.error (f d) : Except ε α) = .error e ↔ _
    simp

theorem bind_eq_error {x : Except ε α} {f : α → Except ε β} {e : ε} :
    x >>= f = .error e ↔ x = .error e ∨ ∃ a, x = .ok a ∧ f a = .error e := by
  cases x <;> simp [bind, Except.bind]

theorem bind_unit_eq_ok {x : Except ε Unit} {f : Unit → Except ε β} {b : β} :
    x >>= f = .ok b ↔ x = .ok () ∧ f () = .ok b := by
  rw [bind_eq_ok]
  exact ⟨fun ⟨_, hx, hb⟩ ↦ ⟨hx, hb⟩, fun ⟨hx, hb⟩ ↦ ⟨(), hx, hb⟩⟩

theorem forM_eq_ok {f : α → Except ε Unit} {l : List α} :
    l.forM f = .ok () ↔ ∀ a ∈ l, f a = .ok () := by
  induction l with
  | nil => exact ⟨fun _ _ h ↦ absurd h List.not_mem_nil, fun _ ↦ rfl⟩
  | cons a l ih =>
    have h : (a :: l).forM f = f a >>= fun _ ↦ l.forM f := rfl
    rw [h, bind_unit_eq_ok, List.forall_mem_cons, ih]

theorem mapM_eq_ok_of_map_eq {γ δ : Type} {f : α → Except ε β} {k : α → γ} {c : δ → γ} {r : δ → β}
    {l : List α} {m : List δ} (h : ∀ d ∈ m, ∀ a, k a = c d → f a = .ok (r d))
    (hm : l.map k = m.map c) : l.mapM f = .ok (m.map r) := by
  induction m generalizing l with
  | nil =>
    rw [List.map_nil, List.map_eq_nil_iff] at hm
    subst hm
    rfl
  | cons d m ih =>
    rw [List.forall_mem_cons] at h
    obtain ⟨a, l, rfl, ha, hl⟩ := List.map_eq_cons_iff.1 hm
    rw [List.mapM_cons, h.1 a ha, ok_bind, ih h.2 hl]
    rfl

theorem foldl_eq_self {σ : Type} {f : σ → α → σ} {s : σ} {l : List α} (h : ∀ a ∈ l, f s a = s) :
    l.foldl f s = s := by
  induction l with
  | nil => rfl
  | cons a l ih =>
    rw [List.forall_mem_cons] at h
    rw [List.foldl_cons, h.1, ih h.2]

theorem foldlM_eq_ok_self {σ : Type} {f : σ → α → Except ε σ} {s : σ} {l : List α}
    (h : ∀ a ∈ l, f s a = .ok s) :
    l.foldlM f s = .ok s := by
  induction l with
  | nil => rfl
  | cons a l ih =>
    rw [List.forall_mem_cons] at h
    rw [List.foldlM_cons]
    exact bind_eq_ok.2 ⟨s, h.1, ih h.2⟩

/-- A result with `Q`, or an error with `E`. -/
def Ends (E : ε → Prop) (x : Except ε α) (Q : α → Prop) : Prop :=
  match x with
  | .ok a => Q a
  | .error e => E e

variable {E : ε → Prop} {P : α → Prop} {Q : β → Prop}

theorem Ends.imp {x : Except ε α} {E' : ε → Prop} {P' : α → Prop} (h : Ends E x P)
    (hE : ∀ e, E e → E' e) (hP : ∀ a, P a → P' a) : Ends E' x P' := by
  cases x with
  | error e => exact hE e h
  | ok a => exact hP a h

theorem Ends.mono {x : Except ε α} {P' : α → Prop} (h : Ends E x P) (hP : ∀ a, P a → P' a) :
    Ends E x P' :=
  h.imp (fun _ he ↦ he) hP

theorem Ends.bind {x : Except ε α} {f : α → Except ε β} (h : Ends E x P)
    (hf : ∀ a, P a → Ends E (f a) Q) :
    Ends E (x >>= f) Q := by
  cases x with
  | error e => exact h
  | ok a => exact hf a h

theorem Ends.map {x : Except ε α} {f : α → β} (h : Ends E x fun a ↦ Q (f a)) :
    Ends E (x.map f) Q := by
  cases x with
  | error e => exact h
  | ok a => exact h

theorem Ends.mapM {f : α → Except ε β} {l : List α} (h : ∀ a ∈ l, Ends E (f a) Q) :
    Ends E (l.mapM f) fun bs ↦ ∀ b ∈ bs, Q b := by
  induction l with
  | nil => exact List.forall_mem_nil _
  | cons a l ih =>
    rw [List.forall_mem_cons] at h
    rw [List.mapM_cons]
    apply h.1.bind
    intro b hb
    apply (ih h.2).bind
    intro bs hbs
    exact List.forall_mem_cons.2 ⟨hb, hbs⟩

theorem Ends.of_ok {x : Except ε α} {a : α} (h : Ends E x P) (hx : x = .ok a) : P a := by
  subst hx
  exact h

theorem Ends.and {x : Except ε α} {P' : α → Prop} (h : Ends E x P) (hP : ∀ a, x = .ok a → P' a) :
    Ends E x fun a ↦ P a ∧ P' a := by
  cases x with
  | error e => exact h
  | ok a => exact ⟨h, hP a rfl⟩

/-- What holds after each part of a list holds after all of it, unless the work on some element ends
in an error. -/
theorem Ends.foldlM {σ : Type} {f : σ → α → Except ε σ} {I : List α → σ → Prop}
    {l d : List α} {s : σ} (step : ∀ done s, ∀ a ∈ l, a ∉ done → I done s →
      Ends E (f s a) (I (a :: done))) (hl : l.Nodup)
    (hd : ∀ a ∈ l, a ∉ d) (h : I d s) : Ends E (l.foldlM f s) (I (l.reverse ++ d)) := by
  induction l generalizing d s with
  | nil => exact h
  | cons a l ih =>
    obtain ⟨ha, hl⟩ := List.nodup_cons.1 hl
    rw [List.foldlM_cons, List.reverse_cons, List.append_assoc, List.singleton_append]
    apply (step d s a List.mem_cons_self (hd a List.mem_cons_self) h).bind
    intro t ht
    refine ih (fun done s b hb ↦ step done s b (List.mem_cons_of_mem _ hb)) hl (fun b hb ↦ ?_) ht
    rw [List.mem_cons, not_or]
    exact ⟨fun he ↦ ha (he ▸ hb), hd b (List.mem_cons_of_mem _ hb)⟩

/-- What each element takes out of `L`, and none puts there, is out of it after all of them. -/
theorem Ends.foldlM_sweep {σ γ : Type} {f : σ → α → Except ε σ} {L : σ → γ → Prop}
    {hit : α → γ → Prop} {l : List α} {s : σ}
    (step : ∀ s a, Ends E (f s a) fun t ↦ ∀ x, L t x → L s x ∧ ¬hit a x) :
    Ends E (l.foldlM f s) fun t ↦ ∀ x, L t x → L s x ∧ ∀ a ∈ l, ¬hit a x := by
  induction l generalizing s with
  | nil => exact fun x hx ↦ ⟨hx, fun a ha ↦ absurd ha List.not_mem_nil⟩
  | cons a l ih =>
    rw [List.foldlM_cons]
    apply (step s a).bind
    intro t ht
    apply ih.mono
    intro u hu x hx
    obtain ⟨hxt, hl⟩ := hu x hx
    obtain ⟨hxs, ha⟩ := ht x hxt
    exact ⟨hxs, List.forall_mem_cons.2 ⟨ha, hl⟩⟩

/-- Both are results with `R`, or both are errors with `D`. -/
inductive Matches (D : ε → ε → Prop) (R : α → β → Prop) : Except ε α → Except ε β → Prop
  | ok {a : α} {b : β} : R a b → Matches D R (.ok a) (.ok b)
  | error {e f : ε} : D e f → Matches D R (.error e) (.error f)

namespace Matches

variable {α' β' : Type} {D : ε → ε → Prop} {R : α → α' → Prop} {S : β → β' → Prop}

theorem bind {x : Except ε α} {y : Except ε α'} {f : α → Except ε β} {g : α' → Except ε β'}
    (h : Matches D R x y) (hf : ∀ a b, R a b → Matches D S (f a) (g b)) :
    Matches D S (x >>= f) (y >>= g) := by
  cases h with
  | ok hr => exact hf _ _ hr
  | error he => exact .error he

theorem mapError {E : φ → φ → Prop} {x : Except φ α} {y : Except φ α'} {k l : φ → ε}
    (h : Matches E R x y) (hd : ∀ e f, E e f → D (k e) (l f)) :
    Matches D R (x.mapError k) (y.mapError l) := by
  cases h with
  | ok hr => exact .ok hr
  | error he => exact .error (hd _ _ he)

theorem of_eq (hd : ∀ e, D e e) {x y : Except ε α} (h : x = y) : Matches D Eq x y := by
  subst h
  cases x with
  | ok a => exact .ok rfl
  | error e => exact .error (hd e)

theorem foldlM {σ τ : Type} {Q : σ → τ → Prop} {f : σ → α → Except ε σ}
    {g : τ → α → Except ε τ} {l : List α}
    (step : ∀ s t, Q s t → ∀ a ∈ l, Matches D Q (f s a) (g t a)) {s : σ} {t : τ} (h : Q s t) :
    Matches D Q (l.foldlM f s) (l.foldlM g t) := by
  induction l generalizing s t with
  | nil => exact .ok h
  | cons a l ih =>
    rw [List.foldlM_cons, List.foldlM_cons]
    exact (step s t h a List.mem_cons_self).bind fun s t h ↦
      ih (fun s t h b hb ↦ step s t h b (List.mem_cons_of_mem _ hb)) h

end Matches

end ChomskyNormalForm
