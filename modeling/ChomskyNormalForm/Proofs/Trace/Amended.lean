import ChomskyNormalForm.Proofs.Grammar.Edits
import ChomskyNormalForm.Proofs.Trace.Helpers

namespace ChomskyNormalForm.Session

/-- `t` is `s` after work on the variables of `done`, whose bodies are now those that `R` says. -/
structure Amended (R : Symbol → Body → Prop) (done : List Symbol) (s t : Session) : Prop where
  start_eq : t.grammar.start = s.grammar.start
  mem : ∀ u, u ∈ t.grammar ↔ u ∈ s.grammar
  own : ∀ u ∈ done, ∀ b, b ∈ t.grammar.bodies u ↔ R u b
  rest : ∀ u, u ∉ done → ∀ b, b ∈ t.grammar.bodies u ↔ b ∈ s.grammar.bodies u
  helpers_eq : t.helpers = s.helpers

variable {R : Symbol → Body → Prop} {done l : List Symbol} {s t t' : Session}
  {v : Symbol} {b : Body}

theorem Amended.refl (R : Symbol → Body → Prop) (s : Session) : Amended R [] s s :=
  ⟨rfl, fun _ ↦ .rfl, fun _ h ↦ absurd h List.not_mem_nil, fun _ _ _ ↦ .rfl, rfl⟩

theorem Amended.cons (h : Amended R done s t) (hs : t'.grammar.start = t.grammar.start)
    (hm : ∀ u, u ∈ t'.grammar ↔ u ∈ t.grammar) (hv : ∀ b, b ∈ t'.grammar.bodies v ↔ R v b)
    (hu : ∀ u, u ≠ v → ∀ b, b ∈ t'.grammar.bodies u ↔ b ∈ t.grammar.bodies u)
    (hh : t'.helpers = t.helpers) :
    Amended R (v :: done) s t' where
  start_eq := hs.trans h.start_eq
  mem u := (hm u).trans (h.mem u)
  own u hd b := by
    by_cases he : u = v
    · exact he ▸ hv b
    · exact (hu u he b).trans (h.own u ((List.mem_cons.1 hd).resolve_left he) b)
  rest u hd b := by
    rw [List.mem_cons, not_or] at hd
    exact (hu u hd.1 b).trans (h.rest u hd.2 b)
  helpers_eq := hh.trans h.helpers_eq

theorem Amended.cons_extend (h : Amended R done s t) (hv : v ∈ s.grammar) (added : List Body)
    (hnil : added = [] → t' = t)
    (hne : added ≠ [] → t'.grammar = t.grammar.extend v added ∧ t'.helpers = t.helpers)
    (hR : ∀ b, R v b ↔ b ∈ t.grammar.bodies v ∨ b ∈ added) : Amended R (v :: done) s t' := by
  by_cases ha : added = []
  · obtain rfl := hnil ha
    refine h.cons rfl (fun _ ↦ .rfl) (fun b ↦ ?_) (fun _ _ _ ↦ .rfl) rfl
    simp [hR, ha]
  · obtain ⟨hg, hh⟩ := hne ha
    refine h.cons ?_ (fun u ↦ ?_) (fun b ↦ ?_) (fun u hu b ↦ ?_) hh
    · rw [hg, Grammar.start_extend]
    · rw [hg, Grammar.mem_extend, or_iff_left_iff_imp]
      intro hx
      subst hx
      exact (h.mem u).2 hv
    · rw [hg, Grammar.mem_bodies_extend, hR]
      simp
    · rw [hg, Grammar.mem_bodies_extend, or_iff_left_iff_imp]
      exact fun hb ↦ absurd hb.1 hu

theorem Amended.foldl {f : Session → Symbol → Session}
    (step : ∀ done t v, v ∈ l → v ∉ done → Amended R done s t → Amended R (v :: done) s (f t v))
    (hl : l.Nodup) (hd : ∀ v ∈ l, v ∉ done) (h : Amended R done s t) :
    Amended R (l.reverse ++ done) s (l.foldl f t) := by
  induction l generalizing done t with
  | nil => exact h
  | cons v l ih =>
    obtain ⟨hv, hl⟩ := List.nodup_cons.1 hl
    have hstep := step done t v List.mem_cons_self (hd v List.mem_cons_self) h
    rw [List.reverse_cons, List.append_assoc, List.singleton_append, List.foldl_cons]
    refine ih (fun done t v hv ↦ step done t v (List.mem_cons_of_mem _ hv)) hl (fun u hu ↦ ?_) hstep
    rw [List.mem_cons, not_or]
    exact ⟨fun he ↦ hv (he ▸ hu), hd u (List.mem_cons_of_mem _ hu)⟩

/-- Work on one variable after the other, in the order of their names, amends them all. -/
theorem amended_foldl_sortedHeads {f : Session → Symbol → Session}
    (step : ∀ done t v, v ∈ s.grammar → v ∉ done → Amended R done s t →
      Amended R (v :: done) s (f t v)) :
    Amended R s.grammar.sortedHeads.reverse s (s.grammar.sortedHeads.foldl f s) := by
  have h := Amended.foldl (l := s.grammar.sortedHeads) (f := f)
    (fun done t v hv ↦ step done t v (Grammar.mem_sortedHeads.1 hv))
    ((nodup_sortBy _).2 (Grammar.nodup_heads _)) (fun _ _ ↦ List.not_mem_nil) (Amended.refl R s)
  rwa [List.append_nil] at h

theorem Amended.bodies_iff (h : Amended R s.grammar.sortedHeads.reverse s t)
    (hR : ∀ u b, R u b → u ∈ s.grammar) (u : Symbol) (b : Body) :
    b ∈ t.grammar.bodies u ↔ R u b := by
  by_cases hu : u ∈ s.grammar
  · exact h.own u (List.mem_reverse.2 (Grammar.mem_sortedHeads.2 hu)) b
  · constructor
    · intro hb
      exact absurd ((h.mem u).1 (Grammar.mem_of_mem_bodies hb)) hu
    · intro hb
      exact absurd (hR u b hb) hu

end ChomskyNormalForm.Session
