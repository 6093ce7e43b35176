import ChomskyNormalForm.Proofs.Language.SententialForm

namespace ChomskyNormalForm.Grammar

variable {g : Grammar} {p : Production} {v : Symbol} {b x y : Body}

/-- Some steps, each of which puts a body in the place of a variable, leave of a form nothing but
signs of the empty word. Any terminal, whatever its text, is a letter that stays. -/
inductive Vanishes (g : Grammar) : Body → Prop
  | done {x : Body} : (∀ s ∈ x, s = .epsilon) → Vanishes g x
  | step {p : Production} {x y : Body} : p.head.isVar = true → g.Rewrites p x y →
    Vanishes g y → Vanishes g x

def Erases (g : Grammar) (v : Symbol) : Prop := ∃ b ∈ g.bodies v, g.Vanishes b

theorem Vanishes.append (hx : g.Vanishes x) (hy : g.Vanishes y) : g.Vanishes (x ++ y) := by
  induction hx with
  | @step p x x' hp hr _ ih =>
    have hstep := hr.within [] y
    rw [List.nil_append, List.nil_append] at hstep
    exact .step hp hstep ih
  | @done x hx =>
    induction hy with
    | done hy => exact .done (List.forall_mem_append.2 ⟨hx, hy⟩)
    | @step p y y' hp hr _ ih =>
      have hstep := hr.within x []
      rw [List.append_nil, List.append_nil] at hstep
      exact .step hp hstep ih

theorem vanishes_of_forall (h : ∀ s ∈ x, s = .epsilon ∨ s.isVar = true ∧ g.Erases s) :
    g.Vanishes x := by
  induction x with
  | nil => exact .done nofun
  | cons s x ih =>
    rw [List.forall_mem_cons] at h
    have hx := ih h.2
    rcases h.1 with rfl | ⟨hs, b, hb, hv⟩
    · exact Vanishes.append (.done fun t ht ↦ List.mem_singleton.1 ht) hx
    · have hstep := Rewrites.intro (g := g) (p := ⟨s, b⟩) [] x hb
      rw [List.nil_append, List.nil_append] at hstep
      exact .step hs hstep (hv.append hx)

/-- What holds of a left-hand side whenever it holds of all variables in one of its bodies that has
no terminal, holds of all that derive the empty word. -/
theorem Erases.induct {Q : Symbol → Prop}
    (hQ : ∀ v, ∀ b ∈ g.bodies v, (∀ s ∈ b, s = .epsilon ∨ s.isVar = true ∧ Q s) → Q v)
    (h : g.Erases v) : Q v := by
  have hall : ∀ {x}, g.Vanishes x → ∀ s ∈ x, s = .epsilon ∨ s.isVar = true ∧ Q s := by
    intro x hx
    induction hx with
    | done hx => exact fun s hs ↦ .inl (hx s hs)
    | @step p x y hp hr _ ih =>
      intro s hs
      have hbody := hQ p.head p.body hr.mem_bodies fun t ht ↦ ih t (hr.body_subset ht)
      rcases hr.mem_or_eq_head hs with hs | rfl
      · exact ih s hs
      · exact .inr ⟨hp, hbody⟩
  obtain ⟨b, hb, hv⟩ := h
  exact hQ v b hb (hall hv)

theorem erases_of_forall (hb : b ∈ g.bodies v)
    (h : ∀ s ∈ b, s = .epsilon ∨ s.isVar = true ∧ g.Erases s) : g.Erases v :=
  ⟨b, hb, vanishes_of_forall h⟩

/-- Where every terminal has a letter, the empty word is the word without letters. -/
theorem erases_iff_derives_nil (ht : ∀ v, ∀ b ∈ g.bodies v, ∀ a, .terminal a ∈ b → a ≠ "") :
    g.Erases v ↔ g.Derives v [] := by
  constructor
  · refine Erases.induct fun v b hb h ↦ derives_of_mem hb (Body.denotes_empty_word.2 fun s hs ↦ ?_)
    rcases h s hs with rfl | ⟨hvar, hd⟩
    · exact rfl
    · exact (Symbol.denotes_var hvar).2 hd
  · intro hv
    refine derives_least (I := fun v w ↦ w = [] → g.Erases v) (fun v b hb w hw hnil ↦ ?_) hv rfl
    subst hnil
    rw [Body.denotes_empty_word] at hw
    refine erases_of_forall hb fun s hs ↦ ?_
    cases s with
    | var name => exact .inr ⟨rfl, hw _ hs rfl⟩
    | terminal a => exact absurd (String.toList_eq_nil_iff.1 (hw _ hs).symm) (ht v b hb a hs)
    | epsilon => exact .inl rfl
    | foreign t => exact (hw _ hs).elim

end ChomskyNormalForm.Grammar
