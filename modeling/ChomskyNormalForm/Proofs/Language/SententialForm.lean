import ChomskyNormalForm.Proofs.Analysis.Productive
import ChomskyNormalForm.Proofs.Grammar.Legal
import Mathlib.Logic.Relation

namespace ChomskyNormalForm

def Body.Spells (b : Body) (w : Word) : Prop := Body.Denotes (fun _ _ ↦ False) b w

namespace Grammar

/-- One step of a derivation: the body of a production takes the place of its left-hand side. -/
inductive Rewrites (g : Grammar) (p : Production) : Body → Body → Prop
  | intro (x y : Body) : p.body ∈ g.bodies p.head →
    Rewrites g p (x ++ p.head :: y) (x ++ p.body ++ y)

def Leads (g : Grammar) : Body → Body → Prop :=
  Relation.ReflTransGen fun x y ↦ ∃ p, g.Rewrites p x y

def Finishes (g : Grammar) (x : Body) : Prop := ∃ y w, g.Leads x y ∧ y.Spells w

/-- Some derivation of a word from the start passes through the form. -/
def Passes (g : Grammar) (x : Body) : Prop := g.Leads [g.start] x ∧ g.Finishes x

def Uses (g : Grammar) (p : Production) : Prop :=
  ∃ x y, g.Leads [g.start] x ∧ g.Rewrites p x y ∧ g.Finishes y

variable {g : Grammar} {p : Production} {v : Symbol} {b x y z : Body} {w : Word}

theorem Leads.refl : g.Leads x x := Relation.ReflTransGen.refl

theorem Leads.trans (h : g.Leads x y) (h' : g.Leads y z) : g.Leads x z :=
  Relation.ReflTransGen.trans h h'

theorem Leads.tail (h : g.Leads x y) (h' : g.Rewrites p y z) : g.Leads x z :=
  Relation.ReflTransGen.tail h ⟨p, h'⟩

theorem Rewrites.within (before after : Body) (h : g.Rewrites p x y) :
    g.Rewrites p (before ++ x ++ after) (before ++ y ++ after) := by
  cases h with
  | intro u v hb =>
    have hstep := Rewrites.intro (g := g) (p := p) (before ++ u) (v ++ after) hb
    simpa only [List.append_assoc, List.cons_append] using hstep

theorem Leads.within (before after : Body) (h : g.Leads x y) :
    g.Leads (before ++ x ++ after) (before ++ y ++ after) := by
  induction h with
  | refl => exact .refl
  | tail _ hs ih =>
    obtain ⟨p, hp⟩ := hs
    exact ih.tail (hp.within before after)

theorem exists_leads_of_denotes {I : Interpretation}
    (hI : ∀ v w, I v w → ∃ y, g.Leads [v] y ∧ y.Spells w) (h : Body.Denotes I x w) :
    ∃ y, g.Leads x y ∧ y.Spells w := by
  induction x generalizing w with
  | nil => exact ⟨[], .refl, h⟩
  | cons s x ih =>
    obtain ⟨u, r, rfl, hu, hr⟩ := h
    obtain ⟨y, hy, hyr⟩ := ih hr
    -- the first symbol and the rest are led on one after the other, each beside what is there of
    -- the other
    have hs : ∃ z, g.Leads [s] z ∧ z.Spells u := by
      cases s with
      | var name => exact hI _ _ hu
      | terminal a => exact ⟨[.terminal a], .refl, Body.denotes_singleton.2 hu⟩
      | epsilon => exact ⟨[.epsilon], .refl, Body.denotes_singleton.2 hu⟩
      | foreign t => exact hu.elim
    obtain ⟨z, hz, hzu⟩ := hs
    have hfirst := hz.within [] x
    have hrest := hy.within z []
    simp only [List.nil_append, List.append_nil] at hfirst hrest
    exact ⟨z ++ y, hfirst.trans hrest, Body.denotes_append.2 ⟨u, r, rfl, hzu, hyr⟩⟩

theorem Derives.exists_leads (h : g.Derives v w) : ∃ y, g.Leads [v] y ∧ y.Spells w := by
  refine derives_least (I := fun v w ↦ ∃ y, g.Leads [v] y ∧ y.Spells w) (fun v b hb w hw ↦ ?_) h
  obtain ⟨y, hy, hyw⟩ := exists_leads_of_denotes (fun _ _ ↦ id) hw
  have hstep := Rewrites.intro (g := g) (p := ⟨v, b⟩) [] [] hb
  rw [List.nil_append, List.nil_append, List.append_nil] at hstep
  exact ⟨y, (Leads.refl.tail hstep).trans hy, hyw⟩

theorem Rewrites.denotes (h : g.Rewrites p x y) (hp : p.head.isVar = true)
    (hy : Body.Denotes g.Derives y w) :
    Body.Denotes g.Derives x w := by
  cases h with
  | intro u v hb =>
    rw [List.append_assoc, Body.denotes_append] at hy
    obtain ⟨wu, wr, rfl, hu, hr⟩ := hy
    obtain ⟨wb, wv, rfl, hbody, hv⟩ := Body.denotes_append.1 hr
    exact Body.denotes_append.2 ⟨wu, wb ++ wv, rfl, hu, wb, wv, rfl,
      (Symbol.denotes_var hp).2 (derives_of_mem hb hbody), hv⟩

theorem Rewrites.mem_bodies (h : g.Rewrites p x y) : p.body ∈ g.bodies p.head := by
  cases h with
  | intro u v hb => exact hb

theorem Rewrites.head_mem (h : g.Rewrites p x y) : p.head ∈ x := by
  cases h with
  | intro u v hb => exact List.mem_append_right u List.mem_cons_self

theorem Rewrites.body_subset (h : g.Rewrites p x y) : p.body ⊆ y := by
  cases h with
  | intro u v hb => exact fun s hs ↦ List.mem_append_left _ (List.mem_append_right _ hs)

theorem Rewrites.mem_or_mem_body (h : g.Rewrites p x y) (hv : v ∈ y) : v ∈ x ∨ v ∈ p.body := by
  cases h with
  | intro u r hb =>
    rcases List.mem_append.1 hv with hv | hv
    · exact (List.mem_append.1 hv).imp_left (List.mem_append_left _)
    · exact .inl (List.mem_append_right _ (List.mem_cons_of_mem _ hv))

theorem Rewrites.mem_or_eq_head (h : g.Rewrites p x y) (hv : v ∈ x) : v ∈ y ∨ v = p.head := by
  cases h with
  | intro u r hb =>
    rcases List.mem_append.1 hv with hv | hv
    · exact .inl (List.mem_append_left _ (List.mem_append_left _ hv))
    · exact (List.mem_cons.1 hv).symm.imp_left (List.mem_append_right _)

theorem IsLegal.isVar_of_rewrites (hg : g.IsLegal) (h : g.Rewrites p x y) : p.head.isVar = true :=
  (hg.head _ (mem_of_mem_bodies h.mem_bodies)).1

theorem IsLegal.denotes_of_leads (hg : g.IsLegal) (h : g.Leads x y)
    (hy : Body.Denotes g.Derives y w) :
    Body.Denotes g.Derives x w := by
  induction h with
  | refl => exact hy
  | tail _ hs ih =>
    obtain ⟨p, hp⟩ := hs
    exact ih (hp.denotes (hg.isVar_of_rewrites hp) hy)

/-- Derivations step by step make of a form just the words that it stands for. -/
theorem IsLegal.denotes_iff_leads (hg : g.IsLegal) :
    Body.Denotes g.Derives x w ↔ ∃ y, g.Leads x y ∧ y.Spells w := by
  constructor
  · exact exists_leads_of_denotes fun _ _ ↦ Derives.exists_leads
  · intro ⟨y, hy, hw⟩
    exact hg.denotes_of_leads hy (hw.mono fun _ _ _ ↦ False.elim)

theorem IsLegal.finishes_iff (hg : g.IsLegal) : g.Finishes x ↔ ∃ w, Body.Denotes g.Derives x w := by
  simp only [hg.denotes_iff_leads]
  exact exists_comm

theorem Rewrites.finishes (h : g.Rewrites p x y) (hy : g.Finishes y) : g.Finishes x := by
  obtain ⟨z, w, hz, hw⟩ := hy
  exact ⟨z, w, (Leads.refl.tail h).trans hz, hw⟩

theorem IsProductive.finishes (h : g.IsProductive v) : g.Finishes [v] := by
  obtain ⟨w, hw⟩ := h
  obtain ⟨y, hy, hyw⟩ := hw.exists_leads
  exact ⟨y, w, hy, hyw⟩

theorem IsLegal.isProductive_of_finishes (hg : g.IsLegal) (hx : g.Finishes x) (hv : v ∈ x)
    (hvar : v.isVar = true) :
    g.IsProductive v := by
  obtain ⟨w, hw⟩ := hg.finishes_iff.1 hx
  obtain ⟨u, hu⟩ := hw.exists_of_mem hv
  exact ⟨u, (Symbol.denotes_var hvar).1 hu⟩

theorem IsLegal.finishes_step (hg : g.IsLegal) (hx : g.Finishes (x ++ v :: y)) (hb : g.Finishes b) :
    g.Finishes (x ++ b ++ y) := by
  obtain ⟨w, hw⟩ := hg.finishes_iff.1 hx
  obtain ⟨wx, wr, rfl, hwx, hr⟩ := Body.denotes_append.1 hw
  obtain ⟨wv, wy, rfl, -, hwy⟩ := Body.denotes_cons.1 hr
  obtain ⟨wb, hwb⟩ := hg.finishes_iff.1 hb
  refine hg.finishes_iff.2 ⟨wx ++ (wb ++ wy), ?_⟩
  rw [List.append_assoc, Body.denotes_append]
  exact ⟨wx, wb ++ wy, rfl, hwx, Body.denotes_append.2 ⟨wb, wy, rfl, hwb, hwy⟩⟩

end Grammar

end ChomskyNormalForm
