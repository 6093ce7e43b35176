import ChomskyNormalForm.Language.Derivation

namespace ChomskyNormalForm

/-- A language for each variable. What it gives to other symbols does not count. -/
abbrev Interpretation := Symbol → Word → Prop

def Symbol.Denotes (I : Interpretation) : Symbol → Word → Prop
  | .terminal a, w => w = a.toList
  | .var name, w => I (.var name) w
  | .epsilon, w => w = []
  | .foreign _, _ => False

/-- The words that consist of a word of each symbol of a body. -/
def Body.Denotes (I : Interpretation) : Body → Word → Prop
  | [], w => w = []
  | s :: b, w => ∃ u x, w = u ++ x ∧ s.Denotes I u ∧ Body.Denotes I b x

namespace Symbol

variable {I J : Interpretation} {s : Symbol} {w : Word}

theorem Denotes.mono (h : s.isVar = true → ∀ w, I s w → J s w) (hs : s.Denotes I w) :
    s.Denotes J w := by
  cases s with
  | var name => exact h rfl w hs
  | terminal a => exact hs
  | epsilon => exact hs
  | foreign t => exact hs

theorem denotes_var (hs : s.isVar = true) : s.Denotes I w ↔ I s w := by
  cases s with
  | var name => exact .rfl
  | terminal a => simp [isVar] at hs
  | epsilon => simp [isVar] at hs
  | foreign t => simp [isVar] at hs

end Symbol

namespace Body

variable {I J : Interpretation} {s : Symbol} {b c : Body} {w : Word}

@[simp] theorem mem_vars {v : Symbol} : v ∈ vars b ↔ v ∈ b ∧ v.isVar = true := List.mem_filter

theorem mem_vars_cons {v : Symbol} (h : v ∈ vars b) : v ∈ vars (s :: b) := by
  rw [mem_vars] at h ⊢
  exact ⟨List.mem_cons_of_mem _ h.1, h.2⟩

@[simp] theorem denotes_nil : Body.Denotes I [] w ↔ w = [] := .rfl

theorem denotes_cons :
    Body.Denotes I (s :: b) w ↔ ∃ u x, w = u ++ x ∧ s.Denotes I u ∧ Body.Denotes I b x := .rfl

@[simp] theorem denotes_singleton : Body.Denotes I [s] w ↔ s.Denotes I w := by
  simp [denotes_cons]

theorem denotes_append :
    Body.Denotes I (b ++ c) w ↔ ∃ u x, w = u ++ x ∧ Body.Denotes I b u ∧ Body.Denotes I c x := by
  induction b generalizing w with
  | nil =>
    constructor
    · exact fun h ↦ ⟨[], w, rfl, rfl, h⟩
    · intro hz
      obtain ⟨_, x, rfl, rfl, h⟩ := hz
      exact h
  | cons s b ih =>
    simp only [List.cons_append, denotes_cons, ih]
    constructor
    · intro hz
      obtain ⟨y, _, rfl, hy, u, x, rfl, hu, hx⟩ := hz
      exact ⟨y ++ u, x, by simp, ⟨y, u, rfl, hy, hu⟩, hx⟩
    · intro hz
      obtain ⟨_, x, rfl, ⟨y, u, rfl, hy, hu⟩, hx⟩ := hz
      exact ⟨y, u ++ x, by simp, hy, u, x, rfl, hu, hx⟩

theorem denotes_empty_word : Body.Denotes I b [] ↔ ∀ s ∈ b, s.Denotes I [] := by
  induction b with
  | nil => simp
  | cons s b ih =>
    rw [List.forall_mem_cons, ← ih]
    constructor
    · intro hy
      obtain ⟨u, x, h, hu, hx⟩ := hy
      obtain ⟨rfl, rfl⟩ := List.append_eq_nil_iff.1 h.symm
      exact ⟨hu, hx⟩
    · intro ⟨hu, hx⟩
      exact ⟨[], [], rfl, hu, hx⟩

theorem Denotes.mono (h : ∀ v ∈ vars b, ∀ w, I v w → J v w) (hb : Body.Denotes I b w) :
    Body.Denotes J b w := by
  induction b generalizing w with
  | nil => exact hb
  | cons s b ih =>
    obtain ⟨u, x, rfl, hu, hx⟩ := hb
    exact ⟨u, x, rfl, hu.mono (fun hs ↦ h s (by simp [hs])),
      ih (fun v hv ↦ h v (mem_vars_cons hv)) hx⟩

theorem Denotes.exists_of_mem (hb : Body.Denotes I b w) (hs : s ∈ b) : ∃ u, s.Denotes I u := by
  induction b generalizing w with
  | nil => simp at hs
  | cons t b ih =>
    obtain ⟨u, x, -, hu, hx⟩ := hb
    rcases List.mem_cons.1 hs with rfl | hs
    · exact ⟨u, hu⟩
    · exact ih hx hs

theorem exists_denotes (h : ∀ s ∈ b, ∃ u, s.Denotes I u) : ∃ w, Body.Denotes I b w := by
  induction b with
  | nil => exact ⟨[], rfl⟩
  | cons s b ih =>
    obtain ⟨u, hu⟩ := h s List.mem_cons_self
    obtain ⟨x, hx⟩ := ih (fun t ht ↦ h t (List.mem_cons_of_mem _ ht))
    exact ⟨u ++ x, u, x, rfl, hu, hx⟩

end Body

namespace Grammar

variable {g h : Grammar} {I : Interpretation} {v : Symbol} {b : Body} {w : Word}

theorem yields_iff : g.Yields b w ↔ Body.Denotes g.Derives b w := by
  induction b generalizing w with
  | nil => simp
  | cons s b ih =>
    cases s with
    | terminal a =>
      simp only [yields_terminal_cons, Body.denotes_cons, ih]
      constructor
      · intro hx
        obtain ⟨x, rfl, h⟩ := hx
        exact ⟨a.toList, x, rfl, rfl, h⟩
      · intro hx
        obtain ⟨_, x, rfl, rfl, h⟩ := hx
        exact ⟨x, rfl, h⟩
    | var name => simp only [yields_var_cons, Body.denotes_cons, Symbol.Denotes, ih]
    | epsilon =>
      simp only [yields_epsilon_cons, Body.denotes_cons, ih]
      constructor
      · exact fun h ↦ ⟨[], w, rfl, rfl, h⟩
      · intro hx
        obtain ⟨_, x, rfl, rfl, h⟩ := hx
        exact h
    | foreign t => simp [Body.denotes_cons, Symbol.Denotes]

theorem derives_iff : g.Derives v w ↔ ∃ b ∈ g.bodies v, Body.Denotes g.Derives b w := by
  simp only [Derives, yields_iff]

theorem derives_of_mem (hb : b ∈ g.bodies v) (hw : Body.Denotes g.Derives b w) : g.Derives v w :=
  derives_iff.2 ⟨b, hb, hw⟩

theorem derives_induct
    (hI : ∀ v, ∀ b ∈ g.bodies v, ∀ w, Body.Denotes (fun v w ↦ g.Derives v w ∧ I v w) b w → I v w)
    (hv : g.Derives v w) : I v w := by
  have hy : ∀ {b w}, g.Yields b w → Body.Denotes (fun v w ↦ g.Derives v w ∧ I v w) b w := by
    intro b w hy
    induction hy with
    | nil => exact rfl
    | epsilon _ ih => exact ⟨[], _, rfl, rfl, ih⟩
    | terminal a _ ih => exact ⟨a.toList, _, rfl, rfl, ih⟩
    | var hc hu _ ihu ihw => exact ⟨_, _, rfl, ⟨⟨_, hc, hu⟩, hI _ _ hc _ ihu⟩, ihw⟩
  obtain ⟨b, hb, hw⟩ := hv
  exact hI v b hb w (hy hw)

/-- The derived words are the least languages that the rules keep. -/
theorem derives_least (hI : ∀ v, ∀ b ∈ g.bodies v, ∀ w, Body.Denotes I b w → I v w)
    (hv : g.Derives v w) : I v w :=
  derives_induct (fun v b hb w hw ↦ hI v b hb w (hw.mono fun _ _ _ ↦ And.right)) hv

theorem Derives.mono (hsub : ∀ v, ∀ b ∈ g.bodies v, b ∈ h.bodies v) (hv : g.Derives v w) :
    h.Derives v w :=
  derives_least (fun v b hb _ hw ↦ derives_of_mem (hsub v b hb) hw) hv

end Grammar

end ChomskyNormalForm
