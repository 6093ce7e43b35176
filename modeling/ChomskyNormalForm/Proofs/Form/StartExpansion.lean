import ChomskyNormalForm.Proofs.Form.Substitutions
import ChomskyNormalForm.Proofs.Form.UnitFree

namespace ChomskyNormalForm

namespace Grammar

variable {g e p : Grammar} {u v : Symbol} {b c : Body} {w : Word}

theorem startReplacements_eq_nil : g.startReplacements = [] ↔
    ∀ b ∈ g.bodies g.start, b ≠ Body.epsilon → g.start ∈ b := by
  simp only [List.eq_nil_iff_forall_not_mem, mem_startReplacements, not_and, not_not]

/-- The start stands in a body of another variable and has no body to put in its place. -/
def IsBlocked (g : Grammar) : Prop :=
  (∃ v, v ≠ g.start ∧ ∃ b ∈ g.bodies v, g.start ∈ b) ∧
    ∀ b ∈ g.bodies g.start, b ≠ Body.epsilon → g.start ∈ b

/-- `b` comes from a body of `v`. The start keeps its own bodies, and in the other ones its bodies
take its place. -/
def Unfolds (g : Grammar) (v : Symbol) (b : Body) : Prop :=
  ∃ c ∈ g.bodies v, v = g.start ∧ b = c ∨ v ≠ g.start ∧
    b ∈ c.substitutions g.start g.startReplacements

theorem Unfolds.mem (h : g.Unfolds v b) : v ∈ g := by
  obtain ⟨c, hc, -⟩ := h
  exact mem_of_mem_bodies hc

theorem unfolds_start : g.Unfolds g.start b ↔ b ∈ g.bodies g.start := by
  simp [Unfolds]

theorem unfolds_of_ne (hv : v ≠ g.start) :
    g.Unfolds v b ↔ ∃ c ∈ g.bodies v, b ∈ c.substitutions g.start g.startReplacements := by
  simp [Unfolds, hv]

theorem Unfolds.mem_or_exists (h : g.Unfolds v b) : b ∈ g.bodies v ∨
    ∃ c ∈ g.bodies v, g.start ∈ c ∧ b ∈ c.substitutions g.start g.startReplacements := by
  obtain ⟨c, hc, ⟨-, rfl⟩ | ⟨-, hb⟩⟩ := h
  · exact .inl hc
  · by_cases hs : g.start ∈ c
    · exact .inr ⟨c, hc, hs, hb⟩
    · obtain rfl := (Body.mem_substitutions_of_not_mem hs).1 hb
      exact .inl hc

theorem start_not_mem_of_mem_substitutions (hb : b ∈ c.substitutions g.start g.startReplacements) :
    g.start ∉ b :=
  Body.not_mem_of_mem_substitutions (fun _ hr ↦ (mem_startReplacements.1 hr).2.2) hb

section Congr

variable {h : Grammar} (hs : h.start = g.start)
  (hb : ∀ b, b ∈ h.bodies g.start ↔ b ∈ g.bodies g.start)

include hs hb

theorem mem_startReplacements_congr (r : Body) : r ∈ h.startReplacements ↔
    r ∈ g.startReplacements := by
  rw [mem_startReplacements, mem_startReplacements, hs, hb]

theorem startReplacements_eq_nil_congr : h.startReplacements = [] ↔ g.startReplacements = [] := by
  simp only [List.eq_nil_iff_forall_not_mem, mem_startReplacements_congr hs hb]

theorem unfolds_congr (hv : ∀ b, b ∈ h.bodies v ↔ b ∈ g.bodies v) :
    h.Unfolds v b ↔ g.Unfolds v b := by
  simp only [Unfolds, hs, hv, Body.mem_substitutions_congr (mem_startReplacements_congr hs hb)]

end Congr

theorem IsLegal.start_not_mem_epsilon (hg : g.IsLegal) : g.start ∉ Body.epsilon := by
  intro hs
  have hvar := hg.isVar_start
  rw [List.mem_singleton.1 hs] at hvar
  exact nomatch hvar

theorem IsLegal.length_le_of_mem_substitutions (hg : g.IsLegal)
    (hb : b ∈ c.substitutions g.start g.startReplacements) : c.length ≤ b.length :=
  Body.length_le_of_mem_substitutions
    (fun r hr ↦ (hg.body _ r (mem_startReplacements.1 hr).1).ne_nil) hb

theorem Unfolds.isLegal (h : g.Unfolds v b) (hg : g.IsLegal) : b.IsLegal := by
  rcases h.mem_or_exists with hb | ⟨c, hc, hs, hb⟩
  · exact hg.body v b hb
  · have hl := (hg.body v c hc).isEpsilon_eq_false fun he ↦ hg.start_not_mem_epsilon (he ▸ hs)
    have hpos :=
      Nat.lt_of_lt_of_le (List.length_pos_of_mem hs) (hg.length_le_of_mem_substitutions hb)
    refine .inr ⟨List.length_pos_iff.1 hpos, fun s hsb ↦ ?_⟩
    rcases Body.mem_of_mem_substitutions hb hsb with ⟨hsc, -⟩ | ⟨r, hr, hsr⟩
    · exact hl s hsc
    · obtain ⟨hr, hne, -⟩ := mem_startReplacements.1 hr
      exact (hg.body _ r hr).isEpsilon_eq_false hne s hsr

theorem Unfolds.isUnit (h : g.Unfolds v b) (hg : g.IsLegal)
    (hunit : ∀ v, ∀ b ∈ g.bodies v, b.isUnit = false) :
    b.isUnit = false := by
  rcases h.mem_or_exists with hb | ⟨c, hc, hs, hb⟩
  · exact hunit v b hb
  · -- The start is not all of `c`, which would be a single variable itself, and no symbol makes way
    -- for nothing.
    have hlong : 1 < c.length := by
      by_contra hle
      obtain ⟨x, rfl⟩ :=
        List.length_eq_one_iff.1 (Nat.le_antisymm (Nat.not_lt.1 hle) (List.length_pos_of_mem hs))
      have hx := Body.isUnit_eq_false.1 (hunit v [x] hc) x
      exact hx (List.mem_singleton.1 hs ▸ hg.isVar_start) rfl
    refine Body.isUnit_eq_false.2 fun x _ hx ↦ ?_
    have hle := hg.length_le_of_mem_substitutions hb
    rw [hx, List.length_singleton] at hle
    exact absurd hlong (Nat.not_lt.2 hle)

theorem Unfolds.derives (h : g.Unfolds v b) (hg : g.IsLegal) (hw : Body.Denotes g.Derives b w) :
    g.Derives v w := by
  obtain ⟨c, hc, ⟨-, rfl⟩ | ⟨-, hb⟩⟩ := h
  · exact derives_of_mem hc hw
  · refine derives_of_mem hc (Body.denotes_of_mem_substitutions hg.isVar_start
      (fun r hr w hw ↦ ?_) hb hw)
    exact derives_of_mem (mem_startReplacements.1 hr).1 hw

structure IsProtected (e p : Grammar) : Prop where
  start_eq : p.start = e.start
  mem : ∀ v, v ∈ p ↔ v ∈ e
  bodies : ∀ v b, b ∈ p.bodies v ↔ e.Unfolds v b

namespace IsProtected

theorem start_not_mem (h : IsProtected e p) (hv : v ≠ e.start) (hb : b ∈ p.bodies v) :
    e.start ∉ b := by
  obtain ⟨c, -, hb⟩ := (unfolds_of_ne hv).1 ((h.bodies v b).1 hb)
  exact start_not_mem_of_mem_substitutions hb

theorem isLegal (h : IsProtected e p) (he : e.IsLegal) : p.IsLegal where
  start_mem := h.start_eq ▸ (h.mem _).2 he.start_mem
  head v hv := he.head v ((h.mem v).1 hv)
  body v b hb := ((h.bodies v b).1 hb).isLegal he
  closed v u hm := by
    obtain ⟨b, hb, hu⟩ := hm
    rw [h.mem]
    rcases ((h.bodies v b).1 hb).mem_or_exists with hb | ⟨c, hc, -, hb⟩
    · exact he.closed v u ⟨b, hb, hu⟩
    · rw [Body.mem_vars] at hu
      rcases Body.mem_of_mem_substitutions hb hu.1 with ⟨hs, -⟩ | ⟨r, hr, hs⟩
      · exact he.closed v u ⟨c, hc, Body.mem_vars.2 ⟨hs, hu.2⟩⟩
      · exact he.closed e.start u ⟨r, (mem_startReplacements.1 hr).1, Body.mem_vars.2 ⟨hs, hu.2⟩⟩

theorem derives (h : IsProtected e p) (he : e.IsLegal) (hw : p.Derives v w) : e.Derives v w :=
  derives_least (fun v b hb _ hw ↦ ((h.bodies v b).1 hb).derives he hw) hw

/-- Where all bodies of the start can take its place, the words of every variable are kept. -/
theorem derives_iff (h : IsProtected e p) (he : e.IsLegal)
    (hown : ∀ b ∈ e.bodies e.start, b ≠ Body.epsilon ∧ e.start ∉ b) :
    p.Derives v w ↔ e.Derives v w := by
  refine ⟨h.derives he, derives_induct (fun v c hc w hw ↦ ?_)⟩
  have hpw : Body.Denotes p.Derives c w := hw.mono fun _ _ _ ↦ And.right
  by_cases hv : v = e.start
  · exact derives_of_mem ((h.bodies v c).2 ⟨c, hc, .inl ⟨hv, rfl⟩⟩) hpw
  · have hstart : ∀ w, p.Derives e.start w →
        ∃ r ∈ e.startReplacements, Body.Denotes p.Derives r w := by
      intro w hw
      obtain ⟨r, hr, hrw⟩ := Grammar.derives_iff.1 hw
      have hr := unfolds_start.1 ((h.bodies _ r).1 hr)
      exact ⟨r, mem_startReplacements.2 ⟨hr, hown r hr⟩, hrw⟩
    obtain ⟨b, hb, hbw⟩ := hpw.exists_mem_substitutions he.isVar_start hstart
    exact derives_of_mem ((h.bodies v b).2 ((unfolds_of_ne hv).2 ⟨c, hc, hb⟩)) hbw

end IsProtected

end Grammar

namespace Session

open Grammar

variable {s t : Session} {v : Symbol} {c : Body} {gone : List Body} {done : List Symbol}

/-- A body goes and its substitutions come, unless there is nothing to put in the place of the
start. -/
theorem ends_expandStart (hv : v ∈ s.grammar) (c : Body) :
    Ends (fun h ↦ s.grammar.startReplacements = [] ∧ h.fault = .inexpansible s.grammar.start v c)
    (s.expandStart v c)
      fun t ↦ s.grammar.startReplacements ≠ [] ∧ t.grammar.start = s.grammar.start ∧
        (∀ u, u ∈ t.grammar ↔ u ∈ s.grammar) ∧ t.helpers = s.helpers ∧
        ∀ u b, b ∈ t.grammar.bodies u ↔ b ∈ s.grammar.bodies u ∧ (u = v → b ≠ c) ∨
          u = v ∧ b ∈ c.substitutions s.grammar.start s.grammar.startReplacements := by
  unfold expandStart
  dsimp only
  split
  · rename_i hnil
    exact ⟨hnil, rfl⟩
  · rename_i hne
    refine ⟨hne, rfl, fun u ↦ ?_, helpers_commit_of_eq_nil rfl, fun u b ↦ ?_⟩
    · rw [grammar_commit, mem_extend, mem_remove, or_iff_left_iff_imp]
      exact fun hu ↦ hu ▸ hv
    · rw [grammar_commit, mem_bodies_extend, mem_news, mem_bodies_remove, mem_bodies_remove]
      constructor
      · exact fun hb ↦ hb.imp_right fun ⟨hu, hb, _⟩ ↦ ⟨hu, hb⟩
      · intro hb
        rcases hb with hb | ⟨rfl, hb⟩
        · exact .inl hb
        · by_cases hold : b ∈ s.grammar.bodies u ∧ (u = u → b ≠ c)
          · exact .inl hold
          · exact .inr ⟨rfl, hb, hold⟩

structure Unfolding (v : Symbol) (gone : List Body) (s t : Session) : Prop where
  start_eq : t.grammar.start = s.grammar.start
  mem : ∀ u, u ∈ t.grammar ↔ u ∈ s.grammar
  own : ∀ b, b ∈ t.grammar.bodies v ↔ b ∈ s.grammar.bodies v ∧ b ∉ gone ∨
    ∃ d ∈ gone, b ∈ d.substitutions s.grammar.start s.grammar.startReplacements
  rest : ∀ u, u ≠ v → ∀ b, b ∈ t.grammar.bodies u ↔ b ∈ s.grammar.bodies u
  helpers_eq : t.helpers = s.helpers
  stocked : gone ≠ [] → s.grammar.startReplacements ≠ []

theorem Unfolding.refl (v : Symbol) (s : Session) : Unfolding v [] s s where
  start_eq := rfl
  mem _ := .rfl
  own _ := by simp
  rest _ _ _ := .rfl
  helpers_eq := rfl
  stocked h := absurd rfl h

theorem Unfolding.ends_expandStart (h : Unfolding v gone s t) (hv : v ∈ s.grammar)
    (hne : v ≠ s.grammar.start) (hc : s.grammar.start ∈ c) :
    Ends (fun x ↦ s.grammar.startReplacements = [] ∧ x.fault = .inexpansible s.grammar.start v c)
    (t.expandStart v c)
      (Unfolding v (c :: gone) s) := by
  have hown := h.rest _ hne.symm
  have hnil := startReplacements_eq_nil_congr h.start_eq hown
  apply (Session.ends_expandStart ((h.mem v).2 hv) c).imp
  · intro x ⟨hx, hf⟩
    exact ⟨hnil.1 hx, h.start_eq ▸ hf⟩
  · intro x ⟨hx, hs, hm, hh, hb⟩
    simp only [h.start_eq, Body.mem_substitutions_congr
      (mem_startReplacements_congr h.start_eq hown)] at hb
    refine ⟨hs.trans h.start_eq, fun u ↦ (hm u).trans (h.mem u), fun b ↦ ?_, fun u hu b ↦ ?_,
      hh.trans h.helpers_eq, fun _ hr ↦ hx (hnil.2 hr)⟩
    -- The start stands in `c`, so `c` is none of the substitutions that have come before.
    · have hnew : (∃ d ∈ gone, b ∈ d.substitutions s.grammar.start s.grammar.startReplacements) →
          b ≠ c := by
        intro ⟨d, _, hd⟩ he
        exact start_not_mem_of_mem_substitutions hd (he ▸ hc)
      rw [hb, h.own, List.mem_cons, not_or, List.exists_mem_cons_iff]
      simp only [true_imp_iff, true_and]
      grind
    · rw [hb, h.rest u hu]
      simp [hu]

theorem Unfolding.mem_bodies_iff {b : Body} (h : Unfolding v gone s t) (hne : v ≠ s.grammar.start)
    (hgone : ∀ c, c ∈ gone ↔ c ∈ s.grammar.bodies v ∧ s.grammar.start ∈ c) :
    b ∈ t.grammar.bodies v ↔ s.grammar.Unfolds v b := by
  rw [h.own, unfolds_of_ne hne]
  constructor
  · rintro (⟨hb, hd⟩ | ⟨d, hd, hb⟩)
    · have hs : s.grammar.start ∉ b := fun hs ↦ hd ((hgone b).2 ⟨hb, hs⟩)
      exact ⟨b, hb, (Body.mem_substitutions_of_not_mem hs).2 rfl⟩
    · exact ⟨d, ((hgone d).1 hd).1, hb⟩
  · intro ⟨d, hd, hb⟩
    by_cases hs : s.grammar.start ∈ d
    · exact .inr ⟨d, (hgone d).2 ⟨hd, hs⟩, hb⟩
    · obtain rfl := (Body.mem_substitutions_of_not_mem hs).1 hb
      exact .inl ⟨hd, fun hb ↦ hs ((hgone b).1 hb).2⟩

def StopsAt (g : Grammar) (v : Symbol) (h : Halt) : Prop :=
  g.startReplacements = [] ∧ ∃ b ∈ g.bodies v, g.start ∈ b ∧ h.fault = .inexpansible g.start v b

theorem StopsAt.isBlocked {g : Grammar} {h : Halt} (hh : StopsAt g v h) (hne : v ≠ g.start) :
    g.IsBlocked := by
  obtain ⟨hnil, b, hb, hs, -⟩ := hh
  exact ⟨⟨v, hne, b, hb, hs⟩, startReplacements_eq_nil.1 hnil⟩

theorem ends_expandStarts (hv : v ∈ s.grammar) (hne : v ≠ s.grammar.start) :
    Ends (StopsAt s.grammar v) (((s.grammar.bodies v).filter (s.grammar.start ∈ ·)).foldlM
      (expandStart v) s) fun t ↦
      ∃ gone, Unfolding v gone s t ∧ ∀ c, c ∈ gone ↔ c ∈ s.grammar.bodies v ∧
      s.grammar.start ∈ c := by
  have hloop :=
    Ends.foldlM (f := expandStart v) (l := (s.grammar.bodies v).filter (s.grammar.start ∈ ·))
    (I := fun gone ↦ Unfolding v gone s) (E := StopsAt s.grammar v) (fun gone t c hc _ h ↦ ?_)
    ((Rules.nodup_bodies _ v).filter _) (fun _ _ ↦ List.not_mem_nil) (.refl v s)
  · exact hloop.mono fun t ht ↦ ⟨_, ht, fun c ↦ by simp⟩
  · rw [List.mem_filter, decide_eq_true_eq] at hc
    apply (h.ends_expandStart hv hne hc.2).imp
    · exact fun x hx ↦ ⟨hx.1, c, hc.1, hc.2, hx.2⟩
    · exact fun _ hx ↦ hx

/-- The variables of `done` are protected, and none of them needed what the start does not have. -/
structure Protecting (done : List Symbol) (s t : Session) :
    Prop extends Amended s.grammar.Unfolds done s t where
  stocked : ∀ v ∈ done, ∀ b ∈ s.grammar.bodies v, s.grammar.start ∈ b →
    s.grammar.startReplacements ≠ []

theorem Protecting.ends_expandStarts (h : Protecting done s t) (hv : v ∈ s.grammar) (hd : v ∉ done)
    (hne : v ≠ s.grammar.start) :
    Ends (StopsAt s.grammar v) (((t.grammar.bodies v).filter (t.grammar.start ∈ ·)).foldlM
      (expandStart v) t) (Protecting (v :: done) s) := by
  have hvb : ∀ b, b ∈ t.grammar.bodies v ↔ b ∈ s.grammar.bodies v := h.rest v hd
  have hstart : ∀ b, b ∈ t.grammar.bodies s.grammar.start ↔
      b ∈ s.grammar.bodies s.grammar.start := by
    intro b
    by_cases hs : s.grammar.start ∈ done
    · exact (h.own _ hs b).trans unfolds_start
    · exact h.rest _ hs b
  have hnil := startReplacements_eq_nil_congr h.start_eq hstart
  have hnet : v ≠ t.grammar.start := h.start_eq ▸ hne
  apply (Session.ends_expandStarts ((h.mem v).2 hv) hnet).imp
  · intro x ⟨hx, b, hb, hs, hf⟩
    rw [h.start_eq] at hs hf
    exact ⟨hnil.1 hx, b, (hvb b).1 hb, hs, hf⟩
  · intro x ⟨gone, hx, hgone⟩
    refine ⟨h.toAmended.cons hx.start_eq hx.mem (fun b ↦ ?_) hx.rest hx.helpers_eq, ?_⟩
    · rw [hx.mem_bodies_iff hnet hgone, unfolds_congr h.start_eq hstart hvb]
    · refine List.forall_mem_cons.2 ⟨fun b hb hs hr ↦ ?_, h.stocked⟩
      have hbt : b ∈ gone := (hgone b).2 ⟨(hvb b).2 hb, h.start_eq.symm ▸ hs⟩
      exact hx.stocked (List.ne_nil_of_mem hbt) (hnil.2 hr)

theorem Protecting.isProtected (h : Protecting done s t)
    (hdone : ∀ v, v ∈ done ↔ v ∈ s.grammar ∧ v ≠ s.grammar.start) :
    IsProtected s.grammar t.grammar := by
  refine ⟨h.start_eq, h.mem, fun v b ↦ ?_⟩
  by_cases hv : v ∈ done
  · exact h.own v hv b
  · rw [h.rest v hv]
    rw [hdone, not_and_not_right] at hv
    constructor
    · intro hb
      obtain rfl := hv (mem_of_mem_bodies hb)
      exact unfolds_start.2 hb
    · intro hb
      obtain rfl := hv hb.mem
      exact unfolds_start.1 hb

theorem ends_protectStart (s : Session) :
    Ends (fun h ↦ ∃ v, v ≠ s.grammar.start ∧ StopsAt s.grammar v h) s.protectStart fun t ↦
      IsProtected s.grammar t.grammar ∧ ¬s.grammar.IsBlocked := by
  have hloop := Ends.foldlM (E := fun h ↦ ∃ v, v ≠ s.grammar.start ∧ StopsAt s.grammar v h)
    (f := fun s v ↦ ((s.grammar.bodies v).filter (s.grammar.start ∈ ·)).foldlM (expandStart v) s)
    (l := s.grammar.sortedHeads.filter (· ≠ s.grammar.start)) (I := fun done ↦ Protecting done s)
    (fun done t v hv hd h ↦ ?_) (((nodup_sortBy _).2 (nodup_heads _)).filter _)
    (fun _ _ ↦ List.not_mem_nil) ⟨.refl _ s, nofun⟩
  · refine hloop.mono fun t h ↦ ?_
    have hdone : ∀ v, v ∈ (s.grammar.sortedHeads.filter (· ≠ s.grammar.start)).reverse ++ [] ↔
        v ∈ s.grammar ∧ v ≠ s.grammar.start := fun v ↦ by simp [mem_sortedHeads]
    refine ⟨h.isProtected hdone, ?_⟩
    rintro ⟨⟨v, hne, b, hb, hs⟩, hnil⟩
    exact h.stocked v ((hdone v).2 ⟨mem_of_mem_bodies hb, hne⟩) b hb hs
      (startReplacements_eq_nil.2 hnil)
  · rw [List.mem_filter, mem_sortedHeads, decide_eq_true_eq] at hv
    exact (h.ends_expandStarts hv.1 hd hv.2).imp (fun x hx ↦ ⟨v, hv.2, hx⟩) fun _ hx ↦ hx

end Session

end ChomskyNormalForm
