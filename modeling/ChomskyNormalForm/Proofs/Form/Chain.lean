import ChomskyNormalForm.Form.Helpers
import ChomskyNormalForm.Proofs.Language.Reach
import ChomskyNormalForm.Proofs.Trace.Helpers

namespace ChomskyNormalForm

def suffixes : Body → List Symbol → List (Symbol × Body)
  | s :: b, h :: hs => (h, s :: b) :: suffixes b hs
  | _, _ => []

variable {b c : Body} {h v x r : Symbol} {hs : List Symbol} {p : Production} {g : Grammar}
  {I J : Interpretation} {w : Word}

theorem chain_cons (s h next : Symbol) (b : Body) (hs : List Symbol) :
    chain (s :: b) (h :: next :: hs) = ⟨h, [s, next]⟩ :: chain b (next :: hs) := rfl

theorem suffixes_nil (b : Body) : suffixes b [] = [] := by
  cases b <;> rfl

theorem suffixes_singleton (hb : b ≠ []) (h : Symbol) : suffixes b [h] = [(h, b)] := by
  cases b with
  | nil => exact absurd rfl hb
  | cons s b => rw [suffixes, suffixes_nil]

theorem eq_nil_of_length (hl : hs.length + 1 = b.length) (hone : ∀ h, hs = [h] → False)
    (hmore : ∀ s d h next hs', b = s :: d → hs = h :: next :: hs' → False) : hs = [] := by
  match hs, b, hl with
  | [], _, _ => rfl
  | [h], _, _ => exact absurd rfl (hone h)
  | h :: next :: hs', s :: d, _ => exact absurd rfl (hmore s d h next hs' rfl)

theorem map_head_chain (hl : hs.length + 1 = b.length) : (chain b hs).map Production.head = hs := by
  fun_induction chain b hs with
  | case1 s b h next hs ih => rw [List.map_cons, ih (by simpa using hl)]
  | case2 b h => rfl
  | case3 b hs hone hmore =>
    rw [eq_nil_of_length hl hone hmore]
    rfl

theorem length_body_chain (hl : hs.length + 1 = b.length) (hp : p ∈ chain b hs) :
    p.body.length = 2 := by
  fun_induction chain b hs with
  | case1 s b h next hs ih =>
    rcases List.mem_cons.1 hp with rfl | hp
    · rfl
    · exact ih (by simpa using hl) hp
  | case2 b h =>
    rw [List.mem_singleton.1 hp]
    exact hl.symm
  | case3 => exact absurd hp List.not_mem_nil

theorem mem_chain_iff (hl : hs.length + 1 = b.length) : p ∈ chain b hs ↔
    (∃ i s h next, b[i]? = some s ∧ hs[i]? = some h ∧ hs[i + 1]? = some next ∧ p = ⟨h, [s, next]⟩) ∨
      ∃ h, hs.getLast? = some h ∧ p = ⟨h, b.drop (b.length - 2)⟩ := by
  fun_induction chain b hs with
  | case1 s b h next hs ih =>
    have hl' : (next :: hs).length + 1 = b.length := by simpa using hl
    have hdrop : (s :: b).drop ((s :: b).length - 2) = b.drop (b.length - 2) := by
      have hlen : (s :: b).length - 2 = b.length - 2 + 1 := by
        rw [List.length_cons] at hl' ⊢
        omega
      rw [hlen, List.drop_succ_cons]
    rw [List.mem_cons, ih hl', hdrop, List.getLast?_cons_cons, ← or_assoc]
    refine or_congr_left ⟨fun hp ↦ ?_, fun ⟨i, hi⟩ ↦ ?_⟩
    · rcases hp with rfl | ⟨i, hi⟩
      · exact ⟨0, s, h, next, rfl, rfl, rfl, rfl⟩
      · exact ⟨i + 1, hi⟩
    · cases i with
      | zero =>
        obtain ⟨_, _, _, hs, hh, hnext, rfl⟩ := hi
        cases hs
        cases hh
        cases hnext
        exact .inl rfl
      | succ i => exact .inr ⟨i, hi⟩
  | case2 b h =>
    have hdrop : b.drop (b.length - 2) = b := by
      rw [← hl]
      simp
    simp [hdrop]
  | case3 b hs hone hmore =>
    rw [eq_nil_of_length hl hone hmore]
    simp

theorem mem_body_chain (hp : p ∈ chain b hs) (hr : r ∈ p.body) : r ∈ b ∨ r ∈ hs.tail := by
  fun_induction chain b hs with
  | case1 s b h next hs ih =>
    rcases List.mem_cons.1 hp with rfl | hp
    · rcases List.mem_cons.1 hr with rfl | hr
      · exact .inl List.mem_cons_self
      · exact .inr (List.mem_singleton.1 hr ▸ List.mem_cons_self)
    · exact (ih hp).imp (List.mem_cons_of_mem _) (List.mem_cons_of_mem _)
  | case2 b h =>
    rw [List.mem_singleton.1 hp] at hr
    exact .inl hr
  | case3 => exact absurd hp List.not_mem_nil

theorem exists_chain_mem (hl : hs.length + 1 = b.length) (hne : hs ≠ []) (hr : r ∈ b) :
    ∃ p ∈ chain b hs, r ∈ p.body := by
  fun_induction chain b hs with
  | case1 s b h next hs ih =>
    rcases List.mem_cons.1 hr with rfl | hr
    · exact ⟨_, List.mem_cons_self, List.mem_cons_self⟩
    · obtain ⟨p, hp, hrp⟩ := ih (by simpa using hl) (List.cons_ne_nil _ _) hr
      exact ⟨p, List.mem_cons_of_mem _ hp, hrp⟩
  | case2 b h => exact ⟨⟨h, b⟩, List.mem_singleton_self _, hr⟩
  | case3 b hs hone hmore => exact absurd (eq_nil_of_length hl hone hmore) hne

theorem reaches_chain (hl : (h :: hs).length + 1 = b.length) (hv : ∀ x ∈ h :: hs, x.isVar = true)
    (hg : ∀ p ∈ chain b (h :: hs), p.body ∈ g.bodies p.head) (hx : x ∈ h :: hs) :
    g.Reaches h x := by
  induction hs generalizing b h with
  | nil =>
    rw [List.mem_singleton.1 hx]
    exact .refl
  | cons next hs ih =>
    cases b with
    | nil => exact nomatch hl
    | cons s b =>
      rw [chain_cons, List.forall_mem_cons] at hg
      rw [List.forall_mem_cons] at hv
      rcases List.mem_cons.1 hx with rfl | hx
      · exact .refl
      · have hm : g.Mentions h next :=
          ⟨[s, next], hg.1, Body.mem_vars.2 ⟨by simp, hv.2 next List.mem_cons_self⟩⟩
        exact hm.reaches.trans (ih (by simpa using hl) hv.2 hg.2 hx)

/-- Where each helper has what its link stands for, each has the words of its suffix. -/
theorem chain_denotes (hl : hs.length + 1 = b.length) (hv : ∀ x ∈ hs, x.isVar = true)
    (hI : ∀ p ∈ chain b hs, ∀ w, Body.Denotes I p.body w → I p.head w) {e : Symbol × Body}
    (he : e ∈ suffixes b hs) (hw : Body.Denotes I e.2 w) : I e.1 w := by
  -- From the end of the chain to its front, for a link calls on the helper after it.
  fun_induction chain b hs generalizing e w with
  | case1 s b h next hs ih =>
    have hl' : (next :: hs).length + 1 = b.length := by simpa using hl
    rw [List.forall_mem_cons] at hv hI
    have htail : ∀ e ∈ suffixes b (next :: hs), ∀ w, Body.Denotes I e.2 w → I e.1 w :=
      fun e he w hw ↦
      ih hl' hv.2 hI.2 he hw
    rw [suffixes, List.mem_cons] at he
    rcases he with rfl | he
    · obtain ⟨u, y, rfl, hu, hy⟩ := hw
      have hnext : I next y := by
        cases b with
        | nil => exact nomatch hl'
        | cons t b => exact htail (next, t :: b) List.mem_cons_self y hy
      refine hI.1 _ ⟨u, y, rfl, hu, ?_⟩
      exact Body.denotes_singleton.2 ((Symbol.denotes_var (hv.2 next List.mem_cons_self)).2 hnext)
    · exact htail e he w hw
  | case2 b h =>
    have hb : b ≠ [] := List.ne_nil_of_length_pos (by omega)
    rw [suffixes_singleton hb, List.mem_singleton] at he
    subst he
    exact hI ⟨h, b⟩ (List.mem_singleton_self _) w hw
  | case3 b hs hone hmore =>
    rw [eq_nil_of_length hl hone hmore, suffixes_nil] at he
    exact absurd he List.not_mem_nil

theorem exists_mem_chain (hl : hs.length + 1 = b.length) (hv : ∀ x ∈ hs, x.isVar = true)
    {e : Symbol × Body} (he : e ∈ suffixes b hs) : e.1 ∈ hs ∧ ∃ p ∈ chain b hs, p.head = e.1 ∧
    ∀ {I : Interpretation} {w : Word},
      (∀ r ∈ Body.vars b, ∀ w, I r w → J r w) →
      (∀ d ∈ suffixes b hs, ∀ w, I d.1 w → Body.Denotes J d.2 w) →
      Body.Denotes I p.body w → Body.Denotes J e.2 w := by
  fun_induction chain b hs generalizing e with
  | case1 s b h next hs ih =>
    have hl' : (next :: hs).length + 1 = b.length := by simpa using hl
    rw [List.forall_mem_cons] at hv
    rw [suffixes, List.mem_cons] at he
    rcases he with rfl | he
    · refine ⟨List.mem_cons_self, _, List.mem_cons_self, rfl, fun hr hd ⟨u, y, hwu, hu, hy⟩ ↦ ?_⟩
      have hnext :=
        (Symbol.denotes_var (hv.2 next List.mem_cons_self)).1 (Body.denotes_singleton.1 hy)
      refine ⟨u, y, hwu, hu.mono fun hs ↦ hr s (Body.mem_vars.2 ⟨List.mem_cons_self, hs⟩), ?_⟩
      cases b with
      | nil => exact nomatch hl'
      | cons t b => exact hd (next, t :: b) (List.mem_cons_of_mem _ List.mem_cons_self) y hnext
    · obtain ⟨hm, p, hp, hph, hI⟩ := ih hl' hv.2 he
      refine ⟨List.mem_cons_of_mem _ hm, p, List.mem_cons_of_mem _ hp, hph, fun hr hd hw ↦ ?_⟩
      exact hI (fun r hrb ↦ hr r (Body.mem_vars_cons hrb))
        (fun d hdb ↦ hd d (List.mem_cons_of_mem _ hdb)) hw
  | case2 b h =>
    have hb : b ≠ [] := List.ne_nil_of_length_pos (by omega)
    rw [suffixes_singleton hb, List.mem_singleton] at he
    subst he
    exact ⟨List.mem_cons_self, ⟨h, b⟩, List.mem_singleton_self _, rfl, fun hr _ hw ↦ hw.mono hr⟩
  | case3 b hs hone hmore =>
    rw [eq_nil_of_length hl hone hmore, suffixes_nil] at he
    exact absurd he List.not_mem_nil

theorem exists_suffix (hl : hs.length ≤ b.length) (hx : x ∈ hs) : ∃ e ∈ suffixes b hs, e.1 = x := by
  induction hs generalizing b with
  | nil => exact absurd hx List.not_mem_nil
  | cons h hs ih =>
    cases b with
    | nil => exact absurd hl (by simp)
    | cons s b =>
      rcases List.mem_cons.1 hx with rfl | hx
      · exact ⟨_, List.mem_cons_self, rfl⟩
      · obtain ⟨e, he, hex⟩ := ih (by simpa using hl) hx
        exact ⟨e, List.mem_cons_of_mem _ he, hex⟩

theorem suffix_subset {e : Symbol × Body} (he : e ∈ suffixes b hs) : e.2 ⊆ b := by
  induction hs generalizing b with
  | nil => cases b <;> exact absurd he List.not_mem_nil
  | cons h hs ih =>
    cases b with
    | nil => exact absurd he List.not_mem_nil
    | cons s b =>
      rcases List.mem_cons.1 he with rfl | he
      · exact List.Subset.refl _
      · exact List.Subset.trans (ih he) (List.subset_cons_self _ _)

end ChomskyNormalForm
