import ChomskyNormalForm.Proofs.Form.Normal

namespace ChomskyNormalForm

def Symbol.rename (old new s : Symbol) : Symbol := if s = old then new else s

theorem Body.map_rename {old : Symbol} {b : Body} (hb : old ∉ b) (new : Symbol) :
    b.map (Symbol.rename old new) = b := by
  refine (List.map_congr_left fun s hs ↦ ?_).trans (List.map_id b)
  have hne : s ≠ old := fun he ↦ hb (he ▸ hs)
  exact if_neg hne

theorem Body.Drops.eq_self {N : Symbol → Prop} {b c : Body} (h : Drops N b c)
    (hb : ∀ v ∈ vars b, ¬N v) : c = b := by
  induction h with
  | nil => rfl
  | keep s _ ih => rw [ih fun v hv ↦ hb v (mem_vars_cons hv)]
  | drop hs hn _ _ => exact absurd hn (hb _ (mem_vars.2 ⟨List.mem_cons_self, hs⟩))

namespace Grammar

variable {g t e p x : Grammar} {new fresh u v : Symbol} {b : Body}

def renameStart (g : Grammar) (new : Symbol) : Grammar :=
  ⟨new, .ofEntries (g.rules.entries.map fun e ↦
    (Symbol.rename g.start new e.1, e.2.map (List.map (Symbol.rename g.start new))))⟩

theorem mem_renameStart (hs : g.start ∈ g) : v ∈ g.renameStart new ↔
    v ∈ g ∧ v ≠ g.start ∨ v = new := by
  rw [mem_iff, renameStart, Rules.mem_ofEntries]
  constructor
  · intro ⟨_, he, hv⟩
    obtain ⟨d, hd, rfl⟩ := List.mem_map.1 he
    dsimp only [Symbol.rename] at hv
    split at hv
    · exact .inr hv.symm
    · rename_i hne
      subst hv
      exact .inl ⟨List.mem_map_of_mem hd, hne⟩
  · intro h
    rcases h with ⟨hv, hne⟩ | rfl
    · exact ⟨_, List.mem_map_of_mem (Rules.mem_entries_of_mem hv), if_neg hne⟩
    · exact ⟨_, List.mem_map_of_mem (Rules.mem_entries_of_mem hs), if_pos rfl⟩

/-- Where the start stands in no body, only its bodies go to another variable. -/
theorem mem_bodies_renameStart (hg : ∀ v, ∀ b ∈ g.bodies v, g.start ∉ b) :
    b ∈ (g.renameStart new).bodies v ↔ v ≠ g.start ∧ b ∈ g.bodies v ∨ v = new ∧
    b ∈ g.bodies g.start := by
  rw [bodies, renameStart, Rules.mem_bodies_ofEntries]
  constructor
  · intro h
    obtain ⟨_, he, hv, hb⟩ := h
    obtain ⟨d, hd, rfl⟩ := List.mem_map.1 he
    obtain ⟨c, hc, rfl⟩ := List.mem_map.1 hb
    have hcd : c ∈ g.bodies d.1 := by rwa [bodies, Rules.bodies_of_mem_entries hd]
    rw [Body.map_rename (hg _ c hcd)]
    dsimp only [Symbol.rename] at hv
    split at hv
    · rename_i heq
      exact .inr ⟨hv.symm, heq ▸ hcd⟩
    · rename_i hne
      subst hv
      exact .inl ⟨hne, hcd⟩
  · have hmap : ∀ u, b ∈ g.bodies u → b ∈ (g.bodies u).map (List.map (Symbol.rename g.start new)) :=
      fun u hb ↦ List.mem_map.2 ⟨b, hb, Body.map_rename (hg u b hb) new⟩
    intro h
    rcases h with ⟨hne, hb⟩ | ⟨rfl, hb⟩
    · exact ⟨_, List.mem_map_of_mem (Rules.mem_entries_of_mem (mem_of_mem_bodies hb)),
        if_neg hne, hmap v hb⟩
    · exact ⟨_, List.mem_map_of_mem (Rules.mem_entries_of_mem (mem_of_mem_bodies hb)),
        if_pos rfl, hmap _ hb⟩

section Useful

variable (h : IsTrimmed g t) (hg : g.IsUnitFree)

include h hg

theorem IsTrimmed.isUnitFree : t.IsUnitFree := by
  have hs := (hg.useful _ hg.legal.start_mem).2
  have hb : ∀ v, ∀ b ∈ t.bodies v, b ∈ g.bodies v := fun v b hb ↦ ((h.bodies v b).1 hb).2.1
  refine ⟨hg.of_subset (h.isLegal hg.legal hs) h.start_eq hb, fun v b hbt ↦ ?_, fun v hv ↦ ?_⟩
  · exact hg.isUnit v b (hb v b hbt)
  · exact h.isUseful hg.legal.isProper hv

theorem IsTrimmed.mem_iff_of_useful : v ∈ t ↔ v ∈ g := by
  have hground : ∀ v ∈ g, g.IsGrounded v := fun v hv ↦ (hg.useful v hv).2.isGrounded
  refine ⟨h.subset, fun hv ↦ (h.mem v).2 ⟨hground v hv, ?_⟩⟩
  rw [h.start_eq]
  refine (hg.useful v hv).1.rec .refl fun {u x} hu hm ih ↦ ?_
  obtain ⟨b, hb, hx⟩ := id hm
  have hut : u ∈ t := (h.mem u).2 ⟨hground u (mem_of_mem_bodies hb), h.start_eq ▸ ih⟩
  refine ih.tail ⟨b, (h.bodies u b).2 ⟨hut, hb, fun y hy ↦ ?_⟩, hx⟩
  exact hground y (hg.legal.closed u y ⟨b, hb, hy⟩)

theorem IsTrimmed.mem_bodies_iff_of_useful : b ∈ t.bodies v ↔ b ∈ g.bodies v := by
  rw [h.bodies, h.mem_iff_of_useful hg]
  constructor
  · exact fun hb ↦ hb.2.1
  · intro hb
    refine ⟨mem_of_mem_bodies hb, hb, fun u hu ↦ ?_⟩
    exact (hg.useful u (hg.legal.closed v u ⟨b, hb, hu⟩)).2.isGrounded

end Useful

theorem IsUnitFree.ne_start (ht : t.IsUnitFree) (hb : b ∈ t.bodies v) (hu : u ∈ Body.vars b) :
    u ≠ t.start :=
  fun h ↦ ht.start_off v (h ▸ ⟨b, hb, hu⟩)

theorem IsUnitFree.ne_epsilon (ht : t.IsUnitFree) (hb : b ∈ t.bodies v) (hv : v ≠ t.start) :
    b ≠ Body.epsilon :=
  fun h ↦ hv (ht.epsilon v (h ▸ hb))

theorem IsUnitFree.start_ne_fresh (ht : t.IsUnitFree) (hf : fresh ∉ t) : t.start ≠ fresh :=
  fun h ↦ hf (h ▸ ht.legal.start_mem)

theorem IsExpanded.mem_bodies_iff (he : t.IsExpanded fresh e) (ht : t.IsUnitFree) :
    b ∈ e.bodies v ↔ b ∈ t.bodies v ∧ b ≠ Body.epsilon ∨
      v = fresh ∧ (b = [t.start] ∨ b = Body.epsilon ∧ Body.epsilon ∈ t.bodies t.start) := by
  have hstart : [t.start] ≠ Body.epsilon := by
    intro h
    have hvar := ht.legal.isVar_start
    rw [List.singleton_inj.1 h] at hvar
    exact nomatch hvar
  rw [he.bodies, ht.derives_nil_iff]
  constructor
  · intro h
    rcases h with ⟨hv, rfl, -, hs⟩ | ⟨c, hc, hce, hne, hd⟩
    · exact .inr ⟨hv, .inr ⟨rfl, hs⟩⟩
    · rcases mem_bodies_withFront.1 hc with hc | ⟨hv, rfl⟩
      · obtain rfl := hd.eq_self fun u hu hn ↦ ht.ne_start hc hu (ht.derives_nil_iff.1 hn).1
        exact .inl ⟨hc, hce⟩
      · exact .inr ⟨hv, .inl ((List.sublist_singleton.1 hd.sublist).resolve_left hne)⟩
  · intro h
    rcases h with ⟨hb, hbe⟩ | ⟨hv, rfl | ⟨rfl, hs⟩⟩
    · exact .inr ⟨b, mem_bodies_withFront.2 (.inl hb), hbe, (ht.legal.body v b hb).ne_nil, .refl b⟩
    · exact .inr ⟨_, mem_bodies_withFront.2 (.inr ⟨hv, rfl⟩), hstart, by simp, .refl _⟩
    · exact .inl ⟨hv, rfl, rfl, hs⟩

section Stages

variable (ht : t.IsUnitFree) (hf : fresh ∉ t) (he : t.IsExpanded fresh e) (hp : e.IsPruned p)

include ht he hp

theorem IsPruned.mem_iff : v ∈ p ↔ v = fresh ∨ ∃ b ∈ t.bodies v, b ≠ Body.epsilon := by
  constructor
  · intro hv
    by_cases hvf : v = fresh
    · exact .inl hvf
    · have hne := hp.supported v hv (by rwa [hp.start_eq, he.start_eq])
      obtain ⟨b, hb⟩ := List.exists_mem_of_ne_nil _ hne
      have hbe := (he.mem_bodies_iff ht).1 ((hp.bodies v b).1 hb).2.1
      exact .inr ⟨b, hbe.resolve_right fun h ↦ hvf h.1⟩
  · refine hp.largest (fun v ↦ v = fresh ∨ ∃ b ∈ t.bodies v, b ≠ Body.epsilon) (fun v hv ↦ ?_) v
    rcases hv with rfl | ⟨b, hb, hbe⟩
    · exact ⟨(he.mem v).2 (.inr rfl), .inl he.start_eq.symm⟩
    · refine ⟨(he.mem v).2 (.inl (mem_of_mem_bodies hb)),
        .inr ⟨b, (he.mem_bodies_iff ht).2 (.inl ⟨hb, hbe⟩), ?_⟩⟩
      intro u hu
      obtain ⟨w, c, hc, -⟩ := (ht.useful u (ht.legal.closed v u ⟨b, hb, hu⟩)).2
      exact .inr ⟨c, hc, ht.ne_epsilon hc (ht.ne_start hb hu)⟩

theorem IsPruned.mem_bodies_iff : b ∈ p.bodies v ↔ b ∈ t.bodies v ∧ b ≠ Body.epsilon ∨
    v = fresh ∧ (b = [t.start] ∧ t.start ∈ p ∨ b = Body.epsilon ∧
      Body.epsilon ∈ t.bodies t.start) := by
  have hvar := ht.legal.isVar_start
  rw [hp.bodies, he.mem_bodies_iff ht]
  constructor
  · intro ⟨_, hb, hu⟩
    refine hb.imp_right (And.imp_right (Or.imp_left fun hs ↦ ⟨hs, ?_⟩))
    rw [hs] at hu
    exact hu _ (Body.mem_vars.2 ⟨List.mem_singleton_self _, hvar⟩)
  · intro h
    have hmem : v ∈ p := (hp.mem_iff ht he).2 (h.symm.imp And.left fun hb ↦ ⟨b, hb⟩)
    refine ⟨hmem, h.imp_right (And.imp_right (Or.imp_left And.left)), fun u hu ↦ ?_⟩
    rcases h with ⟨hb, -⟩ | ⟨-, ⟨rfl, hs⟩ | ⟨rfl, -⟩⟩
    · obtain ⟨w, c, hc, -⟩ := (ht.useful u (ht.legal.closed v u ⟨b, hb, hu⟩)).2
      exact (hp.mem_iff ht he).2 (.inr ⟨c, hc, ht.ne_epsilon hc (ht.ne_start hb hu)⟩)
    · rw [Body.mem_vars, List.mem_singleton] at hu
      exact hu.1 ▸ hs
    · rw [Body.mem_vars, List.mem_singleton] at hu
      rw [hu.1] at hu
      exact nomatch hu.2

include hf

theorem IsPruned.unitReaches (hr : p.UnitReaches v u) : u = v ∨ v = fresh ∧ u = t.start := by
  have htarget : ∀ y z, z ∈ p.unitTargets y → y = fresh ∧ z = t.start := by
    intro y z hz
    obtain ⟨hb, hvar, -⟩ := mem_unitTargets.1 hz
    rcases (hp.mem_bodies_iff ht he).1 hb with ⟨hb, -⟩ | ⟨hy, ⟨hs, -⟩ | ⟨hs, -⟩⟩
    · exact absurd rfl (Body.isUnit_eq_false.1 (ht.isUnit y _ hb) z hvar)
    · exact ⟨hy, List.singleton_inj.1 hs⟩
    · rw [List.singleton_inj.1 hs] at hvar
      exact nomatch hvar
  induction hr with
  | refl => exact .inl rfl
  | @tail y z _ hz ih =>
    obtain ⟨hy, hzs⟩ := htarget y z hz
    rcases ih with rfl | ⟨-, hys⟩
    · exact .inr ⟨hy, hzs⟩
    · exact absurd (hys.symm.trans hy) (ht.start_ne_fresh hf)

variable (hx : p.IsUnitExpanded x)

include hx

theorem IsUnitExpanded.mem_bodies_iff :
    b ∈ x.bodies v ↔ b ∈ t.bodies v ∧ b ≠ Body.epsilon ∨ v = fresh ∧ b ∈ t.bodies t.start := by
  constructor
  · intro hb
    have hunit := ((hx.bodies v b).1 hb).1
    have hstart : b ≠ [t.start] := Body.isUnit_eq_false.1 hunit _ ht.legal.isVar_start
    obtain ⟨u, hr, hbu⟩ := hx.exists_of_mem hb
    rw [hp.mem_bodies_iff ht he] at hbu
    rcases hp.unitReaches ht hf he hr with rfl | ⟨hv, rfl⟩
    · refine hbu.imp_right (And.imp_right fun h ↦ ?_)
      obtain ⟨rfl, hs⟩ := h.resolve_left fun h ↦ hstart h.1
      exact hs
    · exact .inr ⟨hv, (hbu.resolve_right fun h ↦ ht.start_ne_fresh hf h.1).1⟩
  · intro h
    rcases h with ⟨hb, hbe⟩ | ⟨rfl, hb⟩
    · exact (hx.bodies v b).2 ⟨ht.isUnit v b hb,
        .inl ((hp.mem_bodies_iff ht he).2 (.inl ⟨hb, hbe⟩))⟩
    · refine (hx.bodies v b).2 ⟨ht.isUnit _ b hb, ?_⟩
      by_cases hbe : b = Body.epsilon
      · exact .inl ((hp.mem_bodies_iff ht he).2 (.inr ⟨rfl, .inr ⟨hbe, hbe ▸ hb⟩⟩))
      · have hs : t.start ∈ p := (hp.mem_iff ht he).2 (.inr ⟨b, hb, hbe⟩)
        have htarget : t.start ∈ p.unitTargets v := by
          refine mem_unitTargets.2 ⟨?_, ht.legal.isVar_start, hs⟩
          exact (hp.mem_bodies_iff ht he).2 (.inr ⟨rfl, .inl ⟨rfl, hs⟩⟩)
        have hbp : b ∈ p.bodies t.start := (hp.mem_bodies_iff ht he).2 (.inl ⟨hb, hbe⟩)
        have hstart := he.start_eq.symm.trans hp.start_eq.symm
        exact .inr ⟨t.start, .single htarget, hbp, ht.isUnit _ b hb, hbe, .inl hstart⟩

theorem IsUnitExpanded.isGrounded (hv : t.IsGrounded v) (hne : v ≠ t.start) : x.IsGrounded v := by
  induction hv with
  | intro hb _ ih =>
    refine .intro ((hx.mem_bodies_iff ht hf he hp).2 (.inl ⟨hb, ht.ne_epsilon hb hne⟩))
      fun u hu ↦ ?_
    exact ih u hu (ht.ne_start hb hu)

theorem IsUnitExpanded.isGrounded_of_mem_vars (hb : b ∈ t.bodies v) (hu : u ∈ Body.vars b) :
    x.IsGrounded u := by
  have hut : u ∈ t := ht.legal.closed v u ⟨b, hb, hu⟩
  exact hx.isGrounded ht hf he hp (ht.useful u hut).2.isGrounded (ht.ne_start hb hu)

variable {q : Grammar} (hq : x.IsTrimmed q)

include hq

theorem IsTrimmed.fresh_mem : fresh ∈ q := by
  have hstart : q.start = fresh := by rw [hq.start_eq, hx.start_eq, hp.start_eq, he.start_eq]
  obtain ⟨w, b, hb, -⟩ := (ht.useful _ ht.legal.start_mem).2
  have hbx : b ∈ x.bodies fresh := (hx.mem_bodies_iff ht hf he hp).2 (.inr ⟨rfl, hb⟩)
  refine (hq.mem fresh).2 ⟨.intro hbx fun z hz ↦ hx.isGrounded_of_mem_vars ht hf he hp hb hz, ?_⟩
  rw [hstart]
  exact .refl

theorem IsTrimmed.mem_of_reaches (hr : t.Reaches t.start v) : v = t.start ∨ v ∈ q := by
  induction hr with
  | refl => exact .inl rfl
  | @tail y z _ hm ih =>
    obtain ⟨b, hb, hz⟩ := hm
    have hcarrier : ∃ y' ∈ q, b ∈ x.bodies y' := by
      by_cases hy : y = t.start
      · exact ⟨fresh, hq.fresh_mem ht hf he hp hx,
          (hx.mem_bodies_iff ht hf he hp).2 (.inr ⟨rfl, hy ▸ hb⟩)⟩
      · exact ⟨y, ih.resolve_left hy, (hx.mem_bodies_iff ht hf he hp).2
          (.inl ⟨hb, ht.ne_epsilon hb hy⟩)⟩
    obtain ⟨y', hy', hbx⟩ := hcarrier
    have hbu : b ∈ q.bodies y' :=
      (hq.bodies y' b).2 ⟨hy', hbx, fun z hz ↦ hx.isGrounded_of_mem_vars ht hf he hp hb hz⟩
    exact .inr (hq.closed ⟨b, hbu, hz⟩)

theorem IsTrimmed.start_not_mem : t.start ∉ q := by
  intro hs
  have hstart : q.start = fresh := by rw [hq.start_eq, hx.start_eq, hp.start_eq, he.start_eq]
  rcases Relation.ReflTransGen.cases_tail ((hq.mem _).1 hs).2 with h | ⟨y, -, b, hb, hm⟩
  · exact ht.start_ne_fresh hf (h.trans hstart)
  · rcases (hx.mem_bodies_iff ht hf he hp).1 ((hq.bodies y b).1 hb).2.1 with ⟨hb, -⟩ | ⟨-, hb⟩
    · exact ht.ne_start hb hm rfl
    · exact ht.ne_start hb hm rfl

theorem IsTrimmed.mem_iff_renamed : v ∈ q ↔ v ∈ t ∧ v ≠ t.start ∨ v = fresh := by
  constructor
  · intro hv
    have hne : v ≠ t.start := fun h ↦ hq.start_not_mem ht hf he hp hx (h ▸ hv)
    have hve := hp.mem v ((hx.mem v).1 (hq.subset hv))
    exact ((he.mem v).1 hve).imp_left fun hvt ↦ ⟨hvt, hne⟩
  · intro h
    rcases h with ⟨hv, hne⟩ | rfl
    · exact (hq.mem_of_reaches ht hf he hp hx (ht.useful v hv).1).resolve_left hne
    · exact hq.fresh_mem ht hf he hp hx

theorem IsTrimmed.mem_bodies_iff_renamed :
    b ∈ q.bodies v ↔ v ≠ t.start ∧ b ∈ t.bodies v ∨ v = fresh ∧ b ∈ t.bodies t.start := by
  rw [hq.bodies, hq.mem_iff_renamed ht hf he hp hx, hx.mem_bodies_iff ht hf he hp]
  constructor
  · intro ⟨hv, hb, _⟩
    refine hb.imp_left fun hb ↦ ⟨fun hs ↦ ?_, hb.1⟩
    subst hs
    exact hv.elim (fun h ↦ h.2 rfl) (ht.start_ne_fresh hf)
  · intro h
    rcases h with ⟨hne, hb⟩ | ⟨hv, hb⟩
    · refine ⟨.inl ⟨mem_of_mem_bodies hb, hne⟩, .inl ⟨hb, ht.ne_epsilon hb hne⟩, fun z hz ↦ ?_⟩
      exact hx.isGrounded_of_mem_vars ht hf he hp hb hz
    · exact ⟨.inr hv, .inr ⟨hv, hb⟩, fun z hz ↦ hx.isGrounded_of_mem_vars ht hf he hp hb hz⟩

end Stages

end Grammar

namespace Prepared

variable {g t u : Grammar} {fresh v : Symbol} {b : Body}

/-- The first stages only rename the start of a grammar that they have no work on. -/
theorem agrees (h : Prepared g t fresh u) (hg : g.IsUnitFree) :
    u.agrees (g.renameStart fresh) = true := by
  obtain ⟨e, p, x, he, hp, hx, hu⟩ := h.stages
  have ht := h.trimmed.isUnitFree hg
  rw [Grammar.agrees_iff]
  refine ⟨h.start_eq, fun v ↦ ⟨?_, fun b ↦ ?_⟩⟩
  · rw [hu.mem_iff_renamed ht h.not_mem_trimmed he hp hx,
      Grammar.mem_renameStart hg.legal.start_mem, h.trimmed.mem_iff_of_useful hg,
      h.trimmed.start_eq]
  · rw [hu.mem_bodies_iff_renamed ht h.not_mem_trimmed he hp hx,
      Grammar.mem_bodies_renameStart fun v b ↦ hg.start_not_mem,
      h.trimmed.mem_bodies_iff_of_useful hg,
      h.trimmed.mem_bodies_iff_of_useful hg, h.trimmed.start_eq]

end Prepared

end ChomskyNormalForm
