import ChomskyNormalForm.Proofs.Form.Cascading
import ChomskyNormalForm.Proofs.Form.Isolated

namespace ChomskyNormalForm

structure Grammar.IsBinary (g : Grammar) : Prop extends IsIsolated g where
  length_le : ∀ v, ∀ b ∈ g.bodies v, b.length ≤ 2

namespace Cascading

variable {s : Session} {a : Allocator} {c : Cascade} {b d : Body} {u v x r : Symbol} {w : Word}

theorem mem_bodies_iff (h : Cascading s a (fun v b ↦ b ∈ s.grammar.bodies v) c)
    (hv : v ∈ s.grammar) :
    b ∈ c.session.grammar.bodies v ↔ ∃ d ∈ s.grammar.bodies v, b = d.shortened c.cache :=
  h.bodies.mem_bodies_all hv

theorem exists_helpers (h : Cascading s a (fun v b ↦ b ∈ s.grammar.bodies v) c)
    (hd : d ∈ s.grammar.bodies v) (hl : 3 ≤ d.length) : ∃ first tail x hs, d = first :: tail ∧
    (d, x :: hs) ∈ c.cache ∧
      d.shortened c.cache = [first, x] := by
  obtain ⟨hs, he⟩ := h.covered v d hd hl
  obtain ⟨first, tail, x, rest, rfl, rfl, hshort⟩ := h.consistent.exists_shortened he
  exact ⟨first, tail, x, rest, rfl, he, hshort⟩

theorem isVar_of_mem (h : Cascading s a (fun v b ↦ b ∈ s.grammar.bodies v) c)
    {e : Body × List Symbol} (he : e ∈ c.cache) : ∀ x ∈ e.2, x.isVar = true :=
  fun x hx ↦ (h.consistent.helper e he x hx).1

theorem mem_of_mem_tail (h : Cascading s a (fun v b ↦ b ∈ s.grammar.bodies v) c)
    (hg : s.grammar.IsLegal) {e : Body × List Symbol} (he : e ∈ c.cache)
    (hr : r ∈ Body.vars e.1.tail) : r ∈ s.grammar := by
  rw [Body.mem_vars] at hr
  obtain ⟨v, d, hd, -, hrd⟩ := h.symbols e he r hr.1
  exact hg.closed v r ⟨d, hd, Body.mem_vars.2 ⟨hrd, hr.2⟩⟩

theorem derives_suffix (h : Cascading s a (fun v b ↦ b ∈ s.grammar.bodies v) c)
    {e : Body × List Symbol} (he : e ∈ c.cache) {l : Symbol × Body} (hl : l ∈ suffixes e.1.tail e.2)
    (hw : Body.Denotes c.session.grammar.Derives l.2 w) : c.session.grammar.Derives l.1 w := by
  refine chain_denotes (h.consistent.length_tail he) (h.isVar_of_mem he) (fun p hp w hw ↦ ?_) hl hw
  exact Grammar.derives_of_mem ((h.consistent.link e he p hp _).2 rfl) hw

theorem denotes_of_shortened {I J : Interpretation}
    (h : Cascading s a (fun v b ↦ b ∈ s.grammar.bodies v) c) (hd : d ∈ s.grammar.bodies v)
    (hI : ∀ u ∈ Body.vars d, ∀ w, I u w → J u w)
    (he : ∀ e ∈ c.cache, ∀ l ∈ suffixes e.1.tail e.2, ∀ w, I l.1 w → Body.Denotes J l.2 w)
    (hw : Body.Denotes I (d.shortened c.cache) w) : Body.Denotes J d w := by
  by_cases hl : d.length < 3
  · rw [Body.shortened_of_length_lt hl] at hw
    exact hw.mono hI
  · obtain ⟨first, tail, x, hs, rfl, hx, hshort⟩ := h.exists_helpers hd (by omega)
    rw [hshort] at hw
    obtain ⟨y, z, rfl, hy, hz⟩ := hw
    have hxz :=
      (Symbol.denotes_var (h.isVar_of_mem hx x List.mem_cons_self)).1 (Body.denotes_singleton.1 hz)
    refine ⟨y, z, rfl, hy.mono fun hvar ↦ hI first (Body.mem_vars.2 ⟨List.mem_cons_self, hvar⟩), ?_⟩
    cases tail with
    | nil => exact absurd (h.consistent.long _ hx) (by simp)
    | cons t tail => exact he _ hx (x, t :: tail) List.mem_cons_self z hxz

theorem denotes_shortened {I : Interpretation}
    (h : Cascading s a (fun v b ↦ b ∈ s.grammar.bodies v) c) (hd : d ∈ s.grammar.bodies v)
    (he : ∀ e ∈ c.cache, ∀ l ∈ suffixes e.1.tail e.2, ∀ w, Body.Denotes I l.2 w → I l.1 w)
    (hw : Body.Denotes I d w) : Body.Denotes I (d.shortened c.cache) w := by
  by_cases hl : d.length < 3
  · rwa [Body.shortened_of_length_lt hl]
  · obtain ⟨first, tail, x, hs, rfl, hx, hshort⟩ := h.exists_helpers hd (by omega)
    rw [hshort]
    obtain ⟨y, z, rfl, hy, hz⟩ := hw
    have hvar := h.isVar_of_mem hx x List.mem_cons_self
    refine ⟨y, z, rfl, hy, Body.denotes_singleton.2 ((Symbol.denotes_var hvar).2 ?_)⟩
    cases tail with
    | nil => exact absurd (h.consistent.long _ hx) (by simp)
    | cons t tail => exact he _ hx (x, t :: tail) List.mem_cons_self z hz

/-- Splitting keeps the words of every variable that was there. -/
theorem derives_iff (h : Cascading s a (fun v b ↦ b ∈ s.grammar.bodies v) c)
    (hg : s.grammar.IsLegal) (hv : v ∈ s.grammar) : c.session.grammar.Derives v w ↔
    s.grammar.Derives v w := by
  constructor
  · intro hw
    -- a helper may stand in the chains of several bodies, so it is followed along with each of its
    -- suffixes
    refine (Grammar.derives_least (I := fun v w ↦ (v ∈ s.grammar → s.grammar.Derives v w) ∧
      ∀ e ∈ c.cache, ∀ l ∈ suffixes e.1.tail e.2, l.1 = v → Body.Denotes s.grammar.Derives l.2 w)
      (fun v b hb w hw ↦ ⟨fun hv ↦ ?_, fun e he l hl hlv ↦ ?_⟩) hw).1 hv
    · obtain ⟨d, hd, rfl⟩ := (h.mem_bodies_iff hv).1 hb
      refine Grammar.derives_of_mem hd (h.denotes_of_shortened hd (fun u hu w hI ↦ ?_)
        (fun e he l hl w hI ↦ ?_) hw)
      · exact hI.1 (hg.closed v u ⟨d, hd, hu⟩)
      · exact hI.2 e he l hl rfl
    · subst hlv
      obtain ⟨-, p, hp, hph, hstep⟩ :=
        exists_mem_chain (h.consistent.length_tail he) (h.isVar_of_mem he) hl
      rw [← hph] at hb
      obtain rfl := (h.consistent.link e he p hp b).1 hb
      exact hstep (fun r hr w hI ↦ hI.1 (h.mem_of_mem_tail hg he hr))
        (fun k hk w hI ↦ hI.2 e he k hk rfl) hw
  · refine Grammar.derives_induct (fun v d hd w hw ↦ ?_)
    have hcw : Body.Denotes c.session.grammar.Derives d w := hw.mono fun _ _ _ ↦ And.right
    refine Grammar.derives_of_mem ((h.mem_bodies_iff (Grammar.mem_of_mem_bodies hd)).2 ⟨d, hd, rfl⟩)
      ?_
    exact h.denotes_shortened hd (fun e he l hl w ↦ h.derives_suffix he hl) hcw

theorem exists_mem_bodies (h : Cascading s a (fun v b ↦ b ∈ s.grammar.bodies v) c)
    (hb : b ∈ c.session.grammar.bodies v) : (∃ d ∈ s.grammar.bodies v, b = d.shortened c.cache) ∨
      ∃ e ∈ c.cache, ∃ p ∈ chain e.1.tail e.2, b = p.body := by
  by_cases hv : v ∈ s.grammar
  · exact .inl ((h.mem_bodies_iff hv).1 hb)
  · obtain ⟨e, he, hve⟩ := ((h.mem v).1 (Grammar.mem_of_mem_bodies hb)).resolve_left hv
    obtain ⟨p, hp, rfl⟩ := h.consistent.exists_link he hve
    exact .inr ⟨e, he, p, hp, (h.consistent.link e he p hp b).1 hb⟩

theorem mem_shortened (h : Cascading s a (fun v b ↦ b ∈ s.grammar.bodies v) c)
    (hd : d ∈ s.grammar.bodies v) (hr : r ∈ d.shortened c.cache) :
    r ∈ d ∨ ∃ e ∈ c.cache, r ∈ e.2 := by
  by_cases hl : d.length < 3
  · rw [Body.shortened_of_length_lt hl] at hr
    exact .inl hr
  · obtain ⟨first, tail, x, hs, rfl, he, hshort⟩ := h.exists_helpers hd (by omega)
    rw [hshort] at hr
    rcases List.mem_cons.1 hr with rfl | hr
    · exact .inl List.mem_cons_self
    · rw [List.mem_singleton.1 hr]
      exact .inr ⟨_, he, List.mem_cons_self⟩

theorem mem_body (h : Cascading s a (fun v b ↦ b ∈ s.grammar.bodies v) c)
    (hb : b ∈ c.session.grammar.bodies v) (hr : r ∈ b) :
    (∃ v, ∃ d ∈ s.grammar.bodies v, r ∈ d ∧ (2 ≤ b.length → 2 ≤ d.length)) ∨
      ∃ e ∈ c.cache, r ∈ e.2 := by
  rcases h.exists_mem_bodies hb with ⟨d, hd, rfl⟩ | ⟨e, he, p, hp, rfl⟩
  · refine (h.mem_shortened hd hr).imp_left fun hrd ↦ ⟨v, d, hd, hrd, fun hlen ↦ ?_⟩
    by_cases hl : d.length < 3
    · rwa [Body.shortened_of_length_lt hl] at hlen
    · omega
  · rcases mem_body_chain hp hr with hr | hr
    · obtain ⟨v, d, hd, hl, hrd⟩ := h.symbols e he r hr
      exact .inl ⟨v, d, hd, hrd, fun _ ↦ hl⟩
    · exact .inr ⟨e, he, List.mem_of_mem_tail hr⟩

theorem length_le (h : Cascading s a (fun v b ↦ b ∈ s.grammar.bodies v) c)
    (hb : b ∈ c.session.grammar.bodies v) : b.length ≤ 2 := by
  rcases h.exists_mem_bodies hb with ⟨d, -, rfl⟩ | ⟨e, he, p, hp, rfl⟩
  · have hlt := Body.length_shortened_lt c.cache d
    omega
  · exact Nat.le_of_eq (length_body_chain (h.consistent.length_tail he) hp)

theorem mem_of_length_lt (h : Cascading s a (fun v b ↦ b ∈ s.grammar.bodies v) c)
    (hb : b ∈ c.session.grammar.bodies v) (hl : b.length < 2) : b ∈ s.grammar.bodies v := by
  rcases h.exists_mem_bodies hb with ⟨d, hd, rfl⟩ | ⟨e, he, p, hp, rfl⟩
  · by_cases hd3 : d.length < 3
    · rwa [Body.shortened_of_length_lt hd3]
    · obtain ⟨first, tail, x, hs, rfl, -, hshort⟩ := h.exists_helpers hd (by omega)
      rw [hshort] at hl
      exact absurd hl (by simp)
  · have hlen := length_body_chain (h.consistent.length_tail he) hp
    omega

theorem ne_nil (h : Cascading s a (fun v b ↦ b ∈ s.grammar.bodies v) c) (hg : s.grammar.IsLegal)
    (hb : b ∈ c.session.grammar.bodies v) : b ≠ [] := by
  intro hx
  subst hx
  exact (hg.body v [] (h.mem_of_length_lt hb (by simp))).ne_nil rfl

theorem isLegal (h : Cascading s a (fun v b ↦ b ∈ s.grammar.bodies v) c) (hg : s.grammar.IsLegal) :
    c.session.grammar.IsLegal where
  start_mem := (h.mem _).2 (.inl (h.start_eq ▸ hg.start_mem))
  head v hv := by
    rcases (h.mem v).1 hv with hv | ⟨e, he, hve⟩
    · exact hg.head v hv
    · exact ⟨h.isVar_of_mem he v hve, h.legal e he v hve⟩
  body v b hb := by
    by_cases hl : b.length < 2
    · exact hg.body v b (h.mem_of_length_lt hb hl)
    · refine .inr ⟨h.ne_nil hg hb, fun r hr ↦ ?_⟩
      rcases h.mem_body hb hr with ⟨x, d, hd, hrd, hlen⟩ | ⟨e, he, hre⟩
      · have hde : d ≠ Body.epsilon := by
          intro hx
          subst hx
          exact absurd (hlen (by omega)) (by decide)
        exact (hg.body x d hd).isEpsilon_eq_false hde r hrd
      · exact h.legal e he r hre
  closed v u hm := by
    obtain ⟨b, hb, hu⟩ := hm
    rw [Body.mem_vars] at hu
    rcases h.mem_body hb hu.1 with ⟨x, d, hd, hud, -⟩ | he
    · exact (h.mem u).2 (.inl (hg.closed x u ⟨d, hd, Body.mem_vars.2 ⟨hud, hu.2⟩⟩))
    · exact (h.mem u).2 (.inr he)

theorem isEpsilonFree (h : Cascading s a (fun v b ↦ b ∈ s.grammar.bodies v) c)
    (hg : s.grammar.IsEpsilonFree) :
    c.session.grammar.IsEpsilonFree where
  legal := h.isLegal hg.legal
  start_off v hm := by
    obtain ⟨b, hb, hu⟩ := hm
    rw [Body.mem_vars] at hu
    rcases h.mem_body hb hu.1 with ⟨x, d, hd, hud, -⟩ | ⟨e, he, hue⟩
    · rw [h.start_eq] at hud
      exact hg.start_not_mem hd hud
    · exact (h.consistent.helper e he _ hue).2 rfl
  epsilon v he := (hg.epsilon v (h.mem_of_length_lt he (by decide))).trans h.start_eq.symm

theorem reaches_helper (h : Cascading s a (fun v b ↦ b ∈ s.grammar.bodies v) c) {hs : List Symbol}
    (he : (d, x :: hs) ∈ c.cache) (hu : u ∈ x :: hs) : c.session.grammar.Reaches x u :=
  reaches_chain (h.consistent.length_tail he) (h.isVar_of_mem he)
    (fun p hp ↦ (h.consistent.link _ he p hp _).2 rfl) hu

theorem reaches_of_mem (h : Cascading s a (fun v b ↦ b ∈ s.grammar.bodies v) c)
    (hd : d ∈ s.grammar.bodies v) :
    (∀ u ∈ Body.vars d, c.session.grammar.Reaches v u) ∧
      (3 ≤ d.length → ∀ hs, (d, hs) ∈ c.cache → ∀ u ∈ hs, c.session.grammar.Reaches v u) := by
  have hb := (h.mem_bodies_iff (Grammar.mem_of_mem_bodies hd)).2 ⟨d, hd, rfl⟩
  by_cases hl : d.length < 3
  · rw [Body.shortened_of_length_lt hl] at hb
    exact ⟨fun u hu ↦ Grammar.Mentions.reaches ⟨d, hb, hu⟩, fun h3 ↦ by omega⟩
  · obtain ⟨first, tail, x, hs, rfl, he, hshort⟩ := h.exists_helpers hd (by omega)
    rw [hshort] at hb
    have hx : c.session.grammar.Reaches v x := Grammar.Mentions.reaches
      ⟨_, hb, Body.mem_vars.2 ⟨by simp, h.isVar_of_mem he x List.mem_cons_self⟩⟩
    have hhs : ∀ u ∈ x :: hs, c.session.grammar.Reaches v u :=
      fun u hu ↦ hx.trans (h.reaches_helper he hu)
    constructor
    · intro u hu
      rw [Body.mem_vars] at hu
      rcases List.mem_cons.1 hu.1 with rfl | hut
      · exact Grammar.Mentions.reaches ⟨_, hb, Body.mem_vars.2 ⟨List.mem_cons_self, hu.2⟩⟩
      · obtain ⟨p, hp, hup⟩ :=
          exists_chain_mem (h.consistent.length_tail he) (List.cons_ne_nil _ _) hut
        have hph := h.consistent.head_mem he hp
        exact (hhs _ hph).tail ⟨_, (h.consistent.link _ he p hp _).2 rfl,
          Body.mem_vars.2 ⟨hup, hu.2⟩⟩
    · intro _ hs' he' u hu
      rw [h.consistent.unique he' he] at hu
      exact hhs u hu

theorem isUseful (h : Cascading s a (fun v b ↦ b ∈ s.grammar.bodies v) c) (hg : s.grammar.IsLegal)
    (hu : ∀ v ∈ s.grammar, s.grammar.IsUseful v) (hv : v ∈ c.session.grammar) :
    c.session.grammar.IsUseful v := by
  have hreach : ∀ x ∈ s.grammar, c.session.grammar.Reaches c.session.grammar.start x := by
    intro x hx
    rw [h.start_eq]
    refine Grammar.Reaches.mono (fun y z ⟨d, hd, hz⟩ ↦ ?_) (hu x hx).1
    exact (h.reaches_of_mem hd).1 z hz
  have hprod : ∀ x ∈ s.grammar, ∃ w, c.session.grammar.Derives x w := by
    intro x hx
    obtain ⟨w, hw⟩ := (hu x hx).2
    exact ⟨w, (h.derives_iff hg hx).2 hw⟩
  by_cases hvs : v ∈ s.grammar
  · exact ⟨hreach v hvs, hprod v hvs⟩
  · obtain ⟨⟨d, hs⟩, he, hve⟩ := ((h.mem v).1 hv).resolve_left hvs
    obtain ⟨x, hd, -⟩ := (h.origin _ he).resolve_left fun hall ↦ hvs (hall v hve)
    refine ⟨(hreach x (Grammar.mem_of_mem_bodies hd)).trans ?_, ?_⟩
    · exact (h.reaches_of_mem hd).2 (h.consistent.long _ he) hs he v hve
    · have hlen := h.consistent.length_tail he
      obtain ⟨l, hl, rfl⟩ := exists_suffix (Nat.le_of_succ_le (Nat.le_of_eq hlen)) hve
      have hsub := suffix_subset hl
      obtain ⟨w, hw⟩ := Grammar.IsProper.exists_denotes (I := c.session.grammar.Derives) (b := l.2)
        (fun t ht ↦ hg.isProper x d hd t (List.mem_of_mem_tail (hsub ht)))
        (fun u hu' ↦ hprod u (h.mem_of_mem_tail hg he (by
          rw [Body.mem_vars] at hu' ⊢
          exact ⟨hsub hu'.1, hu'.2⟩)))
      exact ⟨w, h.derives_suffix he hl hw⟩

theorem isBinary (h : Cascading s a (fun v b ↦ b ∈ s.grammar.bodies v) c)
    (hg : s.grammar.IsIsolated) :
    c.session.grammar.IsBinary where
  toIsEpsilonFree := h.isEpsilonFree hg.toIsEpsilonFree
  useful v hv := h.isUseful hg.legal hg.useful hv
  length_le v b hb := h.length_le hb
  isUnit v b hb := by
    refine Body.isUnit_eq_false.2 fun u hu he ↦ ?_
    rw [he] at hb
    exact Body.isUnit_eq_false.1 (hg.isUnit v _ (h.mem_of_length_lt hb (by simp))) u hu rfl
  isVar v b hb hl r hr := by
    rcases h.mem_body hb hr with ⟨x, d, hd, hrd, hlen⟩ | ⟨e, he, hre⟩
    · exact hg.isVar x d hd (hlen hl) r hrd
    · exact h.isVar_of_mem he r hre

end Cascading

theorem Session.cascade_eq_self {s : Session} {a : Allocator} {cache : CascadeCache}
    (h : ∀ v, ∀ b ∈ s.grammar.bodies v, b.length ≤ 2) : s.cascade a cache = .ok ⟨s, a, cache⟩ := by
  refine foldlM_eq_ok_self fun v _ ↦ foldlM_eq_ok_self fun b hb ↦ ?_
  have hl := h v b hb
  match b, hl with
  | [], _ => rfl
  | [_], _ => rfl
  | [_, _], _ => rfl

end ChomskyNormalForm
