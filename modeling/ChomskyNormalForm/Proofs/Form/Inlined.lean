import ChomskyNormalForm.Proofs.Form.ChainedCache
import Mathlib.Algebra.GroupWithZero.Nat
import Mathlib.Data.List.Dedup
import Mathlib.Data.List.Pairwise
import Mathlib.Logic.Function.Iterate

namespace ChomskyNormalForm

namespace CascadeCache

variable {cache : CascadeCache} {e e' : Body × List Symbol} {x : Symbol} {d : Body}
  {a b left : Allocator} {names : List String}

theorem eq_of_mem_helpers (h : (cache.flatMap Prod.snd).Nodup) (he : e ∈ cache) (he' : e' ∈ cache)
    (hx : x ∈ e.2) (hx' : x ∈ e'.2) : e = e' := by
  by_contra hne
  have hsymm :
      Std.Symm (Function.onFun List.Disjoint (Prod.snd : Body × List Symbol → List Symbol)) :=
    ⟨fun _ _ hd ↦ hd.symm⟩
  exact (List.nodup_flatMap.1 h).2.forall he he' hne hx hx'

def IsAllotted (cache : CascadeCache) (a b : Allocator) : Prop :=
  ∃ names, a.Supplies names b ∧ b.allocated.toList = a.allocated.toList ++ names ∧
    cache.flatMap Prod.snd = names.map .var

theorem IsAllotted.nodup (h : cache.IsAllotted a b) : (cache.flatMap Prod.snd).Nodup := by
  obtain ⟨names, hsup, -, hflat⟩ := h
  rw [hflat]
  exact List.Nodup.map (fun _ _ he ↦ by cases he; rfl) hsup.nodup

theorem IsAllotted.not_mem_used (h : cache.IsAllotted a b) (he : e ∈ cache) (hx : x ∈ e.2) :
    x.text ∉ a.used := by
  obtain ⟨names, hsup, -, hflat⟩ := h
  have hxn : x ∈ names.map Symbol.var := hflat ▸ List.mem_flatMap.2 ⟨e, he, hx⟩
  obtain ⟨n, hn, rfl⟩ := List.mem_map.1 hxn
  exact hsup.fresh n hn

theorem IsAllotted.concat {k : Nat} (h : cache.IsAllotted a b)
    (hb : Allocator.allocateMany k b = some (names, left)) :
    IsAllotted (cache ++ [(d, names.map .var)]) a left := by
  obtain ⟨held, hsup, halloc, hflat⟩ := h
  refine ⟨held ++ names, hsup.append (Allocator.supplies_allocateMany hb).1, ?_, ?_⟩
  · rw [Allocator.allocated_allocateMany hb, halloc, List.append_assoc]
  · rw [List.flatMap_append, hflat, List.map_append, List.flatMap_singleton]

end CascadeCache

/-- What else holds of splitting that starts without a cache: each short form stands where its body
stood, and the helpers are the names that were handed out. -/
structure Allotting (s : Session) (a : Allocator) (done : Symbol → Body → Prop) (c : Cascade) : Prop
    extends Cascading s a done c where
  in_place : s.grammar.IsRewrittenInPlace (Body.shortened c.cache) done c.session.grammar
  keys_nodup : (c.cache.map Prod.fst).Nodup
  allotted : c.cache.IsAllotted a c.allocator

namespace Allotting

variable {s : Session} {a : Allocator} {done done' : Symbol → Body → Prop} {c : Cascade} {b : Body}
  {v x : Symbol} {t : Grammar}

theorem start (hg : s.grammar.IsLegal) (hu : ∀ v ∈ s.grammar, v.text ∈ a.used) :
    Allotting s a (fun _ _ ↦ False) ⟨s, a, []⟩ where
  toCascading := .start hg hu (CascadeCache.isConsistent_nil _)
  in_place := .start _ _
  keys_nodup := .nil
  allotted := ⟨[], .refl a, (List.append_nil _).symm, rfl⟩

section Step

variable (hg : s.grammar.IsLegal) (hu : ∀ v ∈ s.grammar, v.text ∈ a.used)

include hg hu

/-- No body had a helper in it, for helpers have new names. -/
theorem not_mem_helpers (h : Cascading s a done c) (ha : c.cache.IsAllotted a c.allocator)
    (hb : b ∈ s.grammar.bodies v) : ∀ x ∈ b, x ∉ c.cache.flatMap Prod.snd := by
  intro x hx hm
  obtain ⟨e, he, hxe⟩ := List.mem_flatMap.1 hm
  have hxg : x ∈ s.grammar :=
    hg.closed v x ⟨b, hb, Body.mem_vars.2 ⟨hx, (h.consistent.helper e he x hxe).1⟩⟩
  exact ha.not_mem_used he hxe (hu x hxg)

/-- The short form of a body is not there before the body is split: no helper stood in a body, and
each long body has its own. -/
theorem shortened_not_mem (h : Cascading s a done' c) (ha : c.cache.IsAllotted a c.allocator)
    (ht : s.grammar.IsRewrittenInPlace (Body.shortened c.cache) done t)
    (hsub : ∀ d, done v d → done' v d) (hb : b ∈ s.grammar.bodies v) (hb' : done' v b)
    (hd : ¬done v b) (hl : 3 ≤ b.length) :
    b.shortened c.cache ∉ t.bodies v := by
  intro hm
  obtain ⟨hs, he⟩ := h.covered v b hb' hl
  obtain ⟨first, tail, x, rest, -, rfl, hshort⟩ := h.consistent.exists_shortened he
  rw [hshort] at hm
  have hnew : [first, x] ∉ s.grammar.bodies v := fun hin ↦
    not_mem_helpers hg hu h ha hin x (by simp) (List.mem_flatMap.2 ⟨_, he, List.mem_cons_self⟩)
  rcases ht.exists_mem (Grammar.mem_of_mem_bodies hb) hm with hin | ⟨d, hdv, hdone, heq⟩
  · exact hnew hin
  · by_cases hdl : d.length < 3
    · rw [Body.shortened_of_length_lt hdl] at heq
      exact hnew (heq ▸ hdv)
    · obtain ⟨hs', he'⟩ := h.covered v d (hsub d hdone) (by omega)
      obtain ⟨first', tail', x', rest', -, rfl, hshort'⟩ := h.consistent.exists_shortened he'
      rw [hshort'] at heq
      obtain ⟨-, rfl⟩ : first = first' ∧ x = x' := by simpa using heq
      have hsame :=
        CascadeCache.eq_of_mem_helpers ha.nodup he he' List.mem_cons_self List.mem_cons_self
      obtain rfl : b = d := (Prod.mk.inj hsame).1
      exact hd hdone

theorem ends_body (h : Allotting s a done c) (hb : b ∈ s.grammar.bodies v) (hd : ¬done v b) :
    Ends Halt.IsExhaustion (Cascade.body v c b) (Allotting s a fun u d ↦ done u d ∨
      u = v ∧ d = b) := by
  have hv := Grammar.mem_of_mem_bodies hb
  have hends := h.toCascading.ends_body hg.start_mem hb hd
  have hsplits := Cascade.splits_body v c b
  generalize Cascade.body v c b = r at hends hsplits
  cases hsplits with
  | short hl =>
    exact ⟨hends, h.in_place.skip (Body.shortened_of_length_lt hl), h.keys_nodup, h.allotted⟩
  | @shared helpers t hl hlook ht hh =>
    have hnext : Cascading s a (fun u d ↦ done u d ∨ u = v ∧ d = b) ⟨t, c.allocator, c.cache⟩ :=
      hends
    have hnew :=
      shortened_not_mem hg hu hnext h.allotted h.in_place (fun _ ↦ .inl) hb (.inr ⟨rfl, rfl⟩) hd hl
    refine ⟨hnext, ?_, h.keys_nodup, h.allotted⟩
    exact h.in_place.exchange hv hd (fun d _ ↦ Body.shortened_ne hl _ d) hnew fun u _ ↦
      congrArg (Grammar.bodies · u) ht
  | exhausted _ => exact hends
  | @chained names allocator t hl hlook ha ht hh =>
    obtain ⟨hsup, hlen⟩ := Allocator.supplies_allocateMany ha
    have hnext : Cascading s a (fun u d ↦ done u d ∨ u = v ∧ d = b)
        ⟨t.addLinks (chain b.tail (names.map .var)), allocator, c.cache ++ [(b, names.map .var)]⟩ :=
      hends
    have hallotted := h.allotted.concat (d := b) ha
    have hsame :
        s.grammar.IsRewrittenInPlace (Body.shortened (c.cache ++ [(b, names.map .var)]))
        done c.session.grammar :=
      h.in_place.congr (fun _ _ hdone ↦ h.shortened_append hdone) fun _ _ ↦ rfl
    have hnew :=
      shortened_not_mem hg hu hnext hallotted hsame (fun _ ↦ .inl) hb (.inr ⟨rfl, rfl⟩) hd hl
    refine ⟨hnext,
      hsame.exchange hv hd (fun d _ ↦ Body.shortened_ne hl _ d) hnew fun u hug ↦ ?_, ?_, hallotted⟩
    · rw [← ht]
      refine Session.bodies_addLinks_of_ne fun p hp he ↦ ?_
      have hp' : p.head ∈ names.map Symbol.var := Cascading.mem_of_link (by omega) hp
      exact h.not_mem_of_supplies hsup hp' (he ▸ (h.mem u).2 (.inl hug))
    · rw [List.map_append, List.map_singleton, ← List.concat_eq_append]
      refine h.keys_nodup.concat fun hkey ↦ ?_
      obtain ⟨e, he, rfl⟩ := List.mem_map.1 hkey
      exact absurd rfl (bne_iff_ne.1 (List.lookup_eq_none_iff.1 hlook e he))

end Step

end Allotting

/-- A body with its own body in the place of each helper. -/
def Body.inlined (g : Grammar) (helpers : List Symbol) (b : Body) : Body :=
  b.flatMap fun s ↦ if s ∈ helpers then (g.bodies s).headD [] else [s]

namespace Body

variable {helpers hs : List Symbol} {b c : Body} {h : Symbol} {n : Nat}

theorem inlined_append : (b ++ c).inlined g helpers = b.inlined g helpers ++ c.inlined g helpers :=
  List.flatMap_append

theorem inlined_singleton (hh : h ∈ helpers) (hb : g.bodies h = [b]) :
    Body.inlined g helpers [h] = b := by
  rw [inlined, List.flatMap_singleton, if_pos hh, hb]
  rfl

theorem inlined_eq_self (hb : ∀ s ∈ b, s ∉ helpers) : b.inlined g helpers = b := by
  induction b with
  | nil => rfl
  | cons s b ih =>
    rw [List.forall_mem_cons] at hb
    rw [← List.singleton_append, inlined_append, ih hb.2, inlined,
      List.flatMap_singleton, if_neg hb.1]

theorem iterate_inlined_append (n : Nat) : (inlined g helpers)^[n] (b ++ c) =
    (inlined g helpers)^[n] b ++ (inlined g helpers)^[n] c := by
  induction n generalizing b c with
  | zero => rfl
  | succ n ih =>
    rw [Function.iterate_succ_apply, inlined_append, ih]
    rfl

theorem iterate_inlined_eq_self (hb : ∀ s ∈ b, s ∉ helpers) (n : Nat) :
    (inlined g helpers)^[n] b = b :=
  Function.iterate_fixed (inlined_eq_self hb) n

/-- The first helper of a chain turns into the body that the chain spells, in as many passes as
there are links. -/
theorem iterate_inlined_chain (hl : (h :: hs).length + 1 = b.length) (hb : ∀ s ∈ b, s ∉ helpers)
    (hh : ∀ x ∈ h :: hs, x ∈ helpers) (hlink : ∀ p ∈ chain b (h :: hs), g.bodies p.head = [p.body])
    (hn : (h :: hs).length ≤ n) : (inlined g helpers)^[n] [h] = b := by
  induction hs generalizing b h n with
  | nil =>
    obtain ⟨n, rfl⟩ : ∃ m, n = m + 1 := ⟨n - 1, by simp at hn; omega⟩
    have hlast : g.bodies h = [b] := hlink ⟨h, b⟩ (by cases b <;> simp [chain])
    rw [Function.iterate_succ_apply, inlined_singleton (hh h List.mem_cons_self) hlast,
      iterate_inlined_eq_self hb]
  | cons next hs ih =>
    obtain ⟨n, rfl⟩ : ∃ m, n = m + 1 := ⟨n - 1, by simp at hn; omega⟩
    cases b with
    | nil => exact nomatch hl
    | cons s b =>
      rw [chain_cons, List.forall_mem_cons] at hlink
      rw [List.forall_mem_cons] at hb hh
      have hs : ∀ x ∈ [s], x ∉ helpers := List.forall_mem_singleton.2 hb.1
      have hrest := ih (by simpa using hl) hb.2 hh.2 hlink.2 (Nat.le_of_succ_le_succ hn)
      rw [Function.iterate_succ_apply, inlined_singleton hh.1 hlink.1, ← List.singleton_append,
        iterate_inlined_append, iterate_inlined_eq_self hs, hrest, List.singleton_append]

end Body

namespace Allotting

variable {s : Session} {a : Allocator} {c : Cascade} {b : Body} {v x : Symbol} {n : Nat}

theorem iterate_inlined_shortened (h : Allotting s a (fun v b ↦ b ∈ s.grammar.bodies v) c)
    (hg : s.grammar.IsLegal) (hu : ∀ v ∈ s.grammar, v.text ∈ a.used) (hb : b ∈ s.grammar.bodies v)
    (hn : (c.cache.flatMap Prod.snd).length ≤ n) :
    (Body.inlined c.session.grammar (c.cache.flatMap Prod.snd))^[n] (b.shortened c.cache) = b := by
  have hfree := not_mem_helpers hg hu h.toCascading h.allotted hb
  by_cases hl : b.length < 3
  · rw [Body.shortened_of_length_lt hl, Body.iterate_inlined_eq_self hfree]
  · obtain ⟨hs, he⟩ := h.covered v b hb (by omega)
    obtain ⟨first, tail, x, rest, rfl, rfl, hshort⟩ := h.consistent.exists_shortened he
    rw [List.forall_mem_cons] at hfree
    have hsub : (x :: rest).Sublist (c.cache.flatMap Prod.snd) :=
      List.sublist_flatten_of_mem (List.mem_map_of_mem (f := Prod.snd) he)
    have htail := Body.iterate_inlined_chain (g := c.session.grammar) (h.consistent.length_tail he)
      hfree.2 hsub.subset (fun p hp ↦ Grammar.bodies_eq_singleton (h.consistent.link _ he p hp))
      (Nat.le_trans hsub.length_le hn)
    have hfirst : ∀ r ∈ [first], r ∉ c.cache.flatMap Prod.snd := List.forall_mem_singleton.2 hfree.1
    rw [hshort, ← List.singleton_append, Body.iterate_inlined_append,
      Body.iterate_inlined_eq_self hfirst, htail]
    rfl

end Allotting

def Grammar.longBodies (g : Grammar) : List Body :=
  (g.rules.allBodies.filter fun b ↦ 3 ≤ b.length).dedup

theorem Grammar.mem_longBodies {g : Grammar} {b : Body} : b ∈ g.longBodies ↔ (∃ v, b ∈ g.bodies v) ∧
    3 ≤ b.length := by
  rw [longBodies, List.mem_dedup, List.mem_filter, Rules.mem_allBodies, decide_eq_true_eq]
  rfl

theorem Grammar.nodup_longBodies (g : Grammar) : g.longBodies.Nodup := List.nodup_dedup _

namespace Allotting

variable {s : Session} {a : Allocator} {c : Cascade}

theorem keys_perm (h : Allotting s a (fun v b ↦ b ∈ s.grammar.bodies v) c)
    (hu : ∀ v ∈ s.grammar, v.text ∈ a.used) : (c.cache.map Prod.fst).Perm s.grammar.longBodies := by
  refine (List.perm_ext_iff_of_nodup h.keys_nodup (Grammar.nodup_longBodies _)).2 fun b ↦ ?_
  rw [Grammar.mem_longBodies]
  constructor
  · intro hb
    obtain ⟨e, he, rfl⟩ := List.mem_map.1 hb
    have hlong := h.consistent.long e he
    have hlen := h.consistent.length e he
    refine ⟨?_, hlong⟩
    rcases h.origin e he with hold | ⟨v, hv, -⟩
    · -- a helper has a new name, so the grammar did not have it
      obtain ⟨x, hx⟩ := List.exists_mem_of_length_pos (l := e.2) (by omega)
      exact absurd (hu x (hold x hx)) (h.allotted.not_mem_used he hx)
    · exact ⟨v, hv⟩
  · intro ⟨⟨v, hv⟩, hl⟩
    obtain ⟨hs, he⟩ := h.covered v b hv hl
    exact List.mem_map_of_mem (f := Prod.fst) he

theorem length_helpers (h : Allotting s a (fun v b ↦ b ∈ s.grammar.bodies v) c)
    (hu : ∀ v ∈ s.grammar, v.text ∈ a.used) :
    (c.cache.flatMap Prod.snd).length = (s.grammar.longBodies.map fun b ↦ b.length - 2).sum := by
  have hlen : c.cache.map (fun e ↦ e.2.length) = (c.cache.map Prod.fst).map fun b ↦
      b.length - 2 := by
    rw [List.map_map]
    refine List.map_congr_left fun e he ↦ ?_
    rw [Function.comp_apply, ← h.consistent.length e he, Nat.add_sub_cancel]
  rw [List.length_flatMap, hlen]
  exact ((h.keys_perm hu).map _).sum_nat

end Allotting

namespace Session

variable {s : Session} {a : Allocator} {c : Cascade}

theorem ends_cascade_allotting (hg : s.grammar.IsLegal) (hu : ∀ v ∈ s.grammar, v.text ∈ a.used) :
    Ends Halt.IsExhaustion (s.cascade a []) (Allotting s a fun v b ↦ b ∈ s.grammar.bodies v) :=
  Grammar.ends_foldlM_sortedHeads (fun _ _ _ h hv hd _ ↦ h.bodies.mem_bodies_iff hv hd)
    (fun _ _ _ _ h hb hd ↦ h.ends_body hg hu hb hd) (Allotting.start hg hu)

/-- Splitting hands out two names less than a long body has symbols, once for each of them, and can
be undone: the new variables have one body each, and with these in their place every variable has
its old bodies, in their old order. -/
theorem cascade_inlined (hok : s.grammar.check = .ok ()) (hu : ∀ n ∈ s.grammar.names, n ∈ a.used)
    (hc : s.cascade a [] = .ok c) :
    ∃ names : List String, c.allocator.allocated.toList = a.allocated.toList ++ names ∧
      names.Nodup ∧
      names.length = (s.grammar.longBodies.map fun b ↦ b.length - 2).sum ∧
      (∀ v, v ∈ c.session.grammar ↔ v ∈ s.grammar ∨ v ∈ names.map .var) ∧
      (∀ h ∈ names.map Symbol.var, h ∉ s.grammar ∧ ∃ b, c.session.grammar.bodies h = [b]) ∧
      (∀ v, ∀ b ∈ s.grammar.bodies v, ∀ x ∈ b, x ∉ names.map .var) ∧
      ∀ n, names.length ≤ n → ∀ v ∈ s.grammar,
        (c.session.grammar.bodies v).map (Body.inlined c.session.grammar (names.map .var))^[n] =
          s.grammar.bodies v := by
  have hg := Grammar.check_eq_ok_iff.1 hok
  have hu' : ∀ v ∈ s.grammar, v.text ∈ a.used := fun v hv ↦ hu _ (Grammar.mem_names hv)
  have h := (ends_cascade_allotting hg hu').of_ok hc
  obtain ⟨names, hsup, halloc, hflat⟩ := h.allotted
  have hlen : names.length = (c.cache.flatMap Prod.snd).length := by rw [hflat, List.length_map]
  refine ⟨names, halloc, hsup.nodup, hlen.trans (h.length_helpers hu'), ?_⟩
  rw [← hflat]
  refine ⟨fun v ↦ ?_, fun x hx ↦ ?_, fun v b hb ↦ Allotting.not_mem_helpers hg hu' h.toCascading
    h.allotted hb, fun n hn v hv ↦ ?_⟩
  · rw [h.mem, List.mem_flatMap]
  · obtain ⟨e, he, hxe⟩ := List.mem_flatMap.1 hx
    obtain ⟨p, hp, rfl⟩ := h.consistent.exists_link he hxe
    exact ⟨fun hxg ↦ h.allotted.not_mem_used he hxe (hu' _ hxg), p.body,
      Grammar.bodies_eq_singleton (h.consistent.link e he p hp)⟩
  · rw [h.in_place.bodies_all hv, List.map_map]
    refine (List.map_congr_left fun b hb ↦ ?_).trans (List.map_id _)
    exact h.iterate_inlined_shortened hg hu' hb (hlen ▸ hn)

theorem cascade_inlined_entwined : Grammar.entwined.check = .ok () ∧
    (∀ n ∈ Grammar.entwined.names, n ∈ (Allocator.new Grammar.entwined.names 0).used) ∧
    (Grammar.entwined.longBodies.map fun b ↦ b.length - 2).sum = 3 ∧
    ∃ c, (ofGrammar .entwined).cascade (.new Grammar.entwined.names 0) [] = .ok c ∧
    ∃ names : List String, c.allocator.allocated.toList = [] ++ names ∧ names.Nodup ∧
      names.length = (Grammar.entwined.longBodies.map fun b ↦ b.length - 2).sum ∧
      (∀ v, v ∈ c.session.grammar ↔ v ∈ Grammar.entwined ∨ v ∈ names.map .var) ∧
      (∀ h ∈ names.map Symbol.var, h ∉ Grammar.entwined ∧ ∃ b, c.session.grammar.bodies h = [b]) ∧
      (∀ v, ∀ b ∈ Grammar.entwined.bodies v, ∀ x ∈ b, x ∉ names.map .var) ∧
      ∀ n, names.length ≤ n → ∀ v ∈ Grammar.entwined,
        (c.session.grammar.bodies v).map (Body.inlined c.session.grammar (names.map .var))^[n] =
          Grammar.entwined.bodies v := by
  have hused := Allocator.forall_mem_used_new Grammar.entwined.names 0
  obtain ⟨c, hc⟩ := exists_eq_ok
    (x := (ofGrammar .entwined).cascade (.new Grammar.entwined.names 0) []) (by decide +kernel)
  exact ⟨rfl, hused, by decide, c, hc, cascade_inlined (s := .ofGrammar .entwined) rfl hused hc⟩

end Session

end ChomskyNormalForm
