import ChomskyNormalForm.Proofs.Form.Isolated

namespace ChomskyNormalForm

theorem TerminalHelpers.isSome_lookup_iff {helpers : TerminalHelpers} {t : String} :
    (helpers.lookup t).isSome = true ↔ t ∈ helpers.map Prod.fst := by
  rw [List.lookup_isSome_iff, List.mem_map]
  exact exists_congr fun e ↦ and_congr_right fun _ ↦ beq_iff_eq.trans eq_comm

theorem foldl_of_mem {σ α : Type} {f : σ → α → σ} {P : σ → Prop} {l : List α} {a : α} (ha : a ∈ l)
    (hit : ∀ s, P (f s a)) (keep : ∀ s b, P s → P (f s b)) (s : σ) : P (l.foldl f s) := by
  obtain ⟨before, after, rfl⟩ := List.append_of_mem ha
  rw [List.foldl_append, List.foldl_cons]
  exact List.foldlRecOn (motive := P) _ _ (hit _) fun s hs b _ ↦ keep s b hs

namespace Grammar

/-- The variable is not the start and has the terminal as its only body. -/
def IsHelper (g : Grammar) (v : Symbol) (t : String) : Prop :=
  v ≠ g.start ∧ g.bodies v = [[.terminal t]]

instance (g : Grammar) (v : Symbol) (t : String) : Decidable (g.IsHelper v t) :=
  inferInstanceAs (Decidable (_ ∧ _))

def innerTerminals (g : Grammar) : List String :=
  distinct ((g.rules.allBodies.filter fun b ↦ 2 ≤ b.length).flatMap fun b ↦
    b.filterMap Symbol.terminal?)

def unhelped (g : Grammar) : List String :=
  g.innerTerminals.filter fun t ↦ ∀ v ∈ g.heads, ¬g.IsHelper v t

variable {g : Grammar} {v : Symbol} {t : String}

theorem mem_innerTerminals : t ∈ g.innerTerminals ↔ ∃ v, ∃ b ∈ g.bodies v, 2 ≤ b.length ∧
    .terminal t ∈ b := by
  simp only [innerTerminals, mem_distinct, List.mem_flatMap, List.mem_filter, Rules.mem_allBodies,
    decide_eq_true_eq, Body.mem_terminals, and_assoc]
  constructor
  · rintro ⟨b, ⟨v, hb⟩, h⟩
    exact ⟨v, b, hb, h⟩
  · rintro ⟨v, b, hb, h⟩
    exact ⟨b, ⟨v, hb⟩, h⟩

theorem mem_unhelped : t ∈ g.unhelped ↔ t ∈ g.innerTerminals ∧ ∀ v, ¬g.IsHelper v t := by
  rw [unhelped, List.mem_filter, decide_eq_true_eq]
  refine and_congr_right fun _ ↦ ⟨fun h v hv ↦ ?_, fun h v _ ↦ h v⟩
  refine h v (mem_of_mem_bodies (b := [.terminal t]) ?_) hv
  rw [hv.2]
  exact List.mem_singleton_self _

theorem nodup_unhelped (g : Grammar) : g.unhelped.Nodup := (nodup_distinct _).filter _

theorem mem_keys_terminalHelpers : t ∈ g.terminalHelpers.map Prod.fst ↔ ∃ v, g.IsHelper v t := by
  constructor
  · intro ht
    obtain ⟨e, he, rfl⟩ := List.mem_map.1 ht
    exact ⟨e.2, ((g.terminalHelpers_spec).2 e he).2⟩
  · intro ⟨v, hne, hb⟩
    have hv : v ∈ g.sortedHeads.filter (· ≠ g.start) := by
      rw [List.mem_filter, mem_sortedHeads, decide_eq_true_eq]
      exact ⟨mem_of_mem_bodies (hb ▸ List.mem_singleton_self _), hne⟩
    refine foldl_of_mem (P := fun helpers : TerminalHelpers ↦ t ∈ helpers.map Prod.fst) hv
      (fun helpers ↦ ?_) (fun helpers u ht ↦ ?_) _
    · rw [hb]
      dsimp only
      split
      · rename_i hsome
        exact TerminalHelpers.isSome_lookup_iff.1 hsome
      · simp
    · split
      · split
        · exact ht
        · rw [List.map_append]
          exact List.mem_append_left _ ht
      · exact ht

end Grammar

namespace Isolation

/-- `j` has the helpers of `i` and a new one for each terminal of `more`, with the name that was
handed out for it. -/
structure Adds (ts : List String) (i : Isolation) (more : List (String × String))
    (j : Isolation) : Prop where
  helpers_eq : j.helpers = i.helpers ++ more.map fun e ↦ (e.1, .var e.2)
  allocated_eq : j.allocator.allocated.toList = i.allocator.allocated.toList ++ more.map Prod.snd
  nodup : (more.map Prod.fst).Nodup
  fresh : ∀ t ∈ more.map Prod.fst, t ∉ i.helpers.map Prod.fst
  mem : ∀ t ∈ more.map Prod.fst, t ∈ ts

def Extends (ts : List String) (i j : Isolation) : Prop := ∃ more, Adds ts i more j

variable {ts : List String} {i j k : Isolation} {t : String} {b : Body} {v x : Symbol}

theorem Extends.refl (ts : List String) (i : Isolation) : Extends ts i i :=
  ⟨[], (List.append_nil _).symm, (List.append_nil _).symm, .nil, by simp, by simp⟩

theorem Adds.keys_eq {more : List (String × String)} (h : Adds ts i more j) :
    j.helpers.map Prod.fst = i.helpers.map Prod.fst ++ more.map Prod.fst := by
  rw [h.helpers_eq, List.map_append, List.map_map]
  rfl

theorem Extends.trans (h : Extends ts i j) (h' : Extends ts j k) : Extends ts i k := by
  obtain ⟨more, h⟩ := h
  obtain ⟨rest, h'⟩ := h'
  have hfresh := h'.fresh
  simp only [h.keys_eq, List.mem_append, not_or] at hfresh
  refine ⟨more ++ rest, ?_, ?_, ?_, ?_, ?_⟩
  · rw [h'.helpers_eq, h.helpers_eq, List.map_append, List.append_assoc]
  · rw [h'.allocated_eq, h.allocated_eq, List.map_append, List.append_assoc]
  · rw [List.map_append]
    exact List.nodup_append.2 ⟨h.nodup, h'.nodup, fun t ht u hu he ↦ (hfresh u hu).2 (he ▸ ht)⟩
  · rw [List.map_append]
    exact List.forall_mem_append.2 ⟨h.fresh, fun t ht ↦ (hfresh t ht).1⟩
  · rw [List.map_append]
    exact List.forall_mem_append.2 ⟨h.mem, h'.mem⟩

theorem extends_helperFor (ht : t ∈ ts) (h : i.helperFor t = .ok (x, j)) : Extends ts i j := by
  unfold helperFor at h
  split at h
  · cases h
    exact .refl ts i
  · rename_i hnone
    split at h
    · exact nomatch h
    · rename_i name allocator ha
      cases h
      refine ⟨[(t, name)], rfl, ?_, List.nodup_singleton t,
        List.forall_mem_singleton.2 fun hkey ↦ ?_, List.forall_mem_singleton.2 ht⟩
      · rw [Allocator.allocated_allocate ha, Array.toList_push]
        rfl
      · rw [← TerminalHelpers.isSome_lookup_iff, hnone] at hkey
        exact nomatch hkey

theorem extends_isolate {c : Body} (hb : ∀ t, .terminal t ∈ b → t ∈ ts)
    (h : i.isolate b = .ok (c, j)) :
    Extends ts i j := by
  fun_induction isolate i b generalizing c j with
  | case1 i =>
    cases h
    exact .refl ts i
  | case2 i t b ih =>
    obtain ⟨⟨x, k⟩, hk, h⟩ := bind_eq_ok.1 h
    obtain ⟨⟨d, l⟩, hl, h⟩ := bind_eq_ok.1 h
    cases h
    exact (extends_helperFor (hb t List.mem_cons_self) hk).trans
      (ih k (fun u hu ↦ hb u (List.mem_cons_of_mem _ hu)) hl)
  | case3 i s b hs ih =>
    obtain ⟨⟨d, l⟩, hl, h⟩ := bind_eq_ok.1 h
    cases h
    exact ih (fun t ht ↦ hb t (List.mem_cons_of_mem _ ht)) hl

theorem extends_body (hb : 2 ≤ b.length → ∀ t, .terminal t ∈ b → t ∈ ts) (h : body v i b = .ok j) :
    Extends ts i j := by
  unfold body at h
  split at h
  · cases h
    exact .refl ts i
  · rename_i hwork
    rw [Bool.or_eq_true, not_or, decide_eq_true_eq] at hwork
    obtain ⟨⟨c, k⟩, hk, h⟩ := bind_eq_ok.1 h
    cases h
    obtain ⟨more, hmore⟩ := extends_isolate (hb (by omega)) hk
    exact ⟨more, hmore.helpers_eq, hmore.allocated_eq, hmore.nodup, hmore.fresh, hmore.mem⟩

end Isolation

def Symbol.standIn (f : String → Symbol) : Symbol → Symbol
  | .terminal t => f t
  | s => s

theorem TerminalHelpers.stand_eq_standIn (helpers : TerminalHelpers) :
    helpers.stand = Symbol.standIn fun t ↦ helpers.stand (.terminal t) := by
  funext s
  cases s <;> rfl

namespace Isolating

variable {s : Session} {a : Allocator} {i : Isolation} {more : List (String × String)} {t : String}

theorem mem_helpers (h : Isolating s a (fun v b ↦ b ∈ s.grammar.bodies v) i)
    (ht : t ∈ s.grammar.innerTerminals) :
    (t, i.helpers.stand (.terminal t)) ∈ i.helpers := by
  obtain ⟨v, b, hb, hl, htb⟩ := Grammar.mem_innerTerminals.1 ht
  obtain ⟨x, hx⟩ := h.covered v b hb hl t htb
  rwa [h.functional.stand_terminal hx]

theorem bodies_stand (h : Isolating s a (fun v b ↦ b ∈ s.grammar.bodies v) i)
    (ht : t ∈ s.grammar.innerTerminals) :
    i.session.grammar.bodies (i.helpers.stand (.terminal t)) = [[.terminal t]] :=
  Grammar.bodies_eq_singleton (h.helper _ (h.mem_helpers ht)).2.2

theorem unhelped_perm (h : Isolating s a (fun v b ↦ b ∈ s.grammar.bodies v) i)
    (hmore : Isolation.Adds s.grammar.innerTerminals ⟨s, a, s.grammar.terminalHelpers⟩ more i) :
    (more.map Prod.fst).Perm s.grammar.unhelped := by
  refine (List.perm_ext_iff_of_nodup hmore.nodup s.grammar.nodup_unhelped).2 fun t ↦ ?_
  rw [Grammar.mem_unhelped, ← not_exists, ← Grammar.mem_keys_terminalHelpers]
  constructor
  · exact fun ht ↦ ⟨hmore.mem t ht, hmore.fresh t ht⟩
  · intro ⟨ht, hnew⟩
    have hkey := List.mem_map_of_mem (f := Prod.fst) (h.mem_helpers ht)
    rw [hmore.keys_eq] at hkey
    exact (List.mem_append.1 hkey).resolve_left hnew

theorem mem_iff_of_adds (h : Isolating s a (fun v b ↦ b ∈ s.grammar.bodies v) i)
    (hmore : Isolation.Adds s.grammar.innerTerminals ⟨s, a, s.grammar.terminalHelpers⟩ more i)
    (v : Symbol) :
    v ∈ i.session.grammar ↔ v ∈ s.grammar ∨ v ∈ (more.map Prod.snd).map .var := by
  rw [h.mem, hmore.helpers_eq, List.map_map, List.mem_map]
  simp only [List.mem_append, List.mem_map]
  constructor
  · rintro (hv | ⟨t, ht | ⟨e, he, het⟩⟩)
    · exact .inl hv
    · exact .inl ((s.grammar.terminalHelpers_spec).2 _ ht).1
    · exact .inr ⟨e, he, (Prod.mk.inj het).2⟩
  · rintro (hv | ⟨e, he, hev⟩)
    · exact .inl hv
    · exact .inr ⟨e.1, .inr ⟨e, he, Prod.ext rfl hev⟩⟩

end Isolating

namespace Session

variable {s t : Session} {a left : Allocator}

/-- Terminals in bodies of several symbols make place for variables that stand for them alone, the
same one for the same terminal. New variables are taken only for terminals that had none, and
nothing else changes. -/
theorem isolateTerminals_replaces_terminals (hok : s.grammar.check = .ok ())
    (hu : ∀ n ∈ s.grammar.names, n ∈ a.used) (hi : s.isolateTerminals a = .ok (t, left)) :
    ∃ f : String → Symbol, ∃ names : List String,
      (∀ x ∈ s.grammar.innerTerminals, ∀ y ∈ s.grammar.innerTerminals, f x = f y → x = y) ∧
      (∀ x ∈ s.grammar.innerTerminals,
        (f x).isVar = true ∧ f x ≠ t.grammar.start ∧ t.grammar.bodies (f x) = [[.terminal x]]) ∧
      t.grammar.start = s.grammar.start ∧
      (∀ v ∈ s.grammar, ∀ b, b ∈ t.grammar.bodies v ↔
        ∃ d ∈ s.grammar.bodies v, b = if d.length < 2 then d else d.map (Symbol.standIn f)) ∧
      left.allocated.toList = a.allocated.toList ++ names ∧
      names.length = s.grammar.unhelped.length ∧
      (∀ v, v ∈ t.grammar ↔ v ∈ s.grammar ∨ v ∈ names.map .var) ∧
      ∀ v ∈ s.grammar, ∀ w, t.grammar.Derives v w ↔ s.grammar.Derives v w := by
  have hg := Grammar.check_eq_ok_iff.1 hok
  have hends :=
    ends_isolateTerminals_keeping hg (fun v hv ↦ hu _ (Grammar.mem_names hv)) (.refl _ _)
    fun v i b j hi hb hj ↦ Isolation.Extends.trans hi
      (Isolation.extends_body (fun hl x hx ↦ Grammar.mem_innerTerminals.2 ⟨v, b, hb, hl, hx⟩) hj)
  obtain ⟨i, hti, h, more, hmore⟩ := hends.of_ok hi
  cases hti
  refine ⟨fun x ↦ i.helpers.stand (.terminal x), more.map Prod.snd, fun x hx y hy he ↦ ?_,
    fun x hx ↦ ?_, h.start_eq, fun v hv b ↦ ?_, hmore.allocated_eq, ?_, h.mem_iff_of_adds hmore,
    fun v hv w ↦ h.derives_iff hg hv⟩
  · have hsame : i.helpers.stand (.terminal x) = i.helpers.stand (.terminal y) := he
    have hbodies := h.bodies_stand hx
    rw [hsame, h.bodies_stand hy] at hbodies
    simpa using hbodies.symm
  · obtain ⟨⟨hvar, -⟩, hst, -⟩ := h.helper _ (h.mem_helpers hx)
    exact ⟨hvar, h.start_eq ▸ hst, h.bodies_stand hx⟩
  · rw [h.mem_bodies_iff hv, ← TerminalHelpers.stand_eq_standIn]
    rfl
  · rw [← (h.unhelped_perm hmore).length_eq, List.length_map, List.length_map]

end Session

def Grammar.assorted : Grammar :=
  ⟨.var "S", .ofEntries [
    (.var "S", [[.terminal "b"]]),
    (.var "A", [[.terminal "a", .var "A"], [.var "Y", .var "A"],
      [.terminal "b", .terminal "c", .terminal "b"], [.terminal "c"]]),
    (.var "W", [[.terminal "c"], [.terminal "a"]]), (.var "Y", [[.terminal "a"]]),
    (.var "Z", [[.terminal "a"]])]⟩

theorem Session.isolateTerminals_replaces_terminals_assorted : Grammar.assorted.check = .ok () ∧
    (∀ n ∈ Grammar.assorted.names, n ∈ (Allocator.new Grammar.assorted.names 0).used) ∧
    Grammar.assorted.innerTerminals = ["a", "b", "c"] ∧ Grammar.assorted.unhelped = ["b", "c"] ∧
    ∃ t left, (ofGrammar .assorted).isolateTerminals (.new Grammar.assorted.names 0) =
    .ok (t, left) ∧
    ∃ f : String → Symbol, ∃ names : List String,
      (∀ x ∈ Grammar.assorted.innerTerminals, ∀ y ∈ Grammar.assorted.innerTerminals, f x =
        f y → x = y) ∧
      (∀ x ∈ Grammar.assorted.innerTerminals,
        (f x).isVar = true ∧ f x ≠ t.grammar.start ∧ t.grammar.bodies (f x) = [[.terminal x]]) ∧
      t.grammar.start = Grammar.assorted.start ∧
      (∀ v ∈ Grammar.assorted, ∀ b, b ∈ t.grammar.bodies v ↔
        ∃ d ∈ Grammar.assorted.bodies v, b = if d.length < 2 then d else d.map (Symbol.standIn f)) ∧
      left.allocated.toList = [] ++ names ∧ names.length = Grammar.assorted.unhelped.length ∧
      (∀ v, v ∈ t.grammar ↔ v ∈ Grammar.assorted ∨ v ∈ names.map .var) ∧
      ∀ v ∈ Grammar.assorted, ∀ w, t.grammar.Derives v w ↔ Grammar.assorted.Derives v w := by
  have hused := Allocator.forall_mem_used_new Grammar.assorted.names 0
  obtain ⟨⟨t, left⟩, hi⟩ := exists_eq_ok
    (x := (ofGrammar .assorted).isolateTerminals (.new Grammar.assorted.names 0))
    (by decide +kernel)
  exact ⟨rfl, hused, by decide +kernel, by decide +kernel, t, left, hi,
    isolateTerminals_replaces_terminals (s := .ofGrammar .assorted) rfl hused hi⟩

end ChomskyNormalForm
