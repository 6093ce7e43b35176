import ChomskyNormalForm.Proofs.Form.Binary
import ChomskyNormalForm.Proofs.Form.Reported
import ChomskyNormalForm.Proofs.Form.StartProtection

namespace ChomskyNormalForm

namespace Grammar

variable {g t : Grammar} {v : Symbol}

theorem IsTrimmed.self (h : IsTrimmed g t) (hg : g.IsProper) : IsTrimmed t t := by
  have hgr : ∀ v ∈ t, t.IsGrounded v := fun v hv ↦ (h.isUseful hg hv).2.isGrounded
  refine ⟨rfl, fun v ↦ ⟨fun hv ↦ ⟨hgr v hv, ((h.mem v).1 hv).2⟩, fun hv ↦ hv.1.mem⟩,
    fun v b ↦ ⟨fun hb ↦ ?_, ?_⟩⟩
  · exact ⟨mem_of_mem_bodies hb, hb, fun u hu ↦ hgr u (h.closed ⟨b, hb, hu⟩)⟩
  · exact fun hb ↦ hb.2.1

theorem IsTrimmed.exists_trimming_eq (h : IsTrimmed g g) :
    ∃ layers, g.trimming = .ok ⟨layers, g, g.reachable, g⟩ ∧ ∀ v, v ∈ layered layers ↔
    g.IsGrounded v := by
  obtain ⟨layers, he, hl⟩ := exists_productiveLayers g
  have hf : g.filterBodies (fun _ b ↦ b.isOver (SymbolSet.ofList (layered layers))) = g := by
    refine filterBodies_eq_self fun v b hb ↦ Body.isOver_iff.2 fun u hu ↦ ?_
    rw [SymbolSet.mem_ofList, hl]
    exact ((h.bodies v b).1 hb).2.2 u hu
  have hr : g.restrict (fun v ↦ v ∈ SymbolSet.ofList (layered layers) && v ∈ g.reachable) = g := by
    refine restrict_eq_self fun v hv ↦ ?_
    rw [Bool.and_eq_true, decide_eq_true_eq, decide_eq_true_eq, SymbolSet.mem_ofList, hl,
      mem_reachable]
    exact (h.mem v).1 hv
  refine ⟨layers, bind_eq_ok.2 ⟨layers, he, ?_⟩, hl⟩
  dsimp only
  rw [hf, hr]
  rfl

theorem IsCleared.self (h : IsCleared g t) (hg : g.IsProper) : IsCleared t t := by
  have hgr : ∀ v ∈ t, v = t.start ∨ t.IsGrounded v :=
    fun v hv ↦ or_iff_not_imp_left.2 fun hne ↦ (h.isProductive hg hv hne).isGrounded
  refine ⟨rfl, fun v ↦ ⟨fun hv ↦ ⟨hgr v hv, ((h.mem v).1 hv).2⟩, fun hv ↦ ?_⟩,
    fun v b ↦ ⟨fun hb ↦ ?_, ?_⟩⟩
  · exact hv.1.elim (fun he ↦ he ▸ h.start_mem) fun hv ↦ hv.mem
  · exact ⟨mem_of_mem_bodies hb, hb, fun u hu ↦ hgr u (h.closed ⟨b, hb, hu⟩)⟩
  · exact fun hb ↦ hb.2.1

theorem inherited_eq_nil {c : UnitClosure} (hu : ∀ v, ∀ b ∈ g.bodies v, b.isUnit = false)
    (hc : ∀ u, u ∈ c.members v ↔ g.UnitReaches v u) : g.inherited c v = [] := by
  refine List.eq_nil_iff_forall_not_mem.2 fun b hb ↦ ?_
  obtain ⟨u, hm, hne, -⟩ := mem_inherited.1 hb
  rcases Relation.ReflTransGen.cases_head ((hc u).1 hm) with he | ⟨x, hx, -⟩
  · exact hne he.symm
  · obtain ⟨hbx, hvar, -⟩ := mem_unitTargets.1 hx
    exact Body.isUnit_eq_false.1 (hu v _ hbx) x hvar rfl

end Grammar

namespace Session

open Grammar

variable {s t u : Session} {stage : Stage} {action : Action} {vars : List Symbol}

/-- The last snapshot shows the table as it is. -/
def IsShown (s : Session) : Prop := s.table.stamp.isSome = true

/-- The table is the same, down to its snapshot, and no new event tells of a change. -/
structure Rests (s t : Session) : Prop where
  table_eq : t.table = s.table
  events : ∃ es, t.events = s.events ++ es ∧ ∀ e ∈ es, e.added = [] ∧ e.removed = []

/-- The table is shown as it is, and the stage leaves it so, whatever was logged before. It comes to
`result` then. -/
def IsFixed {α : Type} (stage : Session → Except Halt α) (result : Session → α)
    (t : Session) : Prop :=
  t.IsShown ∧ ∀ r, ∃ u, stage ⟨t.table, r⟩ = .ok (result u) ∧ Rests ⟨t.table, r⟩ u

theorem Reports.isShown (h : Reports stage s t) (hs : s.IsShown) : t.IsShown := by
  induction h with
  | refl => exact hs
  | tail _ he _ =>
    obtain ⟨e, he, -⟩ := he
    exact Option.isSome_iff_exists.2 ⟨_, he.renews.stamp_eq⟩

namespace Rests

theorem refl (s : Session) : s.Rests s :=
  ⟨rfl, [], (List.append_nil _).symm, fun _ he ↦ absurd he List.not_mem_nil⟩

theorem trans (h : s.Rests t) (h' : t.Rests u) : s.Rests u := by
  obtain ⟨ht, es, hes, hnone⟩ := h
  obtain ⟨hu, fs, hfs, hnone'⟩ := h'
  refine ⟨hu.trans ht, es ++ fs, ?_, List.forall_mem_append.2 ⟨hnone, hnone'⟩⟩
  rw [hfs, hes, List.append_assoc]

theorem isShown (h : s.Rests t) (hs : s.IsShown) : t.IsShown := by
  rw [IsShown, h.table_eq]
  exact hs

theorem grammar_eq (h : s.Rests t) : t.grammar = s.grammar := congrArg Table.grammar h.table_eq

theorem emit (hs : s.IsShown) : s.Rests (s.emit action vars [] []) := by
  refine ⟨?_, _, events_emit, List.forall_mem_singleton.2 ⟨rfl, rfl⟩⟩
  obtain ⟨n, hn⟩ := Option.isSome_iff_exists.1 hs
  rw [Session.emit, publish, hn]

theorem note (hs : s.IsShown) (actions : List (Action × List Symbol)) :
    s.Rests (s.note actions) := by
  unfold Session.note
  induction actions generalizing s with
  | nil => exact refl s
  | cons a actions ih =>
    have ha : s.Rests (s.emit a.1 a.2 [] []) := emit hs
    exact ha.trans (ih (ha.isShown hs))

end Rests

theorem exists_trim_rests {layers : List ProductiveLayer} (h : IsTrimmed s.grammar s.grammar)
    (hs : s.IsShown)
    (he : s.grammar.trimming = .ok ⟨layers, s.grammar, s.grammar.reachable, s.grammar⟩)
    (hl : ∀ v, v ∈ layered layers ↔ s.grammar.IsGrounded v) :
    ∃ u, s.trim = .ok (u, ⟨layers, s.grammar, s.grammar.reachable, s.grammar⟩) ∧ s.Rests u := by
  let m : Trimming := ⟨layers, s.grammar, s.grammar.reachable, s.grammar⟩
  let t := s.note (productiveActions layers)
  have ht : s.Rests t := .note hs _
  have hungrounded : t.dropUngrounded m = t := by
    refine if_pos (List.isEmpty_iff.2 (List.filter_eq_nil_iff.2 fun p hp ↦ ?_))
    rw [ht.grammar_eq, mem_productions] at hp
    rw [Bool.not_eq_true', Bool.not_eq_false, Body.isOver_iff]
    intro u hu
    rw [SymbolSet.mem_ofList]
    exact (hl u).2 (((h.bodies _ _).1 hp).2.2 u hu)
  let x := t.emit .reachable (Symbol.sort m.reachable) [] []
  have hx : s.Rests x := ht.trans (.emit (ht.isShown hs))
  have hunretained : x.dropUnretained m = x := by
    refine if_pos (List.isEmpty_iff.2 (List.filter_eq_nil_iff.2 fun v hv ↦ ?_))
    obtain ⟨hgr, hr⟩ := (h.mem v).1 (mem_sortedHeads.1 hv)
    rw [decide_eq_true_eq, not_not]
    exact List.mem_filter.2 ⟨(hl v).2 hgr, decide_eq_true (mem_reachable.2 hr)⟩
  refine ⟨s.trimmed m, ?_, ?_⟩
  · rw [trim_eq, expect_eq_ok.2 he]
    rfl
  · rw [trimmed, hungrounded, hunretained]
    exact hx.trans (.emit (hx.isShown hs))

theorem exists_expandUnits_rests (hu : ∀ v, ∀ b ∈ s.grammar.bodies v, b.isUnit = false)
    (hs : s.IsShown) :
    ∃ x, s.expandUnits = .ok x ∧ s.Rests x := by
  obtain ⟨c, he, -, hc⟩ := exists_unitClosure s.grammar
  have hfind : ∃ x, s.findUnitClosure = .ok (x, c) ∧ s.Rests x :=
    ⟨_, by rw [findUnitClosure, expect_eq_ok.2 he]; rfl, .note hs _⟩
  obtain ⟨x, hx, hrest⟩ := hfind
  have hcopy : x.grammar.sortedHeads.foldl (copyBodies c) x = x := by
    refine foldl_eq_self fun v hv ↦ ?_
    rw [mem_sortedHeads, hrest.grammar_eq] at hv
    rw [copyBodies, hrest.grammar_eq, inherited_eq_nil hu (hc v hv)]
    rfl
  have hremove : x.grammar.sortedHeads.foldl removeUnits x = x := by
    refine foldl_eq_self fun v _ ↦ ?_
    have hnil : (x.grammar.bodies v).filterMap Body.unit? = [] := by
      refine List.filterMap_eq_nil_iff.2 fun b hb ↦ ?_
      rw [hrest.grammar_eq] at hb
      exact Option.not_isSome_iff_eq_none.1 (Bool.eq_false_iff.1 (hu v b hb))
    rw [removeUnits, hnil]
    rfl
  refine ⟨x, ?_, hrest⟩
  rw [expandUnits, hx, ok_bind]
  dsimp only
  rw [hcopy, hremove]
  rfl

theorem dropUnproductive_eq_self (h : IsCleared s.grammar s.grammar) :
    s.dropUnproductive = .ok s := by
  obtain ⟨productive, he, hp⟩ := exists_productive s.grammar
  have hgr : ∀ v ∈ s.grammar, v ≠ s.grammar.start → s.grammar.IsGrounded v :=
    fun v hv hne ↦ ((h.mem v).1 hv).1.resolve_left hne
  have hnil : (s.grammar.sortedHeads.filter fun v ↦ v ≠ s.grammar.start && v ∉ productive) =
      [] := by
    refine List.filter_eq_nil_iff.2 fun v hv ↦ ?_
    rw [Bool.and_eq_true, decide_eq_true_eq, decide_eq_true_eq, not_and, not_not, hp]
    exact hgr v (mem_sortedHeads.1 hv)
  have hpruned : s.grammar.pruned = .ok ⟨s.grammar, [], []⟩ := by
    refine pruned_eq_self (fun v hv hne ↦ ?_) fun _ _ ↦ h.closed
    obtain ⟨hb, -⟩ := hgr v hv hne
    exact List.ne_nil_of_mem hb
  rw [dropUnproductive, expect_eq_ok.2 he, ok_bind]
  dsimp only
  rw [hnil, restrict_eq_self fun v _ ↦ decide_eq_true List.not_mem_nil, expect_eq_ok.2 hpruned]
  rfl

theorem dropUnreachable_eq_self (h : IsCleared s.grammar s.grammar) : s.dropUnreachable = s := by
  have hnil : s.grammar.sortedHeads.filter (· ∉ s.grammar.reachable) = [] := by
    refine List.filter_eq_nil_iff.2 fun v hv ↦ ?_
    rw [decide_eq_true_eq, not_not, mem_reachable]
    exact ((h.mem v).1 (mem_sortedHeads.1 hv)).2
  rw [dropUnreachable, hnil]

theorem exists_eliminateUnits_rests (hu : ∀ v, ∀ b ∈ s.grammar.bodies v, b.isUnit = false)
    (hstart : ∀ v, v ≠ s.grammar.start → ∀ b ∈ s.grammar.bodies v, s.grammar.start ∉ b)
    (h : IsCleared s.grammar s.grammar) (hs : s.IsShown) :
    ∃ u, s.eliminateUnits = .ok u ∧ s.Rests u := by
  obtain ⟨x, hx, hrest⟩ := exists_expandUnits_rests hu hs
  refine ⟨x, ?_, hrest⟩
  rw [← hrest.grammar_eq] at hstart h
  rw [eliminateUnits_eq, hx, ok_bind, protectStart_eq_ok hstart, ok_bind, clear,
    dropUnproductive_eq_self h, ok_bind, dropUnreachable_eq_self h]
  rfl

end Session

def Grammar.IsLong (g : Grammar) (p : Production) : Prop :=
  p.body ∈ g.bodies p.head ∧ 3 ≤ p.body.length

namespace Cascade

variable {g : Grammar} {cache : CascadeCache} {v : Symbol} {b : Body} {p : Production}

theorem isLong_of_replace (hb : p.body ∈ (g.replace v b (b.shortened cache)).bodies p.head)
    (hp : 3 ≤ p.body.length) :
    g.IsLong p ∧ p ≠ ⟨v, b⟩ := by
  rcases Grammar.eq_or_mem_of_mem_replace hb with he | ⟨hb, hne⟩
  · exact absurd he.symm (Body.shortened_ne hp cache b)
  · refine ⟨⟨hb, hp⟩, fun he ↦ hne ?_⟩
    rw [he]
    exact ⟨rfl, rfl⟩

/-- Splitting a body makes no long one, and the body is gone if it was one. -/
theorem ends_body_isLong (c : Cascade) (v : Symbol) (b : Body) :
    Ends Halt.IsExhaustion (body v c b) fun d ↦
    ∀ p, d.session.grammar.IsLong p → c.session.grammar.IsLong p ∧ p ≠ ⟨v, b⟩ := by
  have hsplits := splits_body v c b
  generalize body v c b = r at hsplits
  cases hsplits with
  | short hl =>
    intro p hp
    refine ⟨hp, fun he ↦ ?_⟩
    have hlp := hp.2
    rw [he] at hlp
    exact absurd hl (Nat.not_lt.2 hlp)
  | shared _ _ ht _ =>
    intro p hp
    exact isLong_of_replace (ht ▸ hp.1) hp.2
  | exhausted he => exact he
  | chained hl _ ha ht _ =>
    intro p hp
    rcases Session.mem_bodies_addLinks.1 hp.1 with hb | ⟨q, hq, -, he⟩
    · exact isLong_of_replace (ht ▸ hb) hp.2
    · have hlen := (Allocator.supplies_allocateMany ha).2
      have hq2 := length_body_chain (by rw [List.length_map, List.length_tail]; omega) hq
      have hlp := hp.2
      rw [he] at hlp
      omega

end Cascade

namespace Session

open Grammar

variable {s : Session}

theorem ends_cascade_length_le (s : Session) (a : Allocator) (cache : CascadeCache) :
    Ends Halt.IsExhaustion (s.cascade a cache) fun c ↦
    ∀ v, ∀ b ∈ c.session.grammar.bodies v, b.length ≤ 2 := by
  have hvar : ∀ (c : Cascade) (v : Symbol), Ends Halt.IsExhaustion
      ((c.session.grammar.bodies v).foldlM (Cascade.body v) c) fun d ↦
        ∀ p, d.session.grammar.IsLong p → c.session.grammar.IsLong p ∧ ¬p.head = v := by
    intro c v
    apply (Ends.foldlM_sweep fun c b ↦ Cascade.ends_body_isLong c v b).mono
    intro d hd p hp
    obtain ⟨hc, hne⟩ := hd p hp
    refine ⟨hc, ?_⟩
    rintro rfl
    exact hne p.body hc.1 rfl
  apply (Ends.foldlM_sweep hvar).mono
  intro c hc v b hb
  by_contra hl
  obtain ⟨hs, hne⟩ := hc ⟨v, b⟩ ⟨hb, Nat.lt_of_not_le hl⟩
  exact hne v (mem_sortedHeads.2 (mem_of_mem_bodies hs.1)) rfl

/-- Each stage leaves its own result as it is, whatever names and helpers it is given the second
time. -/
theorem stages_idempotent (hc : s.grammar.check = .ok ()) (hs : s.IsShown) :
    (∃ t m, s.trim = .ok (t, m) ∧ m.grammar = t.grammar ∧
      ∃ n : Trimming, n.grammar = t.grammar ∧ t.IsFixed trim (·, n)) ∧
    (∀ t, s.eliminateUnits = .ok t → t.IsFixed eliminateUnits id) ∧
    (∀ a, (∀ n ∈ s.grammar.names, n ∈ a.used) →
      Ends Halt.IsExhaustion (s.isolateTerminals a) fun r ↦
      ∀ a', r.1.IsFixed (·.isolateTerminals a') (·, a')) ∧
    ∀ a cache, Ends Halt.IsExhaustion (s.cascade a cache) fun c ↦
      ∀ a' cache', c.session.IsFixed (·.cascade a' cache') (⟨·, a', cache'⟩) := by
  have hg := check_eq_ok_iff.1 hc
  refine ⟨?_, fun t ht ↦ ?_, fun a ha ↦ ?_, fun a cache ↦ ?_⟩
  · obtain ⟨t, m, ht, hm, -, htrim, -⟩ := exists_trim s
    have hself : IsTrimmed t.grammar t.grammar := hm ▸ htrim.self hg.isProper
    obtain ⟨layers, he, hl⟩ := hself.exists_trimming_eq
    have hshown := (Reports.trim ht).isShown hs
    refine ⟨t, m, ht, hm.symm, ⟨layers, t.grammar, t.grammar.reachable, t.grammar⟩, rfl,
      hshown, fun r ↦ ?_⟩
    exact exists_trim_rests (s := ⟨t.table, r⟩) hself hshown he hl
  · obtain ⟨x, hx, -, hexp⟩ := exists_expandUnits s
    have hlegal := hexp.isLegal hg
    obtain ⟨-, p, hp, hclear⟩ := (ends_eliminateUnits hx hlegal.start_mem).of_ok ht
    have hself : IsCleared t.grammar t.grammar := hclear.self (hp.isLegal hlegal).isProper
    have hshown := (Reports.eliminateUnits ht).isShown hs
    refine ⟨hshown, fun r ↦ exists_eliminateUnits_rests (s := ⟨t.table, r⟩) (fun v b hb ↦ ?_)
      (fun v hv b hb ↦ ?_) hself hshown⟩
    · exact hp.isUnit_eq_false hexp hg (hclear.mem_bodies hb)
    · exact hclear.start_not_mem hp hv hb
  · have hv : ∀ v ∈ s.grammar, v.isVar = true := fun v hv ↦ (hg.head v hv).1
    apply ((ends_isolateTerminals hg fun v hv ↦ ha _ (mem_names hv)).and fun r hr ↦
      ((Reports.isolateTerminals hv a).of_ok hr).isShown hs).mono
    rintro _ ⟨⟨i, rfl, hi⟩, hshown⟩ a'
    refine ⟨hshown, fun r ↦ ⟨⟨i.session.table, r⟩, ?_, .refl _⟩⟩
    exact isolateTerminals_eq_self fun v b hb hl t ↦ hi.terminal_not_mem hb hl
  · apply ((ends_cascade_length_le s a cache).and fun c hc ↦
      ((Reports.cascade s a cache).of_ok hc).isShown hs).mono
    intro c ⟨hl, hshown⟩ a' cache'
    exact ⟨hshown, fun r ↦ ⟨⟨c.session.table, r⟩, cascade_eq_self hl, .refl _⟩⟩

end Session

/-- Every stage has something to do here: `B` cannot be reached and no word comes from `C`, there is
a unit production, the start stands in a body of `A`, and a long body has terminals. -/
def Grammar.cluttered : Grammar :=
  ⟨.var "S", .ofEntries [
    (.var "S", [[.terminal "a", .var "A", .terminal "b"], [.var "A"], [.var "A", .var "C"]]),
    (.var "A", [[.var "S", .terminal "b"], [.terminal "a"]]), (.var "B", [[.terminal "b"]]),
    (.var "C", [[.var "C", .terminal "c"]])]⟩

theorem Session.stages_idempotent_cluttered : Grammar.cluttered.check = .ok () ∧
    (ofGrammar .cluttered).IsShown ∧
    (∃ t m, (ofGrammar .cluttered).trim = .ok (t, m) ∧ m.grammar = t.grammar ∧
      ∃ n : Trimming, n.grammar = t.grammar ∧ t.IsFixed trim (·, n)) ∧
    (∃ t, (ofGrammar .cluttered).eliminateUnits = .ok t ∧ t.IsFixed eliminateUnits id) ∧
    (∀ n ∈ Grammar.cluttered.names, n ∈ (Allocator.new Grammar.cluttered.names 0).used) ∧
    (∃ r, (ofGrammar .cluttered).isolateTerminals (.new Grammar.cluttered.names 0) = .ok r ∧
      ∀ a', r.1.IsFixed (·.isolateTerminals a') (·, a')) ∧
    ∃ c, (ofGrammar .cluttered).cascade (.new Grammar.cluttered.names 0) [] = .ok c ∧
      ∀ a' cache', c.session.IsFixed (·.cascade a' cache') (⟨·, a', cache'⟩) := by
  have hused := Allocator.forall_mem_used_new Grammar.cluttered.names 0
  obtain ⟨htrim, hunits, hisolate, hcascade⟩ :=
    stages_idempotent (s := .ofGrammar .cluttered) rfl rfl
  obtain ⟨t, ht⟩ := exists_eq_ok (x := (ofGrammar .cluttered).eliminateUnits) (by decide +kernel)
  obtain ⟨r, hr⟩ := exists_eq_ok
    (x := (ofGrammar .cluttered).isolateTerminals (.new Grammar.cluttered.names 0))
    (by decide +kernel)
  obtain ⟨c, hc⟩ := exists_eq_ok
    (x := (ofGrammar .cluttered).cascade (.new Grammar.cluttered.names 0) []) (by decide +kernel)
  exact ⟨rfl, rfl, htrim, ⟨t, ht, hunits t ht⟩, hused, ⟨r, hr, (hisolate _ hused).of_ok hr⟩,
    c, hc, (hcascade _ _).of_ok hc⟩

end ChomskyNormalForm
