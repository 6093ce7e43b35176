import ChomskyNormalForm.Proofs.Form.Normal
import ChomskyNormalForm.Proofs.Form.Substitutions
import ChomskyNormalForm.Proofs.Trace.Replay

namespace ChomskyNormalForm

open Grammar

theorem Grammar.isEdit_round (p : Pruning) :
    p.grammar.IsEdit [] ((p.grammar.restrict (· ∉ p.grammar.emptied)).orphaned
      (p.grammar.restrict (· ∉ p.grammar.emptied)).headSet) p.round.1.grammar := by
  refine .of_removed (fun q ↦ ?_) fun q hq ↦ ?_
  · rw [mem_orphaned, mem_bodies_restrict, mem_productions, mem_productions, mem_bodies_round,
      ← Bool.not_eq_true, Body.isOver_iff]
    simp only [mem_headSet, mem_restrict, mem_round, decide_eq_true_eq]
    constructor
    · rintro ⟨⟨hb, -⟩, hover⟩
      exact ⟨hb, fun h ↦ hover h.2⟩
    · rintro ⟨hb, hover⟩
      refine ⟨⟨hb, fun he ↦ ?_⟩, fun h ↦ hover ⟨hb, h⟩⟩
      exact List.ne_nil_of_mem hb (mem_emptied.1 he).2.2
  · rw [mem_productions, mem_bodies_round] at hq
    exact mem_productions.2 hq.1

theorem Grammar.isEdit_pruned {g : Grammar} {p : Pruning} (h : g.pruned = .ok p) :
    g.IsEdit [] p.removed p.grammar := by
  refine settled_induct (I := fun p : Pruning ↦ g.IsEdit [] p.removed p.grammar)
    (fun _ p hp ↦ ?_) (.refl g) h
  exact hp.append_removed (isEdit_round p)

theorem Grammar.mem_of_mem_dropped {g : Grammar} {p : Pruning} (h : g.pruned = .ok p) :
    ∀ v ∈ p.dropped, v ∈ g ∧ v ∉ p.grammar := by
  let I (p : Pruning) : Prop := (∀ v ∈ p.grammar, v ∈ g) ∧ ∀ v ∈ p.dropped, v ∈ g ∧ v ∉ p.grammar
  have hround : ∀ (n : ℕ) (p : Pruning), I p → I p.round.1 := by
    intro _ p ⟨hmem, hdropped⟩
    refine ⟨fun v hv ↦ hmem v (mem_round.1 hv).1, fun v hv ↦ ?_⟩
    rw [mem_round, not_and, not_not]
    rcases List.mem_append.1 hv with hv | hv
    · exact ⟨(hdropped v hv).1, fun hm ↦ absurd hm (hdropped v hv).2⟩
    · exact ⟨hmem v (mem_emptied.1 hv).1, fun _ ↦ hv⟩
  have hstart : I ⟨g, [], []⟩ := ⟨fun _ hv ↦ hv, fun _ hv ↦ absurd hv List.not_mem_nil⟩
  exact (settled_induct (I := I) hround hstart h).2

theorem Grammar.agrees_eq_false_of_pruned {g : Grammar} {p : Pruning} (h : g.pruned = .ok p)
    (hp : p.dropped ≠ [] ∨ p.removed ≠ []) : p.grammar.agrees g = false := by
  rcases hp with hd | hr
  · obtain ⟨v, hv⟩ := List.exists_mem_of_ne_nil _ hd
    exact agrees_eq_false_of_mem (mem_of_mem_dropped h v hv).1 (mem_of_mem_dropped h v hv).2
  · obtain ⟨q, hq⟩ := List.exists_mem_of_ne_nil _ hr
    exact (isEdit_pruned h).agrees_eq_false hq

namespace Session

variable {s t : Session} {stage : Stage} {v : Symbol}

namespace Reports

section Fold

variable {σ : Type} {T : σ → Session} {I : σ → Prop} {i : σ}

theorem foldlM {α : Type} {f : σ → α → Except Halt σ} {l : List α}
    (step : ∀ i, I i → ∀ a ∈ l, Ends (HaltsIn stage (T i)) (f i a) fun j ↦ I j ∧
      Reports stage (T i) (T j))
    (hi : I i) : Ends (HaltsIn stage (T i)) (l.foldlM f i) fun j ↦ I j ∧
    Reports stage (T i) (T j) := by
  induction l generalizing i with
  | nil => exact ⟨hi, refl stage _⟩
  | cons a l ih =>
    rw [List.foldlM_cons]
    apply (step i hi a List.mem_cons_self).bind
    intro k ⟨hk, hr⟩
    have hrest := ih (fun i hi b hb ↦ step i hi b (List.mem_cons_of_mem _ hb)) hk
    exact hr.ends (hrest.mono fun j ⟨hj, hr'⟩ ↦ ⟨hj, hr.trans hr'⟩)

/-- Work on bodies of one variable in turn, where work on one of them leaves the others in their
places. -/
theorem foldlM_bodies {f : σ → Body → Except Halt σ} {l : List Body}
    (step : ∀ i, I i → ∀ b ∈ l, b ∈ (T i).grammar.bodies v →
      Ends (HaltsIn stage (T i)) (f i b) fun j ↦
      I j ∧ Reports stage (T i) (T j) ∧ ∀ d ∈ (T i).grammar.bodies v, d ≠ b →
      d ∈ (T j).grammar.bodies v)
    (hl : l.Nodup) (hb : ∀ b ∈ l, b ∈ (T i).grammar.bodies v) (hi : I i) :
    Ends (HaltsIn stage (T i)) (l.foldlM f i) fun j ↦ I j ∧ Reports stage (T i) (T j) := by
  induction l generalizing i with
  | nil => exact ⟨hi, refl stage _⟩
  | cons a l ih =>
    rw [List.nodup_cons] at hl
    rw [List.forall_mem_cons] at hb
    rw [List.foldlM_cons]
    apply (step i hi a List.mem_cons_self hb.1).bind
    intro k ⟨hk, hr, hkeep⟩
    have hbk : ∀ b ∈ l, b ∈ (T k).grammar.bodies v :=
      fun b hbl ↦ hkeep b (hb.2 b hbl) fun he ↦ hl.1 (he ▸ hbl)
    have hrest := ih (fun i hi b hb ↦ step i hi b (List.mem_cons_of_mem _ hb)) hl.2 hbk hk
    exact hr.ends (hrest.mono fun j ⟨hj, hr'⟩ ↦ ⟨hj, hr.trans hr'⟩)

end Fold

theorem note_productiveActions (layers : List ProductiveLayer) :
    Reports .trim s (s.note (productiveActions layers)) := by
  refine note fun a ha ↦ ?_
  simp only [productiveActions, List.mem_append, List.mem_map, List.mem_flatMap,
    List.mem_singleton] at ha
  rcases ha with (⟨e, -, rfl⟩ | ⟨d, -, e, -, rfl⟩) | rfl
  · exact ⟨rfl, Action.noConfusion⟩
  · exact ⟨rfl, Action.noConfusion⟩
  · exact ⟨rfl, Action.noConfusion⟩

theorem dropUngrounded {r : Trimming}
    (hf : r.filtered = s.grammar.filterBodies fun _ b ↦ b.isOver (SymbolSet.ofList r.productive)) :
    Reports .trim s (s.dropUngrounded r) := by
  have hedit : s.grammar.IsEdit [] (s.grammar.productions.filter
      fun p ↦ !p.body.isOver (SymbolSet.ofList r.productive)) r.filtered := by
    rw [hf]
    refine isEdit_filterBodies fun p ↦ ?_
    rw [List.mem_filter, Bool.not_eq_true']
  refine commit_unless ⟨rfl, Action.noConfusion⟩ hedit (hf ▸ becomes_filterBodies ..)
    (by rw [hf, start_filterBodies]) fun hc ↦ ?_
  obtain ⟨p, hp⟩ := List.isEmpty_eq_false_iff_exists_mem.1 hc
  exact hedit.agrees_eq_false hp

theorem dropUnretained {r : Trimming} (hs : s.grammar = r.filtered)
    (hg : r.grammar = r.filtered.restrict (fun v ↦ v ∈ SymbolSet.ofList r.productive &&
      v ∈ r.reachable))
    (hret : ∀ v, v ∈ r.retained ↔ v ∈ r.productive ∧ v ∈ r.reachable) :
    Reports .trim s (s.dropUnretained r) := by
  have hstart : r.grammar.start = s.grammar.start := by rw [hg, hs, start_restrict]
  have hkept : ∀ v, v ∈ r.grammar ↔ v ∈ r.filtered ∧ v ∈ r.retained := by
    intro v
    rw [hg, mem_restrict, hret]
    simp only [Bool.and_eq_true, decide_eq_true_eq, SymbolSet.mem_ofList]
  refine commit_unless ⟨rfl, Action.noConfusion⟩ ?_ (by rw [hg, hs]; exact becomes_restrict ..)
    hstart fun hc ↦ ?_
  · rw [hg, hs]
    refine isEdit_restrict fun v hv ↦ ?_
    rw [List.mem_filter, mem_sortedHeads, decide_eq_true_eq, and_iff_right hv, hret,
      ← Bool.not_eq_true]
    simp only [Bool.and_eq_true, decide_eq_true_eq, SymbolSet.mem_ofList]
  · obtain ⟨v, hv⟩ := List.isEmpty_eq_false_iff_exists_mem.1 hc
    rw [List.mem_filter, mem_sortedHeads, decide_eq_true_eq] at hv
    exact agrees_eq_false_of_mem (hs ▸ hv.1) fun hm ↦ hv.2 ((hkept v).1 hm).2

theorem trim {r : Trimming} (h : s.trim = .ok (t, r)) : Reports .trim s t := by
  obtain ⟨r', he, -, -, hf, hg, hret⟩ := exists_trimming s.grammar
  rw [trim_eq, expect_eq_ok.2 he] at h
  cases h
  rw [← s.grammar_note (productiveActions r.layers)] at hf
  let u := ((s.note (productiveActions r.layers)).dropUngrounded r).emit .reachable
    (Symbol.sort r.reachable) [] []
  have hd : Reports .trim ((s.note (productiveActions r.layers)).dropUngrounded r) u :=
    emit ⟨rfl, Action.noConfusion⟩ (.refl _)
  have hgu : u.grammar = r.filtered := (grammar_emit ..).trans (grammar_dropUngrounded hf)
  have hr : Reports .trim u (u.dropUnretained r) := dropUnretained hgu hg hret
  have hv : Reports .trim (u.dropUnretained r) (s.trimmed r) :=
    emit ⟨rfl, Action.noConfusion⟩ (.refl _)
  exact (((note_productiveActions r.layers).trans (dropUngrounded hf)).trans hd).trans (hr.trans hv)

theorem grammar_of_findNullable {nullable : List Symbol} (h : s.findNullable = .ok (t, nullable)) :
    t.grammar = s.grammar := by
  obtain ⟨layers, -, h⟩ := bind_eq_ok.1 h
  cases h
  exact grammar_note ..

theorem findNullable {nullable : List Symbol} (h : s.findNullable = .ok (t, nullable)) :
    Reports .epsilon s t := by
  obtain ⟨layers, -, h⟩ := bind_eq_ok.1 h
  cases h
  refine note fun a ha ↦ ?_
  rw [List.mem_append, List.mem_map, List.mem_singleton] at ha
  rcases ha with ⟨e, -, rfl⟩ | rfl
  · exact ⟨rfl, Action.noConfusion⟩
  · exact ⟨rfl, Action.noConfusion⟩

theorem keepEpsilon {fresh : Symbol} (hf : Body.epsilon ∉ s.grammar.bodies fresh) (old : Symbol)
    (nullable : List Symbol) : Reports .epsilon s (s.keepEpsilon fresh old nullable) := by
  unfold Session.keepEpsilon
  split
  · exact commit ⟨rfl, Action.noConfusion⟩ (isEdit_extend _ fresh [Body.epsilon])
      (becomes_extend ..) start_extend (agrees_eq_false_of_extend List.mem_cons_self hf)
  · exact refl _ s

theorem addVariants (nullable : List Symbol) (s : Session) (v : Symbol) :
    Reports .epsilon s (s.addVariants nullable v) := by
  unfold Session.addVariants
  split
  · exact refl _ s
  · rename_i hne
    exact commit ⟨rfl, Action.noConfusion⟩ (isEdit_extend ..) (becomes_extend ..) start_extend
      (agrees_eq_false_of_news hne)

theorem dropEpsilons (s : Session) : Reports .epsilon s s.dropEpsilons := by
  unfold Session.dropEpsilons
  dsimp only
  split
  · exact refl _ s
  · rename_i hne
    have hedit : s.grammar.IsEdit []
        ((s.grammar.sortedHeads.filter fun v ↦ v ≠ s.grammar.start && Body.epsilon ∈
          s.grammar.bodies v).map (⟨·, Body.epsilon⟩))
        (s.grammar.filterBodies fun v b ↦ v = s.grammar.start || !b.isEpsilon) := by
      refine isEdit_filterBodies fun p ↦ ?_
      simp only [List.mem_map, List.mem_filter, mem_sortedHeads, Bool.and_eq_true,
        decide_eq_true_eq, mem_productions, Bool.or_eq_false_iff, decide_eq_false_iff_not,
        Bool.not_eq_false']
      constructor
      · rintro ⟨v, ⟨-, hv, hb⟩, rfl⟩
        exact ⟨hb, hv, rfl⟩
      · rintro ⟨hb, hv, he⟩
        obtain ⟨v, b⟩ := p
        obtain rfl : b = Body.epsilon := beq_iff_eq.1 he
        exact ⟨v, ⟨mem_of_mem_bodies hb, hv, hb⟩, rfl⟩
    obtain ⟨v, hv⟩ := List.exists_mem_of_ne_nil _ hne
    exact commit ⟨rfl, Action.noConfusion⟩ hedit (becomes_filterBodies ..) start_filterBodies
      (hedit.agrees_eq_false (List.mem_map_of_mem hv))

theorem expand (s : Session) (nullable : List Symbol) : Reports .epsilon s (s.expand nullable) := by
  unfold Session.expand
  exact (foldl fun t v _ ↦ addVariants nullable t v).trans (dropEpsilons _)

theorem pruneEmpty (h : s.pruneEmpty = .ok t) : Reports .epsilon s t := by
  obtain ⟨p, hp, h⟩ := bind_eq_ok.1 h
  cases h
  have hp := expect_eq_ok.1 hp
  obtain ⟨p', hp', hpr, -⟩ := exists_pruned s.grammar
  cases hp.symm.trans hp'
  refine commit_unless ⟨rfl, Action.noConfusion⟩ (isEdit_pruned hp) (becomes_pruned hp)
    hpr.start_eq fun hc ↦ ?_
  refine agrees_eq_false_of_pruned hp ?_
  rwa [Bool.and_eq_false_iff, List.isEmpty_eq_false_iff, List.isEmpty_eq_false_iff] at hc

theorem eliminateEpsilon {fresh : Symbol} {nullable : List Symbol} (hg : s.grammar.IsLegal)
    (hf : fresh ∉ s.grammar) (h : s.eliminateEpsilon fresh = .ok (t, nullable)) :
    Reports .epsilon (s.introduceStart fresh) t := by
  rw [eliminateEpsilon_eq] at h
  obtain ⟨⟨u, n⟩, hu, h⟩ := bind_eq_ok.1 h
  obtain ⟨x, hx, h⟩ := bind_eq_ok.1 h
  cases h
  have hu' : u.grammar = s.grammar.withFront fresh :=
    (grammar_of_findNullable hu).trans (grammar_commit ..)
  have hk := keepEpsilon (hu' ▸ hg.epsilon_not_mem_withFront hf) s.grammar.start n
  exact (((findNullable hu).trans hk).trans (expand _ n)).trans (pruneEmpty hx)

theorem findUnitClosure {c : UnitClosure} (h : s.findUnitClosure = .ok (t, c)) :
    Reports .unit s t := by
  obtain ⟨closure, -, h⟩ := bind_eq_ok.1 h
  cases h
  refine note fun a ha ↦ ?_
  obtain ⟨v, -, hv⟩ := List.mem_filterMap.1 ha
  dsimp only at hv
  split at hv
  · cases hv
    exact ⟨rfl, Action.noConfusion⟩
  · exact nomatch hv

theorem copyBodies (c : UnitClosure) (s : Session) (v : Symbol) :
    Reports .unit s (s.copyBodies c v) := by
  unfold Session.copyBodies
  split
  · exact refl _ s
  · rename_i hne
    exact commit ⟨rfl, Action.noConfusion⟩ (isEdit_extend ..) (becomes_extend ..) start_extend
      (agrees_eq_false_of_news hne)

theorem removeUnits (s : Session) (v : Symbol) : Reports .unit s (s.removeUnits v) := by
  -- each unit production is still there when its turn comes, as only others have gone
  have hremove : ∀ (ws : List Symbol) (s : Session), ws.Nodup →
      (∀ w ∈ ws, [w] ∈ s.grammar.bodies v) →
      Reports .unit s
        (ws.foldl (fun s w ↦ s.commit (s.grammar.remove v [w]) .removeUnit [v, w] [] [⟨v, [w]⟩])
          s) := by
    intro ws
    induction ws with
    | nil => exact fun s _ _ ↦ refl _ s
    | cons w ws ih =>
      intro s hws hb
      rw [List.nodup_cons] at hws
      rw [List.forall_mem_cons] at hb
      have hc :
          Reports .unit s (s.commit (s.grammar.remove v [w]) .removeUnit [v, w] [] [⟨v, [w]⟩]) :=
        commit ⟨rfl, Action.noConfusion⟩ (isEdit_remove hb.1) (.of_changes (.remove hb.1)) rfl
          ((isEdit_remove hb.1).agrees_eq_false List.mem_cons_self)
      refine hc.trans (ih _ hws.2 fun x hx ↦ ?_)
      rw [grammar_commit, mem_bodies_remove]
      refine ⟨hb.2 x hx, fun _ he ↦ hws.1 ?_⟩
      rwa [← List.singleton_inj.1 he]
  refine hremove _ s ?_ fun w hw ↦ ?_
  · refine (Rules.nodup_bodies _ v).filterMap fun b c w hb hc ↦ ?_
    rw [Option.mem_def, Body.unit?_eq_some] at hb hc
    rw [hb.1, hc.1]
  · obtain ⟨b, hb, hw⟩ := List.mem_filterMap.1 hw
    rw [Body.unit?_eq_some] at hw
    exact hw.1 ▸ hb

theorem expandStart {b : Body} (hb : b ∈ s.grammar.bodies v) (hs : s.grammar.start ∈ b) :
    Ends (HaltsIn .unit s) (s.expandStart v b) fun t ↦
      Reports .unit s t ∧ ∀ d ∈ s.grammar.bodies v, d ≠ b → d ∈ t.grammar.bodies v := by
  unfold Session.expandStart
  dsimp only
  split
  · exact haltsIn_halt ..
  · rename_i hr
    -- the bodies that come for `b` are without the start, so `b` is none of them
    have hnot :
        b ∉ (s.grammar.remove v b).news v
        (b.substitutions s.grammar.start s.grammar.startReplacements) := by
      intro hn
      exact Body.not_mem_of_mem_substitutions (fun r hr ↦ (mem_startReplacements.1 hr).2.2)
        (mem_news.1 hn).1 hs
    have hedit := (isEdit_remove hb).append_added (isEdit_extend _ v _) fun p hp hq ↦ by
      obtain rfl := List.mem_singleton.1 hp
      obtain ⟨c, hc, he⟩ := List.mem_map.1 hq
      cases he
      exact hnot hc
    have hbecomes :=
      fun bs ↦ (Becomes.of_changes (.remove hb)).trans (becomes_extend (s.grammar.remove v b) v bs)
    refine ⟨commit ⟨rfl, Action.noConfusion⟩ hedit (hbecomes _) rfl
      (hedit.agrees_eq_false List.mem_cons_self), fun d hd hne ↦ ?_⟩
    rw [grammar_commit, mem_bodies_extend, mem_bodies_remove]
    exact .inl ⟨hd, fun _ ↦ hne⟩

theorem protectStart (s : Session) : Ends (HaltsIn .unit s) s.protectStart (Reports .unit s) := by
  have hstep : ∀ u : Session, True → ∀ v, Ends (HaltsIn .unit u)
      (((u.grammar.bodies v).filter (u.grammar.start ∈ ·)).foldlM (Session.expandStart v) u) fun x ↦
        True ∧ Reports .unit u x := by
    intro u _ v
    apply (foldlM_bodies (T := id) (I := fun i : Session ↦ i.grammar.start = u.grammar.start)
      (fun i hi b hb hbi ↦ ?_) ((Rules.nodup_bodies _ v).filter _)
      (fun b hb ↦ (List.mem_filter.1 hb).1) rfl).mono
    · exact fun x hx ↦ ⟨trivial, hx.2⟩
    · have hs := (List.mem_filter.1 hb).2
      rw [decide_eq_true_eq, ← hi] at hs
      exact (expandStart hbi hs).mono fun j ⟨hr, hk⟩ ↦ ⟨hr.follows.1.trans hi, hr, hk⟩
  apply (foldlM (T := id) (fun u hu v _ ↦ hstep u hu v) trivial).mono
  exact fun x hx ↦ hx.2

theorem dropUnproductive (h : s.dropUnproductive = .ok t) : Reports .unit s t := by
  obtain ⟨productive, -, h⟩ := bind_eq_ok.1 h
  obtain ⟨p, hp, h⟩ := bind_eq_ok.1 h
  cases h
  have hp := expect_eq_ok.1 hp
  obtain ⟨p', hp', hpr, -⟩ :=
    exists_pruned (s.grammar.restrict (· ∉ s.grammar.sortedHeads.filter fun v ↦
    v ≠ s.grammar.start && v ∉ productive))
  cases hp.symm.trans hp'
  let dropped := s.grammar.sortedHeads.filter fun v ↦ v ≠ s.grammar.start && v ∉ productive
  have hedit : s.grammar.IsEdit [] (dropped.flatMap s.grammar.productionsOf ++ p.removed)
      p.grammar := by
    refine (isEdit_restrict fun v hv ↦ ?_).append_removed (isEdit_pruned hp)
    rw [decide_eq_false_iff_not, not_not]
  have hbecomes := (becomes_restrict s.grammar _).trans (becomes_pruned hp)
  refine commit_unless ⟨rfl, Action.noConfusion⟩ hedit hbecomes hpr.start_eq fun hc ↦ ?_
  simp only [Bool.and_eq_false_iff, List.isEmpty_eq_false_iff_exists_mem] at hc
  rcases hc with (⟨v, hv⟩ | ⟨v, hv⟩) | ⟨q, hq⟩
  · have hm := mem_sortedHeads.1 (List.mem_filter.1 hv).1
    exact agrees_eq_false_of_mem hm fun h ↦ of_decide_eq_true (mem_restrict.1 (hpr.mem v h)).2 hv
  · obtain ⟨hm, hn⟩ := mem_of_mem_dropped hp v hv
    exact agrees_eq_false_of_mem (mem_restrict.1 hm).1 hn
  · exact hedit.agrees_eq_false (List.mem_append_right _ hq)

theorem dropUnreachable (s : Session) : Reports .unit s s.dropUnreachable := by
  unfold Session.dropUnreachable
  dsimp only
  split
  · exact refl _ s
  · rename_i hne
    refine commit ⟨rfl, Action.noConfusion⟩ (isEdit_restrict fun v hv ↦ ?_) (becomes_restrict ..)
      start_restrict ?_
    · rw [decide_eq_false_iff_not, not_not]
    · obtain ⟨v, hv⟩ := List.exists_mem_of_ne_nil _ hne
      have hm := mem_sortedHeads.1 (List.mem_filter.1 hv).1
      exact agrees_eq_false_of_mem hm fun h ↦ of_decide_eq_true (mem_restrict.1 h).2 hv

theorem eliminateUnits (h : s.eliminateUnits = .ok t) : Reports .unit s t := by
  obtain ⟨⟨u, c⟩, hu, h⟩ := bind_eq_ok.1 h
  obtain ⟨x, hx, h⟩ := bind_eq_ok.1 h
  obtain ⟨y, hy, h⟩ := bind_eq_ok.1 h
  cases h
  have hc : Reports .unit u (u.grammar.sortedHeads.foldl (Session.copyBodies c) u) :=
    foldl fun t v _ ↦ copyBodies c t v
  have hr : ∀ (l : List Symbol) (s : Session), Reports .unit s (l.foldl Session.removeUnits s) :=
    fun l s ↦ foldl fun t v _ ↦ removeUnits t v
  have hp := (protectStart _).of_ok hx
  exact (((((findUnitClosure hu).trans hc).trans (hr _ _)).trans hp).trans
    (dropUnproductive hy)).trans (dropUnreachable y)

end Reports

end Session

def Session.Gathers (stage : Stage) (s t : Session) : Prop :=
  s.Reports stage t ∧ ∀ v, ∀ b ∈ s.grammar.bodies v, b ∈ t.grammar.bodies v

namespace Session.Gathers

variable {s t u : Session} {stage : Stage}

theorem refl (stage : Stage) (s : Session) : s.Gathers stage s := ⟨.refl stage s, fun _ _ hb ↦ hb⟩

theorem trans (h : s.Gathers stage t) (h' : t.Gathers stage u) : s.Gathers stage u :=
  ⟨h.1.trans h'.1, fun v b hb ↦ h'.2 v b (h.2 v b hb)⟩

theorem commitProduction {p : Production} {action : Action} (ha : action.Continues stage) :
    s.Gathers stage (s.commitProduction p action) :=
  ⟨.commitProduction ha, fun _ _ hb ↦ mem_bodies_commitProduction.2 (.inl hb)⟩

end Session.Gathers

namespace Isolation

variable {i j : Isolation} {v x : Symbol} {a : String} {b c : Body}

def IsProper (i : Isolation) : Prop := ∀ e ∈ i.helpers, e.2.isVar = true

theorem gathers_helperFor (hi : i.IsProper) (a : String) :
    Ends (Session.HaltsIn .terminal i.session) (i.helperFor a) fun r ↦
      r.2.IsProper ∧ i.session.Gathers .terminal r.2.session ∧ r.1.isVar = true := by
  unfold helperFor
  split
  · rename_i hx
    exact ⟨hi, .refl _ _, hi _ (TerminalHelpers.mem_of_lookup hx)⟩
  · split
    · exact Session.Reports.haltsIn_halt ..
    · refine ⟨List.forall_mem_append.2 ⟨hi, List.forall_mem_singleton.2 rfl⟩, ?_, rfl⟩
      exact .commitProduction ⟨rfl, Action.noConfusion⟩

theorem gathers_isolate (hi : i.IsProper) (b : Body) :
    Ends (Session.HaltsIn .terminal i.session) (i.isolate b) fun r ↦
      r.2.IsProper ∧ i.session.Gathers .terminal r.2.session ∧ ∀ t, .terminal t ∉ r.1 := by
  induction b generalizing i with
  | nil => exact ⟨hi, .refl _ _, fun _ ↦ List.not_mem_nil⟩
  | cons r b ih =>
    have keep : (∀ t, r ≠ .terminal t) → Ends (Session.HaltsIn .terminal i.session)
        (i.isolate b >>= fun p ↦ .ok (r :: p.1, p.2)) fun q ↦
          q.2.IsProper ∧ i.session.Gathers .terminal q.2.session ∧ ∀ t, .terminal t ∉ q.1 := by
      intro hr
      apply (ih hi).bind
      intro ⟨d, k⟩ ⟨hk, hg, hnot⟩
      exact ⟨hk, hg, fun t ht ↦ (List.mem_cons.1 ht).elim (fun he ↦ hr t he.symm) (hnot t)⟩
    cases r with
    | terminal a =>
      apply (gathers_helperFor hi a).bind
      intro ⟨x, k⟩ ⟨hk, hg, hvar⟩
      apply (hg.1.ends (ih hk)).bind
      intro ⟨d, m⟩ ⟨hm, hg', hnot⟩
      refine ⟨hm, hg.trans hg', fun t ht ↦ ?_⟩
      rcases List.mem_cons.1 ht with rfl | ht
      · exact nomatch hvar
      · exact hnot t ht
    | var name => exact keep fun _ ↦ nofun
    | epsilon => exact keep fun _ ↦ nofun
    | foreign t => exact keep fun _ ↦ nofun

theorem reports_body (hi : i.IsProper) (hb : b ∈ i.session.grammar.bodies v) :
    Ends (Session.HaltsIn .terminal i.session) (body v i b) fun j ↦ j.IsProper ∧
      i.session.Reports .terminal j.session ∧
        ∀ d ∈ i.session.grammar.bodies v, d ≠ b → d ∈ j.session.grammar.bodies v := by
  unfold body
  split
  · exact ⟨hi, .refl _ _, fun d hd _ ↦ hd⟩
  · rename_i hguard
    apply (gathers_isolate hi b).bind
    intro ⟨c, k⟩ ⟨hk, hg, hnot⟩
    -- the isolated body has no terminal, so it is not the body that it replaces
    have hne : b ≠ c := by
      rintro rfl
      rw [Bool.or_eq_true, not_or, List.isEmpty_iff] at hguard
      obtain ⟨t, ht⟩ := List.exists_mem_of_ne_nil _ hguard.2
      obtain ⟨r, hr, hrt⟩ := List.mem_filterMap.1 ht
      cases r with
      | terminal t => exact hnot t hr
      | var name => exact nomatch hrt
      | epsilon => exact nomatch hrt
      | foreign t => exact nomatch hrt
    have hold := hg.2 v b hb
    have hedit := isEdit_replace hold hne
    have hc := hedit.agrees_eq_false List.mem_cons_self
    have hbecomes := Becomes.of_changes (.replace hold hne)
    refine ⟨hk, hg.1.trans (.commit ⟨rfl, Action.noConfusion⟩ hedit hbecomes start_replace hc),
      fun d hd hdb ↦ ?_⟩
    rw [Session.grammar_commit, mem_bodies_replace hold hne]
    exact .inr ⟨hg.2 v d hd, hdb⟩

end Isolation

namespace Cascade

variable {c d : Cascade} {v : Symbol} {b : Body}

theorem reports_split {s : Session} {short : Body} (hb : b ∈ s.grammar.bodies v)
    (hl : short.length < b.length) :
    s.Reports .cascade (split s v b short) ∧
      ∀ d ∈ s.grammar.bodies v, d ≠ b → d ∈ (split s v b short).grammar.bodies v := by
  have hne : b ≠ short := by
    rintro rfl
    exact absurd hl (Nat.lt_irrefl _)
  have hedit := isEdit_replace hb hne
  have hbecomes := Becomes.of_changes (.replace hb hne)
  refine ⟨.commit ⟨rfl, Action.noConfusion⟩ hedit hbecomes start_replace
    (hedit.agrees_eq_false List.mem_cons_self), fun d hd hdb ↦ ?_⟩
  rw [split, Session.grammar_commit, mem_bodies_replace hb hne]
  exact .inr ⟨hd, hdb⟩

theorem gathers_addLinks (s : Session) (ps : List Production) :
    s.Gathers .cascade (ps.foldl (·.commitProduction · .addBinaryRule) s) := by
  induction ps generalizing s with
  | nil => exact .refl _ s
  | cons p ps ih =>
    have hp : s.Gathers .cascade (s.commitProduction p .addBinaryRule) :=
      .commitProduction ⟨rfl, Action.noConfusion⟩
    exact hp.trans (ih _)

theorem length_short (first : Symbol) (helpers : List Symbol) :
    (first :: helpers.head?.toList).length ≤ 2 := by
  cases helpers with
  | nil => exact Nat.le_succ 1
  | cons h hs => exact Nat.le_refl 2

theorem reports_body (hb : b ∈ c.session.grammar.bodies v) :
    Ends (Session.HaltsIn .cascade c.session) (body v c b) fun d ↦
    c.session.Reports .cascade d.session ∧
      ∀ e ∈ c.session.grammar.bodies v, e ≠ b → e ∈ d.session.grammar.bodies v := by
  unfold body
  split
  · rename_i first second third rest
    have hl : ∀ helpers : List Symbol,
        (first :: helpers.head?.toList).length < (first :: second :: third :: rest).length := by
      intro helpers
      have hs := length_short first helpers
      simp only [List.length_cons] at hs ⊢
      omega
    dsimp only
    split
    · rename_i helpers hcache
      let s :=
        c.session.emit (.reuseHelpers (first :: second :: third :: rest)) (v :: helpers) [] []
      have hs : c.session.Reports .cascade s := .emit ⟨rfl, Action.noConfusion⟩ (.refl _)
      have hgs : s.grammar = c.session.grammar := Session.grammar_emit ..
      have hsplit := reports_split (hgs ▸ hb) (hl helpers)
      exact ⟨hs.trans hsplit.1, fun e he hne ↦ hsplit.2 e (hgs ▸ he) hne⟩
    · split
      · exact Session.Reports.haltsIn_halt ..
      · rename_i names allocator ha
        let s := c.session.emit (.createHelpers v (first :: second :: third :: rest))
          (v :: names.map .var) [] []
        have hs : c.session.Reports .cascade s := .emit ⟨rfl, Action.noConfusion⟩ (.refl _)
        have hgs : s.grammar = c.session.grammar := Session.grammar_emit ..
        have hsplit := reports_split (hgs ▸ hb) (hl (names.map .var))
        have hlinks :=
          gathers_addLinks (split s v (first :: second :: third :: rest) (first :: (names.map
          Symbol.var).head?.toList)) (chain (second :: third :: rest) (names.map .var))
        exact ⟨(hs.trans hsplit.1).trans hlinks.1,
          fun e he hne ↦ hlinks.2 v e (hsplit.2 e (hgs ▸ he) hne)⟩
  · exact ⟨.refl _ _, fun e he _ ↦ he⟩

end Cascade

namespace Session.Reports

variable {s t : Session} {a a' : Allocator}

theorem isolateTerminals (hv : ∀ v ∈ s.grammar, v.isVar = true) (a : Allocator) :
    Ends (HaltsIn .terminal s) (s.isolateTerminals a) fun r ↦ Reports .terminal s r.1 := by
  have hstart : Isolation.IsProper ⟨s, a, s.grammar.terminalHelpers⟩ := fun e he ↦
    hv _ (s.grammar.terminalHelpers_spec.2 e he).1
  have hstep : ∀ i : Isolation, i.IsProper → ∀ v, Ends (HaltsIn .terminal i.session)
      ((i.session.grammar.bodies v).foldlM (Isolation.body v) i) fun j ↦
        j.IsProper ∧ Reports .terminal i.session j.session :=
    fun i hi v ↦ foldlM_bodies (fun i hi b _ hb ↦ Isolation.reports_body hi hb)
      (Rules.nodup_bodies _ v) (fun b hb ↦ hb) hi
  apply (foldlM (fun i hi v _ ↦ hstep i hi v) hstart).bind
  exact fun i hi ↦ hi.2

theorem cascade (s : Session) (a : Allocator) (cache : CascadeCache) :
    Ends (HaltsIn .cascade s) (s.cascade a cache) fun c ↦ Reports .cascade s c.session := by
  have hstep : ∀ c : Cascade, True → ∀ v, Ends (HaltsIn .cascade c.session)
      ((c.session.grammar.bodies v).foldlM (Cascade.body v) c) fun d ↦ True ∧
      Reports .cascade c.session d.session :=
    fun c _ v ↦ foldlM_bodies (fun c _ b _ hb ↦ (Cascade.reports_body hb).mono fun _ hd ↦
      ⟨trivial, hd⟩) (Rules.nodup_bodies _ v) (fun b hb ↦ hb) trivial
  apply (foldlM (T := Cascade.session) (fun c hc v _ ↦ hstep c hc v) trivial).mono
  exact fun c hc ↦ hc.2

theorem decideFiniteness (s : Session) : Reports .finiteness s s.decideFiniteness.1 := by
  refine note fun a ha ↦ ?_
  rw [List.mem_append, List.mem_map, List.mem_singleton] at ha
  rcases ha with ⟨step, -, rfl⟩ | rfl
  · cases step <;> exact ⟨rfl, Action.noConfusion⟩
  · exact ⟨rfl, Action.noConfusion⟩

end Session.Reports

end ChomskyNormalForm
