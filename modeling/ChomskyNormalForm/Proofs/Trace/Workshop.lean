import ChomskyNormalForm.Proofs.Trace.Delta
import ChomskyNormalForm.Proofs.Trace.Editor

namespace ChomskyNormalForm

structure Workshop where
  shots : List RawSnapshot
  tables : List ProductionTable
  trace : Trace

/-- What can be done in a workshop: a grammar or a table is made, a table is made of a grammar or
worked on, or either is shown in the trace. -/
inductive Deed where
  | newGrammar (g : Grammar)
  | newTable (start : Symbol) (rules : List (Symbol × List Body))
  | edit (shot : Nat)
  | work (table : Nat) (op : TableOp)
  | showGrammar (shot : Nat) (action : Action) (vars : List Symbol)
      (added removed : List Production)
  | showTable (table : Nat) (action : Action) (vars : List Symbol) (added removed : List Production)

namespace Workshop

def empty : Workshop := ⟨[], [], .empty⟩

/-- Whoever asks for a grammar or a table that is not there asks for nothing. -/
def act (w : Workshop) : Deed → Except Fault Workshop
  | .newGrammar g =>
    .ok ⟨⟨w.trace.supply, g.raw⟩ :: w.shots, w.tables,
      { w.trace with supply := w.trace.supply + 1 }⟩
  | .newTable start rules => .ok { w with tables := .new start rules :: w.tables }
  | .edit i => .ok <| w.shots[i]?.elim w fun s ↦ { w with tables := .edit s :: w.tables }
  | .work i op => w.tables[i]?.elim (.ok w) fun t ↦ do
    let (answer, e) ← (Editor.mk t w.trace.supply).step op
    return ⟨answer.frozen?.toList ++ w.shots, w.tables.set i e.table,
      { w.trace with supply := e.supply }⟩
  | .showGrammar i action vars added removed => .ok <| w.shots[i]?.elim w fun s ↦
    { w with trace := w.trace.record s action vars added removed }
  | .showTable i action vars added removed => .ok <| w.tables[i]?.elim w fun t ↦
    let (trace, u) := w.trace.recordTable t action vars added removed
    ⟨(t.freeze w.trace.supply).1 :: w.shots, w.tables.set i u, trace⟩

def run (w : Workshop) (deeds : List Deed) : Except Fault Workshop := deeds.foldlM act w

/-- Every snapshot has been made once, and under a number of its own; the next one will have the
number `n`. -/
structure IsStore (shots : List RawSnapshot) (n : ℕ) : Prop where
  eq_of_serial : ∀ s ∈ shots, ∀ s' ∈ shots, s.serial = s'.serial → s = s'
  serial_lt : ∀ s ∈ shots, s.serial < n
  exists_raw : ∀ s ∈ shots, ∃ g : Grammar, s.grammar = g.raw

def Fits (shots : List RawSnapshot) (t : ProductionTable) : Prop :=
  (∃ g, t.Holds g) ∧ ∀ s ∈ t.snapshot, s ∈ shots

structure IsSound (w : Workshop) : Prop where
  store : IsStore w.shots w.trace.supply
  fits : ∀ t ∈ w.tables, Fits w.shots t
  shown_mem : ∀ e ∈ w.trace.events, ∃ s ∈ w.shots, e.snapshot = s.shown

variable {w w' : Workshop} {t u : ProductionTable} {s : RawSnapshot}
  {shots : List RawSnapshot} {g : Grammar} {i n m : ℕ}

theorem IsStore.cons_new (h : IsStore shots n) (hs : s.serial = n) (hg : s.grammar = g.raw) :
    IsStore (s :: shots) (n + 1) where
  eq_of_serial := by
    have hne : ∀ r ∈ shots, r.serial ≠ s.serial := fun r hr ↦ hs ▸ Nat.ne_of_lt (h.serial_lt r hr)
    simp only [List.forall_mem_cons, true_implies]
    refine ⟨⟨trivial, fun r hr he ↦ absurd he.symm (hne r hr)⟩,
      fun r hr ↦ ⟨fun he ↦ absurd he (hne r hr), ?_⟩⟩
    exact h.eq_of_serial r hr
  serial_lt :=
    List.forall_mem_cons.2 ⟨hs ▸ Nat.lt_succ_self _,
      fun r hr ↦ Nat.lt_succ_of_lt (h.serial_lt r hr)⟩
  exists_raw := List.forall_mem_cons.2 ⟨⟨g, hg⟩, h.exists_raw⟩

theorem IsStore.cons_old (h : IsStore shots n) (hs : s ∈ shots) : IsStore (s :: shots) n := by
  have hmem : ∀ r ∈ s :: shots, r ∈ shots := List.forall_mem_cons.2 ⟨hs, fun _ hr ↦ hr⟩
  exact ⟨fun r hr r' hr' ↦ h.eq_of_serial r (hmem r hr) r' (hmem r' hr'),
    fun r hr ↦ h.serial_lt r (hmem r hr), fun r hr ↦ h.exists_raw r (hmem r hr)⟩

theorem IsStore.cons_freeze (h : IsStore shots n) (ht : Fits shots t) (hf : t.Freezes g n s u m) :
    IsStore (s :: shots) m := by
  rcases hf.old_or_new with ⟨hs, rfl⟩ | ⟨-, hs, rfl⟩
  · exact h.cons_old (ht.2 s hs)
  · exact h.cons_new hs hf.grammar_eq

theorem Fits.of_freezes (hf : t.Freezes g n s u m) : Fits (s :: shots) u := by
  refine ⟨⟨g, hf.holds⟩, fun r hr ↦ ?_⟩
  rw [hf.snapshot_eq] at hr
  exact Option.some.inj hr ▸ List.mem_cons_self

theorem isSound_empty : empty.IsSound := by
  refine ⟨⟨?_, ?_, ?_⟩, ?_, ?_⟩ <;> simp [empty, Trace.empty]

theorem IsSound.extend (h : w.IsSound) (hs : IsStore w'.shots w'.trace.supply)
    (hsub : w.shots ⊆ w'.shots) (ht : ∀ t ∈ w'.tables, t ∈ w.tables ∨ Fits w'.shots t)
    (he : ∀ e ∈ w'.trace.events, e ∈ w.trace.events ∨ ∃ s ∈ w'.shots, e.snapshot = s.shown) :
    w'.IsSound where
  store := hs
  fits t hm := by
    rcases ht t hm with hm | hf
    · exact ⟨(h.fits t hm).1, fun s hs ↦ hsub ((h.fits t hm).2 s hs)⟩
    · exact hf
  shown_mem e hm := by
    rcases he e hm with hm | hx
    · obtain ⟨s, hs, hes⟩ := h.shown_mem e hm
      exact ⟨s, hsub hs, hes⟩
    · exact hx

theorem IsSound.moves {e : Editor} {op : TableOp} {answer : TableAnswer} (h : w.IsSound)
    (ht : t ∈ w.tables) (hm : (Editor.mk t w.trace.supply).Moves op answer e) : IsSound
      ⟨answer.frozen?.toList ++ w.shots, w.tables.set i e.table,
        { w.trace with supply := e.supply }⟩ := by
  cases hm with
  | @edit _ u ha hu hs =>
    rw [ha, Option.toList_none, List.nil_append]
    refine h.extend h.store (List.Subset.refl _) (fun r hr ↦ ?_) fun e he ↦ .inl he
    refine (List.mem_or_eq_of_mem_set hr).imp_right fun he ↦ ?_
    subst he
    refine ⟨hu, fun s hsu ↦ ?_⟩
    rw [hs] at hsu
    split at hsu
    · exact (h.fits t ht).2 s hsu
    · exact nomatch hsu
  | @freeze g s u n hf =>
    refine h.extend (h.store.cons_freeze (h.fits t ht) hf) (List.subset_cons_self s _)
      (fun r hr ↦ ?_) fun e he ↦ .inl he
    exact (List.mem_or_eq_of_mem_set hr).imp_right fun (he : r = _) ↦ he ▸ .of_freezes hf

/-- A grammar that is shown adds one event, with the grammar as it was made. -/
theorem act_showGrammar (hs : w.shots[i]? = some s) (action : Action) (vars : List Symbol)
    (added removed : List Production) : w.act (.showGrammar i action vars added removed) =
      .ok ⟨w.shots, w.tables, w.trace.events.push ⟨action, vars, added, removed, s.shown⟩,
        w.trace.supply⟩ := by
  rw [act, hs]
  rfl

/-- A table that is shown adds one event, with the grammar that it holds then. -/
theorem act_showTable (ht : w.tables[i]? = some t) (hg : t.Holds g) (action : Action)
    (vars : List Symbol) (added removed : List Production) :
    ∃ s u n, t.Freezes g w.trace.supply s u n ∧
      w.act (.showTable i action vars added removed) = .ok ⟨s :: w.shots, w.tables.set i u,
        w.trace.events.push ⟨action, vars, added, removed, ⟨s.serial, g⟩⟩, n⟩ := by
  have hf := hg.freezes w.trace.supply
  refine ⟨_, _, _, hf, ?_⟩
  rw [act, ht, ← hf.shown_eq]
  rfl

theorem IsSound.act (h : w.IsSound) (d : Deed) : ∃ w', w.act d = .ok w' ∧ w'.IsSound := by
  cases d with
  | newGrammar g =>
    exact ⟨_, rfl, h.extend (h.store.cons_new rfl rfl) (List.subset_cons_self ..)
      (fun t ht ↦ .inl ht) fun e he ↦ .inl he⟩
  | newTable start rules =>
    obtain ⟨g, hg, hs⟩ := ProductionTable.exists_holds_new start rules
    refine ⟨_, rfl, h.extend h.store (List.Subset.refl _)
      (List.forall_mem_cons.2 ⟨.inr ⟨⟨g, hg⟩, ?_⟩, ?_⟩) fun e he ↦ .inl he⟩
    · rw [hs]
      exact nofun
    · exact fun t ht ↦ .inl ht
  | edit i =>
    refine ⟨_, rfl, ?_⟩
    cases hi : w.shots[i]? with
    | none => exact h
    | some s =>
      have hs := List.mem_of_getElem? hi
      obtain ⟨g, hg⟩ := h.store.exists_raw s hs
      refine h.extend h.store (List.Subset.refl _) (List.forall_mem_cons.2 ⟨.inr ⟨⟨g, ?_⟩, ?_⟩, ?_⟩)
        fun e he ↦ .inl he
      · obtain ⟨serial, raw⟩ := s
        obtain rfl : raw = g.raw := hg
        exact ProductionTable.holds_edit serial g
      · exact fun s' hs' ↦ Option.some.inj hs' ▸ hs
      · exact fun t ht ↦ .inl ht
  | work i op =>
    rw [Workshop.act]
    cases hi : w.tables[i]? with
    | none => exact ⟨w, rfl, h⟩
    | some t =>
      have ht := List.mem_of_getElem? hi
      obtain ⟨g, hg⟩ := (h.fits t ht).1
      obtain ⟨answer, e, hstep, hm⟩ := Editor.exists_moves (e := ⟨t, w.trace.supply⟩) hg op
      refine ⟨_, ?_, h.moves (i := i) ht hm⟩
      rw [Option.elim_some, hstep]
      rfl
  | showGrammar i action vars added removed =>
    cases hi : w.shots[i]? with
    | none => exact ⟨w, by rw [Workshop.act, hi]; rfl, h⟩
    | some s =>
      refine ⟨_, act_showGrammar hi .., h.extend h.store (List.Subset.refl _) (fun t ht ↦ .inl ht)
        fun e he ↦ ?_⟩
      exact (Array.mem_push.1 he).imp_right fun he ↦
        ⟨s, List.mem_of_getElem? hi, congrArg Event.snapshot he⟩
  | showTable i action vars added removed =>
    cases hi : w.tables[i]? with
    | none => exact ⟨w, by rw [Workshop.act, hi]; rfl, h⟩
    | some t =>
      have ht := List.mem_of_getElem? hi
      obtain ⟨g, hg⟩ := (h.fits t ht).1
      obtain ⟨s, u, n, hf, hact⟩ := act_showTable hi hg action vars added removed
      refine ⟨_, hact, h.extend (h.store.cons_freeze (h.fits t ht) hf) (List.subset_cons_self ..)
        (fun r hr ↦ ?_) fun e he ↦ ?_⟩
      · exact (List.mem_or_eq_of_mem_set hr).imp_right fun (he : r = _) ↦ he ▸ .of_freezes hf
      · refine (Array.mem_push.1 he).imp_right fun he ↦ ⟨s, List.mem_cons_self, ?_⟩
        rw [he, hf.shown_eq]

theorem IsSound.run (h : w.IsSound) (deeds : List Deed) :
    ∃ w', w.run deeds = .ok w' ∧ w'.IsSound := by
  induction deeds generalizing w with
  | nil => exact ⟨w, rfl, h⟩
  | cons d deeds ih =>
    obtain ⟨w₁, hact, h₁⟩ := h.act d
    obtain ⟨w', hrest, h'⟩ := ih h₁
    refine ⟨w', ?_, h'⟩
    rw [Workshop.run, List.foldlM_cons, hact]
    exact hrest

theorem IsSound.isConsistent (h : w.IsSound) : Trace.IsConsistent w.trace.events.toList := by
  intro d hd e he hserial
  obtain ⟨s, hs, hds⟩ := h.shown_mem d (Array.mem_toList_iff.1 hd)
  obtain ⟨s', hs', hes⟩ := h.shown_mem e (Array.mem_toList_iff.1 he)
  rw [hds, hes] at hserial ⊢
  rw [h.store.eq_of_serial s hs s' hs' hserial]

end Workshop

end ChomskyNormalForm
