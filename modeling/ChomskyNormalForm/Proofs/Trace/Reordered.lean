import ChomskyNormalForm.Proofs.Allocator
import ChomskyNormalForm.Proofs.Grammar.Reordered
import ChomskyNormalForm.Proofs.Outcome
import ChomskyNormalForm.Proofs.Trace.Helpers
import ChomskyNormalForm.Trace.Printer
import Mathlib.Data.List.Forall2

namespace ChomskyNormalForm

/-- The events say the same, and show grammars that may only differ in their order. -/
structure Event.Reordered (d e : Event) : Prop where
  action_eq : d.action = e.action
  vars_eq : d.vars = e.vars
  added_eq : d.added = e.added
  removed_eq : d.removed = e.removed
  serial_eq : d.snapshot.serial = e.snapshot.serial
  grammar : d.snapshot.grammar.Reordered e.snapshot.grammar

theorem Event.Reordered.toJson_eq {d e : Event} (h : d.Reordered e) : d.toJson = e.toJson := by
  funext shown
  simp only [Event.toJson, h.action_eq, h.vars_eq, h.added_eq, h.removed_eq]

theorem Trace.toJson_eq {es fs : List Event} (h : List.Forall₂ Event.Reordered es fs)
    (mode : SnapshotMode) :
    toJson Grammar.toJson mode es = toJson Grammar.toJson mode fs := by
  have hshown : ∀ before, (shown mode before es).map (fun p ↦ p.1.toJson (p.2.map Grammar.toJson)) =
      (shown mode before fs).map fun p ↦ p.1.toJson (p.2.map Grammar.toJson) := by
    induction h with
    | nil => exact fun _ ↦ rfl
    | cons he _ ih =>
      intro before
      simp only [shown, List.map_cons, he.serial_eq, he.toJson_eq, ih]
      refine congrArg (· :: _) ?_
      cases mode with
      | full => simp [he.grammar.toJson_eq]
      | delta =>
        dsimp only
        split
        · simp only [Option.map_some, he.grammar.toJson_eq]
        · rfl
      | none => rfl
  exact congrArg Json.array (hshown none)

structure Allocator.Alike (a b : Allocator) : Prop where
  used_iff : ∀ n, n ∈ a.used ↔ n ∈ b.used
  cursor_eq : a.cursor = b.cursor
  limit_eq : a.limit = b.limit

theorem firstFree_congr {taken held : NameSet} (h : ∀ n, n ∈ taken ↔ n ∈ held) (f : Nat → String)
    (fuel i : Nat) :
    firstFree f taken fuel i = firstFree f held fuel i := by
  induction fuel generalizing i with
  | zero => rfl
  | succ fuel ih =>
    rw [firstFree, firstFree, ih]
    simp only [h]

theorem freshStart_congr {taken held : NameSet} (h : ∀ n, n ∈ taken ↔ n ∈ held) :
    freshStart taken = freshStart held := by
  rw [freshStart, (Std.TreeSet.Equiv.of_forall_mem_iff h).size_eq, firstFree_congr h, freshStart]

namespace Allocator

variable {a b : Allocator}

theorem alike_new {names more : List String} (h : names.Perm more) (limit : Int) :
    (new names limit).Alike (new more limit) :=
  ⟨fun n ↦ by rw [mem_used_new, mem_used_new, h.mem_iff], rfl, rfl⟩

theorem Alike.reserve (h : a.Alike b) (names : List String) :
    (a.reserve names).Alike (b.reserve names) :=
  ⟨fun n ↦ by rw [mem_used_reserve, mem_used_reserve, h.used_iff], h.cursor_eq, h.limit_eq⟩

theorem Alike.take (h : a.Alike b) (name : String) : (a.take name).2.Alike (b.take name).2 :=
  ⟨fun n ↦ by simp only [Allocator.take, mem_insert_iff, h.used_iff], h.cursor_eq, h.limit_eq⟩

theorem Alike.allocate (h : a.Alike b) :
    Option.Rel (fun p q ↦ p.1 = q.1 ∧ p.2.Alike q.2) a.allocate b.allocate := by
  have hfind : (fun n ↦ decide (n ∉ a.used)) = fun n ↦ decide (n ∉ b.used) :=
    funext fun n ↦ by rw [decide_eq_decide, h.used_iff]
  have hfree : firstFree (numbered "D") a.used (a.limit - a.cursor).toNat a.cursor =
      firstFree (numbered "D") b.used (b.limit - b.cursor).toNat b.cursor := by
    rw [h.limit_eq, h.cursor_eq, firstFree_congr h.used_iff]
  have hmoved : ∀ i, ({ a with cursor := i } : Allocator).Alike { b with cursor := i } :=
    fun i ↦ ⟨h.used_iff, rfl, h.limit_eq⟩
  unfold Allocator.allocate
  rw [hfind, hfree]
  cases letters.find? fun n ↦ decide (n ∉ b.used) with
  | some letter => exact .some ⟨rfl, h.take letter⟩
  | none =>
    cases firstFree (numbered "D") b.used (b.limit - b.cursor).toNat b.cursor with
    | some i => exact .some ⟨rfl, (hmoved (i + 1)).take _⟩
    | none => exact .none

theorem Alike.allocateMany (h : a.Alike b) (n : Nat) :
    Option.Rel (fun p q ↦ p.1 = q.1 ∧ p.2.Alike q.2) (allocateMany n a) (allocateMany n b) := by
  induction n generalizing a b with
  | zero => exact .some ⟨rfl, h⟩
  | succ n ih =>
    have ha := h.allocate
    unfold Allocator.allocateMany
    generalize a.allocate = x, b.allocate = y at ha
    cases ha with
    | none => exact .none
    | @some p q hp =>
      obtain ⟨hname, hrest⟩ := hp
      have hn := ih hrest
      simp only [Option.bind_eq_bind, Option.bind_some]
      generalize Allocator.allocateMany n p.2 = x, Allocator.allocateMany n q.2 = y at hn
      cases hn with
      | none => exact .none
      | @some r s hr => exact .some ⟨congrArg₂ List.cons hname hr.1, hr.2⟩

end Allocator

structure Session.Reordered (s t : Session) : Prop where
  grammar : s.grammar.Reordered t.grammar
  stamp_eq : s.table.stamp = t.table.stamp
  supply_eq : s.trace.supply = t.trace.supply
  events : List.Forall₂ Event.Reordered s.events t.events

def Halt.SameFault (h k : Halt) : Prop := h.fault = k.fault

namespace Session

variable {s t : Session} {g h : Grammar} {action : Action} {vars : List Symbol}
  {added removed : List Production}

theorem reordered_ofGrammar (hg : g.Reordered h) : (ofGrammar g).Reordered (ofGrammar h) :=
  ⟨hg, rfl, rfl, .nil⟩

namespace Reordered

variable (hs : s.Reordered t)

include hs

theorem publish : s.publish.1.serial = t.publish.1.serial ∧
    s.publish.2.table.stamp = t.publish.2.table.stamp ∧
    s.publish.2.trace.supply = t.publish.2.trace.supply := by
  unfold Session.publish
  rw [hs.stamp_eq, hs.supply_eq]
  cases ht : t.table.stamp with
  | some n => exact ⟨rfl, hs.stamp_eq, hs.supply_eq⟩
  | none => exact ⟨rfl, rfl, rfl⟩

theorem emit (action : Action) (vars : List Symbol) (added removed : List Production) :
    (s.emit action vars added removed).Reordered (t.emit action vars added removed) := by
  obtain ⟨hserial, hstamp, hsupply⟩ := hs.publish
  refine ⟨?_, hstamp, hsupply, ?_⟩
  · rw [grammar_emit, grammar_emit]
    exact hs.grammar
  · rw [events_emit, events_emit]
    refine List.rel_append hs.events (.cons ⟨rfl, rfl, rfl, rfl, hserial, ?_⟩ .nil)
    rw [publish_grammar, publish_grammar]
    exact hs.grammar

theorem put (hg : g.Reordered h) : (s.put g).Reordered (t.put h) :=
  ⟨hg, rfl, hs.supply_eq, hs.events⟩

theorem commit (hg : g.Reordered h) (action : Action) (vars : List Symbol)
    (added removed : List Production) :
    (s.commit g action vars added removed).Reordered (t.commit h action vars added removed) :=
  (hs.put hg).emit ..

theorem commit_unless (c : Bool) (hg : g.Reordered h) (action : Action) (vars : List Symbol)
    (added removed : List Production) :
    (if c then s else s.commit g action vars added removed).Reordered
      (if c then t else t.commit h action vars added removed) := by
  split
  · exact hs
  · exact hs.commit hg ..

theorem foldl {α : Type} {f f' : Session → α → Session} (l : List α)
    (step : ∀ s t, s.Reordered t → ∀ a ∈ l, (f s a).Reordered (f' t a)) :
    (l.foldl f s).Reordered (l.foldl f' t) := by
  induction l generalizing s t with
  | nil => exact hs
  | cons a l ih =>
    exact ih (step s t hs a List.mem_cons_self) fun s t hs b hb ↦
      step s t hs b (List.mem_cons_of_mem _ hb)

theorem note (actions : List (Action × List Symbol)) :
    (s.note actions).Reordered (t.note actions) :=
  hs.foldl actions fun _ _ hs a _ ↦ hs.emit a.1 a.2 [] []

theorem commitProduction (p : Production) (action : Action) :
    (s.commitProduction p action).Reordered (t.commitProduction p action) := by
  unfold Session.commitProduction
  rw [hs.grammar.bodies_eq]
  split
  · exact hs.emit ..
  · exact hs.commit (hs.grammar.extend ..) ..

end Reordered

theorem expect_matches (s t : Session) {α β : Type} {R : α → β → Prop} {x : Except Fault α}
    {y : Except Fault β} (h : Matches Eq R x y) :
    Matches Halt.SameFault R (s.expect x) (t.expect y) :=
  h.mapError fun _ _ he ↦ he

end Session

end ChomskyNormalForm
