import ChomskyNormalForm.Trace.Printer
import Mathlib.Data.List.Chain

namespace ChomskyNormalForm

def Json.withSnapshot (j shot : Json) : Json :=
  match j with
  | object fields => object (putField (string "snapshot") shot fields)
  | j => j

namespace Event

variable {e : Event} {shown : Option Json} {shot : Json}

theorem field?_toJson : (e.toJson shown).field? "snapshot" = shown := by
  cases shown <;> rfl

theorem withSnapshot_toJson : (e.toJson none).withSnapshot shot = e.toJson (some shot) := rfl

end Event

namespace Trace

def fill : Option Json → List Json → List Json
  | _, [] => []
  | last, j :: js =>
    match j.field? "snapshot" with
    | some shot => j :: fill (some shot) js
    | none => last.elim j j.withSnapshot :: fill last js

/-- A trace with the snapshots put in that were left out because they were shown before. -/
def filled : Json → Json
  | .array items => .array (fill none items)
  | j => j

variable {encode : Grammar → Json} {d e : Event} {es : List Event} {before : Option Nat}

/-- Snapshots that are one and the same show one grammar. -/
def IsConsistent (es : List Event) : Prop :=
  ∀ d ∈ es, ∀ e ∈ es, d.snapshot.serial = e.snapshot.serial →
    d.snapshot.grammar = e.snapshot.grammar

theorem IsConsistent.of_cons (h : IsConsistent (d :: es)) : IsConsistent es :=
  fun e he f hf ↦ h e (List.mem_cons_of_mem d he) f (List.mem_cons_of_mem d hf)

theorem fill_shown_after (h : IsConsistent (d :: es)) :
    fill (some (encode d.snapshot.grammar))
      ((shown .delta (some d.snapshot.serial) es).map fun (e, g) ↦ e.toJson (g.map encode)) =
    (shown .full (some d.snapshot.serial) es).map fun (e, g) ↦ e.toJson (g.map encode) := by
  induction es generalizing d with
  | nil => rfl
  | cons e es ih =>
    have hrest := ih h.of_cons
    rw [shown, shown, List.map_cons, List.map_cons, fill, Event.field?_toJson]
    by_cases hs : d.snapshot.serial = e.snapshot.serial
    · have hg := h d List.mem_cons_self e (List.mem_cons_of_mem d List.mem_cons_self) hs
      simp [hs, hg, hrest, Event.withSnapshot_toJson]
    · simp [hs, hrest]

theorem filled_toJson (h : IsConsistent es) :
    filled (toJson encode .delta es) = toJson encode .full es := by
  cases es with
  | nil => rfl
  | cons e es =>
    rw [toJson, toJson, filled, shown, shown, List.map_cons, List.map_cons, fill,
      Event.field?_toJson]
    simp [fill_shown_after h]

theorem length_shown (mode : SnapshotMode) : (shown mode before es).length = es.length := by
  induction es generalizing before with
  | nil => rfl
  | cons e es ih => simp [shown, ih]

theorem getElem?_shown {i : ℕ} (hd : es[i]? = some d) (he : es[i + 1]? = some e) :
    (shown .delta before es)[i + 1]? =
      some (e, if d.snapshot.serial ≠ e.snapshot.serial then some e.snapshot.grammar
        else none) := by
  induction es generalizing before i with
  | nil => exact nomatch hd
  | cons c es ih =>
    rw [shown, List.getElem?_cons_succ]
    rw [List.getElem?_cons_succ] at he
    cases i with
    | succ i => exact ih hd he
    | zero =>
      obtain rfl : c = d := Option.some.inj hd
      cases es with
      | nil => exact nomatch he
      | cons f es =>
        obtain rfl : f = e := Option.some.inj he
        rw [shown, List.getElem?_cons_zero]
        simp

/-- Two events in a row have snapshots of their own if and only if they show different grammars. -/
def IsTerse (es : List Event) : Prop :=
  es.IsChain fun d e ↦ d.snapshot.serial ≠ e.snapshot.serial ↔
    e.snapshot.grammar.agrees d.snapshot.grammar = false

/-- In a terse trace a grammar is written down exactly when it is not the one before. -/
theorem IsTerse.exists_items (h : IsTerse es) (encode : Grammar → Json) :
    ∃ items, toJson encode .delta es = .array items ∧ items.length = es.length ∧
      ∀ i d e j, es[i]? = some d → es[i + 1]? = some e → items[i + 1]? = some j →
        ((j.field? "snapshot").isSome ↔ e.snapshot.grammar.agrees d.snapshot.grammar = false) := by
  refine ⟨_, rfl, by rw [List.length_map, length_shown], fun i d e j hd he hj ↦ ?_⟩
  rw [List.getElem?_map, getElem?_shown hd he, Option.map_some] at hj
  obtain rfl := Option.some.inj hj
  obtain ⟨hi, rfl⟩ := List.getElem?_eq_some_iff.1 he
  obtain ⟨-, rfl⟩ := List.getElem?_eq_some_iff.1 hd
  rw [← List.isChain_iff_getElem.1 h i hi, Event.field?_toJson, Option.isSome_map]
  split
  · rename_i hne
    exact iff_of_true rfl hne
  · rename_i heq
    exact iff_of_false nofun heq

structure IsFaithful (es : List Event) : Prop where
  consistent : IsConsistent es
  terse : IsTerse es

theorem IsFaithful.concat (h : IsFaithful es)
    (hs : ∀ d ∈ es, d.snapshot.serial = e.snapshot.serial → d.snapshot.grammar = e.snapshot.grammar)
    (ht : ∀ d ∈ es.getLast?,
      (d.snapshot.serial ≠ e.snapshot.serial ↔
        e.snapshot.grammar.agrees d.snapshot.grammar = false)) :
    IsFaithful (es ++ [e]) where
  consistent := by
    simp only [IsConsistent, List.forall_mem_append, List.forall_mem_singleton, true_implies]
    exact ⟨fun d hd ↦ ⟨h.consistent d hd, hs d hd⟩, fun d hd he ↦ (hs d hd he.symm).symm, trivial⟩
  terse := by
    rw [IsTerse, List.isChain_append]
    exact ⟨h.terse, List.isChain_singleton e, fun d hd f hf ↦ Option.some.inj hf ▸ ht d hd⟩

end Trace

end ChomskyNormalForm
