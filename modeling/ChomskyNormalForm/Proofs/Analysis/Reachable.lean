import ChomskyNormalForm.Proofs.Language.Reach
import Mathlib.Data.List.Perm.Subperm

namespace ChomskyNormalForm

section Explore

variable {α : Type} {next : α → List α} {root : α} {bound : List α}

/-- A search that will have looked at everything before its fuel runs out. -/
structure Exploring (next : α → List α) (root : α) (bound : List α) (fuel : Nat)
    (seen queue : List α) : Prop where
  nodup : seen.Nodup
  root_mem : root ∈ seen
  queued : ∀ a ∈ queue, a ∈ seen
  closed : ∀ a ∈ seen, a ∉ queue → ∀ b ∈ next a, b ∈ seen
  reached : ∀ a ∈ seen, Relation.ReflTransGen (fun a b ↦ b ∈ next a) root a
  within : ∀ a ∈ seen, a ∈ root :: bound
  fuel_le : bound.length + 1 + queue.length ≤ fuel + seen.length

variable {fuel : Nat} {seen queue : List α} {a b : α}

theorem Exploring.mem_iff (h : Exploring next root bound fuel seen []) :
    a ∈ seen ↔ Relation.ReflTransGen (fun a b ↦ b ∈ next a) root a := by
  refine ⟨h.reached a, fun hr ↦ ?_⟩
  induction hr with
  | refl => exact h.root_mem
  | tail _ hb ih => exact h.closed _ ih (by simp) _ hb

theorem Exploring.queue_eq_nil (h : Exploring next root bound 0 seen queue) : queue = [] := by
  have hle : seen.length ≤ (root :: bound).length :=
    (List.subperm_of_subset h.nodup h.within).length_le
  have hf := h.fuel_le
  rw [← List.length_eq_zero_iff]
  simp only [List.length_cons] at hle
  omega

variable [DecidableEq α]

def enqueue (s : List α × List α) (b : α) : List α × List α :=
  if b ∈ s.1 then s else (s.1 ++ [b], s.2 ++ [b])

/-- A search that takes one after the other from the queue until that is empty, however long this
takes. -/
inductive Searches (next : α → List α) : List α × List α → List α → Prop
  | done {seen : List α} : Searches next (seen, []) seen
  | look {seen queue found : List α} {a : α} :
      Searches next ((next a).foldl enqueue (seen, queue)) found →
      Searches next (seen, a :: queue) found

variable [Ord α] [Std.TransOrd α] [Std.LawfulEqOrd α]

theorem foldl_enqueue (l seen queue : List α) : l.foldl enqueue (seen, queue) =
    (seen ++ (distinct l).filter (· ∉ seen), queue ++ (distinct l).filter (· ∉ seen)) := by
  induction l generalizing seen queue with
  | nil => simp [distinct, distinctFrom]
  | cons b l ih =>
    rw [List.foldl_cons, distinct_cons]
    by_cases hb : b ∈ seen
    · have henqueue : enqueue (seen, queue) b = (seen, queue) := if_pos hb
      have hne : ∀ c, (decide (c ∉ seen) && decide (c ≠ b)) = decide (c ∉ seen) := by
        intro c
        by_cases hc : c = b
        · simp [hc, hb]
        · simp [hc]
      rw [henqueue, ih, List.filter_cons_of_neg (by simpa using hb), List.filter_filter]
      simp only [hne]
    · have henqueue : enqueue (seen, queue) b = (seen ++ [b], queue ++ [b]) := if_neg hb
      have hor : ∀ c, decide (c ∉ seen ++ [b]) = (decide (c ∉ seen) && decide (c ≠ b)) := by simp
      rw [henqueue, ih, List.filter_cons_of_pos (by simpa using hb), List.filter_filter]
      simp only [hor, List.append_assoc, List.singleton_append]

theorem Exploring.advance (hb : ∀ a, ∀ b ∈ next a, b ∈ bound)
    (h : Exploring next root bound (fuel + 1) seen (a :: queue)) :
    Exploring next root bound fuel (seen ++ (distinct (next a)).filter (· ∉ seen))
      (queue ++ (distinct (next a)).filter (· ∉ seen)) := by
  have hfound : ∀ b, b ∈ (distinct (next a)).filter (· ∉ seen) ↔ b ∈ next a ∧ b ∉ seen := by simp
  have ha := h.queued a List.mem_cons_self
  constructor
  case nodup =>
    refine List.nodup_append.2 ⟨h.nodup, (nodup_distinct _).filter _, ?_⟩
    intro b hb c hc he
    subst he
    exact ((hfound b).1 hc).2 hb
  case root_mem => exact List.mem_append_left _ h.root_mem
  case queued =>
    intro b hb
    rcases List.mem_append.1 hb with hb | hb
    · exact List.mem_append_left _ (h.queued b (List.mem_cons_of_mem _ hb))
    · exact List.mem_append_right _ hb
  case closed =>
    intro b hb hq c hc
    rw [List.mem_append, not_or] at hq
    by_cases hc' : c ∈ seen
    · exact List.mem_append_left _ hc'
    · rcases List.mem_append.1 hb with hb | hb
      · by_cases hba : b = a
        · subst hba
          exact List.mem_append_right _ ((hfound c).2 ⟨hc, hc'⟩)
        · exact absurd (h.closed b hb (by simp [hba, hq.1]) c hc) hc'
      · exact absurd hb hq.2
  case reached =>
    intro b hb
    rcases List.mem_append.1 hb with hb | hb
    · exact h.reached b hb
    · exact (h.reached a ha).tail ((hfound b).1 hb).1
  case within =>
    intro b hbs
    rcases List.mem_append.1 hbs with hbs | hbs
    · exact h.within b hbs
    · exact List.mem_cons_of_mem _ (hb a b ((hfound b).1 hbs).1)
  case fuel_le =>
    have hf := h.fuel_le
    simp only [List.length_cons, List.length_append] at hf ⊢
    omega

/-- The fuel lasts until the queue is empty. -/
theorem Exploring.ends (hb : ∀ a, ∀ b ∈ next a, b ∈ bound)
    (h : Exploring next root bound fuel seen queue) :
    ∃ rest, Exploring next root bound rest (explore next fuel seen queue) [] ∧
      Searches next (seen, queue) (explore next fuel seen queue) := by
  induction fuel generalizing seen queue with
  | zero =>
    obtain rfl := h.queue_eq_nil
    exact ⟨0, h, .done⟩
  | succ fuel ih =>
    cases queue with
    | nil => exact ⟨fuel + 1, h, .done⟩
    | cons a queue =>
      obtain ⟨rest, hrest, hs⟩ := ih (h.advance hb)
      refine ⟨rest, hrest, .look ?_⟩
      rw [foldl_enqueue]
      exact hs

theorem exists_exploring (hb : ∀ a, ∀ b ∈ next a, b ∈ bound) (root : α) :
    ∃ rest, Exploring next root bound rest (explore next (bound.length + 1) [root] [root]) [] ∧
      Searches next ([root], [root]) (explore next (bound.length + 1) [root] [root]) := by
  have start : Exploring next root bound (bound.length + 1) [root] [root] := by
    refine ⟨by simp, by simp, by simp, fun a ha hq ↦ absurd ha hq, fun a ha ↦ ?_, by simp, by simp⟩
    rw [List.mem_singleton.1 ha]
  exact start.ends hb

theorem mem_explore (hb : ∀ a, ∀ b ∈ next a, b ∈ bound) :
    a ∈ explore next (bound.length + 1) [root] [root] ↔
      Relation.ReflTransGen (fun a b ↦ b ∈ next a) root a := by
  obtain ⟨rest, h, -⟩ := exists_exploring hb root
  exact h.mem_iff

end Explore

namespace Grammar

variable {g : Grammar} {u v : Symbol}

theorem mem_reachableFrom : u ∈ g.reachableFrom v ↔ g.Reaches v u := by
  have hb : ∀ a, ∀ b ∈ g.mentions a, b ∈ g.referenced := fun a b h ↦
    mem_referenced.2 ⟨a, mem_mentions.1 h⟩
  rw [reachableFrom, mem_explore hb]
  simp only [mem_mentions]
  rfl

theorem mem_reachable : u ∈ g.reachable ↔ g.Reaches g.start u := mem_reachableFrom

end Grammar

end ChomskyNormalForm
