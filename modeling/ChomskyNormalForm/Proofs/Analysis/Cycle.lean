import ChomskyNormalForm.Analysis.Search
import ChomskyNormalForm.Proofs.Language.Reach
import Mathlib.Data.List.Chain
import Mathlib.Data.List.Nodup

namespace ChomskyNormalForm

/-- A closed path along edges that meets no vertex twice before it closes. -/
def IsCycle (next : Symbol → List Symbol) (c : List Symbol) : Prop :=
  ∃ v l, c = v :: l ++ [v] ∧ (v :: l).Nodup ∧ c.IsChain fun a b ↦ b ∈ next a

namespace CycleSearch

variable {next : Symbol → List Symbol} {heads roots visited : List Symbol}
  {stack : List (Symbol × List Symbol)} {steps : Array SearchStep} {s t : CycleSearch}
  {u v w : Symbol} {ws : List Symbol} {above : Option Symbol}

def spine (stack : List (Symbol × List Symbol)) : List Symbol := stack.map Prod.fst

inductive Moves (next : Symbol → List Symbol) : CycleSearch → CycleSearch → Prop
  | skip {root : Symbol} {roots visited : List Symbol} {steps : Array SearchStep} : root ∈ visited →
      Moves next ⟨root :: roots, visited, [], steps, []⟩ ⟨roots, visited, [], steps, []⟩
  | root {root : Symbol} {roots visited : List Symbol} {steps : Array SearchStep} : root ∉ visited →
      Moves next ⟨root :: roots, visited, [], steps, []⟩
        ⟨roots, root :: visited, [(root, next root)],
          (steps.push (.start root)).push (.visit [root]), []⟩
  | backtrack {v : Symbol} {roots visited : List Symbol} {stack : List (Symbol × List Symbol)}
      {steps : Array SearchStep} : Moves next ⟨roots, visited, (v, []) :: stack, steps, []⟩
        ⟨roots, visited, stack, steps.push (.backtrack v), []⟩
  | close {v w : Symbol} {ws roots visited cycle : List Symbol}
      {stack : List (Symbol × List Symbol)} {steps : Array SearchStep} :
      w ∈ spine ((v, w :: ws) :: stack) →
      cycle = (spine ((v, w :: ws) :: stack)).reverse.dropWhile (· ≠ w) ++ [w] →
      Moves next ⟨roots, visited, (v, w :: ws) :: stack, steps, []⟩
        ⟨roots, visited, (v, w :: ws) :: stack, steps.push (.found cycle), cycle⟩
  | pass {v w : Symbol} {ws roots visited : List Symbol} {stack : List (Symbol × List Symbol)}
      {steps : Array SearchStep} : w ∉ spine ((v, w :: ws) :: stack) → w ∈ visited →
      Moves next ⟨roots, visited, (v, w :: ws) :: stack, steps, []⟩ ⟨roots, visited,
        (v, ws) :: stack, steps, []⟩
  | descend {v w : Symbol} {ws roots visited : List Symbol} {stack : List (Symbol × List Symbol)}
      {steps : Array SearchStep} : w ∉ spine ((v, w :: ws) :: stack) → w ∉ visited →
      Moves next ⟨roots, visited, (v, w :: ws) :: stack, steps, []⟩
        ⟨roots, w :: visited, (w, next w) :: (v, ws) :: stack,
          (steps.push (.explore v w)).push
          (.visit (spine ((w, next w) :: (v, ws) :: stack)).reverse), []⟩

theorem moves_of_move (h : move next s = some t) : Moves next s t := by
  obtain ⟨roots, visited, stack, steps, cycle⟩ := s
  unfold move at h
  split at h
  · exact nomatch h
  · rename_i hc
    obtain rfl : cycle = [] := not_not.1 hc
    match stack, h with
    | [], h =>
      match roots, h with
      | [], h => exact nomatch h
      | root :: roots, h =>
        dsimp only at h
        split at h
        · rename_i hr
          cases h
          exact .skip hr
        · rename_i hr
          cases h
          exact .root hr
    | (v, []) :: stack, h =>
      cases h
      exact .backtrack
    | (v, w :: ws) :: stack, h =>
      dsimp only at h
      split at h
      · rename_i hp
        cases h
        exact .close (List.mem_reverse.1 hp) rfl
      · rename_i hp
        have hp' : w ∉ spine ((v, w :: ws) :: stack) := fun h ↦ hp (List.mem_reverse.2 h)
        split at h
        · rename_i hv
          cases h
          exact .pass hp' hv
        · rename_i hv
          cases h
          exact .descend hp' hv

theorem move_eq_none (h : move next s = none) : s.cycle ≠ [] ∨ s.stack = [] ∧ s.roots = [] := by
  obtain ⟨roots, visited, stack, steps, cycle⟩ := s
  unfold move at h
  split at h
  · rename_i hc
    exact .inl hc
  · match stack, roots, h with
    | [], [], _ => exact .inr ⟨rfl, rfl⟩
    | [], root :: roots, h =>
      dsimp only at h
      split at h <;> exact nomatch h
    | (v, []) :: stack, _, h => exact nomatch h
    | (v, w :: ws) :: stack, _, h =>
      dsimp only at h
      split at h
      · exact nomatch h
      · split at h <;> exact nomatch h

/-- No path along edges goes on from `v` without end. -/
def IsSink (next : Symbol → List Symbol) : Symbol → Prop := Acc fun u v ↦ u ∈ next v

/-- Each variable of the stack has neighbours still to look at, sinks, and the one above it, no
others. -/
def IsFramed (next : Symbol → List Symbol) : Option Symbol → List (Symbol × List Symbol) → Prop
  | _, [] => True
  | above, (v, ws) :: stack =>
    ws ⊆ next v ∧ (∀ u ∈ next v, u ∈ ws ∨ IsSink next u ∨ above = some u) ∧
      IsFramed next (some v) stack

structure Descending (next : Symbol → List Symbol) (heads : List Symbol)
    (s : CycleSearch) : Prop where
  framed : IsFramed next none s.stack
  chain : (spine s.stack).IsChain fun a b ↦ a ∈ next b
  nodup : (spine s.stack).Nodup
  sink : ∀ v ∈ s.visited, v ∈ spine s.stack ∨ IsSink next v
  path : ∀ v ∈ spine s.stack, v ∈ s.visited
  seen : ∀ v ∈ heads, v ∈ s.roots ∨ v ∈ s.visited
  within : ∀ v ∈ s.roots, v ∈ heads
  cycle : s.cycle ≠ [] → IsCycle next s.cycle

theorem Descending.start (next : Symbol → List Symbol) (heads : List Symbol) :
    Descending next heads ⟨heads, [], [], #[], []⟩ :=
  ⟨trivial, .nil, .nil, fun _ hv ↦ absurd hv List.not_mem_nil,
    fun _ hv ↦ absurd hv List.not_mem_nil, fun _ ↦ .inl, fun _ ↦ id, fun hc ↦ absurd rfl hc⟩

theorem exists_dropWhile {l : List Symbol} (hw : w ∈ l) (hl : l.Nodup) :
    ∃ r, l.dropWhile (· ≠ w) = w :: r ∧ (w :: r).Nodup ∧ (w :: r) <:+ l := by
  induction l with
  | nil => exact absurd hw List.not_mem_nil
  | cons u l ih =>
    by_cases hu : u = w
    · subst hu
      exact ⟨l, by simp, hl, List.suffix_refl _⟩
    · obtain ⟨r, hr, hnd, hs⟩ :=
        ih ((List.mem_cons.1 hw).resolve_left (Ne.symm hu)) (List.nodup_cons.1 hl).2
      refine ⟨r, ?_, hnd, hs.trans (List.suffix_cons u l)⟩
      rw [List.dropWhile_cons_of_pos (by simp [hu]), hr]

theorem isCycle_close (hc : (spine ((v, w :: ws) :: stack)).IsChain fun a b ↦ a ∈ next b)
    (hn : (spine ((v, w :: ws) :: stack)).Nodup) (hw : w ∈ spine ((v, w :: ws) :: stack))
    (he : w ∈ next v) :
    IsCycle next ((spine ((v, w :: ws) :: stack)).reverse.dropWhile (· ≠ w) ++ [w]) := by
  obtain ⟨r, hr, hnd, hs⟩ := exists_dropWhile (List.mem_reverse.2 hw) (List.nodup_reverse.2 hn)
  have hchain : ((spine ((v, w :: ws) :: stack)).reverse ++ [w]).IsChain fun a b ↦ b ∈ next a := by
    rw [← List.reverse_cons, List.isChain_reverse]
    exact List.isChain_cons_cons.2 ⟨he, hc⟩
  rw [hr]
  refine ⟨w, r, rfl, hnd, hchain.suffix ?_⟩
  obtain ⟨p, hp⟩ := hs
  exact ⟨p, by rw [← List.append_assoc, hp]⟩

theorem IsFramed.pop (h : IsFramed next none ((v, []) :: stack)) :
    IsSink next v ∧ IsFramed next none stack := by
  obtain ⟨-, hv, hrest⟩ := h
  have hsink : IsSink next v := .intro v fun u hu ↦ by
    rcases hv u hu with hu | hu | hu
    · exact absurd hu List.not_mem_nil
    · exact hu
    · exact nomatch hu
  refine ⟨hsink, ?_⟩
  cases stack with
  | nil => trivial
  | cons f stack =>
    obtain ⟨hws, hu, hrest⟩ := hrest
    refine ⟨hws, fun x hx ↦ ?_, hrest⟩
    rcases hu x hx with hx | hx | hx
    · exact .inl hx
    · exact .inr (.inl hx)
    · cases hx
      exact .inr (.inl hsink)

theorem IsFramed.pass (h : IsFramed next above ((v, w :: ws) :: stack)) (hw : IsSink next w) :
    IsFramed next above ((v, ws) :: stack) := by
  obtain ⟨hws, hu, hrest⟩ := h
  refine ⟨List.Subset.trans (List.subset_cons_self _ _) hws, fun x hx ↦ ?_, hrest⟩
  rcases hu x hx with hx | hx
  · rcases List.mem_cons.1 hx with rfl | hx
    · exact .inr (.inl hw)
    · exact .inl hx
  · exact .inr hx

theorem IsFramed.descend (h : IsFramed next none ((v, w :: ws) :: stack)) :
    IsFramed next none ((w, next w) :: (v, ws) :: stack) := by
  obtain ⟨hws, hu, hrest⟩ := h
  refine ⟨List.Subset.refl _, fun u hu ↦ .inl hu, List.Subset.trans (List.subset_cons_self _ _) hws,
    fun x hx ↦ ?_, hrest⟩
  rcases hu x hx with hx | hx | hx
  · rcases List.mem_cons.1 hx with rfl | hx
    · exact .inr (.inr rfl)
    · exact .inl hx
  · exact .inr (.inl hx)
  · exact nomatch hx

theorem Descending.moves (h : Descending next heads s) (hm : Moves next s t) :
    Descending next heads t := by
  cases hm with
  | skip hr =>
    refine ⟨trivial, .nil, .nil, h.sink, h.path, fun v hv ↦ ?_,
      fun v hv ↦ h.within v (List.mem_cons_of_mem _ hv), fun hc ↦ absurd rfl hc⟩
    rcases h.seen v hv with hv | hv
    · rcases List.mem_cons.1 hv with rfl | hv
      · exact .inr hr
      · exact .inl hv
    · exact .inr hv
  | @root root roots visited steps hr =>
    refine ⟨⟨List.Subset.refl _, fun u hu ↦ .inl hu, trivial⟩, .singleton _, by simp [spine],
      fun v hv ↦ ?_, fun v hv ↦ ?_, fun v hv ↦ ?_, fun v hv ↦
      h.within v (List.mem_cons_of_mem _ hv), fun hc ↦ absurd rfl hc⟩
    · rcases List.mem_cons.1 hv with rfl | hv
      · exact .inl (List.mem_singleton_self _)
      · exact .inr ((h.sink v hv).resolve_left List.not_mem_nil)
    · rw [List.mem_singleton.1 hv]
      exact List.mem_cons_self
    · rcases h.seen v hv with hv | hv
      · rcases List.mem_cons.1 hv with rfl | hv
        · exact .inr List.mem_cons_self
        · exact .inl hv
      · exact .inr (List.mem_cons_of_mem _ hv)
  | backtrack =>
    obtain ⟨hsink, hrest⟩ := h.framed.pop
    refine ⟨hrest, h.chain.tail, (List.nodup_cons.1 h.nodup).2, fun u hu ↦ ?_,
      fun u hu ↦ h.path u (List.mem_cons_of_mem _ hu), h.seen, h.within, fun hc ↦ absurd rfl hc⟩
    rcases h.sink u hu with hu | hu
    · rcases List.mem_cons.1 hu with rfl | hu
      · exact .inr hsink
      · exact .inl hu
    · exact .inr hu
  | close hw hc =>
    refine ⟨h.framed, h.chain, h.nodup, h.sink, h.path, h.seen, h.within, fun _ ↦ ?_⟩
    rw [hc]
    exact isCycle_close h.chain h.nodup hw (h.framed.1 List.mem_cons_self)
  | @pass v w ws roots visited stack steps hw hv =>
    exact ⟨h.framed.pass ((h.sink w hv).resolve_left hw), h.chain, h.nodup, h.sink, h.path,
      h.seen, h.within, fun hc ↦ absurd rfl hc⟩
  | @descend v w ws roots visited stack steps hw hv =>
    have hmem : w ∈ next v := h.framed.1 List.mem_cons_self
    refine ⟨h.framed.descend, List.isChain_cons_cons.2 ⟨hmem, h.chain⟩,
      List.nodup_cons.2 ⟨hw, h.nodup⟩, fun x hx ↦ ?_, fun x hx ↦ ?_, fun x hx ↦
      (h.seen x hx).imp_right (List.mem_cons_of_mem _), h.within,
      fun hc ↦ absurd rfl hc⟩
    · rcases List.mem_cons.1 hx with rfl | hx
      · exact .inl List.mem_cons_self
      · exact (h.sink x hx).imp_left (List.mem_cons_of_mem _)
    · rcases List.mem_cons.1 hx with rfl | hx
      · exact List.mem_cons_self
      · exact List.mem_cons_of_mem _ (h.path x hx)

def unvisitedCost (next : Symbol → List Symbol) (visited : List Symbol) : List Symbol → Nat
  | [] => 0
  | v :: heads =>
    (if v ∈ visited then 0 else 1 + (next v).length) + unvisitedCost next visited heads

def stackCost : List (Symbol × List Symbol) → Nat
  | [] => 0
  | (_, ws) :: stack => 1 + ws.length + stackCost stack

def cost (next : Symbol → List Symbol) (heads : List Symbol) (s : CycleSearch) : Nat :=
  s.roots.length + stackCost s.stack + unvisitedCost next s.visited heads

theorem unvisitedCost_mono (next : Symbol → List Symbol) (v : Symbol)
    (visited heads : List Symbol) :
    unvisitedCost next (v :: visited) heads ≤ unvisitedCost next visited heads := by
  induction heads with
  | nil => exact Nat.le_refl _
  | cons u heads ih =>
    simp only [unvisitedCost, List.mem_cons]
    by_cases hu : u ∈ visited
    · simp only [hu, or_true, if_true]
      omega
    · by_cases huv : u = v
      · simp only [huv, true_or, if_true]
        omega
      · simp only [hu, huv, or_false, if_false]
        omega

theorem unvisitedCost_enter (next : Symbol → List Symbol) (hv : v ∈ heads) (hn : v ∉ visited) :
    unvisitedCost next (v :: visited) heads + (1 + (next v).length) ≤
    unvisitedCost next visited heads := by
  induction heads with
  | nil => exact absurd hv List.not_mem_nil
  | cons u heads ih =>
    by_cases huv : u = v
    · subst huv
      have h := unvisitedCost_mono next u visited heads
      simp only [unvisitedCost, List.mem_cons_self, hn, if_true, if_false]
      omega
    · have h := ih ((List.mem_cons.1 hv).resolve_left (Ne.symm huv))
      simp only [unvisitedCost, List.mem_cons, huv, false_or]
      split <;> omega

theorem Moves.cost_lt (hnext : ∀ v, ∀ u ∈ next v, u ∈ heads) (h : Descending next heads s)
    (hm : Moves next s t) (hc : t.cycle = []) : cost next heads t < cost next heads s := by
  cases hm with
  | skip hr =>
    simp only [cost, List.length_cons]
    omega
  | @root root roots visited steps hr =>
    have he := unvisitedCost_enter next (h.within root List.mem_cons_self) hr
    simp only [cost, stackCost, List.length_cons]
    omega
  | backtrack =>
    simp only [cost, stackCost, List.length_nil]
    omega
  | close hw hcy =>
    obtain ⟨v, l, he, -⟩ := isCycle_close h.chain h.nodup hw (h.framed.1 List.mem_cons_self)
    dsimp only at hc
    rw [← hcy, hc] at he
    exact nomatch he
  | pass hw hv =>
    simp only [cost, stackCost, List.length_cons]
    omega
  | @descend v w ws roots visited stack steps hw hv =>
    have he := unvisitedCost_enter next (hnext v w (h.framed.1 List.mem_cons_self)) hv
    simp only [cost, stackCost, List.length_cons]
    omega

/-- With as many moves as the search may cost, it comes to its end. -/
theorem run_spec (hnext : ∀ v, ∀ u ∈ next v, u ∈ heads) {fuel : Nat} (h : Descending next heads s)
    (hf : cost next heads s < fuel) : Descending next heads (run next fuel s) ∧
    move next (run next fuel s) = none := by
  -- Each move but one that closes a cycle lowers the cost, and no move follows that one.
  induction fuel generalizing s with
  | zero => omega
  | succ fuel ih =>
    rw [run]
    split
    · rename_i hm
      exact ⟨h, hm⟩
    · rename_i t hm
      have hmoves := moves_of_move hm
      have ht := h.moves hmoves
      by_cases hc : t.cycle = []
      · have hlt := hmoves.cost_lt hnext h hc
        exact ih ht (by omega)
      · have hstop : move next t = none := if_pos hc
        have hrun : run next fuel t = t := by
          cases fuel with
          | zero => rfl
          | succ fuel => rw [run, hstop]
        rw [hrun]
        exact ⟨ht, hstop⟩

theorem run_induct {P : CycleSearch → Prop} (step : ∀ s t, P s → Moves next s t → P t)
    {fuel : Nat} (h : P s) :
    P (run next fuel s) := by
  induction fuel generalizing s with
  | zero => exact h
  | succ fuel ih =>
    rw [run]
    split
    · exact h
    · rename_i t hm
      exact ih (step s t h (moves_of_move hm))

end CycleSearch

namespace Grammar

variable {g : Grammar} {u v : Symbol}

theorem mem_neighbours : u ∈ g.neighbours v ↔ g.Mentions v u ∧ u ∈ g := by
  simp [neighbours, Symbol.sort, Mentions]

theorem cost_searchCycle (g : Grammar) (l : List Symbol) :
    CycleSearch.unvisitedCost g.neighbours [] l =
      l.length + ((l.map fun v ↦ (v, g.neighbours v)).flatMap Prod.snd).length := by
  induction l with
  | nil => rfl
  | cons v l ih =>
    simp only [CycleSearch.unvisitedCost, ih, List.not_mem_nil, if_false, List.map_cons,
      List.flatMap_cons, List.length_append, List.length_cons]
    omega

theorem mem_sortedHeads_of_mem_neighbours : ∀ v, ∀ u ∈ g.neighbours v, u ∈ g.sortedHeads :=
  fun _ _ hu ↦ mem_sortedHeads.2 (mem_neighbours.1 hu).2

theorem searchCycle_ends (g : Grammar) :
    CycleSearch.Descending g.neighbours g.sortedHeads g.searchCycle ∧
    CycleSearch.move g.neighbours g.searchCycle = none := by
  have hlen : g.sortedHeads.length = g.heads.length := (sortBy_perm _ _).length_eq
  refine CycleSearch.run_spec mem_sortedHeads_of_mem_neighbours (.start _ _) ?_
  simp only [CycleSearch.cost, CycleSearch.stackCost, cost_searchCycle, hlen, dependencyGraph]
  omega

theorem searchCycle_exhausted (hc : g.searchCycle.cycle = []) :
    g.searchCycle.stack = [] ∧ ∀ v ∈ g, v ∈ g.searchCycle.visited := by
  obtain ⟨hd, hend⟩ := g.searchCycle_ends
  obtain ⟨hs, hr⟩ := (CycleSearch.move_eq_none hend).resolve_left (not_not.2 hc)
  refine ⟨hs, fun v hv ↦ (hd.seen v (mem_sortedHeads.2 hv)).resolve_left ?_⟩
  rw [hr]
  exact List.not_mem_nil

/-- The search finds a cycle, or there is none. -/
theorem searchCycle_spec (g : Grammar) :
    (g.searchCycle.cycle ≠ [] → IsCycle g.neighbours g.searchCycle.cycle) ∧
    (g.searchCycle.cycle = [] → ∀ v ∈ g, CycleSearch.IsSink g.neighbours v) := by
  obtain ⟨hd, -⟩ := g.searchCycle_ends
  refine ⟨hd.cycle, fun hc v hv ↦ ?_⟩
  obtain ⟨hs, hseen⟩ := searchCycle_exhausted hc
  refine (hd.sink v (hseen v hv)).resolve_left ?_
  rw [hs]
  exact List.not_mem_nil

end Grammar

end ChomskyNormalForm
