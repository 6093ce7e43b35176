import ChomskyNormalForm.Analysis.Rounds
import ChomskyNormalForm.Proofs.Grammar.Edits
import ChomskyNormalForm.Proofs.Settling
import Mathlib.Data.List.Nodup
import Mathlib.Data.List.Perm.Subperm
import Mathlib.Logic.Relation

namespace ChomskyNormalForm

theorem Body.unit?_eq_some {b : Body} {v : Symbol} :
    b.unit? = some v ↔ b = [v] ∧ v.isVar = true := by
  unfold unit?
  split
  · rename_i name
    constructor
    · intro h
      cases h
      exact ⟨rfl, rfl⟩
    · intro ⟨h, _⟩
      cases h
      rfl
  · rename_i hne
    constructor
    · intro h
      exact nomatch h
    · intro ⟨h, hv⟩
      cases v with
      | var name => exact absurd h (hne name)
      | terminal a => simp [Symbol.isVar] at hv
      | epsilon => simp [Symbol.isVar] at hv
      | foreign t => simp [Symbol.isVar] at hv

theorem Body.isUnit_iff {b : Body} : b.isUnit = true ↔ ∃ v, b = [v] ∧ v.isVar = true := by
  simp only [isUnit, Option.isSome_iff_exists, unit?_eq_some]

theorem lookup_map_pair {κ β : Type} [DecidableEq κ] (f : κ → β) (l : List κ) (k : κ) :
    (l.map fun j ↦ (j, f j)).lookup k = if k ∈ l then some (f k) else none := by
  induction l with
  | nil => rfl
  | cons j l ih =>
    rw [List.map_cons, List.lookup_cons, ih]
    by_cases h : k = j
    · simp [h]
    · simp [h, beq_eq_false_iff_ne.2 h]

namespace UnitClosure

variable {c d : UnitClosure} {g : Grammar} {u v x y : Symbol}

theorem mem_members : u ∈ c.members v ↔ u ∈ (c.lookup v).getD [] := mem_sortBy _

theorem nodup_members : (c.members v).Nodup ↔ ((c.lookup v).getD []).Nodup := nodup_sortBy _

theorem mem_map_fst_of_mem_members (hu : u ∈ c.members v) : v ∈ c.map Prod.fst :=
  List.mem_map_of_mem (Rules.mem_of_mem_lookup (mem_members.1 hu))

theorem map_fst_insert : (c.insert v u).map Prod.fst = c.map Prod.fst := by
  simp only [insert, List.map_map, Function.comp_def]

theorem lookup_insert : (c.insert v u).lookup x =
    (c.lookup x).map fun us ↦ if x = v then us ++ [u] else us := by
  induction c with
  | nil => rfl
  | cons e c ih =>
    simp only [insert] at ih ⊢
    rw [List.map_cons, List.lookup_cons, List.lookup_cons, ih]
    by_cases he : x = e.1
    · simp [he]
    · simp [beq_eq_false_iff_ne.2 he]

theorem getD_lookup_insert (hv : v ∈ c.map Prod.fst) : ((c.insert v u).lookup x).getD [] =
    if x = v then (c.lookup x).getD [] ++ [u] else (c.lookup x).getD [] := by
  rw [lookup_insert]
  cases hl : c.lookup x with
  | some us => rfl
  | none =>
    have hx : x ≠ v := by
      rintro rfl
      obtain ⟨e, he, rfl⟩ := List.mem_map.1 hv
      exact bne_iff_ne.1 (List.lookup_eq_none_iff.1 hl e he) rfl
    rw [if_neg hx]
    rfl

theorem mem_members_insert (hv : v ∈ c.map Prod.fst) :
    y ∈ (c.insert v u).members x ↔ y ∈ c.members x ∨ x = v ∧ y = u := by
  rw [mem_members, mem_members, getD_lookup_insert hv]
  by_cases hx : x = v
  · simp [hx]
  · simp [hx]

theorem nodup_members_insert (hv : v ∈ c.map Prod.fst) (hu : u ∉ c.members v)
    (h : (c.members x).Nodup) :
    ((c.insert v u).members x).Nodup := by
  rw [mem_members] at hu
  rw [nodup_members] at h ⊢
  rw [getD_lookup_insert hv]
  split
  · rename_i hx
    refine List.nodup_append.2 ⟨h, List.nodup_singleton u, fun a ha b hb ↦ ?_⟩
    rw [List.mem_singleton.1 hb]
    exact ne_of_mem_of_not_mem ha (hx ▸ hu)
  · exact h

def Leads (g : Grammar) (c : UnitClosure) (v u : Symbol) : Prop :=
  ∃ x ∈ c.members v, u ∈ g.unitTargets x

def IsFull (g : Grammar) (c : UnitClosure) (v : Symbol) : Prop :=
  ∀ u, c.Leads g v u → u ∈ c.members v

theorem leads_congr (h : ∀ x, x ∈ d.members v ↔ x ∈ c.members v) : d.Leads g v u ↔ c.Leads g v u :=
  exists_congr fun x ↦ and_congr_left fun _ ↦ h x

end UnitClosure

namespace UnitGrowth

variable {s t w : UnitGrowth} {new new' : Symbol → Symbol → Prop} {g : Grammar} {u v : Symbol}
  {vs : List Symbol}

structure Grows (s t : UnitGrowth) (new : Symbol → Symbol → Prop) : Prop where
  heads_eq : t.closure.map Prod.fst = s.closure.map Prod.fst
  mem_iff : ∀ x u, u ∈ t.closure.members x ↔ u ∈ s.closure.members x ∨ new x u
  nodup : ∀ x, (s.closure.members x).Nodup → (t.closure.members x).Nodup
  changed_iff : t.changed = true ↔ s.changed = true ∨ ∃ x u, new x u ∧ u ∉ s.closure.members x
  unchanged : t.changed = false → t = s

theorem Grows.congr (h : Grows s t new) (hn : ∀ x u, new x u ↔ new' x u) : Grows s t new' := by
  obtain rfl : new = new' := funext fun x ↦ funext fun u ↦ propext (hn x u)
  exact h

theorem Grows.refl (h : ∀ x u, new x u → u ∈ s.closure.members x) : Grows s s new where
  heads_eq := rfl
  mem_iff x u := (or_iff_left_of_imp (h x u)).symm
  nodup _ hx := hx
  changed_iff := (or_iff_left fun ⟨x, u, hxu, hu⟩ ↦ hu (h x u hxu)).symm
  unchanged _ := rfl

theorem Grows.trans (h : Grows s t new) (h' : Grows t w new') :
    Grows s w fun x u ↦ new x u ∨ new' x u where
  heads_eq := h'.heads_eq.trans h.heads_eq
  mem_iff x u := by rw [h'.mem_iff, h.mem_iff, or_assoc]
  nodup x hx := h'.nodup x (h.nodup x hx)
  changed_iff := by
    rw [h'.changed_iff, h.changed_iff, or_assoc]
    refine or_congr_right ⟨?_, fun ⟨x, u, hxu, hu⟩ ↦ ?_⟩
    · rintro (⟨x, u, hxu, hu⟩ | ⟨x, u, hxu, hu⟩)
      · exact ⟨x, u, .inl hxu, hu⟩
      · exact ⟨x, u, .inr hxu, fun hs ↦ hu ((h.mem_iff x u).2 (.inl hs))⟩
    · -- what was new in the first part is no more so in the second
      by_cases hn : new x u
      · exact .inl ⟨x, u, hn, hu⟩
      · refine .inr ⟨x, u, hxu.resolve_left hn, fun ht ↦ ?_⟩
        exact ((h.mem_iff x u).1 ht).elim hu hn
  unchanged hw := by
    obtain rfl := h'.unchanged hw
    exact h.unchanged hw

theorem grows_add (hv : v ∈ s.closure.map Prod.fst) :
    Grows s (add v s u) fun x y ↦ x = v ∧ y = u := by
  unfold add
  split
  · rename_i hu
    refine .refl fun x y hxy ↦ ?_
    obtain ⟨rfl, rfl⟩ := hxy
    exact hu
  · rename_i hu
    constructor
    case heads_eq => exact UnitClosure.map_fst_insert
    case mem_iff => exact fun x y ↦ UnitClosure.mem_members_insert hv
    case nodup => exact fun x hx ↦ UnitClosure.nodup_members_insert hv hu hx
    case changed_iff => exact iff_of_true rfl (.inr ⟨v, u, ⟨rfl, rfl⟩, hu⟩)
    case unchanged => exact nofun

theorem grows_foldl_add {us : List Symbol} (hv : v ∈ s.closure.map Prod.fst) :
    Grows s (us.foldl (add v) s) fun x y ↦ x = v ∧ y ∈ us := by
  induction us generalizing s with
  | nil => exact .refl fun x y hxy ↦ absurd hxy.2 List.not_mem_nil
  | cons u us ih =>
    have hu := grows_add (u := u) hv
    have hus := ih (hu.heads_eq ▸ hv)
    refine (hu.trans hus).congr fun x y ↦ ?_
    rw [← and_or_left, List.mem_cons]

theorem grows_grow (hv : v ∈ s.closure.map Prod.fst) :
    Grows s (grow g s v) fun x y ↦ x = v ∧ s.closure.Leads g x y := by
  refine (grows_foldl_add hv).congr fun x y ↦ and_congr_right fun hx ↦ ?_
  rw [List.mem_flatMap, hx]
  rfl

/-- Each variable is taken further from the members that it had before, whatever the others have
come to. -/
theorem grows_foldl_grow (hn : vs.Nodup) (hvs : vs ⊆ s.closure.map Prod.fst) :
    Grows s (vs.foldl (grow g) s) fun x y ↦ x ∈ vs ∧ s.closure.Leads g x y := by
  induction vs generalizing s with
  | nil => exact .refl fun x y hxy ↦ absurd hxy.1 List.not_mem_nil
  | cons v vs ih =>
    obtain ⟨hv, hn⟩ := List.nodup_cons.1 hn
    obtain ⟨hvs₁, hvs₂⟩ := List.cons_subset.1 hvs
    have hgrow := grows_grow (g := g) hvs₁
    have hrest := ih hn (hgrow.heads_eq ▸ hvs₂)
    have hleads : ∀ x ∈ vs, ∀ y, (grow g s v).closure.Leads g x y ↔ s.closure.Leads g x y := by
      refine fun x hx y ↦ UnitClosure.leads_congr fun z ↦ ?_
      have hne : x ≠ v := ne_of_mem_of_not_mem hx hv
      rw [hgrow.mem_iff, or_iff_left (mt And.left hne)]
    refine (hgrow.trans hrest).congr fun x y ↦ ?_
    rw [and_congr_right fun hx ↦ hleads x hx y, ← or_and_right, List.mem_cons]

end UnitGrowth

namespace UnitClosure

variable {c : UnitClosure} {g : Grammar} {u v : Symbol}

theorem grows_round (hc : c.map Prod.fst = g.heads) :
    UnitGrowth.Grows ⟨c, false⟩ ⟨(c.round g).1, (c.round g).2⟩ fun x y ↦ x ∈ g ∧ c.Leads g x y := by
  have hvs : g.sortedHeads ⊆ c.map Prod.fst := fun v hv ↦ hc ▸ Grammar.mem_sortedHeads.1 hv
  have hn : g.sortedHeads.Nodup := (nodup_sortBy _).2 g.nodup_heads
  have hgrows := UnitGrowth.grows_foldl_grow (s := ⟨c, false⟩) (g := g) hn hvs
  exact hgrows.congr fun x y ↦ and_congr_left fun _ ↦ Grammar.mem_sortedHeads

theorem map_fst_round (hc : c.map Prod.fst = g.heads) : (c.round g).1.map Prod.fst = g.heads :=
  (grows_round hc).heads_eq.trans hc

theorem mem_members_round (hc : c.map Prod.fst = g.heads) (hv : v ∈ g) :
    u ∈ (c.round g).1.members v ↔ u ∈ c.members v ∨ c.Leads g v u := by
  rw [(grows_round hc).mem_iff, and_iff_right hv]

theorem round_snd (hc : c.map Prod.fst = g.heads) :
    (c.round g).2 = true ↔ ∃ v ∈ g, ¬c.IsFull g v := by
  simp only [(grows_round hc).changed_iff, Bool.false_eq_true, false_or, and_assoc, exists_and_left,
    IsFull, not_forall, exists_prop]

theorem round_eq_self (hc : c.map Prod.fst = g.heads) (hr : (c.round g).2 = false) :
    (c.round g).1 = c :=
  congrArg UnitGrowth.closure ((grows_round hc).unchanged hr)

end UnitClosure

namespace Grammar

variable {g : Grammar} {u v x : Symbol} {c : UnitClosure} {rounds : ℕ}

theorem mem_unitTargets : u ∈ g.unitTargets v ↔ [u] ∈ g.bodies v ∧ u.isVar = true ∧ u ∈ g := by
  simp only [unitTargets, List.mem_filter, List.mem_filterMap, Body.unit?_eq_some,
    decide_eq_true_eq]
  constructor
  · intro h
    obtain ⟨⟨b, hb, rfl, hu⟩, hg⟩ := h
    exact ⟨hb, hu, hg⟩
  · intro ⟨hb, hu, hg⟩
    exact ⟨⟨[u], hb, rfl, hu⟩, hg⟩

def UnitReaches (g : Grammar) : Symbol → Symbol → Prop :=
  Relation.ReflTransGen fun v u ↦ u ∈ g.unitTargets v

theorem UnitReaches.mem_of_mem (h : g.UnitReaches v u) (hv : v ∈ g) : u ∈ g := by
  cases h with
  | refl => exact hv
  | tail _ hu => exact (mem_unitTargets.1 hu).2.2

/-- A chain of unit productions, perhaps of none, through variables with an entry. -/
inductive UnitChain (g : Grammar) : Symbol → Symbol → Prop
  | refl {v : Symbol} : v ∈ g → UnitChain g v v
  | head {v u x : Symbol} : [u] ∈ g.bodies v → u.isVar = true → UnitChain g u x → UnitChain g v x

theorem unitChain_iff : g.UnitChain v u ↔ v ∈ g ∧ g.UnitReaches v u := by
  constructor
  · intro h
    induction h with
    | refl hv => exact ⟨hv, .refl⟩
    | head hb hu _ ih => exact ⟨mem_of_mem_bodies hb, .head (mem_unitTargets.2 ⟨hb, hu, ih.1⟩) ih.2⟩
  · intro ⟨hv, h⟩
    induction h using Relation.ReflTransGen.head_induction_on with
    | refl => exact .refl hv
    | head hx _ ih =>
      obtain ⟨hb, hu, hx⟩ := mem_unitTargets.1 hx
      exact .head hb hu (ih hx)

theorem UnitChain.trans (h : g.UnitChain v u) (h' : g.UnitChain u x) : g.UnitChain v x := by
  induction h with
  | refl => exact h'
  | head hb hu _ ih => exact .head hb hu (ih h')

/-- What holds of the closure after some rounds: where it is not full yet, each of them has added
something. -/
structure Grown (g : Grammar) (rounds : ℕ) (c : UnitClosure) : Prop where
  heads_eq : c.map Prod.fst = g.heads
  nodup : ∀ v, (c.members v).Nodup
  self_mem : ∀ v ∈ g, v ∈ c.members v
  reached : ∀ v ∈ g, ∀ u ∈ c.members v, g.UnitReaches v u
  count : ∀ v ∈ g, ¬c.IsFull g v → rounds < (c.members v).length
  rounds_le : rounds ≤ g.heads.length

theorem Grown.length_le (h : g.Grown rounds c) (hv : v ∈ g) :
    (c.members v).length ≤ g.heads.length :=
  (List.subperm_of_subset (h.nodup v) fun u hu ↦ (h.reached v hv u hu).mem_of_mem hv).length_le

theorem Grown.start (g : Grammar) : g.Grown 0 (g.heads.map fun v ↦ (v, [v])) := by
  have hmem : ∀ v u, u ∈ UnitClosure.members (g.heads.map fun v ↦ (v, [v])) v ↔ v ∈ g ∧ u = v := by
    intro v u
    rw [UnitClosure.mem_members, lookup_map_pair]
    by_cases hv : v ∈ g
    · rw [if_pos (mem_heads.2 hv), and_iff_right hv]
      exact List.mem_singleton
    · rw [if_neg (mt mem_heads.1 hv)]
      exact iff_of_false List.not_mem_nil fun h ↦ hv h.1
  constructor
  case heads_eq => simp [Function.comp_def]
  case nodup =>
    intro v
    rw [UnitClosure.nodup_members, lookup_map_pair]
    split
    · exact List.nodup_singleton v
    · exact .nil
  case self_mem => exact fun v hv ↦ (hmem v v).2 ⟨hv, rfl⟩
  case reached =>
    intro v _ u hu
    rw [((hmem v u).1 hu).2]
    exact .refl
  case count => exact fun v hv _ ↦ List.length_pos_of_mem ((hmem v v).2 ⟨hv, rfl⟩)
  case rounds_le => exact Nat.zero_le _

theorem Grown.round (h : g.Grown rounds c) (hr : (c.round g).2 = true) :
    g.Grown (rounds + 1) (c.round g).1 := by
  have hmem : ∀ v ∈ g, ∀ u, u ∈ (c.round g).1.members v ↔ u ∈ c.members v ∨ c.Leads g v u :=
    fun v hv u ↦ UnitClosure.mem_members_round h.heads_eq hv
  have hnodup : ∀ v, ((c.round g).1.members v).Nodup :=
    fun v ↦ (UnitClosure.grows_round h.heads_eq).nodup v (h.nodup v)
  constructor
  case heads_eq => exact UnitClosure.map_fst_round h.heads_eq
  case nodup => exact hnodup
  case self_mem => exact fun v hv ↦ (hmem v hv v).2 (.inl (h.self_mem v hv))
  case reached =>
    intro v hv u hu
    rcases (hmem v hv u).1 hu with hu | ⟨x, hx, hu⟩
    · exact h.reached v hv u hu
    · exact (h.reached v hv x hx).tail hu
  case count =>
    intro v hv hfull
    -- had the members been full before, they would be now: so one has come to them
    have hfull' : ¬c.IsFull g v := by
      intro hf
      have hsame : ∀ u, u ∈ (c.round g).1.members v ↔ u ∈ c.members v := fun u ↦
        (hmem v hv u).trans (or_iff_left_of_imp (hf u))
      exact hfull fun u hu ↦ (hsame u).2 (hf u ((UnitClosure.leads_congr hsame).1 hu))
    have hcount := h.count v hv hfull'
    simp only [UnitClosure.IsFull, not_forall] at hfull'
    obtain ⟨u, hu, hnew⟩ := hfull'
    have hsub : u :: c.members v ⊆ (c.round g).1.members v := by
      refine List.cons_subset.2 ⟨(hmem v hv u).2 (.inr hu), fun x hx ↦ (hmem v hv x).2 (.inl hx)⟩
    have hlen := (List.subperm_of_subset (List.nodup_cons.2 ⟨hnew, h.nodup v⟩) hsub).length_le
    rw [List.length_cons] at hlen
    omega
  case rounds_le =>
    obtain ⟨v, hv, hfull⟩ := (UnitClosure.round_snd h.heads_eq).1 hr
    exact Nat.lt_of_lt_of_le (h.count v hv hfull) (h.length_le hv)

theorem Grown.mem_iff (h : g.Grown rounds c) (hr : (c.round g).2 = false) (hv : v ∈ g) :
    u ∈ c.members v ↔ g.UnitReaches v u := by
  refine ⟨h.reached v hv u, fun hu ↦ ?_⟩
  have hfull : c.IsFull g v := by
    by_contra hfull
    rw [(UnitClosure.round_snd h.heads_eq).2 ⟨v, hv, hfull⟩] at hr
    exact nomatch hr
  induction hu with
  | refl => exact h.self_mem v hv
  | tail _ hu ih => exact hfull _ ⟨_, ih, hu⟩

theorem Grown.mem_iff_unitChain (h : g.Grown rounds c) (hr : (c.round g).2 = false) :
    u ∈ c.members v ↔ g.UnitChain v u := by
  rw [unitChain_iff]
  constructor
  · intro hu
    have hv : v ∈ g := mem_heads.1 (h.heads_eq ▸ UnitClosure.mem_map_fst_of_mem_members hu)
    exact ⟨hv, (h.mem_iff hr hv).1 hu⟩
  · exact fun ⟨hv, hu⟩ ↦ (h.mem_iff hr hv).2 hu

theorem exists_grown (g : Grammar) :
    ∃ rounds c, g.unitClosure = .ok c ∧ g.Grown rounds c ∧ (c.round g).2 = false := by
  obtain ⟨rounds, c, h, hr, he⟩ :=
    @settled_eq_ok _ (fun _ c ↦ UnitClosure.round g c) g.Grown "unit closure" _
      (fun _ _ h hr ↦ h.round hr) (fun _ _ h ↦ Nat.lt_succ_of_le h.rounds_le) _ (Grown.start g)
  exact ⟨rounds, c, by rw [unitClosure, he, UnitClosure.round_eq_self h.heads_eq hr], h, hr⟩

theorem exists_unitClosure (g : Grammar) : ∃ c, g.unitClosure = .ok c ∧ c.map Prod.fst = g.heads ∧
    ∀ v ∈ g, ∀ u, u ∈ c.members v ↔ g.UnitReaches v u := by
  obtain ⟨rounds, c, he, h, hr⟩ := g.exists_grown
  exact ⟨c, he, h.heads_eq, fun v hv u ↦ h.mem_iff hr hv⟩

end Grammar

/-- The closure has each variable of the grammar once, with what the chains from it lead to. -/
structure UnitClosure.IsExact (c : UnitClosure) (g : Grammar) : Prop where
  heads_eq : c.map Prod.fst = g.heads
  nodup : ∀ e ∈ c, e.2.Nodup
  mem_iff : ∀ e ∈ c, ∀ u, u ∈ e.2 ↔ g.UnitChain e.1 u

namespace Grammar

variable {g : Grammar} {c : UnitClosure} {rounds : ℕ}

theorem Grown.isExact (h : g.Grown rounds c) (hr : (c.round g).2 = false) : c.IsExact g := by
  have hlookup : ∀ e ∈ c, (c.lookup e.1).getD [] = e.2 := by
    intro e he
    rw [Rules.lookup_of_mem (h.heads_eq ▸ g.nodup_heads) he]
    rfl
  constructor
  case heads_eq => exact h.heads_eq
  case nodup =>
    intro e he
    have hn := UnitClosure.nodup_members.1 (h.nodup e.1)
    rwa [hlookup e he] at hn
  case mem_iff =>
    intro e he u
    rw [← h.mem_iff_unitChain hr, UnitClosure.mem_members, hlookup e he]

/-- The unit closure is the reflexive and transitive closure of the unit productions between
variables with an entry. -/
theorem unitClosure_is_exact (g : Grammar) : ∃ c, g.unitClosure = .ok c ∧ c.IsExact g ∧
    ∀ d ∈ c, ∀ e ∈ c, e.1 ∈ d.2 → e.2 ⊆ d.2 := by
  obtain ⟨rounds, c, hc, h, hr⟩ := g.exists_grown
  have hexact := h.isExact hr
  refine ⟨c, hc, hexact, fun d hd e he hmem u hu ↦ ?_⟩
  have hchain := (hexact.mem_iff d hd e.1).1 hmem
  exact (hexact.mem_iff d hd u).2 (hchain.trans ((hexact.mem_iff e he u).1 hu))

end Grammar

end ChomskyNormalForm
