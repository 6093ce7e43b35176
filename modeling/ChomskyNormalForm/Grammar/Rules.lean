import ChomskyNormalForm.Listing
import ChomskyNormalForm.Symbol

namespace ChomskyNormalForm

/-- Bodies by left-hand side. Left-hand sides keep the order in which they came, and so do the
bodies of each; neither repeats. -/
structure Rules (κ : Type) where
  entries : List (κ × List Body)
  keys_nodup : (entries.map Prod.fst).Nodup
  bodies_nodup : ∀ e ∈ entries, e.2.Nodup
  deriving DecidableEq

namespace Rules

variable {κ : Type}

def keys (r : Rules κ) : List κ := r.entries.map Prod.fst

instance : Membership κ (Rules κ) := ⟨fun r k ↦ k ∈ r.keys⟩

theorem mem_iff {k : κ} {r : Rules κ} : k ∈ r ↔ k ∈ r.keys := .rfl

def empty : Rules κ := ⟨[], .nil, by simp⟩

def allBodies (r : Rules κ) : List Body := r.entries.flatMap Prod.snd

def count (r : Rules κ) : Nat := r.allBodies.length

def restrict (p : κ → Bool) (r : Rules κ) : Rules κ where
  entries := r.entries.filter fun e ↦ p e.1
  keys_nodup := r.keys_nodup.sublist (List.filter_sublist.map _)
  bodies_nodup _ he := r.bodies_nodup _ (List.mem_filter.1 he).1

/-- Only the bodies that `p` accepts; a left-hand side may be left without any. -/
def filterBodies (p : κ → Body → Bool) (r : Rules κ) : Rules κ where
  entries := r.entries.map fun e ↦ (e.1, e.2.filter (p e.1))
  keys_nodup := by simpa [Function.comp_def] using r.keys_nodup
  bodies_nodup := by
    simp only [List.mem_map, forall_exists_index, and_imp, forall_apply_eq_imp_iff₂]
    exact fun e he ↦ (r.bodies_nodup e he).filter _

theorem mem_restrict {p : κ → Bool} {r : Rules κ} {k : κ} :
    k ∈ r.restrict p ↔ k ∈ r ∧ p k = true := by
  simp only [mem_iff, keys, restrict, List.mem_map, List.mem_filter]
  constructor
  · rintro ⟨e, ⟨he, hp⟩, rfl⟩; exact ⟨⟨e, he, rfl⟩, hp⟩
  · rintro ⟨⟨e, he, rfl⟩, hp⟩; exact ⟨e, ⟨he, hp⟩, rfl⟩

@[simp] theorem keys_filterBodies (p : κ → Body → Bool) (r : Rules κ) :
    (r.filterBodies p).keys = r.keys := by
  simp [keys, filterBodies, Function.comp_def]

variable [DecidableEq κ]

def remove (r : Rules κ) (k : κ) (b : Body) : Rules κ where
  entries := r.entries.map fun e ↦ if e.1 = k then (e.1, e.2.filter (· ≠ b)) else e
  keys_nodup := by
    have h : (r.entries.map fun e ↦ if e.1 = k then (e.1, e.2.filter (· ≠ b)) else e).map Prod.fst =
        r.entries.map Prod.fst := by
      rw [List.map_map]
      refine List.map_congr_left fun e _ ↦ ?_
      simp only [Function.comp_apply]
      split <;> rfl
    exact h ▸ r.keys_nodup
  bodies_nodup := by
    simp only [List.mem_map, forall_exists_index, and_imp, forall_apply_eq_imp_iff₂]
    intro e he
    split
    · exact (r.bodies_nodup e he).filter _
    · exact r.bodies_nodup e he

instance (k : κ) (r : Rules κ) : Decidable (k ∈ r) :=
  decidable_of_iff (r.entries.any (·.1 = k) = true) (by simp [mem_iff, keys])

def bodies (r : Rules κ) (k : κ) : List Body := (r.entries.lookup k).getD []

def putEntry (k : κ) (bs : List Body) : List (κ × List Body) → List (κ × List Body)
  | [] => [(k, bs)]
  | e :: es => if e.1 = k then (k, bs) :: es else e :: putEntry k bs es

theorem map_fst_putEntry (k : κ) (bs : List Body) (es : List (κ × List Body)) :
    (putEntry k bs es).map Prod.fst =
      if k ∈ es.map Prod.fst then es.map Prod.fst else es.map Prod.fst ++ [k] := by
  induction es with
  | nil => simp [putEntry]
  | cons e es ih =>
    by_cases h : e.1 = k
    · simp [putEntry, h]
    · simp only [putEntry, h, if_false, List.map_cons, ih, List.mem_cons, Ne.symm h, false_or]
      split <;> simp

theorem mem_putEntry {k : κ} {bs : List Body} {es : List (κ × List Body)} {e : κ × List Body}
    (he : e ∈ putEntry k bs es) : e = (k, bs) ∨ e ∈ es := by
  induction es with
  | nil => simpa [putEntry] using he
  | cons d es ih =>
    unfold putEntry at he
    split at he
    · rcases List.mem_cons.1 he with rfl | he
      · exact .inl rfl
      · exact .inr (List.mem_cons_of_mem _ he)
    · rcases List.mem_cons.1 he with rfl | he
      · exact .inr List.mem_cons_self
      · exact (ih he).imp_right (List.mem_cons_of_mem _)

theorem lookup_putEntry (k j : κ) (bs : List Body) (es : List (κ × List Body)) :
    (putEntry k bs es).lookup j = if j = k then some bs else es.lookup j := by
  induction es with
  | nil => by_cases h : j = k <;> simp [putEntry, List.lookup_cons, h, beq_eq_false_iff_ne.2]
  | cons e es ih =>
    unfold putEntry
    split
    · rename_i he
      by_cases h : j = k
      · simp [h]
      · obtain ⟨i, cs⟩ := e
        obtain rfl : i = k := he
        simp [List.lookup_cons, h, beq_eq_false_iff_ne.2 h]
    · rename_i he
      rw [List.lookup_cons, List.lookup_cons, ih]
      by_cases hj : j = e.1
      · simp [hj, he]
      · simp [beq_eq_false_iff_ne.2 hj]

def put (r : Rules κ) (k : κ) (bs : List Body) (h : bs.Nodup) : Rules κ where
  entries := putEntry k bs r.entries
  keys_nodup := by
    rw [map_fst_putEntry]
    split
    · exact r.keys_nodup
    · rename_i hk
      refine List.nodup_append.2 ⟨r.keys_nodup, by simp, ?_⟩
      simp only [List.mem_singleton]
      intro a ha b hx hy
      subst hx
      subst hy
      exact hk ha
  bodies_nodup e he := (mem_putEntry he).elim (· ▸ h) (r.bodies_nodup e)

theorem keys_put (r : Rules κ) (k : κ) (bs : List Body) (h : bs.Nodup) :
    (r.put k bs h).keys = if k ∈ r.keys then r.keys else r.keys ++ [k] :=
  map_fst_putEntry k bs r.entries

theorem bodies_put (r : Rules κ) (k j : κ) (bs : List Body) (h : bs.Nodup) :
    (r.put k bs h).bodies j = if j = k then bs else r.bodies j := by
  simp only [bodies, put, lookup_putEntry]
  split <;> rfl

theorem lookup_of_mem {β : Type} {es : List (κ × β)} (hes : (es.map Prod.fst).Nodup) {e : κ × β}
    (he : e ∈ es) :
    es.lookup e.1 = some e.2 := by
  induction es with
  | nil => simp at he
  | cons d es ih =>
    obtain ⟨hd, hes⟩ := List.nodup_cons.1 hes
    rw [List.lookup_cons]
    rcases List.mem_cons.1 he with rfl | he
    · simp
    · have hne : e.1 ≠ d.1 := fun h ↦ hd (h ▸ List.mem_map_of_mem he)
      simp [beq_eq_false_iff_ne.2 hne, ih hes he]

theorem mem_of_mem_lookup {β : Type} {es : List (κ × List β)} {k : κ} {a : β}
    (h : a ∈ (es.lookup k).getD []) :
    (k, (es.lookup k).getD []) ∈ es := by
  cases hl : es.lookup k with
  | none =>
    rw [hl] at h
    exact absurd h List.not_mem_nil
  | some as =>
    obtain ⟨l, r, rfl, -⟩ := List.lookup_eq_some_iff.1 hl
    simp

theorem bodies_of_mem_entries {r : Rules κ} {e : κ × List Body} (he : e ∈ r.entries) :
    r.bodies e.1 = e.2 := by
  simp [bodies, lookup_of_mem r.keys_nodup he]

theorem mem_of_mem_bodies {r : Rules κ} {k : κ} {b : Body} (h : b ∈ r.bodies k) : k ∈ r :=
  List.mem_map.2 ⟨_, mem_of_mem_lookup h, rfl⟩

theorem mem_entries_of_mem {r : Rules κ} {k : κ} (h : k ∈ r) : (k, r.bodies k) ∈ r.entries := by
  obtain ⟨e, he, rfl⟩ := List.mem_map.1 h
  rw [bodies_of_mem_entries he]
  exact he

theorem bodies_of_not_mem {r : Rules κ} {k : κ} (h : k ∉ r) : r.bodies k = [] :=
  List.eq_nil_iff_forall_not_mem.2 fun _ hb ↦ h (mem_of_mem_bodies hb)

theorem nodup_bodies (r : Rules κ) (k : κ) : (r.bodies k).Nodup := by
  by_cases h : k ∈ r
  · exact r.bodies_nodup _ (mem_entries_of_mem h)
  · simp [bodies_of_not_mem h]

def news (r : Rules κ) (k : κ) (bs : List Body) : List Body :=
  (distinct bs).filter (· ∉ r.bodies k)

def extend (r : Rules κ) (k : κ) (bs : List Body) : Rules κ :=
  r.put k (r.bodies k ++ r.news k bs) <| List.nodup_append.2
    ⟨r.nodup_bodies k, (nodup_distinct bs).filter _, by
      intro a ha b hb h
      subst h
      simp [news] at hb
      exact hb.2 ha⟩

theorem bodies_extend (r : Rules κ) (k j : κ) (bs : List Body) :
    (r.extend k bs).bodies j = if j = k then r.bodies k ++ r.news k bs else r.bodies j :=
  bodies_put ..

theorem mem_bodies_extend {r : Rules κ} {k j : κ} {bs : List Body} {b : Body} :
    b ∈ (r.extend k bs).bodies j ↔ b ∈ r.bodies j ∨ j = k ∧ b ∈ bs := by
  rw [bodies_extend]
  by_cases h : j = k
  · by_cases hb : b ∈ r.bodies k <;> simp [h, news, hb]
  · simp [h]

def ofEntries (es : List (κ × List Body)) : Rules κ :=
  es.foldl (fun r e ↦ r.extend e.1 e.2) empty

/-- The list with `new` in the place of `old`; if `new` stands in it already, `old` only goes. -/
def exchange (old new : Body) (bs : List Body) : List Body :=
  if new ∈ bs then bs.filter (· ≠ old) else bs.map fun b ↦ if b = old then new else b

theorem nodup_exchange {old new : Body} {bs : List Body} (h : bs.Nodup) :
    (exchange old new bs).Nodup := by
  unfold exchange
  split
  · exact h.filter _
  · rename_i hn
    refine List.pairwise_map.2 (h.imp_of_mem fun {a b} ha hb hab ↦ ?_)
    split <;> split
    · simp_all
    · rintro rfl; exact hn hb
    · rintro rfl; exact hn ha
    · exact hab

def replace (r : Rules κ) (k : κ) (old new : Body) : Rules κ :=
  r.put k (exchange old new (r.bodies k)) (nodup_exchange (r.nodup_bodies k))

theorem bodies_restrict (p : κ → Bool) (r : Rules κ) (k : κ) :
    (r.restrict p).bodies k = if p k then r.bodies k else [] := by
  by_cases h : k ∈ r.restrict p
  · have he := mem_entries_of_mem h
    obtain ⟨he, hp⟩ := List.mem_filter.1 he
    rw [if_pos hp, bodies_of_mem_entries he]
  · rw [bodies_of_not_mem h]
    split
    · rename_i hp
      exact (bodies_of_not_mem fun hk ↦ h (mem_restrict.2 ⟨hk, hp⟩)).symm
    · rfl

theorem bodies_filterBodies (p : κ → Body → Bool) (r : Rules κ) (k : κ) :
    (r.filterBodies p).bodies k = (r.bodies k).filter (p k) := by
  by_cases h : k ∈ r
  · have he : (k, (r.bodies k).filter (p k)) ∈ (r.filterBodies p).entries :=
      List.mem_map.2 ⟨_, mem_entries_of_mem h, rfl⟩
    exact bodies_of_mem_entries he
  · rw [bodies_of_not_mem h, bodies_of_not_mem (by rwa [mem_iff, keys_filterBodies])]
    rfl

theorem bodies_remove (r : Rules κ) (k j : κ) (b : Body) :
    (r.remove k b).bodies j = if j = k then (r.bodies k).filter (· ≠ b) else r.bodies j := by
  have hl : ∀ es : List (κ × List Body),
      (es.map fun e ↦ if e.1 = k then (e.1, e.2.filter (· ≠ b)) else e).lookup j =
        (es.lookup j).map fun bs ↦ if j = k then bs.filter (· ≠ b) else bs := by
    intro es
    induction es with
    | nil => rfl
    | cons e es ih =>
      obtain ⟨i, bs⟩ := e
      by_cases hi : i = k <;> by_cases hj : j = i <;>
        simp_all [List.lookup_cons, beq_eq_false_iff_ne.2]
  unfold bodies remove
  rw [hl]
  split
  · rename_i h
    subst h
    cases r.entries.lookup j <;> rfl
  · cases r.entries.lookup j <;> rfl

def isWithin (r s : Rules κ) : Bool :=
  r.entries.all fun e ↦ e.1 ∈ s && e.2.all (· ∈ s.bodies e.1)

def agrees (r s : Rules κ) : Bool := r.isWithin s && s.isWithin r

theorem isWithin_iff {r s : Rules κ} :
    r.isWithin s = true ↔ ∀ k ∈ r, k ∈ s ∧ ∀ b ∈ r.bodies k, b ∈ s.bodies k := by
  simp only [isWithin, List.all_eq_true, Bool.and_eq_true, decide_eq_true_eq]
  constructor
  · exact fun h k hk ↦ h _ (mem_entries_of_mem hk)
  · intro h e he
    have hk : e.1 ∈ r := List.mem_map_of_mem he
    simpa [bodies_of_mem_entries he] using h e.1 hk

theorem agrees_iff {r s : Rules κ} :
    r.agrees s = true ↔ ∀ k, (k ∈ r ↔ k ∈ s) ∧ ∀ b, b ∈ r.bodies k ↔ b ∈ s.bodies k := by
  simp only [agrees, Bool.and_eq_true, isWithin_iff]
  constructor
  · intro hx k
    obtain ⟨h, h'⟩ := hx
    exact ⟨⟨fun hk ↦ (h k hk).1, fun hk ↦ (h' k hk).1⟩, fun b ↦
      ⟨fun hb ↦ (h k (mem_of_mem_bodies hb)).2 b hb, fun hb ↦ (h' k (mem_of_mem_bodies hb)).2 b hb⟩⟩
  · exact fun h ↦ ⟨fun k hk ↦ ⟨(h k).1.1 hk, fun b ↦ ((h k).2 b).1⟩,
      fun k hk ↦ ⟨(h k).1.2 hk, fun b ↦ ((h k).2 b).2⟩⟩

end Rules

end ChomskyNormalForm
