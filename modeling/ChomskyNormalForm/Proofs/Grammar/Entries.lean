import ChomskyNormalForm.Proofs.Analysis.Pruned

namespace ChomskyNormalForm

namespace Rules

variable {κ : Type} [DecidableEq κ] {k : κ} {b : Body} {bs cs : List Body}
  {es : List (κ × List Body)} {e : κ × List Body} {r : Rules κ}

theorem mem_putEntry_self (k : κ) (bs : List Body) (es : List (κ × List Body)) :
    (k, bs) ∈ putEntry k bs es := by
  induction es with
  | nil => exact List.mem_cons_self
  | cons d es ih =>
    unfold putEntry
    split
    · exact List.mem_cons_self
    · exact List.mem_cons_of_mem d ih

theorem mem_putEntry_of_ne (he : e ∈ es) (hk : e.1 ≠ k) : e ∈ putEntry k bs es := by
  induction es with
  | nil => exact nomatch he
  | cons d es ih =>
    unfold putEntry
    rcases List.mem_cons.1 he with rfl | he
    · rw [if_neg hk]
      exact List.mem_cons_self
    · split
      · exact List.mem_cons_of_mem _ he
      · exact List.mem_cons_of_mem _ (ih he)

theorem putEntry_putEntry : putEntry k cs (putEntry k bs es) = putEntry k cs es := by
  induction es with
  | nil => exact if_pos rfl
  | cons d es ih =>
    by_cases hd : d.1 = k
    · rw [putEntry, if_pos hd, putEntry, if_pos rfl, putEntry, if_pos hd]
    · rw [putEntry, if_neg hd, putEntry, if_neg hd, ih, putEntry, if_neg hd]

theorem putEntry_of_not_mem (hk : k ∉ es.map Prod.fst) : putEntry k bs es = es ++ [(k, bs)] := by
  induction es with
  | nil => rfl
  | cons d es ih =>
    rw [List.map_cons, List.mem_cons, not_or] at hk
    rw [putEntry, if_neg (Ne.symm hk.1), ih hk.2, List.cons_append]

theorem putEntry_eq_map (hes : (es.map Prod.fst).Nodup) (hk : k ∈ es.map Prod.fst) :
    putEntry k bs es = es.map fun e ↦ if e.1 = k then (k, bs) else e := by
  induction es with
  | nil => exact nomatch hk
  | cons d es ih =>
    obtain ⟨hd, hes⟩ := List.nodup_cons.1 hes
    rw [List.map_cons, putEntry]
    split
    · rename_i h
      subst h
      have hrest : (es.map fun e ↦ if e.1 = d.1 then (d.1, bs) else e) = es.map id :=
        List.map_congr_left fun e he ↦ if_neg (ne_of_mem_of_not_mem (List.mem_map_of_mem he) hd)
      rw [hrest, List.map_id]
    · rename_i h
      rw [ih hes ((List.mem_cons.1 hk).resolve_left (Ne.symm h))]

theorem entries_remove (hk : k ∈ r) :
    (r.remove k b).entries = putEntry k ((r.bodies k).filter (· ≠ b)) r.entries := by
  rw [putEntry_eq_map r.keys_nodup hk]
  refine List.map_congr_left fun e he ↦ ?_
  split
  · rename_i h
    subst h
    rw [bodies_of_mem_entries he]
  · rfl

theorem entries_extend (hk : k ∉ r) (hbs : bs.Nodup) :
    (r.extend k bs).entries = r.entries ++ [(k, bs)] := by
  have hnews : r.news k bs = bs := by
    rw [news, bodies_of_not_mem hk, distinct_eq_self hbs]
    exact List.filter_eq_self.2 fun _ _ ↦ rfl
  have hput : (r.extend k bs).entries = putEntry k (r.bodies k ++ r.news k bs) r.entries := rfl
  rw [hput, bodies_of_not_mem hk, hnews, List.nil_append, putEntry_of_not_mem hk]

theorem extend_eq_self (hk : k ∈ r) (hbs : bs ⊆ r.bodies k) : r.extend k bs = r := by
  have hnews : r.news k bs = [] :=
    List.filter_eq_nil_iff.2 fun b hb ↦ by simpa using hbs (mem_distinct.1 hb)
  have hput : (r.extend k bs).entries = putEntry k (r.bodies k ++ r.news k bs) r.entries := rfl
  refine ext_entries ?_
  rw [hput, hnews, List.append_nil, putEntry_eq_map r.keys_nodup hk]
  refine (List.map_congr_left fun e he ↦ ?_).trans (List.map_id _)
  split
  · rename_i h
    rw [← h, bodies_of_mem_entries he]
    rfl
  · rfl

theorem news_append (r : Rules κ) (k : κ) (bs cs : List Body) :
    r.news k (bs ++ cs) = r.news k bs ++ (r.extend k bs).news k cs := by
  rw [news, news, news, distinct_append, List.filter_append, List.filter_filter,
    bodies_extend, if_pos rfl]
  refine congrArg (_ ++ ·) (List.filter_congr fun b _ ↦ ?_)
  by_cases hb : b ∈ r.bodies k <;> simp [news, hb]

theorem extend_extend (r : Rules κ) (k : κ) (bs cs : List Body) :
    (r.extend k bs).extend k cs = r.extend k (bs ++ cs) := by
  apply ext_entries
  have hextend : ∀ (r : Rules κ) bs, (r.extend k bs).entries =
      putEntry k (r.bodies k ++ r.news k bs) r.entries :=
    fun _ _ ↦ rfl
  rw [hextend, hextend, hextend, putEntry_putEntry, bodies_extend, if_pos rfl,
    List.append_assoc, news_append]

theorem entries_eq_map (r : Rules κ) : r.entries = r.keys.map fun k ↦ (k, r.bodies k) := by
  rw [keys, List.map_map]
  refine (List.map_id _).symm.trans (List.map_congr_left fun e he ↦ ?_)
  rw [Function.comp_apply, bodies_of_mem_entries he]
  rfl

theorem lookup_of_subset (hes : es ⊆ r.entries) (hk : k ∈ es.map Prod.fst) :
    es.lookup k = some (r.bodies k) := by
  obtain ⟨e, he, rfl⟩ := List.mem_map.1 hk
  obtain ⟨bs, hbs⟩ :=
    Option.isSome_iff_exists.1 (List.lookup_isSome_iff.2 ⟨e, he, beq_self_eq_true e.1⟩)
  obtain ⟨l, m, hl, -⟩ := List.lookup_eq_some_iff.1 hbs
  have hm : (e.1, bs) ∈ es := by simp [hl]
  rw [hbs, bodies_of_mem_entries (hes hm)]

theorem entries_ofEntries (hes : (es.map Prod.fst).Nodup) (hbs : ∀ e ∈ es, e.2.Nodup) :
    (ofEntries es).entries = es := by
  have hfold : ∀ (es : List (κ × List Body)) (r : Rules κ), ((r.entries ++ es).map Prod.fst).Nodup →
      (∀ e ∈ es, e.2.Nodup) → (es.foldl (fun r e ↦ r.extend e.1 e.2) r).entries =
      r.entries ++ es := by
    intro es
    induction es with
    | nil => exact fun r _ _ ↦ (List.append_nil _).symm
    | cons e es ih =>
      intro r hr hbs
      rw [List.forall_mem_cons] at hbs
      have hk : e.1 ∉ r := by
        rw [List.map_append, List.nodup_append] at hr
        exact fun hm ↦ hr.2.2 e.1 hm e.1 List.mem_cons_self rfl
      have he : (r.extend e.1 e.2).entries ++ es = r.entries ++ e :: es := by
        rw [entries_extend hk hbs.1, List.append_assoc, List.singleton_append]
      rw [List.foldl_cons, ih _ (he ▸ hr) hbs.2, he]
  exact (hfold es empty hes hbs).trans (List.nil_append es)

end Rules

namespace Grammar

variable {g : Grammar} {v : Symbol} {b : Body} {p q : Symbol → Bool} {f k : Symbol → Body → Bool}

theorem extend_of_mem (hb : b ∈ g.bodies v) : g.extend v [b] = g :=
  congrArg (Grammar.mk g.start) (Rules.extend_eq_self (mem_of_mem_bodies hb) fun _ hc ↦
    List.mem_singleton.1 hc ▸ hb)

theorem extend_cons {bs : List Body} : g.extend v (b :: bs) = (g.extend v [b]).extend v bs :=
  congrArg (Grammar.mk g.start) (Rules.extend_extend g.rules v [b] bs).symm

theorem restrict_restrict : (g.restrict p).restrict q = g.restrict fun v ↦ p v && q v := by
  refine congrArg (Grammar.mk g.start) (Rules.ext_entries (List.filter_filter.trans ?_))
  exact List.filter_congr fun e _ ↦ Bool.and_comm _ _

theorem filterBodies_filterBodies :
    (g.filterBodies f).filterBodies k = g.filterBodies fun v b ↦ f v b && k v b := by
  refine congrArg (Grammar.mk g.start)
    (Rules.ext_entries (List.map_map.trans (List.map_congr_left fun e _ ↦ ?_)))
  refine congrArg (Prod.mk e.1) (List.filter_filter.trans ?_)
  exact List.filter_congr fun b _ ↦ Bool.and_comm _ _

theorem filterBodies_congr (h : ∀ v, ∀ b ∈ g.bodies v, f v b = k v b) :
    g.filterBodies f = g.filterBodies k := by
  refine congrArg (Grammar.mk g.start) (Rules.ext_entries (List.map_congr_left fun e he ↦ ?_))
  refine congrArg (Prod.mk e.1) (List.filter_congr fun b hb ↦ h e.1 b ?_)
  rwa [bodies, Rules.bodies_of_mem_entries he]

theorem remove_eq_filterBodies : g.remove v b = g.filterBodies fun u c ↦
    decide (u = v → c ≠ b) := by
  refine congrArg (Grammar.mk g.start) (Rules.ext_entries (List.map_congr_left fun e _ ↦ ?_))
  split
  · rename_i h
    exact congrArg (Prod.mk e.1) (List.filter_congr fun c _ ↦ by simp [h])
  · rename_i h
    exact congrArg (Prod.mk e.1) (List.filter_eq_self.2 fun c _ ↦ by simp [h]).symm

end Grammar

end ChomskyNormalForm
