import ChomskyNormalForm.Proofs.Grammar.Edits
import ChomskyNormalForm.Proofs.Outcome

namespace ChomskyNormalForm.Grammar

/-- The bodies of `done` stand in `t` as `f` makes them, the other ones as in `g`. -/
def IsRewritten (g : Grammar) (f : Body → Body) (done : Symbol → Body → Prop)
    (t : Grammar) : Prop :=
  ∀ v ∈ g, ∀ b, b ∈ t.bodies v ↔ (∃ d ∈ g.bodies v, done v d ∧ b = f d) ∨ b ∈ g.bodies v ∧ ¬done v b

variable {g t t' : Grammar} {f f' : Body → Body} {done : Symbol → Body → Prop}
  {v : Symbol} {b : Body}

namespace IsRewritten

theorem start (g : Grammar) (f : Body → Body) : g.IsRewritten f (fun _ _ ↦ False) g := by
  intro v _ b
  simp

theorem mem_bodies_iff (h : g.IsRewritten f done t) (hv : v ∈ g) (hd : ∀ b, ¬done v b) :
    b ∈ t.bodies v ↔ b ∈ g.bodies v := by
  simp [h v hv, hd]

theorem mem_bodies_all (h : g.IsRewritten f (fun v b ↦ b ∈ g.bodies v) t) (hv : v ∈ g) :
    b ∈ t.bodies v ↔ ∃ d ∈ g.bodies v, b = f d := by
  simp [h v hv]

theorem congr (h : g.IsRewritten f done t) (hf : ∀ v d, done v d → f' d = f d)
    (ht : ∀ v ∈ g, ∀ b, b ∈ t'.bodies v ↔ b ∈ t.bodies v) : g.IsRewritten f' done t' := by
  intro v hv b
  rw [ht v hv, h v hv]
  refine or_congr_left (exists_congr fun d ↦ and_congr_right fun _ ↦ and_congr_right fun hd ↦ ?_)
  rw [hf v d hd]

theorem skip (h : g.IsRewritten f done t) (hb : b ∈ g.bodies v) (hf : f b = b) :
    g.IsRewritten f (fun u d ↦ done u d ∨ u = v ∧ d = b) t := by
  intro u hu c
  rw [h u hu]
  constructor
  · intro hc
    rcases hc with ⟨d, hd, hdone, hcd⟩ | ⟨hc, hnot⟩
    · exact .inl ⟨d, hd, .inl hdone, hcd⟩
    · by_cases heq : u = v ∧ c = b
      · obtain ⟨rfl, rfl⟩ := heq
        exact .inl ⟨c, hc, .inr ⟨rfl, rfl⟩, hf.symm⟩
      · exact .inr ⟨hc, fun hor ↦ hor.elim hnot heq⟩
  · intro hc
    rcases hc with ⟨d, hd, hdone, rfl⟩ | ⟨hc, hnot⟩
    · by_cases hold : done u d
      · exact .inl ⟨d, hd, hold, rfl⟩
      · obtain ⟨rfl, rfl⟩ := hdone.resolve_left hold
        rw [hf]
        exact .inr ⟨hd, hold⟩
    · exact .inr ⟨hc, fun hd ↦ hnot (.inl hd)⟩

/-- A body makes place for what `f` makes of it. What was made before is kept, for it is not the
body. -/
theorem exchange (h : g.IsRewritten f done t) (hb : b ∈ g.bodies v) (hd : ¬done v b)
    (hne : ∀ d, done v d → f d ≠ b) (hv : ∀ d, d ∈ t'.bodies v ↔ d = f b ∨ d ∈ t.bodies v ∧ d ≠ b)
    (hu : ∀ u ∈ g, u ≠ v → ∀ d, d ∈ t'.bodies u ↔ d ∈ t.bodies u) :
    g.IsRewritten f (fun u d ↦ done u d ∨ u = v ∧ d = b) t' := by
  intro u hug c
  by_cases huv : u = v
  · subst huv
    rw [hv, h u hug]
    constructor
    · intro hc
      rcases hc with rfl | ⟨⟨d, hd, hdone, rfl⟩ | ⟨hc, hnot⟩, hcb⟩
      · exact .inl ⟨b, hb, .inr ⟨rfl, rfl⟩, rfl⟩
      · exact .inl ⟨d, hd, .inl hdone, rfl⟩
      · exact .inr ⟨hc, fun hor ↦ hor.elim hnot fun heq ↦ hcb heq.2⟩
    · intro hc
      rcases hc with ⟨d, hd, hdone | ⟨-, rfl⟩, rfl⟩ | ⟨hc, hnot⟩
      · exact .inr ⟨.inl ⟨d, hd, hdone, rfl⟩, hne d hdone⟩
      · exact .inl rfl
      · rw [not_or, not_and] at hnot
        exact .inr ⟨.inr ⟨hc, hnot.1⟩, hnot.2 rfl⟩
  · rw [hu u hug huv, h u hug]
    simp [huv]

end IsRewritten

open Classical in
def IsRewrittenInPlace (g : Grammar) (f : Body → Body) (done : Symbol → Body → Prop)
    (t : Grammar) : Prop :=
  ∀ v ∈ g, t.bodies v = (g.bodies v).map fun d ↦ if done v d then f d else d

namespace IsRewrittenInPlace

theorem start (g : Grammar) (f : Body → Body) : g.IsRewrittenInPlace f (fun _ _ ↦ False) g := by
  intro v _
  simp

theorem bodies_all (h : g.IsRewrittenInPlace f (fun v b ↦ b ∈ g.bodies v) t) (hv : v ∈ g) :
    t.bodies v = (g.bodies v).map f := by
  rw [h v hv]
  exact List.map_congr_left fun d hd ↦ if_pos hd

theorem exists_mem (h : g.IsRewrittenInPlace f done t) (hv : v ∈ g) (hb : b ∈ t.bodies v) :
    b ∈ g.bodies v ∨ ∃ d ∈ g.bodies v, done v d ∧ b = f d := by
  rw [h v hv] at hb
  obtain ⟨d, hd, rfl⟩ := List.mem_map.1 hb
  split
  · rename_i hdone
    exact .inr ⟨d, hd, hdone, rfl⟩
  · exact .inl hd

theorem congr (h : g.IsRewrittenInPlace f done t) (hf : ∀ v d, done v d → f' d = f d)
    (ht : ∀ v ∈ g, t'.bodies v = t.bodies v) : g.IsRewrittenInPlace f' done t' := by
  intro v hv
  rw [ht v hv, h v hv]
  refine List.map_congr_left fun d _ ↦ ?_
  split
  · rename_i hd
    exact (hf v d hd).symm
  · rfl

theorem skip (h : g.IsRewrittenInPlace f done t) (hf : f b = b) :
    g.IsRewrittenInPlace f (fun u d ↦ done u d ∨ u = v ∧ d = b) t := by
  intro u hu
  rw [h u hu]
  refine List.map_congr_left fun d _ ↦ ?_
  by_cases hdone : done u d
  · rw [if_pos hdone, if_pos (.inl hdone)]
  · by_cases heq : u = v ∧ d = b
    · rw [if_neg hdone, if_pos (.inr heq), heq.2, hf]
    · rw [if_neg hdone, if_neg (not_or.2 ⟨hdone, heq⟩)]

/-- A body makes place for what `f` makes of it, which is not there yet. -/
theorem exchange (h : g.IsRewrittenInPlace f done t) (hv : v ∈ g) (hd : ¬done v b)
    (hne : ∀ d, done v d → f d ≠ b) (hnew : f b ∉ t.bodies v)
    (ht : ∀ u ∈ g, t'.bodies u = (t.replace v b (f b)).bodies u) :
    g.IsRewrittenInPlace f (fun u d ↦ done u d ∨ u = v ∧ d = b) t' := by
  intro u hu
  rw [ht u hu]
  by_cases huv : u = v
  · subst huv
    rw [bodies_replace_of_not_mem hnew, h u hu, List.map_map]
    refine List.map_congr_left fun d _ ↦ ?_
    dsimp only [Function.comp_apply]
    by_cases hdone : done u d
    · rw [if_pos hdone, if_neg (hne d hdone), if_pos (Or.inl hdone)]
    · rw [if_neg hdone]
      by_cases hdb : d = b
      · rw [if_pos hdb, if_pos (Or.inr ⟨rfl, hdb⟩), hdb]
      · rw [if_neg hdb, if_neg (not_or.2 ⟨hdone, fun he ↦ hdb he.2⟩)]
  · rw [bodies_replace_of_ne huv, h u hu]
    refine List.map_congr_left fun d _ ↦ ?_
    dsimp only
    by_cases hdone : done u d
    · rw [if_pos hdone, if_pos (Or.inl hdone)]
    · rw [if_neg hdone, if_neg (not_or.2 ⟨hdone, fun he ↦ huv he.1⟩)]

end IsRewrittenInPlace

section Fold

variable {ε σ : Type} {E : ε → Prop} {T : σ → Grammar} {F : Symbol → σ → Body → Except ε σ}
  {P : (Symbol → Body → Prop) → σ → Prop} {i : σ}

theorem done_congr {done' : Symbol → Body → Prop} (h : P done i)
    (hd : ∀ u d, done u d ↔ done' u d) : P done' i := by
  have he : done = done' := by
    funext u d
    exact propext (hd u d)
  exact he ▸ h

variable (same : ∀ done i v, P done i → v ∈ g → (∀ b, ¬done v b) → ∀ b, b ∈ (T i).bodies v ↔
  b ∈ g.bodies v) (step : ∀ done i v b, P done i → b ∈ g.bodies v → ¬done v b →
    Ends E (F v i b) (P fun u d ↦ done u d ∨ u = v ∧ d = b))

include same step

theorem ends_foldlM_bodies {l : List Symbol} (h : P (fun u d ↦ u ∈ l ∧ d ∈ g.bodies u) i)
    (hv : v ∈ g) (hl : v ∉ l) :
    Ends E (((T i).bodies v).foldlM (F v) i) (P fun u d ↦ u ∈ v :: l ∧ d ∈ g.bodies u) := by
  have hb := same _ i v h hv fun b hd ↦ hl hd.1
  have hfold := Ends.foldlM (E := E) (f := F v) (l := (T i).bodies v) (d := []) (s := i)
    (I := fun bs i ↦ P (fun u d ↦ (u ∈ l ∧ d ∈ g.bodies u) ∨ u = v ∧ d ∈ bs) i)
    (fun bs j b hb' hbs hj ↦ ?_) (Rules.nodup_bodies _ v) (fun _ _ ↦ List.not_mem_nil)
    (done_congr h fun u d ↦ by simp)
  · refine hfold.mono fun j hj ↦ done_congr hj fun u d ↦ ?_
    rw [List.append_nil, List.mem_reverse, hb, List.mem_cons, or_and_right, or_comm]
    refine or_congr_left (and_congr_right fun he ↦ ?_)
    rw [he]
  · refine (step _ j v b hj ((hb b).1 hb') ?_).mono fun k hk ↦ done_congr hk fun u d ↦ ?_
    · simp [hl, hbs]
    · rw [List.mem_cons, and_or_left, or_assoc, or_comm (a := u = v ∧ d = b)]

/-- Work on the bodies of each variable in turn is work on all bodies. -/
theorem ends_foldlM_sortedHeads (start : P (fun _ _ ↦ False) i) :
    Ends E (g.sortedHeads.foldlM (fun i v ↦ ((T i).bodies v).foldlM (F v) i) i)
    (P fun v b ↦ b ∈ g.bodies v) := by
  have hfold := Ends.foldlM (E := E) (l := g.sortedHeads) (d := [])
    (f := fun i v ↦ ((T i).bodies v).foldlM (F v) i) (I := fun l i ↦ P (fun u d ↦ u ∈ l ∧
      d ∈ g.bodies u) i)
    (fun l i v hv hl hi ↦ ends_foldlM_bodies same step hi (mem_sortedHeads.1 hv) hl)
    ((nodup_sortBy _).2 g.nodup_heads) (fun _ _ ↦ List.not_mem_nil)
    (done_congr start fun u d ↦ by simp)
  refine hfold.mono fun j hj ↦ done_congr hj fun u d ↦ ?_
  rw [List.append_nil, List.mem_reverse, mem_sortedHeads, and_iff_right_iff_imp]
  exact mem_of_mem_bodies

end Fold

end ChomskyNormalForm.Grammar
