import ChomskyNormalForm.Grammar.Legal
import ChomskyNormalForm.Proofs.Language.Reach
import ChomskyNormalForm.Proofs.Outcome

namespace ChomskyNormalForm

namespace Symbol

def IsLegal : Symbol → Prop
  | terminal a => isTerminalText a.toList = true
  | var name => isVarName name.toList = true
  | _ => False

variable {s head : Symbol} {b : Body}

theorem checkVar_eq_ok : s.checkVar = .ok () ↔ s.isVar = true ∧ s.IsLegal := by
  cases s with
  | var name => simp only [checkVar, isVar, IsLegal]; split <;> simp_all
  | terminal a => simp [checkVar, isVar]
  | epsilon => simp [checkVar, isVar]
  | foreign t => simp [checkVar, isVar]

theorem check_eq_ok : check head b s = .ok () ↔ s = .epsilon ∨ s.IsLegal := by
  cases s with
  | var name => simp [check, checkVar_eq_ok, isVar]
  | terminal a => simp only [check, IsLegal]; split <;> simp_all
  | epsilon => simp [check]
  | foreign t => simp [check, IsLegal]

theorem IsLegal.ne_epsilon (h : s.IsLegal) : s ≠ .epsilon := by
  intro hx
  subst hx
  exact h

theorem IsLegal.toList_ne_nil {a : String} (h : (terminal a).IsLegal) : a.toList ≠ [] := by
  intro ha
  rw [IsLegal, ha] at h
  exact absurd h (by decide)

end Symbol

namespace Body

variable {b : Body} {head : Symbol}

def IsLegal (b : Body) : Prop := b = Body.epsilon ∨ b ≠ [] ∧ ∀ s ∈ b, s.IsLegal

theorem check_eq_ok : b.check head = .ok () ↔ b.IsLegal := by
  unfold check IsLegal
  by_cases hb : b = []
  · simp [hb]
  · rw [if_neg hb]
    by_cases he : Symbol.epsilon ∈ b ∧ 1 < b.length
    · rw [if_pos he]
      constructor
      · intro h
        exact nomatch h
      intro h
      rcases h with rfl | ⟨-, h⟩
      · exact absurd he.2 (by simp)
      · exact absurd rfl (h _ he.1).ne_epsilon
    · rw [if_neg he, forM_eq_ok]
      simp only [Symbol.check_eq_ok]
      constructor
      · intro h
        by_cases hm : Symbol.epsilon ∈ b
        · left
          match b, hb, hm with
          | [s], _, hm => rw [← List.mem_singleton.1 hm]
          | s :: t :: c, _, hm => exact absurd ⟨hm, by simp⟩ he
        · refine .inr ⟨hb, fun s hs ↦ (h s hs).resolve_left fun he ↦ hm (he ▸ hs)⟩
      · intro h s hs
        rcases h with rfl | ⟨-, h⟩
        · exact .inl (List.mem_singleton.1 hs)
        · exact .inr (h s hs)

theorem IsLegal.ne_nil (h : b.IsLegal) : b ≠ [] := by
  rcases h with rfl | ⟨h, -⟩
  · simp
  · exact h

theorem IsLegal.isEpsilon_eq_false (h : b.IsLegal) (hb : b ≠ Body.epsilon) : ∀ s ∈ b, s.IsLegal :=
  (h.resolve_left hb).2

end Body

namespace Grammar

variable {g : Grammar} {u v : Symbol} {b : Body}

structure IsLegal (g : Grammar) : Prop where
  start_mem : g.start ∈ g
  head : ∀ v ∈ g, v.isVar = true ∧ v.IsLegal
  body : ∀ v, ∀ b ∈ g.bodies v, b.IsLegal
  closed : ∀ v u, g.Mentions v u → u ∈ g

theorem IsLegal.isVar_start (hg : g.IsLegal) : g.start.isVar = true := (hg.head _ hg.start_mem).1

theorem checkEntry_eq_ok {e : Symbol × List Body} :
    checkEntry e = .ok () ↔ (e.1.isVar = true ∧ e.1.IsLegal) ∧ ∀ b ∈ e.2, b.IsLegal := by
  have h : checkEntry e = e.1.checkVar >>= fun _ ↦ e.2.forM (Body.check e.1) := rfl
  rw [h, bind_unit_eq_ok, forM_eq_ok, Symbol.checkVar_eq_ok]
  simp only [Body.check_eq_ok]

theorem forall_mem_entries {p : Symbol → List Body → Prop} :
    (∀ e ∈ g.rules.entries, p e.1 e.2) ↔ ∀ v ∈ g, p v (g.bodies v) := by
  constructor
  · intro h v hv
    exact h _ (Rules.mem_entries_of_mem hv)
  · intro h e he
    have hp := h e.1 (List.mem_map_of_mem he)
    rwa [bodies, Rules.bodies_of_mem_entries he] at hp

def checkClosed (g : Grammar) : Except GrammarFault Unit :=
  if g.start ∉ g then .error (.undefinedStart g.start)
  else match g.dangling with
    | [] => .ok ()
    | vs => .error (.undeclared vs)

theorem checkClosed_eq_ok : g.checkClosed = .ok () ↔ g.start ∈ g ∧
    ∀ v u, g.Mentions v u → u ∈ g := by
  constructor
  · intro h
    unfold checkClosed at h
    split at h
    · exact nomatch h
    · rename_i hs
      split at h
      · rename_i hd
        refine ⟨not_not.1 hs, fun v u hu ↦ ?_⟩
        by_contra hg
        have hm : u ∈ g.dangling := mem_dangling.2 ⟨⟨v, hu⟩, hg⟩
        rw [hd] at hm
        exact List.not_mem_nil hm
      · exact nomatch h
  · intro h
    have hd : g.dangling = [] := by
      refine List.eq_nil_iff_forall_not_mem.2 fun u hu ↦ ?_
      obtain ⟨⟨v, hm⟩, hg⟩ := mem_dangling.1 hu
      exact hg (h.2 v u hm)
    rw [checkClosed, if_neg (not_not.2 h.1), hd]

theorem check_eq_ok_iff : g.check = .ok () ↔ g.IsLegal := by
  have h : g.check = g.start.checkVar >>= fun _ ↦ g.rules.entries.forM checkEntry >>= fun _ ↦
      g.checkClosed := rfl
  rw [h, bind_unit_eq_ok, bind_unit_eq_ok, Symbol.checkVar_eq_ok, forM_eq_ok, checkClosed_eq_ok]
  simp only [checkEntry_eq_ok]
  rw [forall_mem_entries (p := fun v bs ↦ (v.isVar = true ∧ v.IsLegal) ∧ ∀ b ∈ bs, b.IsLegal)]
  constructor
  · intro h
    obtain ⟨-, he, hs, hc⟩ := h
    exact ⟨hs, fun v hv ↦ (he v hv).1, fun v b hb ↦ (he v (mem_of_mem_bodies hb)).2 b hb, hc⟩
  · intro h
    exact ⟨h.head _ h.start_mem, fun v hv ↦ ⟨h.head v hv, h.body v⟩, h.start_mem, h.closed⟩

end Grammar

end ChomskyNormalForm
