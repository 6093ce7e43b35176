import ChomskyNormalForm.Proofs.Allocator

namespace ChomskyNormalForm

variable {name : String} {names inUse : List String} {a b c : Allocator}

theorem find?_range_eq {p : Nat → Bool} {k : Nat} (h : ∀ i < k, p i = false) (m : Nat) :
    (List.range m).find? p = (List.range' k (m - k)).find? p := by
  induction k with
  | zero => rw [List.range_eq_range', Nat.sub_zero]
  | succ k ih =>
    rw [ih fun i hi ↦ h i (by omega)]
    cases hm : m - k with
    | zero =>
      have hm' : m - (k + 1) = 0 := by omega
      rw [hm']
      rfl
    | succ n =>
      have hn : m - (k + 1) = n := by omega
      rw [hn, List.range'_succ, List.find?_cons, h k (by omega)]

namespace Allocator

def candidates (limit : Int) : List String := letters ++ (List.range limit.toNat).map (numbered "D")

def firstUnused (limit : Int) (inUse : List String) : Option String :=
  (candidates limit).find? (· ∉ inUse)

def setCursor (a : Allocator) (k : Nat) : Allocator := { a with cursor := k }

@[simp] theorem used_setCursor {k : Nat} : (a.setCursor k).used = a.used := rfl

@[simp] theorem limit_setCursor {k : Nat} : (a.setCursor k).limit = a.limit := rfl

/-- The state of a supply with `inUse` as the names in use: no number below the cursor is free. -/
structure Knows (a : Allocator) (inUse : List String) : Prop where
  used : ∀ n, n ∈ a.used ↔ n ∈ inUse
  passed : ∀ i < a.cursor, numbered "D" i ∈ inUse

namespace Knows

theorem congr (h : a.Knows inUse) (hn : ∀ n, n ∈ inUse ↔ n ∈ names) : a.Knows names where
  used n := (h.used n).trans (hn n)
  passed i hi := (hn _).1 (h.passed i hi)

theorem find?_letters (h : a.Knows inUse) :
    letters.find? (· ∉ a.used) = letters.find? (· ∉ inUse) := by
  simp only [h.used]

theorem firstFree_eq (h : a.Knows inUse) :
    (firstFree (numbered "D") a.used (a.limit - a.cursor).toNat a.cursor).map (numbered "D") =
      ((List.range a.limit.toNat).map (numbered "D")).find? (· ∉ inUse) := by
  have hfuel : (a.limit - a.cursor).toNat = a.limit.toNat - a.cursor := by omega
  have hpassed : ∀ i < a.cursor, decide (numbered "D" i ∉ inUse) = false := by
    intro i hi
    simpa using h.passed i hi
  rw [firstFree_eq_find?, hfuel, List.find?_map]
  simp only [h.used]
  exact congrArg _ (find?_range_eq hpassed _).symm

theorem passed_of_firstFree (h : a.Knows inUse) {fuel i : Nat}
    (hi : firstFree (numbered "D") a.used fuel a.cursor = some i) :
    ∀ j < i + 1, numbered "D" j ∈ numbered "D" i :: inUse := by
  intro j hj
  rw [firstFree_eq_find?, List.find?_range'_eq_some] at hi
  by_cases he : j = i
  · rw [he]
    exact List.mem_cons_self
  · apply List.mem_cons_of_mem
    by_cases hc : j < a.cursor
    · exact h.passed j hc
    · have hu := hi.2.2 j (by omega) (by omega)
      exact (h.used _).1 (by simpa using hu)

/-- The answer to a request depends on the names in use only, and what it leaves on the cursor
besides. -/
theorem request_eq (h : a.Knows inUse) :
    ∃ k, (∀ i < k, numbered "D" i ∈ (firstUnused a.limit inUse).toList ++ inUse) ∧
      a.request = match firstUnused a.limit inUse with
        | some name => (.ok name, ((a.setCursor k).take name).2)
        | none => (.error (.namesExhausted a.limit), a.setCursor k) := by
  unfold request allocate
  rw [h.find?_letters, firstUnused, candidates, List.find?_append, ← h.firstFree_eq]
  cases hl : letters.find? (· ∉ inUse) with
  | some letter =>
    exact ⟨a.cursor, fun i hi ↦ List.mem_append_right _ (h.passed i hi), rfl⟩
  | none =>
    cases hf : firstFree (numbered "D") a.used (a.limit - a.cursor).toNat a.cursor with
    | some i => exact ⟨i + 1, h.passed_of_firstFree hf, rfl⟩
    | none =>
      refine ⟨max a.cursor a.limit.toNat, fun i hi ↦ ?_, rfl⟩
      by_cases hc : i < a.cursor
      · exact h.passed i hc
      · exact (h.used _).1 (firstFree_eq_none hf i (by omega) (by omega))

theorem take (h : a.Knows inUse) {k : Nat} (hk : ∀ i < k, numbered "D" i ∈ name :: inUse) :
    ((a.setCursor k).take name).2.Knows (name :: inUse) where
  used n := by simp only [Allocator.take, used_setCursor, mem_insert_iff, List.mem_cons, h.used]
  passed := hk

theorem reserve (h : a.Knows inUse) (names : List String) :
    (a.reserve names).Knows (names ++ inUse) where
  used n := by rw [mem_used_reserve, List.mem_append, h.used, or_comm]
  passed i hi := List.mem_append_right _ (h.passed i hi)

end Knows

theorem knows_new (used : List String) (limit : Int) : (new used limit).Knows used where
  used _ := mem_used_new
  passed _ hi := absurd hi (Nat.not_lt_zero _)

def handedOut (answers : List (Except Fault (Option String))) : List String :=
  answers.filterMap fun answer ↦ answer.toOption.join

/-- `b` is what is left of `a` after `answers`, where `inUse` were the names in use and `reserved`
came to them from outside. -/
structure Serves (a : Allocator) (inUse reserved : List String)
    (answers : List (Except Fault (Option String))) (b : Allocator) : Prop where
  limit : b.limit = a.limit
  knows : b.Knows (handedOut answers ++ reserved ++ inUse)
  allocated : b.allocated.toList = a.allocated.toList ++ handedOut answers
  fresh : ∀ n ∈ handedOut answers, n ∉ inUse
  nodup : (handedOut answers).Nodup

variable {answers more : List (Except Fault (Option String))} {reserved later : List String}

theorem Serves.refl (h : a.Knows inUse) : a.Serves inUse [] [] a where
  limit := rfl
  knows := h
  allocated := by simp [handedOut]
  fresh := by simp [handedOut]
  nodup := .nil

theorem Serves.trans (h : a.Serves inUse reserved answers b)
    (h' : b.Serves (handedOut answers ++ reserved ++ inUse) later more c) :
    a.Serves inUse (reserved ++ later) (answers ++ more) c where
  limit := h'.limit.trans h.limit
  knows := by
    refine h'.knows.congr fun n ↦ ?_
    simp only [handedOut, List.filterMap_append, List.mem_append]
    tauto
  allocated := by
    rw [h'.allocated, h.allocated, handedOut, handedOut, handedOut, List.filterMap_append,
      List.append_assoc]
  fresh n hn := by
    rw [handedOut, List.filterMap_append] at hn
    rcases List.mem_append.1 hn with hn | hn
    · exact h.fresh n hn
    · exact fun hi ↦ h'.fresh n hn (List.mem_append_right _ hi)
  nodup := by
    rw [handedOut, List.filterMap_append]
    refine List.nodup_append.2 ⟨h.nodup, h'.nodup, fun n hn m hm he ↦ ?_⟩
    subst he
    exact h'.fresh n hm (List.mem_append_left _ (List.mem_append_left _ hn))

theorem firstUnused_not_mem {limit : Int} (h : firstUnused limit inUse = some name) :
    name ∉ inUse := by
  simpa using List.find?_some h

theorem serves_step (h : a.Knows inUse) (op : AllocatorOp) :
    a.Serves inUse op.reserved [(a.step op).1] (a.step op).2 := by
  cases op with
  | reserve names =>
    exact ⟨rfl, h.reserve names, (List.append_nil _).symm, List.forall_mem_nil _, .nil⟩
  | allocate =>
    obtain ⟨k, hk, he⟩ := h.request_eq
    rw [step, he]
    cases hf : firstUnused a.limit inUse with
    | none =>
      rw [hf] at hk
      exact ⟨rfl, ⟨h.used, hk⟩, (List.append_nil _).symm, List.forall_mem_nil _, .nil⟩
    | some name =>
      rw [hf] at hk
      refine ⟨rfl, h.take hk, Array.toList_push .., ?_, List.nodup_singleton _⟩
      exact List.forall_mem_singleton.2 (firstUnused_not_mem hf)

theorem run_cons (a : Allocator) (op : AllocatorOp) (ops : List AllocatorOp) :
    run (op :: ops) a = ((a.step op).1 :: (run ops (a.step op).2).1, (run ops (a.step op).2).2) :=
  rfl

theorem serves_run (h : a.Knows inUse) (ops : List AllocatorOp) :
    a.Serves inUse (ops.flatMap AllocatorOp.reserved) (run ops a).1 (run ops a).2 := by
  induction ops generalizing a inUse with
  | nil => exact .refl h
  | cons op ops ih =>
    have hs := serves_step h op
    exact hs.trans (ih hs.knows)

theorem step_setCursor {k : Nat} (h : a.Knows inUse) (hk : (a.setCursor k).Knows inUse)
    (op : AllocatorOp) :
    ∃ m, (a.setCursor k).step op = ((a.step op).1, (a.step op).2.setCursor m) := by
  cases op with
  | reserve names => exact ⟨k, rfl⟩
  | allocate =>
    obtain ⟨i, -, hi⟩ := h.request_eq
    obtain ⟨j, -, hj⟩ := hk.request_eq
    rw [step, step, hi, hj, limit_setCursor]
    cases firstUnused a.limit inUse with
    | none => exact ⟨j, rfl⟩
    | some name => exact ⟨j, rfl⟩

/-- No answer tells how many used numbers the cursor has behind it. -/
theorem run_setCursor {k : Nat} (h : a.Knows inUse) (hk : (a.setCursor k).Knows inUse)
    (ops : List AllocatorOp) :
    ∃ m, run ops (a.setCursor k) = ((run ops a).1, (run ops a).2.setCursor m) := by
  induction ops generalizing a inUse k with
  | nil => exact ⟨k, rfl⟩
  | cons op ops ih =>
    obtain ⟨m, hm⟩ := step_setCursor h hk op
    have hs := serves_step hk op
    rw [hm] at hs
    obtain ⟨l, hl⟩ := ih (serves_step h op).knows hs.knows
    exact ⟨l, by rw [run_cons, run_cons, hm, hl]⟩

/-- After any calls for names and reservations a request is answered with the first name of the
sequence that was neither in use at the start nor reserved nor handed out; it fails if there is
none, and then nothing but the cursor is other than before, which no later call can tell. -/
theorem request_first_unused (used : List String) (limit : Int) (ops : List AllocatorOp) :
    ∃ answers a, run ops (new used limit) = (answers, a) ∧
      (∀ n, n ∈ a.used ↔ n ∈ handedOut answers ++ ops.flatMap AllocatorOp.reserved ++ used) ∧
      a.allocated.toList = handedOut answers ∧ a.allocated.toList.Nodup ∧
      ((∃ name b,
          firstUnused limit (handedOut answers ++ ops.flatMap AllocatorOp.reserved ++ used) =
            some name ∧
          a.request = (.ok name, b) ∧ name ∉ a.used ∧ b.allocated = a.allocated.push name) ∨
        (firstUnused limit (handedOut answers ++ ops.flatMap AllocatorOp.reserved ++ used) = none ∧
          ∃ b, a.request = (.error (.namesExhausted limit), b) ∧ b.used = a.used ∧
            b.allocated = a.allocated ∧
            ∀ more, (run more b).1 = (run more a).1 ∧ (run more b).2.used = (run more a).2.used ∧
              (run more b).2.allocated = (run more a).2.allocated)) := by
  have hs := serves_run (knows_new used limit) ops
  generalize run ops (new used limit) = result at hs ⊢
  obtain ⟨answers, a⟩ := result
  obtain ⟨k, hk, he⟩ := hs.knows.request_eq
  have hl : a.limit = limit := hs.limit
  rw [hl] at hk he
  refine ⟨answers, a, rfl, hs.knows.used, hs.allocated, hs.allocated ▸ hs.nodup, ?_⟩
  cases hf : firstUnused limit (handedOut answers ++ ops.flatMap AllocatorOp.reserved ++ used) with
  | some name =>
    rw [hf] at he
    refine .inl ⟨name, _, rfl, he, ?_, rfl⟩
    rw [hs.knows.used]
    exact firstUnused_not_mem hf
  | none =>
    rw [hf] at hk he
    refine .inr ⟨rfl, _, he, rfl, rfl, fun more ↦ ?_⟩
    have hc :
        (a.setCursor k).Knows (handedOut answers ++ ops.flatMap AllocatorOp.reserved ++ used) :=
      ⟨hs.knows.used, hk⟩
    obtain ⟨m, hm⟩ := run_setCursor hs.knows hc more
    rw [hm]
    exact ⟨rfl, rfl, rfl⟩

end Allocator

end ChomskyNormalForm
