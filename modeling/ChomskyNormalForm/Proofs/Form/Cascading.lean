import ChomskyNormalForm.Proofs.Form.Chain
import ChomskyNormalForm.Proofs.Form.Isolation

namespace ChomskyNormalForm

namespace CascadeCache

/-- The helpers of each body are chained to what it stands for, and have no other body. -/
structure IsConsistent (cache : CascadeCache) (g : Grammar) : Prop where
  functional : ∀ e ∈ cache, cache.lookup e.1 = some e.2
  long : ∀ e ∈ cache, 3 ≤ e.1.length
  length : ∀ e ∈ cache, e.2.length + 2 = e.1.length
  helper : ∀ e ∈ cache, ∀ h ∈ e.2, h.isVar = true ∧ h ≠ g.start
  link : ∀ e ∈ cache, ∀ p ∈ chain e.1.tail e.2, ∀ b, b ∈ g.bodies p.head ↔ b = p.body

variable {cache more : CascadeCache} {g g' : Grammar} {b : Body} {hs : List Symbol} {h : Symbol}

theorem mem_of_lookup (hb : cache.lookup b = some hs) : (b, hs) ∈ cache := by
  obtain ⟨l, r, rfl, -⟩ := List.lookup_eq_some_iff.1 hb
  simp

theorem isConsistent_nil (g : Grammar) : IsConsistent [] g := by
  constructor <;> exact fun e he ↦ absurd he List.not_mem_nil

theorem IsConsistent.length_tail (hc : cache.IsConsistent g) {e : Body × List Symbol}
    (he : e ∈ cache) :
    e.2.length + 1 = e.1.tail.length := by
  have hl := hc.length e he
  have h3 := hc.long e he
  rw [List.length_tail]
  omega

theorem IsConsistent.exists_link (hc : cache.IsConsistent g) {e : Body × List Symbol}
    (he : e ∈ cache) (hh : h ∈ e.2) :
    ∃ p ∈ chain e.1.tail e.2, p.head = h := by
  rw [← map_head_chain (hc.length_tail he)] at hh
  exact List.mem_map.1 hh

theorem IsConsistent.head_mem (hc : cache.IsConsistent g) {e : Body × List Symbol} (he : e ∈ cache)
    {p : Production} (hp : p ∈ chain e.1.tail e.2) : p.head ∈ e.2 := by
  rw [← map_head_chain (hc.length_tail he)]
  exact List.mem_map_of_mem hp

theorem IsConsistent.unique {hs' : List Symbol} (hc : cache.IsConsistent g) (he : (b, hs) ∈ cache)
    (he' : (b, hs') ∈ cache) : hs = hs' := by
  have h := hc.functional _ he
  rw [hc.functional _ he', Option.some_inj] at h
  exact h.symm

theorem IsConsistent.lookup_append (hc : cache.IsConsistent g) {e : Body × List Symbol}
    (he : e ∈ cache) :
    (cache ++ more).lookup e.1 = cache.lookup e.1 := by
  rw [List.lookup_append, hc.functional e he]
  rfl

theorem IsConsistent.congr (hc : cache.IsConsistent g) (hs : g'.start = g.start)
    (hb : ∀ e ∈ cache, ∀ p ∈ chain e.1.tail e.2, ∀ d, d ∈ g'.bodies p.head ↔ d ∈ g.bodies p.head) :
    cache.IsConsistent g' where
  functional := hc.functional
  long := hc.long
  length := hc.length
  helper e he h hh := by
    rw [hs]
    exact hc.helper e he h hh
  link e he p hp d := (hb e he p hp d).trans (hc.link e he p hp d)

theorem IsConsistent.concat (hc : cache.IsConsistent g) (hb : cache.lookup b = none)
    (hl : 3 ≤ b.length) (hlen : hs.length + 2 = b.length)
    (hh : ∀ h ∈ hs, h.isVar = true ∧ h ≠ g.start)
    (hlink : ∀ p ∈ chain b.tail hs, ∀ d, d ∈ g.bodies p.head ↔ d = p.body) :
    (cache ++ [(b, hs)]).IsConsistent g where
  functional := by
    refine List.forall_mem_append.2 ⟨fun e he ↦ ?_, List.forall_mem_singleton.2 ?_⟩
    · exact (hc.lookup_append he).trans (hc.functional e he)
    · rw [List.lookup_append, hb]
      simp
  long := List.forall_mem_append.2 ⟨hc.long, List.forall_mem_singleton.2 hl⟩
  length := List.forall_mem_append.2 ⟨hc.length, List.forall_mem_singleton.2 hlen⟩
  helper := List.forall_mem_append.2 ⟨hc.helper, List.forall_mem_singleton.2 hh⟩
  link := List.forall_mem_append.2 ⟨hc.link, List.forall_mem_singleton.2 hlink⟩

theorem IsConsistent.mem (hc : cache.IsConsistent g) {e : Body × List Symbol} (he : e ∈ cache)
    (hh : h ∈ e.2) :
    h ∈ g := by
  obtain ⟨p, hp, rfl⟩ := hc.exists_link he hh
  exact Grammar.mem_of_mem_bodies ((hc.link e he p hp _).2 rfl)

end CascadeCache

namespace Body

variable {cache more : CascadeCache} {b : Body} {hs : List Symbol}

def shortened (cache : CascadeCache) (b : Body) : Body :=
  if b.length < 3 then b else b.take 1 ++ ((cache.lookup b).bind List.head?).toList

theorem shortened_of_length_lt (h : b.length < 3) : b.shortened cache = b := if_pos h

theorem length_shortened_lt (cache : CascadeCache) (b : Body) : (b.shortened cache).length < 3 := by
  unfold shortened
  split
  · assumption
  · rw [List.length_append, List.length_take]
    cases (cache.lookup b).bind List.head? with
    | none =>
      rw [Option.toList_none, List.length_nil]
      omega
    | some h =>
      rw [Option.toList_some, List.length_singleton]
      omega

theorem shortened_ne {d : Body} (hl : 3 ≤ d.length) (cache : CascadeCache) (b : Body) :
    b.shortened cache ≠ d := by
  intro heq
  have hlt := length_shortened_lt cache b
  rw [heq] at hlt
  omega

theorem shortened_eq {s : Symbol} (hb : cache.lookup (s :: b) = some hs) (hl : 2 ≤ b.length) :
    Body.shortened cache (s :: b) = s :: hs.head?.toList := by
  rw [shortened, if_neg (by simp; omega), hb]
  rfl

theorem shortened_congr (h : 3 ≤ b.length → cache.lookup b = more.lookup b) :
    b.shortened cache = b.shortened more := by
  unfold shortened
  split
  · rfl
  · rw [h (by omega)]

end Body

theorem CascadeCache.IsConsistent.exists_shortened {cache : CascadeCache} {g : Grammar} {b : Body}
    {hs : List Symbol} (hc : cache.IsConsistent g) (he : (b, hs) ∈ cache) :
    ∃ first tail x rest, b = first :: tail ∧ hs = x :: rest ∧ b.shortened cache = [first, x] := by
  have hl := hc.long _ he
  have hlen := hc.length _ he
  match b, hs with
  | [], _ => exact nomatch hl
  | first :: tail, [] =>
    dsimp only [List.length_nil, List.length_cons] at hl hlen
    omega
  | first :: tail, x :: rest =>
    refine ⟨first, tail, x, rest, rfl, rfl, ?_⟩
    rw [Body.shortened_eq (hc.functional _ he) (by simpa using hl)]
    rfl

/-- What holds of the splitting of long bodies once those in `done` are split. -/
structure Cascading (s : Session) (a : Allocator) (done : Symbol → Body → Prop)
    (c : Cascade) : Prop where
  start_eq : c.session.grammar.start = s.grammar.start
  mem : ∀ v, v ∈ c.session.grammar ↔ v ∈ s.grammar ∨ ∃ e ∈ c.cache, v ∈ e.2
  bodies : s.grammar.IsRewritten (Body.shortened c.cache) done c.session.grammar
  consistent : c.cache.IsConsistent c.session.grammar
  covered : ∀ v d, done v d → 3 ≤ d.length → ∃ hs, (d, hs) ∈ c.cache
  symbols : ∀ e ∈ c.cache, ∀ r ∈ e.1.tail, ∃ v, ∃ d ∈ s.grammar.bodies v, 2 ≤ d.length ∧ r ∈ d
  origin : ∀ e ∈ c.cache, (∀ h ∈ e.2, h ∈ s.grammar) ∨ ∃ v, e.1 ∈ s.grammar.bodies v ∧ done v e.1
  legal : ∀ e ∈ c.cache, ∀ h ∈ e.2, h.IsLegal
  supply : ∃ names, a.Supplies names c.allocator ∧ c.session.helpers = s.helpers ++ names.map .var ∧
    ∀ e ∈ c.cache, ∀ h ∈ e.2, h ∈ s.grammar ∨ h ∈ names.map .var
  used : ∀ v ∈ c.session.grammar, v.text ∈ c.allocator.used

namespace Session

variable {s : Session} {u : Symbol} {b : Body} {ps : List Production}

def addLinks (s : Session) (ps : List Production) : Session :=
  ps.foldl (·.commitProduction · .addBinaryRule) s

theorem start_addLinks : (s.addLinks ps).grammar.start = s.grammar.start := by
  induction ps generalizing s with
  | nil => rfl
  | cons p ps ih => exact ih.trans start_commitProduction

theorem helpers_addLinks : (s.addLinks ps).helpers = s.helpers := by
  induction ps generalizing s with
  | nil => rfl
  | cons p ps ih => exact ih.trans (helpers_commitProduction.trans (List.append_nil _))

theorem mem_addLinks : u ∈ (s.addLinks ps).grammar ↔ u ∈ s.grammar ∨ ∃ p ∈ ps, p.head = u := by
  induction ps generalizing s with
  | nil => simp [addLinks]
  | cons p ps ih =>
    refine ih.trans ?_
    rw [mem_commitProduction, or_assoc]
    simp [eq_comm]

theorem mem_bodies_addLinks : b ∈ (s.addLinks ps).grammar.bodies u ↔
    b ∈ s.grammar.bodies u ∨ ∃ p ∈ ps, p.head = u ∧ b = p.body := by
  induction ps generalizing s with
  | nil => simp [addLinks]
  | cons p ps ih =>
    refine ih.trans ?_
    rw [mem_bodies_commitProduction, or_assoc]
    simp [eq_comm (a := u)]

theorem bodies_addLinks_of_ne (h : ∀ p ∈ ps, p.head ≠ u) :
    (s.addLinks ps).grammar.bodies u = s.grammar.bodies u := by
  induction ps generalizing s with
  | nil => rfl
  | cons p ps ih =>
    rw [List.forall_mem_cons] at h
    exact (ih h.2).trans (bodies_commitProduction_of_ne h.1)

theorem mem_bodies_addLinks_of_ne (h : ∀ p ∈ ps, p.head ≠ u) :
    b ∈ (s.addLinks ps).grammar.bodies u ↔ b ∈ s.grammar.bodies u := by
  rw [bodies_addLinks_of_ne h]

theorem mem_bodies_addLinks_head (hps : (ps.map Production.head).Nodup)
    {p : Production} (hp : p ∈ ps) (hnew : p.head ∉ s.grammar) :
    b ∈ (s.addLinks ps).grammar.bodies p.head ↔ b = p.body := by
  rw [mem_bodies_addLinks, Grammar.bodies_of_not_mem hnew]
  constructor
  · intro h
    obtain ⟨q, hq, hqp, rfl⟩ := h.resolve_left List.not_mem_nil
    rw [List.inj_on_of_nodup_map hps hq hp hqp]
  · intro hb
    exact .inr ⟨p, hp, rfl, hb⟩

end Session

inductive Cascade.Splits (v : Symbol) (c : Cascade) (b : Body) : Except Halt Cascade → Prop
  | short : b.length < 3 → Splits v c b (.ok c)
  | shared {helpers : List Symbol} {t : Session} : 3 ≤ b.length → c.cache.lookup b = some helpers →
      t.grammar = c.session.grammar.replace v b (b.shortened c.cache) →
      t.helpers = c.session.helpers →
      Splits v c b (.ok ⟨t, c.allocator, c.cache⟩)
  | exhausted {h : Halt} : h.IsExhaustion → Splits v c b (.error h)
  | chained {names : List String} {allocator : Allocator} {t : Session} :
      3 ≤ b.length → c.cache.lookup b = none →
      Allocator.allocateMany (b.length - 2) c.allocator = some (names, allocator) →
      t.grammar = c.session.grammar.replace v b (b.shortened (c.cache ++ [(b, names.map .var)])) →
      t.helpers = c.session.helpers ++ names.map Symbol.var →
      Splits v c b (.ok ⟨t.addLinks (chain b.tail (names.map .var)), allocator,
        c.cache ++ [(b, names.map .var)]⟩)

theorem Cascade.splits_body (v : Symbol) (c : Cascade) (b : Body) :
    Splits v c b (Cascade.body v c b) := by
  unfold Cascade.body
  split
  · rename_i first second third rest
    have hl : 3 ≤ (first :: second :: third :: rest).length := by simp
    have hl' : 2 ≤ (second :: third :: rest).length := by simp
    dsimp only
    split
    · rename_i helpers hlook
      refine .shared hl hlook ?_ ?_
      · rw [split, Session.grammar_commit, Session.grammar_emit, Body.shortened_eq hlook hl']
      · rw [split, Session.helpers_commit_of_eq_nil rfl, Session.helpers_emit]
        exact List.append_nil _
    · rename_i hlook
      split
      · exact .exhausted ⟨_, rfl⟩
      · rename_i names allocator ha
        have hlook' : (c.cache ++ [(first :: second :: third :: rest, names.map Symbol.var)]).lookup
            (first :: second :: third :: rest) = some (names.map Symbol.var) := by
          rw [List.lookup_append, hlook]
          simp
        refine .chained hl hlook ha ?_ ?_
        · rw [split, Session.grammar_commit, Session.grammar_emit, Body.shortened_eq hlook' hl']
        · rw [split, Session.helpers_commit_of_eq_nil rfl, Session.helpers_emit]
          rfl
  · rename_i hshort
    refine .short ?_
    match b, hshort with
    | [], _ => simp
    | [_], _ => simp
    | [_, _], _ => simp
    | first :: second :: third :: rest, hshort => exact absurd rfl (hshort first second third rest)

namespace Cascading

variable {s : Session} {a : Allocator} {done : Symbol → Body → Prop} {c : Cascade}
  {b d : Body} {v : Symbol} {hs : List Symbol}

theorem start {cache : CascadeCache} (hg : s.grammar.IsLegal)
    (hu : ∀ v ∈ s.grammar, v.text ∈ a.used) (hc : cache.IsConsistent s.grammar) :
    Cascading s a (fun _ _ ↦ False) ⟨s, a, cache⟩ where
  start_eq := rfl
  mem v := by
    refine (or_iff_left_iff_imp.2 ?_).symm
    intro ⟨e, he, hv⟩
    exact hc.mem he hv
  bodies := .start _ _
  consistent := hc
  covered _ _ h := h.elim
  symbols e he r hr := by
    have hlen := hc.length_tail he
    have h3 := hc.long e he
    have hne : e.2 ≠ [] := by
      intro hnil
      rw [hnil, List.length_nil, List.length_tail] at hlen
      omega
    obtain ⟨p, hp, hrp⟩ := exists_chain_mem hlen hne hr
    exact ⟨p.head, p.body, (hc.link e he p hp _).2 rfl,
      Nat.le_of_eq (length_body_chain hlen hp).symm, hrp⟩
  origin e he := .inl fun h hh ↦ hc.mem he hh
  legal e he h hh := (hg.head h (hc.mem he hh)).2
  supply := ⟨[], .refl a, by simp, fun e he h hh ↦ .inl (hc.mem he hh)⟩
  used := hu

theorem skip (h : Cascading s a done c) (hb : b ∈ s.grammar.bodies v) (hl : b.length < 3) :
    Cascading s a (fun u d ↦ done u d ∨ u = v ∧ d = b) c where
  start_eq := h.start_eq
  mem := h.mem
  bodies := h.bodies.skip hb (Body.shortened_of_length_lt hl)
  consistent := h.consistent
  covered u d hd h3 := by
    rcases hd with hd | ⟨-, rfl⟩
    · exact h.covered u d hd h3
    · omega
  symbols := h.symbols
  origin e he := (h.origin e he).imp_right fun ⟨v, hv, hd⟩ ↦ ⟨v, hv, .inl hd⟩
  legal := h.legal
  supply := h.supply
  used := h.used

theorem mem_bodies_self (h : Cascading s a done c) (hb : b ∈ s.grammar.bodies v) (hd : ¬done v b) :
    b ∈ c.session.grammar.bodies v :=
  (h.bodies v (Grammar.mem_of_mem_bodies hb) b).2 (.inr ⟨hb, hd⟩)

theorem shortened_append {more : CascadeCache} (h : Cascading s a done c) (hd : done v d) :
    d.shortened (c.cache ++ more) = d.shortened c.cache := by
  refine Body.shortened_congr fun hl ↦ ?_
  obtain ⟨hs, he⟩ := h.covered v d hd hl
  exact h.consistent.lookup_append he

/-- The bodies of the helpers have two symbols, so a long body is not among them. -/
theorem ne_of_link (h : Cascading s a done c) (hb : b ∈ c.session.grammar.bodies v)
    (hl : 3 ≤ b.length) {e : Body × List Symbol} (he : e ∈ c.cache) {p : Production}
    (hp : p ∈ chain e.1.tail e.2) : p.head ≠ v := by
  intro hv
  subst hv
  have hlen := length_body_chain (h.consistent.length_tail he) hp
  rw [((h.consistent.link e he p hp b).1 hb)] at hl
  omega

/-- A body that was split before makes place for its short form. -/
theorem reuse {t : Session} (h : Cascading s a done c) (hb : b ∈ s.grammar.bodies v)
    (hd : ¬done v b) (hl : 3 ≤ b.length) (hlook : (b, hs) ∈ c.cache)
    (hg : t.grammar = c.session.grammar.replace v b (b.shortened c.cache))
    (hh : t.helpers = c.session.helpers) :
    Cascading s a (fun u d ↦ done u d ∨ u = v ∧ d = b) ⟨t, c.allocator, c.cache⟩ := by
  have hold := h.mem_bodies_self hb hd
  have hm : ∀ u, u ∈ t.grammar ↔ u ∈ c.session.grammar := by
    intro u
    rw [hg, Grammar.mem_replace_of_mem (Grammar.mem_of_mem_bodies hold)]
  have hother : ∀ u, u ≠ v → ∀ d, d ∈ t.grammar.bodies u ↔ d ∈ c.session.grammar.bodies u := by
    intro u hu d
    rw [hg, Grammar.bodies_replace_of_ne hu]
  have hstart : t.grammar.start = c.session.grammar.start := by rw [hg, Grammar.start_replace]
  constructor
  case start_eq => exact hstart.trans h.start_eq
  case mem => exact fun u ↦ (hm u).trans (h.mem u)
  case bodies =>
    refine h.bodies.exchange hb hd (fun d _ ↦ Body.shortened_ne hl _ d) (fun d ↦ ?_)
      fun u _ ↦ hother u
    rw [hg]
    exact Grammar.mem_bodies_replace hold (Body.shortened_ne hl _ b).symm
  case consistent =>
    exact h.consistent.congr hstart fun e he p hp ↦ hother _ (h.ne_of_link hold hl he hp)
  case covered =>
    intro u d hdone h3
    rcases hdone with hdone | ⟨-, rfl⟩
    · exact h.covered u d hdone h3
    · exact ⟨hs, hlook⟩
  case symbols => exact h.symbols
  case origin => exact fun e he ↦ (h.origin e he).imp_right fun ⟨v, hv, hdone⟩ ↦ ⟨v, hv, .inl hdone⟩
  case legal => exact h.legal
  case supply =>
    obtain ⟨names, hsup, hhelp, hin⟩ := h.supply
    exact ⟨names, hsup, hh.trans hhelp, hin⟩
  case used => exact fun u hu ↦ h.used u ((hm u).1 hu)

theorem not_mem_of_supplies {names : List String} {allocator : Allocator} {x : Symbol}
    (h : Cascading s a done c) (hsup : c.allocator.Supplies names allocator)
    (hx : x ∈ names.map Symbol.var) : x ∉ c.session.grammar := by
  intro hxc
  obtain ⟨n, hn, rfl⟩ := List.mem_map.1 hx
  exact hsup.fresh n hn (h.used _ hxc)

section Links

variable {t : Session} {names : List String} {allocator : Allocator}

theorem map_head_links (hlen : names.length + 2 = b.length) :
    (chain b.tail (names.map Symbol.var)).map Production.head = names.map .var := by
  apply map_head_chain
  rw [List.length_map, List.length_tail]
  omega

theorem mem_of_link (hlen : names.length + 2 = b.length) {p : Production}
    (hp : p ∈ chain b.tail (names.map .var)) : p.head ∈ names.map Symbol.var :=
  map_head_links hlen ▸ List.mem_map_of_mem hp

theorem mem_bodies_links (h : Cascading s a done c) (hsup : c.allocator.Supplies names allocator)
    (hlen : names.length + 2 = b.length) {u : Symbol} (hu : u ∈ c.session.grammar) :
    d ∈ (t.addLinks (chain b.tail (names.map .var))).grammar.bodies u ↔ d ∈ t.grammar.bodies u := by
  refine Session.mem_bodies_addLinks_of_ne fun p hp he ↦ ?_
  exact h.not_mem_of_supplies hsup (mem_of_link hlen hp) (he ▸ hu)

variable (h : Cascading s a done c) (hb : b ∈ s.grammar.bodies v) (hd : ¬done v b)
  (hg : t.grammar = c.session.grammar.replace v b (b.shortened (c.cache ++ [(b, names.map .var)])))

include h hb hd hg

theorem mem_exchanged {u : Symbol} : u ∈ t.grammar ↔ u ∈ c.session.grammar := by
  rw [hg, Grammar.mem_replace_of_mem (Grammar.mem_of_mem_bodies (h.mem_bodies_self hb hd))]

variable (hl : 3 ≤ b.length) (hsup : c.allocator.Supplies names allocator)
  (hlen : names.length + 2 = b.length)

include hl hsup hlen

theorem bodies_links : s.grammar.IsRewritten (Body.shortened (c.cache ++ [(b, names.map .var)]))
    (fun u d ↦ done u d ∨ u = v ∧ d = b) (t.addLinks (chain b.tail (names.map .var))).grammar := by
  have hold := h.mem_bodies_self hb hd
  have hsame : s.grammar.IsRewritten (Body.shortened (c.cache ++ [(b, names.map .var)]))
      done c.session.grammar :=
    h.bodies.congr (fun _ _ hdone ↦ h.shortened_append hdone) fun _ _ _ ↦ .rfl
  refine hsame.exchange hb hd (fun d _ ↦ Body.shortened_ne hl _ d) (fun d ↦ ?_) fun u hu huv d ↦ ?_
  · rw [h.mem_bodies_links hsup hlen (Grammar.mem_of_mem_bodies hold), hg]
    exact Grammar.mem_bodies_replace hold (Body.shortened_ne hl _ b).symm
  · rw [h.mem_bodies_links hsup hlen ((h.mem u).2 (.inl hu)), hg, Grammar.bodies_replace_of_ne huv]

variable (hlook : c.cache.lookup b = none) (hst : s.grammar.start ∈ s.grammar)

include hlook hst

theorem consistent_links : CascadeCache.IsConsistent
    (c.cache ++ [(b, names.map .var)]) (t.addLinks (chain b.tail (names.map .var))).grammar := by
  have hstart : (t.addLinks (chain b.tail (names.map .var))).grammar.start =
      c.session.grammar.start := by
    rw [Session.start_addLinks, hg, Grammar.start_replace]
  have hkeep : ∀ e ∈ c.cache, ∀ p ∈ chain e.1.tail e.2, ∀ d,
      d ∈ (t.addLinks (chain b.tail (names.map .var))).grammar.bodies p.head ↔
        d ∈ c.session.grammar.bodies p.head := by
    intro e he p hp d
    have hpc : p.head ∈ c.session.grammar := h.consistent.mem he (h.consistent.head_mem he hp)
    rw [h.mem_bodies_links hsup hlen hpc, hg,
      Grammar.bodies_replace_of_ne (h.ne_of_link (h.mem_bodies_self hb hd) hl he hp)]
  refine (h.consistent.congr hstart hkeep).concat hlook hl (by simpa using hlen) (fun x hx ↦ ?_)
    fun p hp d ↦ ?_
  · obtain ⟨n, -, rfl⟩ := List.mem_map.1 hx
    refine ⟨rfl, fun heq ↦ h.not_mem_of_supplies hsup hx ?_⟩
    rw [heq, hstart, h.start_eq]
    exact (h.mem _).2 (.inl hst)
  · refine Session.mem_bodies_addLinks_head ?_ hp fun hpt ↦ ?_
    · rw [map_head_links hlen]
      exact List.Nodup.map (fun _ _ he ↦ by cases he; rfl) hsup.nodup
    · exact h.not_mem_of_supplies hsup (mem_of_link hlen hp) ((h.mem_exchanged hb hd hg).1 hpt)

/-- A body that was not split before gets helpers with new names, and makes place for its short
form. -/
theorem addEntry (hh : t.helpers = c.session.helpers ++ names.map Symbol.var) :
    Cascading s a (fun u d ↦ done u d ∨ u = v ∧ d = b)
      ⟨t.addLinks (chain b.tail (names.map .var)), allocator,
        c.cache ++ [(b, names.map .var)]⟩ := by
  have hm := fun u ↦ h.mem_exchanged hb hd hg (u := u)
  constructor
  case start_eq => rw [Session.start_addLinks, hg, Grammar.start_replace, h.start_eq]
  case mem =>
    intro u
    rw [Session.mem_addLinks, hm, h.mem, ← List.mem_map, map_head_links hlen, or_assoc]
    simp [or_and_right, exists_or]
  case bodies => exact h.bodies_links hb hd hg hl hsup hlen
  case consistent => exact h.consistent_links hb hd hg hl hsup hlen hlook hst
  case covered =>
    intro u d hdone h3
    rcases hdone with hdone | ⟨-, rfl⟩
    · obtain ⟨hs', he⟩ := h.covered u d hdone h3
      exact ⟨hs', List.mem_append_left _ he⟩
    · exact ⟨_, List.mem_append_right _ (List.mem_singleton_self _)⟩
  case symbols =>
    refine List.forall_mem_append.2 ⟨h.symbols, List.forall_mem_singleton.2 fun r hr ↦ ?_⟩
    exact ⟨v, b, hb, by omega, List.mem_of_mem_tail hr⟩
  case origin =>
    refine List.forall_mem_append.2 ⟨fun e he ↦ ?_,
      List.forall_mem_singleton.2 (.inr ⟨v, hb, .inr ⟨rfl, rfl⟩⟩)⟩
    exact (h.origin e he).imp_right fun ⟨v, hv, hdone⟩ ↦ ⟨v, hv, .inl hdone⟩
  case legal =>
    refine List.forall_mem_append.2 ⟨h.legal, List.forall_mem_singleton.2 fun x hx ↦ ?_⟩
    obtain ⟨n, hn, rfl⟩ := List.mem_map.1 hx
    exact hsup.legal n hn
  case supply =>
    obtain ⟨more, hmore, hhelp, hin⟩ := h.supply
    refine ⟨more ++ names, hmore.append hsup, ?_, ?_⟩
    · rw [Session.helpers_addLinks, hh, hhelp, List.map_append, List.append_assoc]
    · simp only [List.map_append, List.mem_append]
      refine fun e he x hx ↦ he.elim (fun he ↦ (hin e he x hx).imp_right .inl) fun he ↦ ?_
      obtain rfl := List.mem_singleton.1 he
      exact .inr (.inr hx)
  case used =>
    intro u hu
    rw [hsup.used]
    rcases Session.mem_addLinks.1 hu with hu | ⟨p, hp, rfl⟩
    · exact .inl (h.used u ((hm u).1 hu))
    · obtain ⟨n, hn, hnp⟩ := List.mem_map.1 (mem_of_link hlen hp)
      rw [← hnp]
      exact .inr hn

end Links

theorem ends_body (h : Cascading s a done c) (hs : s.grammar.start ∈ s.grammar)
    (hb : b ∈ s.grammar.bodies v) (hd : ¬done v b) : Ends Halt.IsExhaustion (Cascade.body v c b)
      (Cascading s a fun u d ↦ done u d ∨ u = v ∧ d = b) := by
  have hsplits := Cascade.splits_body v c b
  generalize Cascade.body v c b = r at hsplits
  cases hsplits with
  | short hl => exact h.skip hb hl
  | shared hl hlook ht hh => exact h.reuse hb hd hl (CascadeCache.mem_of_lookup hlook) ht hh
  | exhausted he => exact he
  | chained hl hlook ha ht hh =>
    obtain ⟨hsup, hlen⟩ := Allocator.supplies_allocateMany ha
    exact h.addEntry hb hd ht hl hsup (by omega) hlook hs hh

end Cascading

theorem Session.ends_cascade {s : Session} {a : Allocator} {cache : CascadeCache}
    (hg : s.grammar.IsLegal) (hu : ∀ v ∈ s.grammar, v.text ∈ a.used)
    (hc : cache.IsConsistent s.grammar) :
    Ends Halt.IsExhaustion (s.cascade a cache) (Cascading s a fun v b ↦ b ∈ s.grammar.bodies v) :=
  Grammar.ends_foldlM_sortedHeads (fun _ _ _ h hv hd _ ↦ h.bodies.mem_bodies_iff hv hd)
    (fun _ _ _ _ h hb hd ↦ h.ends_body hg.start_mem hb hd) (Cascading.start hg hu hc)

end ChomskyNormalForm
