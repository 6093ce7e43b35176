import ChomskyNormalForm.Proofs.Form.Binary

namespace ChomskyNormalForm

variable {g : Grammar} {b : Body} {hs : List Symbol} {p : Production}

/-- The variables `hs` spell out a long body after its first symbol. Each has one body, the next
symbol with the variable after it; the last one has the two symbols at the end. -/
structure Grammar.Chains (g : Grammar) (b : Body) (hs : List Symbol) : Prop where
  length_eq : hs.length + 2 = b.length
  helper : ∀ h ∈ hs, h.isVar = true ∧ h ≠ g.start
  link : ∀ i s h next, b[i + 1]? = some s → hs[i]? = some h → hs[i + 1]? = some next →
    g.bodies h = [[s, next]]
  last : ∀ h, hs.getLast? = some h → g.bodies h = [b.drop (b.length - 2)]

theorem drop_tail (hl : 3 ≤ b.length) :
    b.tail.drop (b.tail.length - 2) = b.drop (b.length - 2) := by
  have hlen : 1 + (b.length - 1 - 2) = b.length - 2 := by omega
  rw [← List.drop_one, List.drop_drop, List.length_drop, hlen]

namespace Grammar.Chains

theorem bodies_link (h : g.Chains b hs) (hl : 3 ≤ b.length) (hp : p ∈ chain b.tail hs) :
    g.bodies p.head = [p.body] := by
  have hlen := h.length_eq
  have htail : hs.length + 1 = b.tail.length := by
    rw [List.length_tail]
    omega
  rcases (mem_chain_iff htail).1 hp with ⟨i, s, x, next, hs, hx, hnext, rfl⟩ | ⟨x, hx, rfl⟩
  · rw [List.getElem?_tail] at hs
    exact h.link i s x next hs hx hnext
  · rw [drop_tail hl]
    exact h.last x hx

theorem of_links (hl : 3 ≤ b.length) (hlen : hs.length + 2 = b.length)
    (hh : ∀ h ∈ hs, h.isVar = true ∧ h ≠ g.start)
    (hlink : ∀ p ∈ chain b.tail hs, g.bodies p.head = [p.body]) : g.Chains b hs := by
  have htail : hs.length + 1 = b.tail.length := by
    rw [List.length_tail]
    omega
  refine ⟨hlen, hh, fun i s x next hs hx hnext ↦ ?_, fun x hx ↦ ?_⟩
  · rw [← List.getElem?_tail] at hs
    exact hlink ⟨x, [s, next]⟩ ((mem_chain_iff htail).2 (.inl ⟨i, s, x, next, hs, hx, hnext, rfl⟩))
  · rw [← drop_tail hl]
    exact hlink ⟨x, b.tail.drop (b.tail.length - 2)⟩ ((mem_chain_iff htail).2 (.inr ⟨x, hx, rfl⟩))

end Grammar.Chains

namespace CascadeCache

def IsChained (cache : CascadeCache) (g : Grammar) : Prop :=
  ∀ b hs, cache.lookup b = some hs → 3 ≤ b.length → g.Chains b hs

/-- The entries that splitting may come upon: those of long bodies that no earlier entry hides. -/
def effective (cache : CascadeCache) : CascadeCache :=
  cache.filter fun e ↦ 3 ≤ e.1.length ∧ cache.lookup e.1 = some e.2

variable {cache more : CascadeCache} {e : Body × List Symbol}

theorem mem_effective : e ∈ cache.effective ↔ e ∈ cache ∧ 3 ≤ e.1.length ∧
    cache.lookup e.1 = some e.2 := by
  rw [effective, List.mem_filter, decide_eq_true_eq]

theorem lookup_filter {p : Body × List Symbol → Bool} (hb : cache.lookup b = some hs)
    (hp : p (b, hs) = true) :
    (cache.filter p).lookup b = some hs := by
  obtain ⟨before, after, rfl, hnone⟩ := List.lookup_eq_some_iff.1 hb
  refine List.lookup_eq_some_iff.2 ⟨before.filter p, after.filter p, ?_,
    fun e he ↦ hnone e (List.mem_of_mem_filter he)⟩
  rw [List.filter_append, List.filter_cons_of_pos hp]

theorem lookup_effective (hl : 3 ≤ b.length) : cache.effective.lookup b = cache.lookup b := by
  cases hb : cache.lookup b with
  | none =>
    rw [List.lookup_eq_none_iff] at hb ⊢
    exact fun e he ↦ hb e (mem_effective.1 he).1
  | some hs => exact lookup_filter hb (decide_eq_true ⟨hl, hb⟩)

theorem lookup_append_congr {cache' : CascadeCache} (h : cache.lookup b = cache'.lookup b) :
    (cache ++ more).lookup b = (cache' ++ more).lookup b := by
  rw [List.lookup_append, List.lookup_append, h]

theorem IsChained.isConsistent_effective (h : cache.IsChained g) :
    cache.effective.IsConsistent g := by
  have hchains : ∀ e ∈ cache.effective, g.Chains e.1 e.2 := by
    intro e he
    obtain ⟨-, hl, hlook⟩ := mem_effective.1 he
    exact h e.1 e.2 hlook hl
  refine ⟨fun e he ↦ ?_, fun e he ↦ (mem_effective.1 he).2.1, fun e he ↦ (hchains e he).length_eq,
    fun e he ↦ (hchains e he).helper, fun e he p hp d ↦ ?_⟩
  · obtain ⟨-, hl, hlook⟩ := mem_effective.1 he
    rw [lookup_effective hl, hlook]
  · rw [(hchains e he).bodies_link (mem_effective.1 he).2.1 hp, List.mem_singleton]

theorem IsConsistent.chains (h : cache.IsConsistent g) (he : e ∈ cache) : g.Chains e.1 e.2 := by
  refine .of_links (h.long e he) (h.length e he) (h.helper e he) fun p hp ↦ ?_
  exact Grammar.bodies_eq_singleton (h.link e he p hp)

end CascadeCache

structure Cascade.Parallel (cache cache' : CascadeCache) (c d : Cascade) : Prop where
  session_eq : c.session = d.session
  allocator_eq : c.allocator = d.allocator
  caches : ∃ more, c.cache = cache ++ more ∧ d.cache = cache' ++ more ∧ ∀ e ∈ more, 3 ≤ e.1.length

section Parallel

variable {cache cache' : CascadeCache} {c : Cascade} {s : Session} {a : Allocator}
  (hlook : ∀ b : Body, 3 ≤ b.length → cache.lookup b = cache'.lookup b)

include hlook

theorem Cascade.Parallel.body {d : Cascade} (h : Cascade.Parallel cache cache' c d)
    (v : Symbol) (b : Body) :
    Matches Eq (Cascade.Parallel cache cache') (Cascade.body v c b) (Cascade.body v d b) := by
  obtain ⟨s, a, known⟩ := c
  obtain ⟨_, _, known'⟩ := d
  obtain ⟨rfl, rfl, more, rfl, rfl, hmore⟩ := h
  unfold Cascade.body
  split
  · rename_i first second third rest
    have hl : 3 ≤ (first :: second :: third :: rest).length := by simp
    dsimp only
    rw [CascadeCache.lookup_append_congr (hlook _ hl)]
    split
    · exact .ok ⟨rfl, rfl, more, rfl, rfl, hmore⟩
    · split
      · exact .error rfl
      · refine .ok ⟨rfl, rfl, _, List.append_assoc .., List.append_assoc .., ?_⟩
        exact List.forall_mem_append.2 ⟨hmore, List.forall_mem_singleton.2 hl⟩
  · exact .ok ⟨rfl, rfl, more, rfl, rfl, hmore⟩

/-- Splitting takes the same way from caches that have the same helpers for long bodies. -/
theorem Session.cascade_parallel (s : Session) (a : Allocator) :
    Matches Eq (Cascade.Parallel cache cache') (s.cascade a cache) (s.cascade a cache') := by
  refine .foldlM (fun c d hc v _ ↦ ?_) ⟨rfl, rfl, [], by simp, by simp, by simp⟩
  rw [hc.session_eq]
  exact .foldlM (fun c d hc b _ ↦ hc.body hlook v b) hc

end Parallel

namespace Session

variable {s : Session} {a : Allocator} {c : Cascade} {cache : CascadeCache}

/-- Splitting from a chained cache is splitting from its effective entries. -/
theorem exists_cascading (hg : s.grammar.IsLegal) (hu : ∀ v ∈ s.grammar, v.text ∈ a.used)
    (hcache : cache.IsChained s.grammar) (hc : s.cascade a cache = .ok c) :
    ∃ more, c.cache = cache ++ more ∧ (∀ e ∈ more, 3 ≤ e.1.length) ∧
      Cascading s a (fun v b ↦ b ∈ s.grammar.bodies v) ⟨c.session, c.allocator,
        cache.effective ++ more⟩ := by
  have hends := ends_cascade hg hu hcache.isConsistent_effective
  have hlook : ∀ b : Body, 3 ≤ b.length → cache.effective.lookup b = cache.lookup b :=
    fun _ ↦ CascadeCache.lookup_effective
  have hmatch := s.cascade_parallel (fun b hl ↦ (hlook b hl).symm) a
  rw [hc] at hmatch
  generalize s.cascade a cache.effective = x at hends hmatch
  cases hmatch with
  | @ok _ d hd =>
    obtain ⟨t, b, known⟩ := d
    obtain ⟨hs, ha, more, hmore, rfl, hlong⟩ := hd
    obtain rfl : c.session = t := hs
    obtain rfl : c.allocator = b := ha
    exact ⟨more, hmore, hlong, hends⟩

/-- Long bodies are split so that no variable gains or loses a word, also where a cache has helpers
for some of them already. The cache is chained again afterwards, and has helpers for all that were
split. -/
theorem cascade_keeps_words (hok : s.grammar.check = .ok ())
    (hu : ∀ n ∈ s.grammar.names, n ∈ a.used) (hcache : cache.IsChained s.grammar)
    (hc : s.cascade a cache = .ok c) :
    c.session.grammar.start = s.grammar.start ∧
      (∀ v, ∀ b ∈ c.session.grammar.bodies v, b.length ≤ 2) ∧
      (∀ v, ∀ b ∈ s.grammar.bodies v, b.length ≤ 2 → b ∈ c.session.grammar.bodies v) ∧
      (∀ v ∈ s.grammar, ∀ w, c.session.grammar.Derives v w ↔ s.grammar.Derives v w) ∧
      (∀ v, ∀ b ∈ c.session.grammar.bodies v, c.session.grammar.start ∈ b →
        ∃ u, ∃ d ∈ s.grammar.bodies u, s.grammar.start ∈ d) ∧
      (∀ v, ∀ b ∈ c.session.grammar.bodies v, ∀ u ∈ Body.vars b, u ∈ c.session.grammar) ∧
      c.cache.IsChained c.session.grammar ∧
      ∃ more, c.cache = cache ++ more ∧ (∀ e ∈ more, 3 ≤ e.1.length) ∧
        ∀ v, ∀ b ∈ s.grammar.bodies v, 3 ≤ b.length → ∃ hs, c.cache.lookup b = some hs := by
  have hg := Grammar.check_eq_ok_iff.1 hok
  obtain ⟨more, hmore, hlong, h⟩ :=
    exists_cascading hg (fun v hv ↦ hu _ (Grammar.mem_names hv)) hcache hc
  have hlook : ∀ b : Body, 3 ≤ b.length →
      c.cache.lookup b = (cache.effective ++ more).lookup b := by
    intro b hl
    rw [hmore]
    exact CascadeCache.lookup_append_congr (CascadeCache.lookup_effective hl).symm
  refine ⟨h.start_eq, fun v b ↦ h.length_le, fun v b hb hl ↦ ?_, fun v hv w ↦ h.derives_iff hg hv,
    fun v b hb hs ↦ ?_, fun v b hb u hu ↦ (h.isLegal hg).closed v u ⟨b, hb, hu⟩,
    fun b hs hb hl ↦ ?_, more, hmore, hlong,
    fun v b hb hl ↦ ?_⟩
  · refine (h.mem_bodies_iff (Grammar.mem_of_mem_bodies hb)).2 ⟨b, hb, ?_⟩
    exact (Body.shortened_of_length_lt (by omega)).symm
  · rcases h.mem_body hb hs with ⟨u, d, hd, hsd, -⟩ | ⟨e, he, hse⟩
    · exact ⟨u, d, hd, h.start_eq ▸ hsd⟩
    · exact absurd rfl (h.consistent.helper e he _ hse).2
  · exact h.consistent.chains (e := (b, hs)) (CascadeCache.mem_of_lookup (hlook b hl ▸ hb))
  · obtain ⟨hs, he⟩ := h.covered v b hb hl
    exact ⟨hs, (hlook b hl).trans (h.consistent.functional _ he)⟩

end Session

def Grammar.entwined : Grammar :=
  ⟨.var "S", .ofEntries [
    (.var "S", [[.terminal "a", .var "A", .terminal "b", .var "A"],
      [.var "A", .terminal "b", .var "A"], [.var "A", .var "Z"]]),
    (.var "A", [[.var "A", .terminal "b", .var "A"], [.terminal "c"]]),
    (.var "Z", [[.terminal "b", .var "A"]])]⟩

def Grammar.entwinedCache : CascadeCache := [([.var "A", .terminal "b", .var "A"], [.var "Z"])]

theorem Session.cascade_keeps_words_entwined : Grammar.entwined.check = .ok () ∧
    (∀ n ∈ Grammar.entwined.names, n ∈ (Allocator.new Grammar.entwined.names 0).used) ∧
    Grammar.entwinedCache.IsChained .entwined ∧
    ∃ c, (ofGrammar .entwined).cascade (.new Grammar.entwined.names 0) Grammar.entwinedCache =
    .ok c ∧
      c.session.grammar.start = Grammar.entwined.start ∧
      (∀ v, ∀ b ∈ c.session.grammar.bodies v, b.length ≤ 2) ∧
      (∀ v, ∀ b ∈ Grammar.entwined.bodies v, b.length ≤ 2 → b ∈ c.session.grammar.bodies v) ∧
      (∀ v ∈ Grammar.entwined, ∀ w, c.session.grammar.Derives v w ↔ Grammar.entwined.Derives v w) ∧
      (∀ v, ∀ b ∈ c.session.grammar.bodies v, c.session.grammar.start ∈ b →
        ∃ u, ∃ d ∈ Grammar.entwined.bodies u, Grammar.entwined.start ∈ d) ∧
      (∀ v, ∀ b ∈ c.session.grammar.bodies v, ∀ u ∈ Body.vars b, u ∈ c.session.grammar) ∧
      c.cache.IsChained c.session.grammar ∧
      ∃ more, c.cache = Grammar.entwinedCache ++ more ∧ (∀ e ∈ more, 3 ≤ e.1.length) ∧
        ∀ v, ∀ b ∈ Grammar.entwined.bodies v, 3 ≤ b.length → ∃ hs, c.cache.lookup b = some hs := by
  have hused := Allocator.forall_mem_used_new Grammar.entwined.names 0
  have hcache : Grammar.entwinedCache.IsChained .entwined := by
    intro b hs hb hl
    obtain ⟨rfl, rfl⟩ := Prod.mk.inj (List.mem_singleton.1 (CascadeCache.mem_of_lookup hb))
    exact .of_links hl rfl (by decide) (by decide)
  obtain ⟨c, hc⟩ := exists_eq_ok
    (x := (ofGrammar .entwined).cascade (.new Grammar.entwined.names 0) Grammar.entwinedCache)
    (by decide +kernel)
  exact ⟨rfl, hused, hcache, c, hc, cascade_keeps_words (s := .ofGrammar .entwined)
    rfl hused hcache hc⟩

end ChomskyNormalForm
