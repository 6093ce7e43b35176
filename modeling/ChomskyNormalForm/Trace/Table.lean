import ChomskyNormalForm.Analysis.Rounds
import ChomskyNormalForm.Analysis.Search
import ChomskyNormalForm.Trace.Session

namespace ChomskyNormalForm

/-- A grammar as it is stored. Nothing here keeps an entry or a body from repeating. -/
structure RawGrammar where
  start : Symbol
  entries : List (Symbol × List Body)
  deriving DecidableEq

def RawGrammar.grammar (g : RawGrammar) : Grammar := ⟨g.start, .ofEntries g.entries⟩

def Grammar.raw (g : Grammar) : RawGrammar := ⟨g.start, g.rules.entries⟩

structure RawSnapshot where
  serial : Nat
  grammar : RawGrammar
  deriving DecidableEq

def RawSnapshot.shown (s : RawSnapshot) : Snapshot := ⟨s.serial, s.grammar.grammar⟩

/-- A grammar that is being edited. `frozen` has the bodies of variables as they were when they were
last shown, and `snapshot` is the grammar that was shown, for as long as nothing is changed. -/
structure ProductionTable where
  start : Symbol
  rules : List (Symbol × List Body)
  frozen : List (Symbol × List Body)
  snapshot : Option RawSnapshot

namespace ProductionTable

def heads (t : ProductionTable) : List Symbol := t.rules.map Prod.fst

def sortedHeads (t : ProductionTable) : List Symbol := Symbol.sort t.heads

def bodies (t : ProductionTable) (v : Symbol) : List Body := (t.rules.lookup v).getD []

def mentions (t : ProductionTable) (v : Symbol) : List Symbol := (t.bodies v).flatMap Body.vars

def referenced (t : ProductionTable) : List Symbol :=
  distinct (t.rules.flatMap fun e ↦ e.2.flatMap Body.vars)

def reachableFrom (t : ProductionTable) (v : Symbol) : List Symbol :=
  explore t.mentions (t.referenced.length + 1) [v] [v]

def reachable (t : ProductionTable) : List Symbol := t.reachableFrom t.start

def touch (t : ProductionTable) (v : Symbol) : ProductionTable :=
  { t with frozen := t.frozen.filter (·.1 ≠ v), snapshot := none }

def put (t : ProductionTable) (v : Symbol) (bs : List Body) : ProductionTable :=
  { t with rules := Rules.putEntry v bs t.rules }.touch v

def setStart (t : ProductionTable) (v : Symbol) : ProductionTable :=
  { t with start := v, snapshot := none }

def ensure (t : ProductionTable) (v : Symbol) : Bool × ProductionTable :=
  if v ∈ t.heads then (false, t) else (true, t.put v [])

def add (t : ProductionTable) (v : Symbol) (b : Body) : Bool × ProductionTable :=
  let (_, t) := t.ensure v
  if b ∈ t.bodies v then (false, t) else (true, t.put v (t.bodies v ++ [b]))

def remove (t : ProductionTable) (v : Symbol) (b : Body) : Bool × ProductionTable :=
  if b ∈ t.bodies v then (true, t.put v ((t.bodies v).erase b)) else (false, t)

/-- Puts `new` in the place of `old`; if `new` stands there already, `old` only goes. Tells whether
that changed anything. -/
def replace (t : ProductionTable) (v : Symbol) (old new : Body) : Bool × ProductionTable :=
  let bs := t.bodies v
  if old ∈ bs ∧ old ≠ new then
    let i := bs.idxOf old
    (true, t.put v (if new ∈ bs then bs.eraseIdx i else bs.set i new))
  else (false, t)

def drop (t : ProductionTable) (v : Symbol) : List Body × ProductionTable :=
  (t.bodies v, { t with rules := t.rules.filter (·.1 ≠ v) }.touch v)

def new (start : Symbol) (rules : List (Symbol × List Body)) : ProductionTable :=
  rules.foldl (fun t e ↦ e.2.foldl (fun t b ↦ (t.add e.1 b).2) (t.ensure e.1).2)
    ⟨start, [], [], none⟩

def edit (source : RawSnapshot) : ProductionTable :=
  ⟨source.grammar.start, source.grammar.entries, source.grammar.entries, some source⟩

/-- The grammar as it stands: the last snapshot if nothing was changed since, else a new one, with
the number that is up next. A variable that was not touched keeps the bodies that were shown. -/
def freeze (t : ProductionTable) (supply : Nat) : RawSnapshot × ProductionTable × Nat :=
  match t.snapshot with
  | some s => (s, t, supply)
  | none =>
    let frozen :=
      t.rules.foldl (fun f e ↦ if e.1 ∈ f.map Prod.fst then f
        else Rules.putEntry e.1 e.2 f) t.frozen
    let s : RawSnapshot := ⟨supply, t.start, t.heads.map fun v ↦ (v, (frozen.lookup v).getD [])⟩
    (s, { t with frozen := frozen, snapshot := some s }, supply + 1)

end ProductionTable

structure Purge where
  table : ProductionTable
  dropped : List Symbol
  removed : List Production
  changed : Bool

namespace Purge

def dropEmpty (p : Purge) (v : Symbol) : Purge :=
  if v ≠ p.table.start ∧ p.table.bodies v = []
    then ⟨(p.table.drop v).2, p.dropped ++ [v], p.removed, true⟩ else p

def removeDead (v : Symbol) (p : Purge) (b : Body) : Purge :=
  if ∃ u ∈ b.vars, u ∉ p.table.heads then ⟨(p.table.remove v b).2, p.dropped,
    p.removed ++ [⟨v, b⟩], true⟩ else p

def dropAll (p : Purge) : Purge := p.table.sortedHeads.foldl dropEmpty p

def removeAll (p : Purge) : Purge :=
  p.table.sortedHeads.foldl (fun p v ↦ (p.table.bodies v).foldl (removeDead v) p) p

def round (p : Purge) : Purge × Bool :=
  let p := { p with changed := false }.dropAll.removeAll
  (p, p.changed)

end Purge

def ProductionTable.prune (t : ProductionTable) : Except Fault Purge :=
  settled "dead variable set" (t.rules.length + 2) (fun _ p ↦ p.round) ⟨t, [], [], false⟩

inductive TableOp where
  | setStart (v : Symbol)
  | ensure (v : Symbol)
  | add (v : Symbol) (b : Body)
  | remove (v : Symbol) (b : Body)
  | replace (v : Symbol) (old new : Body)
  | drop (v : Symbol)
  | prune
  | freeze
  deriving DecidableEq

inductive TableAnswer where
  | done
  | changed (did : Bool)
  | dropped (bodies : List Body)
  | pruned (dropped : List Symbol) (removed : List Production)
  | frozen (s : RawSnapshot)
  deriving DecidableEq

/-- A table with the number of the next snapshot. -/
structure Editor where
  table : ProductionTable
  supply : Nat

namespace Editor

def step (e : Editor) : TableOp → Except Fault (TableAnswer × Editor)
  | .setStart v => .ok (.done, ⟨e.table.setStart v, e.supply⟩)
  | .ensure v => let (did, t) := e.table.ensure v; .ok (.changed did, ⟨t, e.supply⟩)
  | .add v b => let (did, t) := e.table.add v b; .ok (.changed did, ⟨t, e.supply⟩)
  | .remove v b => let (did, t) := e.table.remove v b; .ok (.changed did, ⟨t, e.supply⟩)
  | .replace v old new =>
    let (did, t) := e.table.replace v old new; .ok (.changed did, ⟨t, e.supply⟩)
  | .drop v => let (bs, t) := e.table.drop v; .ok (.dropped bs, ⟨t, e.supply⟩)
  | .prune => e.table.prune.map fun p ↦ (.pruned p.dropped p.removed, ⟨p.table, e.supply⟩)
  | .freeze => let (s, t, supply) := e.table.freeze e.supply; .ok (.frozen s, ⟨t, supply⟩)

/-- Does one thing after the other, and writes down before `log` what was done and what came of
it. -/
def resume (log : List (TableOp × TableAnswer)) (e : Editor) :
    List TableOp → Except Fault (List (TableOp × TableAnswer) × Editor)
  | [] => .ok (log, e)
  | op :: ops => do
    let (answer, e) ← e.step op
    resume ((op, answer) :: log) e ops

def run (e : Editor) (ops : List TableOp) : Except Fault (List (TableOp × TableAnswer) × Editor) :=
  resume [] e ops

end Editor

namespace Trace

def record (r : Trace) (s : RawSnapshot) (action : Action) (vars : List Symbol)
    (added removed : List Production) :
    Trace :=
  { r with events := r.events.push ⟨action, vars, added, removed, s.shown⟩ }

def recordTable (r : Trace) (t : ProductionTable) (action : Action) (vars : List Symbol)
    (added removed : List Production) : Trace × ProductionTable :=
  let (s, t, supply) := t.freeze r.supply
  ({ r with supply := supply }.record s action vars added removed, t)

end Trace

end ChomskyNormalForm
