import ChomskyNormalForm.Allocator
import ChomskyNormalForm.Trace.Session

namespace ChomskyNormalForm

abbrev TerminalHelpers := List (String × Symbol)

/-- The terminals that are the only body of some variable other than the start, each with the first
such variable by name. -/
def Grammar.terminalHelpers (g : Grammar) : TerminalHelpers :=
  (g.sortedHeads.filter (· ≠ g.start)).foldl (fun helpers v ↦
    match g.bodies v with
    | [[.terminal a]] => if (helpers.lookup a).isSome then helpers else helpers ++ [(a, v)]
    | _ => helpers) []

structure Isolation where
  session : Session
  allocator : Allocator
  helpers : TerminalHelpers

namespace Isolation

def helperFor (i : Isolation) (a : String) : Except Halt (Symbol × Isolation) :=
  match i.helpers.lookup a with
  | some v => .ok (v, i)
  | none =>
    match i.allocator.allocate with
    | none => .error (i.session.halt (.namesExhausted i.allocator.limit))
    | some (name, allocator) =>
      let s := i.session.commitProduction ⟨.var name, [.terminal a]⟩ (.createHelper (.var name) a)
      .ok (.var name, ⟨s, allocator, i.helpers ++ [(a, .var name)]⟩)

def isolate (i : Isolation) : Body → Except Halt (Body × Isolation)
  | [] => .ok ([], i)
  | .terminal a :: b => do
    let (v, i) ← i.helperFor a
    let (b, i) ← i.isolate b
    return (v :: b, i)
  | s :: b => do
    let (b, i) ← i.isolate b
    return (s :: b, i)

def body (v : Symbol) (i : Isolation) (b : Body) : Except Halt Isolation :=
  if b.length < 2 || (b.filterMap Symbol.terminal?).isEmpty then .ok i
  else do
    let (isolated, i) ← i.isolate b
    let s := i.session.commit (i.session.grammar.replace v b isolated)
      (.replaceTerminals v b isolated) [v] [⟨v, isolated⟩] [⟨v, b⟩]
    return { i with session := s }

end Isolation

def Session.isolateTerminals (s : Session) (allocator : Allocator) :
    Except Halt (Session × Allocator) := do
  let start : Isolation := ⟨s, allocator, s.grammar.terminalHelpers⟩
  let i ← s.grammar.sortedHeads.foldlM (fun i v ↦
    (i.session.grammar.bodies v).foldlM (Isolation.body v) i) start
  return (i.session, i.allocator)

/-- The helper variables of the bodies that were split before. -/
abbrev CascadeCache := List (Body × List Symbol)

/-- The productions of the helpers for a body without its first symbol: each takes one symbol and
hands over to the next helper, and the last one takes the two symbols that are left. -/
def chain : Body → List Symbol → List Production
  | s :: b, h :: next :: hs => ⟨h, [s, next]⟩ :: chain b (next :: hs)
  | b, [h] => [⟨h, b⟩]
  | _, _ => []

structure Cascade where
  session : Session
  allocator : Allocator
  cache : CascadeCache

namespace Cascade

def split (s : Session) (v : Symbol) (b short : Body) : Session :=
  s.commit (s.grammar.replace v b short) .split [v] [⟨v, short⟩] [⟨v, b⟩]

def body (v : Symbol) (c : Cascade) (b : Body) : Except Halt Cascade :=
  match b with
  | first :: second :: third :: rest =>
    let tail := second :: third :: rest
    let short (helpers : List Symbol) : Body := first :: helpers.head?.toList
    match c.cache.lookup b with
    | some helpers =>
      let s := c.session.emit (.reuseHelpers b) (v :: helpers) [] []
      .ok { c with session := split s v b (short helpers) }
    | none =>
      match Allocator.allocateMany (rest.length + 1) c.allocator with
      | none => .error (c.session.halt (.namesExhausted c.allocator.limit))
      | some (names, allocator) =>
        let helpers := names.map .var
        let s := c.session.emit (.createHelpers v b) (v :: helpers) [] []
        let s := (chain tail helpers).foldl (·.commitProduction · .addBinaryRule)
          (split s v b (short helpers))
        .ok ⟨s, allocator, c.cache ++ [(b, helpers)]⟩
  | _ => .ok c

end Cascade

def Session.cascade (s : Session) (allocator : Allocator) (cache : CascadeCache) :
    Except Halt Cascade :=
  s.grammar.sortedHeads.foldlM (fun c v ↦
    (c.session.grammar.bodies v).foldlM (Cascade.body v) c) (⟨s, allocator, cache⟩ : Cascade)

end ChomskyNormalForm
