import ChomskyNormalForm.Fault
import ChomskyNormalForm.Grammar.Basic

namespace ChomskyNormalForm

namespace Symbol

def checkVar : Symbol → Except GrammarFault Unit
  | var name => if isVarName name.toList then .ok () else .error (.invalidVariable (var name))
  | s => .error (.invalidVariable s)

/-- Succeeds for what may stand in a body of `head`. -/
def check (head : Symbol) (body : Body) : Symbol → Except GrammarFault Unit
  | terminal a => if isTerminalText a.toList then .ok () else .error (.invalidTerminal a head body)
  | var name => checkVar (var name)
  | epsilon => .ok ()
  | foreign s => .error (.foreignSymbol (foreign s) head)

end Symbol

def Body.check (head : Symbol) (body : Body) : Except GrammarFault Unit :=
  if body = [] then .error (.emptyBody head)
  else if .epsilon ∈ body ∧ 1 < body.length then .error (.mixedEpsilon head body)
  else body.forM (Symbol.check head body)

namespace Grammar

def checkEntry (e : Symbol × List Body) : Except GrammarFault Unit := do
  e.1.checkVar
  e.2.forM (Body.check e.1)

/-- Succeeds for legal grammars. The start comes first, then each rule in turn, then what the start
and the bodies refer to. -/
def check (g : Grammar) : Except GrammarFault Unit := do
  g.start.checkVar
  g.rules.entries.forM checkEntry
  if g.start ∉ g then throw (.undefinedStart g.start)
  match g.dangling with
  | [] => return
  | vs => throw (.undeclared vs)

end Grammar

inductive Violation where
  | epsilonElsewhere (p : Production)
  | single (p : Production)
  | pair (p : Production)
  | startInBody (p : Production)
  | long (p : Production)
  | undeclared (v : Symbol)
  deriving DecidableEq

namespace Violation

def message : Violation → String
  | epsilonElsewhere p => s!"{p.text}: only the start symbol may derive ε"
  | single p => s!"{p.text}: single symbol must be a terminal"
  | pair p => s!"{p.text}: binary body must hold two variables"
  | startInBody p => s!"{p.text}: start symbol on a right-hand side"
  | long p => s!"{p.text}: body longer than two symbols"
  | undeclared v => s!"{v.text} is used but has no productions"

/-- A body is the empty word under the start, one terminal, or two variables other than the
start. -/
def ofProduction? (start : Symbol) (p : Production) : Option Violation :=
  match p.body with
  | [.epsilon] => if p.head = start then none else some (epsilonElsewhere p)
  | [.terminal _] => none
  | [_] => some (single p)
  | [s, t] =>
    if !(s.isVar && t.isVar) then some (pair p)
    else if start ∈ [s, t] then some (startInBody p) else none
  | _ => some (long p)

end Violation

def Grammar.violations (g : Grammar) : List Violation :=
  g.productions.filterMap (Violation.ofProduction? g.start) ++ g.dangling.map .undeclared

end ChomskyNormalForm
