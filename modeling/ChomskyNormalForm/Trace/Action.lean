import ChomskyNormalForm.Symbol

namespace ChomskyNormalForm

inductive Stage where
  | trim
  | epsilon
  | unit
  | terminal
  | cascade
  | finiteness
  deriving DecidableEq

namespace Stage

def name : Stage → String
  | trim => "trim"
  | epsilon => "epsilon"
  | unit => "unit"
  | terminal => "terminal"
  | cascade => "cascade"
  | finiteness => "finiteness"

def all : List Stage := [trim, epsilon, unit, terminal, cascade, finiteness]

def ofName? (s : String) : Option Stage := all.find? (·.name == s)

end Stage

inductive Action where
  /-- bodies without variables make `v` productive -/
  | productiveInit (v : Symbol) (bodies : List Body)
  /-- in this round the bodies over known variables make `v` productive -/
  | productiveAdd (round : Nat) (v : Symbol) (bodies : List Body)
  | productiveFixpoint (round : Nat)
  | filter
  | reachable
  | restrict
  | verdict (start : Symbol) (empty : Bool)
  | introduceStart
  /-- this body makes `v` nullable -/
  | nullableAdd (v : Symbol) (body : Body)
  | nullableComplete
  | startEpsilon (previous : Symbol)
  | expand
  | removeEpsilon
  | dropEmpty
  | closure (v : Symbol) (members : List Symbol)
  | copy
  | removeUnit
  | expandStart
  | dropUnproductive
  | dropUnreachable
  | createHelper (v : Symbol) (terminal : String)
  | replaceTerminals (v : Symbol) (body isolated : Body)
  | createHelpers (v : Symbol) (body : Body)
  | reuseHelpers (body : Body)
  | split
  | addBinaryRule
  | startSearch
  | visit (path : List Symbol)
  | exploreEdge
  | backtrack
  | cycleFound (cycle : List Symbol)
  /-- an empty cycle stands for a finite language -/
  | finiteness (cycle : List Symbol)
  | other (stage : Stage) (name message : String)
  deriving DecidableEq

namespace Action

def stage : Action → Stage
  | productiveInit .. | productiveAdd .. | productiveFixpoint .. | filter | reachable | restrict
  | verdict .. => .trim
  | introduceStart | nullableAdd .. | nullableComplete | startEpsilon .. | expand | removeEpsilon
  | dropEmpty => .epsilon
  | closure .. | copy | removeUnit | expandStart | dropUnproductive | dropUnreachable => .unit
  | createHelper .. | replaceTerminals .. => .terminal
  | createHelpers .. | reuseHelpers .. | split | addBinaryRule => .cascade
  | startSearch | visit .. | exploreEdge | backtrack | cycleFound .. | finiteness .. => .finiteness
  | other stage .. => stage

def name : Action → String
  | productiveInit .. => "productive-init"
  | productiveAdd .. => "productive-add"
  | productiveFixpoint .. => "fixpoint"
  | filter => "filter"
  | reachable => "reachable"
  | restrict => "restrict"
  | verdict .. => "result"
  | introduceStart => "introduce-start"
  | nullableAdd .. => "nullable-add"
  | nullableComplete => "nullable-complete"
  | startEpsilon .. => "start-epsilon"
  | expand => "expand"
  | removeEpsilon => "remove-epsilon"
  | dropEmpty => "drop-empty"
  | closure .. => "closure"
  | copy => "copy"
  | removeUnit => "remove-unit"
  | expandStart => "expand-start"
  | dropUnproductive => "drop-unproductive"
  | dropUnreachable => "drop-unreachable"
  | createHelper .. => "create-helper"
  | replaceTerminals .. => "replace-terminals"
  | createHelpers .. => "create-helpers"
  | reuseHelpers .. => "reuse-helpers"
  | split => "split"
  | addBinaryRule => "add-binary-rule"
  | startSearch => "start-dfs"
  | visit .. => "visit"
  | exploreEdge => "explore-edge"
  | backtrack => "backtrack"
  | cycleFound .. => "cycle-found"
  | finiteness .. => "result"
  | other _ name _ => name

def message : Action → String
  | productiveInit v bodies => v.text ++ " derives terminals directly: " ++ Body.list ", " bodies
  | productiveAdd round v bodies => s!"iteration {round}: {v.text} -> " ++ Body.list " | " bodies
  | productiveFixpoint round => s!"iteration {round}: no new productive variables"
  | filter => "drop productions using non-productive variables"
  | verdict start true => s!"language is empty: start symbol {start.text} not in the retained set"
  | verdict start false => s!"language is not empty: start symbol {start.text} in the retained set"
  | nullableAdd v body =>
    if body = Body.epsilon then s!"{v.text} -> ε"
    else s!"every symbol of {v.text} -> {body.text} is nullable"
  | startEpsilon previous => s!"{previous.text} is nullable, so the language contains ε"
  | dropEmpty => "variables deriving only ε are gone"
  | closure v members =>
    s!"unit closure of {v.text}: " ++ "\x7b" ++ Symbol.list ", " members ++ "\x7d"
  | createHelper v terminal => s!"new variable {v.text} for terminal '{terminal}'"
  | replaceTerminals v body isolated =>
    s!"{v.text} -> {body.text} becomes {v.text} -> {isolated.text}"
  | createHelpers v body => s!"split {v.text} -> {body.text} ({body.length} symbols)"
  | reuseHelpers body => s!"{body.text} was split before"
  | visit path => "path " ++ Symbol.list " -> " path
  | cycleFound cycle => Symbol.list " -> " cycle
  | finiteness [] => "language is finite, the dependency graph is acyclic"
  | finiteness cycle => "language is infinite, cycle " ++ Symbol.list " -> " cycle
  | other _ _ message => message
  | _ => ""

end Action

end ChomskyNormalForm
