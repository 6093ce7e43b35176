import ChomskyNormalForm.Json.Basic
import ChomskyNormalForm.Symbol

namespace ChomskyNormalForm

inductive GrammarFault where
  | invalidSymbol (token : String)
  | invalidCharacter (c : Char) (text : String)
  | missingHead (value : Json)
  | invalidHead (name : String)
  | alternativeKind (head : Symbol) (value : Json)
  | bodiesKind (head : Symbol) (value : Json)
  | missingStart
  | entryShape
  | productionsKind
  | noRules
  | missingArrow (line : Nat) (text : String)
  | missingLineHead (line : Nat)
  | emptyBody (head : Symbol)
  | mixedEpsilon (head : Symbol) (body : Body)
  | invalidTerminal (text : String) (head : Symbol) (body : Body)
  | invalidVariable (symbol : Symbol)
  | foreignSymbol (symbol : Symbol) (head : Symbol)
  | undefinedStart (start : Symbol)
  | undeclared (vars : List Symbol)
  | fieldKind (field : String)

inductive Fault where
  | grammar (fault : GrammarFault)
  /-- every candidate for a fresh name is taken -/
  | namesExhausted (limit : Int)
  /-- a fixpoint did not settle within its rounds -/
  | divergence (what : String) (limit : Int)
  /-- the start variable stands in a body and has nothing to put in its place -/
  | inexpansible (start head : Symbol) (body : Body)
  | notNormal (problems : List String)
  | negativeLength
  | snapshotMode (mode : Json)

namespace GrammarFault

def message : GrammarFault → String
  | invalidSymbol token =>
    s!"Invalid symbol '{token}'. Terminals are single lowercase letters, " ++
      "variables an uppercase letter optionally followed by digits (e.g. S, S0, X1)."
  | invalidCharacter c text => s!"Invalid character '{c}' in production body \"{text}\"."
  | missingHead value => s!"Invalid or missing LHS value: {value.quoted}"
  | invalidHead name =>
    s!"Invalid variable format on left-hand side: '{name}'. Variables are an uppercase " ++
      "letter optionally followed by digits (e.g., S, S0, X1)."
  | alternativeKind head value => s!"Unsupported RHS entry type for '{head.text}': {value.kind}"
  | bodiesKind head value =>
    s!"Unsupported RHS type for production {Text.quoted head.text}: {value.kind}"
  | missingStart => "Start variable must be a non-empty string."
  | entryShape => "Each production entry must be an object/dict with 'lhs' and 'rhs'."
  | productionsKind =>
    "Unsupported productions type. Provide a dict or a list of production entries."
  | noRules => "No production rules defined. Add at least one rule."
  | missingArrow line text =>
    s!"Line {line}: production must contain '->'. Found: {Text.quoted text}"
  | missingLineHead line => s!"Line {line}: production is missing a left-hand side."
  | emptyBody head => s!"Empty body for '{head.text}'; write ε for the empty word."
  | mixedEpsilon head body => s!"\"{head.text} -> {body.text}\" mixes ε with other symbols."
  | invalidTerminal text head body =>
    s!"Invalid terminal '{text}' in \"{head.text} -> {body.text}\". " ++
      "Terminals are single lowercase letters."
  | invalidVariable symbol =>
    s!"Invalid variable {symbol.quoted}. Variables are an uppercase letter optionally " ++
      "followed by digits (e.g., S, S0, X1)."
  | foreignSymbol symbol head => s!"Unsupported symbol {symbol.quoted} in a body of '{head.text}'."
  | undefinedStart start => s!"Start symbol '{start.text}' has no productions."
  | undeclared vars =>
    "Undeclared variable(s) used on a right-hand side: " ++ Symbol.list ", " vars
  | fieldKind field => s!"'{field}' must be a string."

end GrammarFault

namespace Fault

def message : Fault → String
  | grammar fault => fault.message
  | namesExhausted limit => s!"No fresh variable name left after {limit} fallback candidates."
  | divergence what limit =>
    s!"Fixpoint computation of the {what} did not settle within {limit} rounds."
  | inexpansible start head body =>
    s!"Start symbol '{start.text}' occurs in \"{head.text} -> {body.text}\" " ++
      "but has no non-recursive production to substitute for it."
  | notNormal problems => "Conversion produced a non-CNF grammar: " ++ "; ".intercalate problems
  | negativeLength => "max_length must be >= 0"
  | snapshotMode mode => s!"snapshots must be one of full, delta, none, got {mode.quoted}"

end Fault

instance : MonadLift (Except GrammarFault) (Except Fault) where
  monadLift x := x.mapError .grammar

end ChomskyNormalForm
