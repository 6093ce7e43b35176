import ChomskyNormalForm.Listing
import ChomskyNormalForm.Text.Basic
import Std.Data.TreeSet.Lemmas

namespace ChomskyNormalForm

/-- What grammars are made of. Variables are known by their names. A foreign symbol is a bare text
that belongs to no grammar. -/
inductive Symbol where
  | terminal (text : String)
  | var (name : String)
  | epsilon
  | foreign (text : String)
  deriving DecidableEq

abbrev Body := List Symbol

instance Body.lawfulBEq : LawfulBEq Body := inferInstance

/-- The empty word is written as a body of one `epsilon`. -/
abbrev Body.epsilon : Body := [.epsilon]

structure Production where
  head : Symbol
  body : Body
  deriving DecidableEq

namespace Symbol

def isTerminalText : List Char → Bool
  | [c] => c.isLower
  | _ => false

def isVarName : List Char → Bool
  | [] => false
  | c :: r => c.isUpper && r.all Char.isDigit

def isVar : Symbol → Bool
  | var _ => true
  | _ => false

def terminal? : Symbol → Option String
  | terminal a => some a
  | _ => none

def text : Symbol → String
  | terminal a => a
  | var name => name
  | epsilon => "ε"
  | foreign s => s

def rank : Symbol → Nat
  | terminal _ => 0
  | var _ => 1
  | epsilon => 2
  | foreign _ => 3

instance : Ord Symbol := ⟨compareLex (compareOn rank) (compareOn text)⟩

instance : Std.TransOrd Symbol :=
  inferInstanceAs (Std.TransCmp (compareLex (compareOn rank) (compareOn text)))

theorem ext_rank_text {s t : Symbol} (hr : s.rank = t.rank) (ht : s.text = t.text) : s = t := by
  cases s <;> cases t <;> simp_all [rank, text]

instance : Std.LawfulEqOrd Symbol where
  eq_of_compare h :=
    have ⟨hr, ht⟩ := compareLex_eq_eq.1 h
    ext_rank_text (Std.LawfulEqCmp.eq_of_compare hr) (Std.LawfulEqCmp.eq_of_compare ht)

def le (s t : Symbol) : Bool := (compare s t).isLE

def sort (ss : List Symbol) : List Symbol := sortBy le ss

def list (separator : String) (ss : List Symbol) : String := separator.intercalate (ss.map text)

def quoted : Symbol → String
  | terminal a => "Terminal(char=" ++ Text.quoted a ++ ")"
  | var name => "NonTerminal(name=" ++ Text.quoted name ++ ")"
  | epsilon => "Epsilon()"
  | foreign s => Text.quoted s

end Symbol

abbrev SymbolSet := Std.TreeSet Symbol

namespace SymbolSet

def ofList (ss : List Symbol) : SymbolSet := Std.TreeSet.ofList ss

@[simp] theorem mem_ofList {s : Symbol} {ss : List Symbol} : s ∈ ofList ss ↔ s ∈ ss := by
  simp [ofList, Std.TreeSet.mem_ofList]

end SymbolSet

namespace Body

def vars (b : Body) : List Symbol := b.filter Symbol.isVar

def isEpsilon (b : Body) : Bool := b == Body.epsilon

def unit? : Body → Option Symbol
  | [.var name] => some (.var name)
  | _ => none

def isUnit (b : Body) : Bool := (unit? b).isSome

def isOver (held : SymbolSet) (b : Body) : Bool := (vars b).all (· ∈ held)

def normalized (b : Body) : Body :=
  let kept := b.filter (· ≠ .epsilon)
  if kept.isEmpty then Body.epsilon else kept

def chars (b : Body) : List Char := b.flatMap (·.text.toList)

def text (b : Body) : String := .ofList b.chars

def list (separator : String) (bs : List Body) : String :=
  separator.intercalate (bs.map fun b ↦ b.text)

end Body

def Production.text (p : Production) : String := p.head.text ++ " -> " ++ p.body.text

end ChomskyNormalForm
