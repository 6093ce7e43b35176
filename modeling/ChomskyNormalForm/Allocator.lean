import ChomskyNormalForm.Fault
import Std.Data.TreeSet.Lemmas

namespace ChomskyNormalForm

abbrev NameSet := Std.TreeSet String

def firstFree (name : Nat → String) (taken : NameSet) : Nat → Nat → Option Nat
  | 0, _ => none
  | fuel + 1, i => if name i ∈ taken then firstFree name taken fuel (i + 1) else some i

def numbered (letter : String) (i : Nat) : String := letter ++ toString i

/-- The first of the names `S0`, `S1`, … that is not taken; among one more of them than are taken
there is one. -/
def freshStart (taken : NameSet) : String :=
  numbered "S" ((firstFree (numbered "S") taken (taken.size + 1) 0).getD 0)

structure Allocator where
  used : NameSet
  /-- the number of the next name `D0`, `D1`, … to try -/
  cursor : Nat
  /-- how many of these names there are -/
  limit : Int
  allocated : Array String

namespace Allocator

def letters : List String := ("ZYXWVUTSRQPONMLKJIHGFEDCBA".toList).map String.singleton

def defaultLimit : Int := 100000

def new (used : List String) (limit : Int) : Allocator := ⟨.ofList used, 0, limit, #[]⟩

def reserve (a : Allocator) (names : List String) : Allocator :=
  { a with used := a.used.insertMany names }

def take (a : Allocator) (name : String) : String × Allocator :=
  (name, { a with used := a.used.insert name, allocated := a.allocated.push name })

/-- Hands out the first letter that is not used, then the first numbered name from the cursor on. -/
def allocate (a : Allocator) : Option (String × Allocator) :=
  match letters.find? (· ∉ a.used) with
  | some letter => some (a.take letter)
  | none =>
    (firstFree (numbered "D") a.used (a.limit - a.cursor).toNat a.cursor).map fun i ↦
      { a with cursor := i + 1 }.take (numbered "D" i)

def allocateMany : Nat → Allocator → Option (List String × Allocator)
  | 0, a => some ([], a)
  | n + 1, a => do
    let (name, a) ← a.allocate
    let (names, a) ← allocateMany n a
    return (name :: names, a)

/-- One call for a name. A call that fails has tried every number there is. -/
def request (a : Allocator) : Except Fault String × Allocator :=
  match a.allocate with
  | some (name, b) => (.ok name, b)
  | none => (.error (.namesExhausted a.limit), { a with cursor := max a.cursor a.limit.toNat })

end Allocator

inductive AllocatorOp where
  | allocate
  | reserve (names : List String)

namespace AllocatorOp

def reserved : AllocatorOp → List String
  | allocate => []
  | reserve names => names

end AllocatorOp

namespace Allocator

def step (a : Allocator) : AllocatorOp → Except Fault (Option String) × Allocator
  | .allocate => (a.request.1.map some, a.request.2)
  | .reserve names => (.ok none, a.reserve names)

def run : List AllocatorOp → Allocator → List (Except Fault (Option String)) × Allocator
  | [], a => ([], a)
  | op :: ops, a =>
    let (answer, b) := a.step op
    let (answers, c) := run ops b
    (answer :: answers, c)

end Allocator

end ChomskyNormalForm
