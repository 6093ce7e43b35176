import ChomskyNormalForm.Trace.Session

namespace ChomskyNormalForm

namespace Event

def describe (e : Event) : String :=
  let message := e.action.message
  "\n".intercalate <|
    s!"[{e.action.stage.name}] {e.action.name}" :: (if message = "" then [] else [message]) ++
      e.added.map ("+ " ++ ·.text) ++ e.removed.map ("- " ++ ·.text)

def toJson (e : Event) (shown : Option Json) : Json :=
  .record <| [("stage", .string e.action.stage.name), ("action", .string e.action.name),
    ("variables", .array (e.vars.map fun v ↦ .string v.text)),
    ("added", .array (e.added.map fun p ↦ .string p.text)),
    ("removed", .array (e.removed.map fun p ↦ .string p.text)),
    ("message", .string e.action.message)] ++ shown.toList.map ("snapshot", ·)

end Event

inductive SnapshotMode where
  | full
  /-- only where the snapshot is not the one before -/
  | delta
  | none
  deriving DecidableEq

namespace SnapshotMode

def name : SnapshotMode → String
  | full => "full"
  | delta => "delta"
  | none => "none"

def all : List SnapshotMode := [full, delta, none]

def ofJson? : Json → Option SnapshotMode
  | .string s => all.find? (·.name == s)
  | _ => .none

def read (j : Json) : Except Fault SnapshotMode :=
  match ofJson? j with
  | some mode => .ok mode
  | .none => .error (.snapshotMode j)

end SnapshotMode

namespace Trace

/-- The events with the grammars to show. `before` is the serial number of the snapshot before
them. -/
def shown (mode : SnapshotMode) : Option Nat → List Event → List (Event × Option Grammar)
  | _, [] => []
  | before, e :: es =>
    let show? := match mode with
      | .full => true
      | .delta => before ≠ some e.snapshot.serial
      | .none => false
    (e, if show? then some e.snapshot.grammar else none) :: shown mode (some e.snapshot.serial) es

def toJson (encode : Grammar → Json) (mode : SnapshotMode) (events : List Event) : Json :=
  .array ((shown mode none events).map fun (e, g) ↦ e.toJson (g.map encode))

end Trace

end ChomskyNormalForm
