import LiquidLint.Check.Event

/-!
# Scripted checks

A scripted check reports what a table says: each line of the table names a hook, optionally what the
hook has to be called for, and the finding to report then. How its offenses are mended is up to the
check, which may look at the whole offense.
-/

namespace LiquidLint

/-- Where a line of a script reports its finding. -/
inductive ScriptPlace where
  /-- At what the event is about. -/
  | here
  /-- At some bytes of the event's file. -/
  | span (span : Span)
  /-- At a line of the event's file. -/
  | line (line : Nat)
deriving DecidableEq, Repr

/-- A line of a script. -/
structure ScriptLine where
  /-- The word for the hook. -/
  hook : String
  /-- What the hook has to be called for. -/
  subject : Option String
  /-- The file to report in from a hook that is called for the whole theme. -/
  file : Option Path
  place : ScriptPlace
  message : String
  correction : Option Correction
deriving DecidableEq, Repr

/-- A check that follows a script. -/
structure ScriptedCheck where
  name : String
  category : Category
  severity : Severity
  canCorrect : Bool
  canDisable : Bool
  /-- The edit for an offense, if there is one. -/
  fix : Offense → Option Correction
  script : List ScriptLine

namespace ScriptLine

/-- Whether a line speaks of an event. -/
def appliesTo (l : ScriptLine) (e : Event) : Bool :=
  l.hook == e.hookWord && (l.subject.isNone || l.subject == some e.subject)

/-- The file a line names, when the event is called for the whole theme. -/
def namedFile? (l : ScriptLine) (e : Event) : Option SourceFile :=
  match e with
  | .onTheme theme | .onEnd theme => l.file.bind theme.file?
  | _ => none

/-- What a line reports at an event that it speaks of. -/
def finding (l : ScriptLine) (e : Event) : Finding :=
  match l.namedFile? e, l.place with
  | some f, .span span => f.finding span l.message l.correction
  | some f, _ => f.finding .zero l.message l.correction
  | none, .span span => e.findingAt span l.message l.correction
  | none, .line line => e.findingAtLine line l.message l.correction
  | none, .here => e.finding l.message l.correction

end ScriptLine

/-- The findings at an event. -/
def ScriptedCheck.findings (c : ScriptedCheck) (e : Event) : List Finding :=
  (c.script.filter (·.appliesTo e)).map (·.finding e)

end LiquidLint
