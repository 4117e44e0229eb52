import LinkedJson.Fault

/-!
# Error reports

A report is a failure as it is shown to a person: a message with whatever is known of its code and
its place. `Report.text` puts the code in brackets in front and the place in parentheses behind, and
leaves out what is unknown. Unlike the strings of a tree, a message has no lone surrogates.
-/

namespace LinkedJson

/-- What a report is about. -/
inductive ReportKind where
  | general
  | parse
  | print
  deriving Repr, DecidableEq

/-- The name of a kind of report. -/
def ReportKind.name : ReportKind → String
  | general => "JsonError"
  | parse => "JsonParseError"
  | print => "JsonPrintError"

/-- A message with the code, the place and the cause, as far as they are known. -/
structure Report where
  kind : ReportKind
  message : String
  code : Option FaultCode := none
  position : Option Position := none
  byteOffset : Option Int := none
  cause : Option String := none

namespace Report

/-- The place as words: a line and a column if there is a position, else a byte offset. -/
def location (r : Report) : String :=
  match r.position, r.byteOffset with
  | some p, _ => s!"line {Whole.text p.line}, column {Whole.text p.column}"
  | none, some n => s!"byte offset {Whole.text n}"
  | none, none => ""

/-- The whole report in one line. -/
def text (r : Report) : String :=
  let head := match r.code with
    | none => r.message
    | some code => s!"[{code.name}] {r.message}"
  if r.location = "" then head else s!"{head} ({r.location})"

/-- The report of a text that was not read. -/
def ofReading (code : FaultCode) (message : String) (position : Position) : Report :=
  { kind := .parse, message, code, position }

/-- The report of a tree that was not written. -/
def ofWriting (code : FaultCode) (message : String) (byteOffset : Int) : Report :=
  { kind := .print, message, code, byteOffset }

end Report

def ReadFailure.report (e : ReadFailure) : Report :=
  .ofReading e.fault.code e.fault.message e.position

def WriteFailure.report (e : WriteFailure) : Report :=
  .ofWriting e.fault.code e.fault.message e.byteOffset

end LinkedJson
