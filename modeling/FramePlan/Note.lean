/-!
# Notes

The library does not print. What a reader of its log should see is a *note*, and functions that
have something to say give or record notes in the order in which things happened.
-/

namespace FramePlan

/-- How much a note matters. -/
inductive Level where
  | trace
  | debug
  | info
  | warn
deriving DecidableEq

/-- The name under which a level is logged. -/
def Level.name : Level → String
  | trace => "TRACE"
  | debug => "DEBUG"
  | info => "INFO"
  | warn => "WARN"

/-- A line of the log. -/
structure Note where
  level : Level
  text : String
deriving DecidableEq

/-- A note as it is logged. -/
def Note.line (note : Note) : String := s!"{note.level.name} {note.text}"

end FramePlan
