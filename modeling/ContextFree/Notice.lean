import ContextFree.Text.Control
import ContextFree.Text.Line

/-!
# Notices

What the stages report about their work, with a level and the part that reports.
-/

namespace ContextFree

/-- How important a notice is. -/
inductive Level where
  | error
  | warning
  | information
  | detail
deriving DecidableEq, Repr

namespace Level

/-- The word for a level. -/
def label : Level → String
  | error => "ERROR"
  | warning => "WARN"
  | information => "INFO"
  | detail => "DEBUG"

/-- The level counted from the most important one. -/
def rank : Level → Nat
  | error => 0
  | warning => 1
  | information => 2
  | detail => 3

end Level

/-- The part that a notice comes from. -/
inductive Topic where
  | command
  | conversion
  | pruning
  | search
  | adjacency
deriving DecidableEq, Repr

/-- The path that is shown for a part. -/
def Topic.path : Topic → String
  | command => "chomsky"
  | conversion => "chomsky::normalize"
  | pruning => "chomsky::normalize::useless"
  | search => "chomsky::generator::bfs"
  | adjacency => "chomsky::generator::bigram"

/-- A message with its level and the part that it comes from. -/
structure Notice where
  level : Level
  topic : Topic
  message : String
deriving DecidableEq, Repr

namespace Notice

/-- The level and the message. -/
def text (notice : Notice) : String := notice.level.label ++ " " ++ notice.message

/-- The columns by which the further lines of a message stand to the right. -/
def indent : Nat := 4

/-- The entry of a log: level, in five columns, and part in brackets, then the message. Nothing
in it steers a terminal. -/
def line (notice : Notice) : String :=
  let label := notice.level.label
  let gap := String.ofList (List.replicate (5 - label.length) ' ')
  let message := String.ofList (Text.indentRest indent notice.message.toList)
  let entry := "[" ++ label ++ gap ++ " " ++ notice.topic.path ++ "] " ++ message ++ "\n"
  String.ofList (Text.withoutControls entry.toList)

end Notice

end ContextFree
