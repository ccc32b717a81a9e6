import PredictiveParser.Grammar.Basic

/-!
# Messages for the author of a grammar

A message has a severity, a place in the grammar and a text. Steps that analyze a grammar or write
code keep a journal of what they have to say. Its events go to a collection of messages or to a log,
as the caller's `Sink` decides; that a rule was skipped goes to the log in any case.
-/
namespace PredictiveParser

inductive Severity where
  | warning
  | error
deriving DecidableEq

namespace Severity

def text : Severity → String
  | .warning => "warning"
  | .error => "error"

def logLevel : Severity → String
  | .warning => "warn"
  | .error => "error"

def max : Severity → Severity → Severity
  | .warning, .warning => .warning
  | _, _ => .error

end Severity

/-- What a message is about: a rule, or a node of it with its grammar text. -/
structure Location where
  rule : String
  node : Option NodeId
  basis : Option String
deriving DecidableEq

namespace Location

def ofRule (rule : String) : Location where
  rule
  node := none
  basis := none

def ofNode (g : Grammar) (rule : String) (id : NodeId) : Location where
  rule
  node := some id
  basis := g.nodes[id]?.bind fun node => node.basis.map Tokens.text

def text (location : Location) : String :=
  location.rule ++ (location.node.map nodeText).getD "" ++
    (location.basis.map fun basis => " (" ++ basis ++ ")").getD ""

end Location

structure Message where
  severity : Severity
  location : Location
  body : String
deriving DecidableEq

namespace Message

def text (message : Message) : String :=
  message.location.text ++ ": " ++ message.severity.text ++ ": " ++ message.body

def logLine (message : Message) : String :=
  message.severity.logLevel ++ ": " ++ message.location.text ++ ": " ++ message.body

end Message

/-- The messages collected so far, in the order in which they were reported. -/
structure Diagnostics where
  messages : List Message

namespace Diagnostics

def empty : Diagnostics where
  messages := []

def report (diagnostics : Diagnostics) (message : Message) : Diagnostics where
  messages := diagnostics.messages ++ [message]

def errors (diagnostics : Diagnostics) : List Message :=
  diagnostics.messages.filter (·.severity == .error)

def warnings (diagnostics : Diagnostics) : List Message :=
  diagnostics.messages.filter (·.severity == .warning)

def hasErrors (diagnostics : Diagnostics) : Bool :=
  diagnostics.messages.any (·.severity == .error)

def maxSeverity? (diagnostics : Diagnostics) : Option Severity :=
  diagnostics.messages.foldl
    (fun found message => some (match found with
      | some severity => severity.max message.severity
      | none => message.severity))
    none

end Diagnostics

/-- Something that a step has to say. -/
inductive Event where
  | report (message : Message)
  /-- A rule was skipped because of an error. -/
  | skipped (rule : String) (cause : GenerationError)

/-- Where the messages of a step go. -/
inductive Sink where
  | collection
  | log
deriving DecidableEq

namespace Event

def atNode (g : Grammar) (severity : Severity) (rule : String) (id : NodeId) (body : String) :
    Event :=
  .report { severity, location := .ofNode g rule id, body }

/-- The message that goes to the collection. -/
def message? (sink : Sink) : Event → Option Message
  | .report message => if sink = .collection then some message else none
  | .skipped .. => none

/-- The line that goes to the log. -/
def logLine? (sink : Sink) : Event → Option String
  | .report message => if sink = .log then some message.logLine else none
  | .skipped rule cause => some ("error: skipping rule " ++ rule ++ ": " ++ cause.message)

end Event

end PredictiveParser
