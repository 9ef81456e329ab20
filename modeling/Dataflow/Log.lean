/-!
Log lines as data. What is shown of them depends on the verbosity.
-/

namespace Dataflow

inductive Level where
  | debug | info
deriving DecidableEq

structure Event where
  level : Level
  source : String
  text : String

namespace Event

def levelText : Level → String
  | .debug => "DEBUG"
  | .info => "INFO "

def line (e : Event) : String := "[" ++ levelText e.level ++ "] flowcore." ++ e.source ++ ": " ++ e.text

def shows (verbosity : Int) (e : Event) : Bool :=
  match e.level with
  | .debug => 2 ≤ verbosity
  | .info => 1 ≤ verbosity

end Event

end Dataflow
