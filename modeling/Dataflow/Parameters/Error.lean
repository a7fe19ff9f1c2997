import Dataflow.Evaluation.Method
import Dataflow.Text.Blank

/-!
# Rejected parameters

Why a list of parameters is not read: one of them is not understood, a value is missing or wrong, or
help is asked for, which is answered by the usage text instead of an evaluation.
-/

namespace Dataflow

/-- Why the value of an option is rejected. -/
inductive ValueError where
  | method (error : MethodError)
  | emptyNumber
  | badNumber
  | unknownLevel
  | repeated
  deriving DecidableEq, Repr

/-- The wording of a rejected value. -/
def ValueError.message : ValueError → String
  | .method error => error.message
  | .emptyNumber => "cannot parse float from empty string"
  | .badNumber => "invalid float literal"
  | .unknownLevel => "attempted to convert a string that doesn't match an existing log level"
  | .repeated => "duplicate values provided"

/-- Why a list of parameters is not read. -/
inductive ParameterError where
  /-- Help is asked for. -/
  | help
  /-- An option follows the request for help. -/
  | afterHelp
  /-- A parameter is neither an option nor allowed on its own. -/
  | unrecognized (argument : String)
  /-- An option that needs a value is the last parameter. -/
  | noValue (option : String)
  /-- An option has a value that it does not accept. -/
  | badValue (option value : String) (cause : ValueError)
  deriving DecidableEq, Repr

namespace ParameterError

/-- The usage text. -/
def usage : String :=
  "Usage: dfeval [-m <method>] [--default-timing <default-timing>] "
    ++ "[--hierarchical-timing <hierarchical-timing>] [--interface-timing <interface-timing>] "
    ++ "[--no-validate] [--log <log>]\n\n"
    ++ "Parameters of a throughput evaluation task.\n\n"
    ++ "Options:\n"
    ++ "  -m, --method      evaluation method (asap | single-rate). default = asap\n"
    ++ "  --default-timing  duration of atomic actors missing from the timing table\n"
    ++ "  --hierarchical-timing\n"
    ++ "                    duration of hierarchical actors\n"
    ++ "  --interface-timing\n"
    ++ "                    duration of interface actors\n"
    ++ "  --no-validate     skip the well-formedness checks of the hierarchy\n"
    ++ "  --log             logging level\n"
    ++ "  --help, help      display usage information"

/-- The wording before blanks at its end are dropped. -/
def wording : ParameterError → String
  | .help => usage
  | .afterHelp => "Trailing arguments are not allowed after `help`."
  | .unrecognized argument => s!"Unrecognized argument: {argument}"
  | .noValue option => s!"No value provided for option '{option}'."
  | .badValue option value cause =>
    s!"Error parsing option '{option}' with value '{value}': " ++ cause.message

/-- The message, without blanks at its end. -/
def message (e : ParameterError) : String := Blank.trimEnd e.wording

end ParameterError

end Dataflow
