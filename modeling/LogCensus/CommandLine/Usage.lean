import LogCensus.CommandLine.Arguments

/-!
How the command line is used, and what it says when it is not used so.
-/

namespace LogCensus.CommandLine

def programName : String := "loglens"

def versionText : String := programName ++ " 0.1.0\n"

def ofLines (lines : List String) : String := String.join (lines.map (· ++ "\n"))

def helpText : Scope → String
  | .top => ofLines [
      "A concurrent multi-format log analyzer",
      "",
      "Usage: " ++ programName ++ " [OPTIONS] <COMMAND>",
      "",
      "Commands:",
      "  analyze  Analyze log files matching glob patterns",
      "  parsers  List the built-in parsers",
      "  help     Print this message or the help of the given subcommand(s)",
      "",
      "Options:",
      "  -v, --verbose...  Increase log verbosity (-v info, -vv debug)",
      "  -h, --help        Print help",
      "  -V, --version     Print version"]
  | .analyze => ofLines [
      "Analyze log files matching glob patterns",
      "",
      "Usage: " ++ programName ++ " analyze [OPTIONS] <PATTERNS>...",
      "",
      "Arguments:",
      "  <PATTERNS>...  Files or glob patterns",
      "",
      "Options:",
      "  -t, --type <PARSER_TYPE>  Force a parser type instead of auto-detecting per file",
      "  -v, --verbose...          Increase log verbosity (-v info, -vv debug)",
      "      --from <FROM>         Only count entries at or after this time (RFC3339 or YYYY-MM-DD)",
      "      --to <TO>             Only count entries at or before this time (RFC3339 or YYYY-MM-DD)",
      "  -w, --workers <WORKERS>   Number of concurrent workers (0 = number of CPUs) [default: 0]",
      "  -l, --limit <LIMIT>       Stop each file after this many accepted entries",
      "  -f, --format <FORMAT>     Output format [default: text] [possible values: text, json, csv]",
      "  -o, --output <OUTPUT>     Output file (defaults to stdout)",
      "  -h, --help                Print help"]
  | .formats => ofLines [
      "List the built-in parsers",
      "",
      "Usage: " ++ programName ++ " parsers [OPTIONS]",
      "",
      "Options:",
      "  -v, --verbose...  Increase log verbosity (-v info, -vv debug)",
      "  -h, --help        Print help"]

namespace UsageFault

def summary : UsageFault → String
  | noArguments => "a command is required"
  | missingCommand =>
    "'" ++ programName ++ "' requires a subcommand but one was not provided"
  | unknownCommand name => "unrecognized subcommand '" ++ name ++ "'"
  | unexpectedArgument shown => "unexpected argument '" ++ shown ++ "' found"
  | unexpectedValue value setting =>
    "unexpected value '" ++ value ++ "' for '" ++ setting.shown
      ++ "' found; no more were expected"
  | invalidValue value setting reason =>
    "invalid value '" ++ value ++ "' for '" ++ setting.shown ++ "': " ++ reason
  | unknownLayout value =>
    if value = "" then
      "a value is required for '" ++ Setting.layout.shown ++ "' but none was supplied"
    else "invalid value '" ++ value ++ "' for '" ++ Setting.layout.shown ++ "'"
  | missingValue setting =>
    "a value is required for '" ++ setting.shown ++ "' but none was supplied"
  | repeated setting =>
    "the argument '" ++ setting.shown ++ "' cannot be used multiple times"
  | missingPatterns => "the following required arguments were not provided:"

def details : UsageFault → List String
  | missingPatterns => ["  <PATTERNS>..."]
  | unknownLayout _ =>
    ["  [possible values: " ++ ", ".intercalate (Layout.names.map Prod.fst) ++ "]"]
  | missingValue .layout =>
    ["  [possible values: " ++ ", ".intercalate (Layout.names.map Prod.fst) ++ "]"]
  | _ => []

/-- All that is said about the fault. Without any arguments there is help in place of blame. -/
def text : UsageFault → String
  | noArguments => helpText .top
  | fault =>
    ofLines (("error: " ++ fault.summary) :: fault.details
      ++ ["", "For more information, try '--help'."])

end UsageFault

end LogCensus.CommandLine
