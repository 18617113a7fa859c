import LiveSketch.CommandLine.Arguments

/-!
# Help

The pages of the help say what a command does and list its options, each beside what it is for.
-/
namespace LiveSketch.CommandLine

/-- A term of a list, and what is said about it. -/
abbrev HelpEntry := String × String

/-- A list of terms with what is said about them in one column. -/
def helpList (entries : List HelpEntry) : String :=
  let width := entries.foldl (fun n e => max n e.1.length) 0
  let line (e : HelpEntry) : String :=
    let fill := String.ofList (List.replicate (width - e.1.length) ' ')
    "  " ++ e.1 ++ fill ++ "  " ++ e.2 ++ "\n"
  entries.foldl (fun out e => out ++ line e) ""

/-- The entry of an option. -/
def CommandOption.helpEntry (o : CommandOption) : HelpEntry :=
  let value := match o.value with
    | some (_, name) => " <" ++ name ++ ">"
    | none => ""
  ("    --" ++ o.name ++ value, o.about)

/-- The entry of the option that can be given everywhere. -/
def verboseEntry : HelpEntry :=
  ("-v, --verbose...", "Increase log verbosity on stderr (-v info, -vv debug, -vvv trace)")

/-- The entry of the option that asks for help. -/
def helpOptionEntry : HelpEntry := ("-h, --help", "Print help")

/-- What the command `help` does. -/
def aboutHelp : String := "Print this message or the help of the given subcommand(s)"

/-- The commands, each with what it does. -/
def commandEntries : List HelpEntry :=
  Topic.all.map (fun t => (t.name, t.about)) ++ [("help", aboutHelp)]

/-- How the program is called. -/
def usage : String := "Usage: livecode [OPTIONS] <COMMAND>\n"

/-- The option for the log comes after the first option of a command. -/
def Topic.helpEntries (t : Topic) : List HelpEntry :=
  match t.options.map CommandOption.helpEntry with
  | [] => [verboseEntry, helpOptionEntry]
  | first :: rest => first :: verboseEntry :: rest ++ [helpOptionEntry]

/-- The text of a page. -/
def Page.text : Page → String
  | program => usage ++ "\nCommands:\n" ++ helpList commandEntries ++ "\nOptions:\n"
      ++ helpList [verboseEntry, helpOptionEntry, ("-V, --version", "Print version")]
  | command t => t.about ++ "\n\nUsage: livecode " ++ t.name ++ " [OPTIONS]\n\nOptions:\n"
      ++ helpList t.helpEntries
  | help => aboutHelp ++ "\n\nUsage: livecode help [COMMAND]...\n\nArguments:\n"
      ++ helpList [("[COMMAND]...", "Print help for the subcommand(s)")]

/-- What is said when the arguments cannot be understood. -/
def misuseText : String :=
  "error: the arguments cannot be understood\n\n" ++ usage ++ "\nFor more information, try '--help'.\n"

end LiveSketch.CommandLine
