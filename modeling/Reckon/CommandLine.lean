/-!
  The command line: options and at most one statement, in any order. The arguments are read from
  left to right and the first that settles the matter decides, so a request for help counts only
  if no argument before it is wrong. That options exclude each other is noticed last, when every
  argument has been read.
-/

namespace Reckon

/-- What is printed of a statement. -/
inductive Mode where
  /-- The result and the variables. -/
  | value
  /-- The tokens, without reading them as a statement. -/
  | tokens
  /-- The tree, without evaluating it. -/
  | tree
  deriving DecidableEq, Repr

/-- Where a statement comes from. -/
inductive Source where
  | argument (statement : String)
  | file (path : String)
  | input
  deriving DecidableEq, Repr

/-- What the user asks for. -/
inductive Request where
  | help
  | version
  | process (mode : Mode) (source : Source)
  deriving DecidableEq, Repr

/-- Why the arguments ask for nothing. -/
inductive UsageFault where
  | unknownOption (argument : String)
  | unexpectedValue (argument : String)
  | missingPath
  | repeated (option : String)
  | secondStatement (argument : String)
  | conflict (first second : String)
  deriving DecidableEq, Repr

/-- The wording of a usage fault. -/
def UsageFault.message : UsageFault → String
  | unknownOption argument => "unknown option " ++ argument
  | unexpectedValue argument => "the option takes no value: " ++ argument
  | missingPath => "the option --file needs a path"
  | repeated option => "the option " ++ option ++ " is given twice"
  | secondStatement argument => "more than one statement: " ++ argument
  | conflict first second => first ++ " and " ++ second ++ " exclude each other"

namespace CommandLine

/-! ## One argument -/

/-- What a single argument is. -/
inductive Item where
  | statement (text : String)
  /-- Two hyphens: everything after them is a statement. -/
  | separator
  | help
  | version
  | tokens
  | tree
  /-- The path option, with its path if that stands in the same argument. -/
  | file (path : Option String)
  deriving DecidableEq, Repr

/-- An option written with two hyphens; a value may follow it after an equals sign. -/
def longItem (argument : String) (name : String) (value : Option String) :
    Except UsageFault Item :=
  match name, value with
  | "file", path => .ok (.file path)
  | "tokens", none => .ok .tokens
  | "ast", none => .ok .tree
  | "help", none => .ok .help
  | "version", none => .ok .version
  | _, none => .error (.unknownOption argument)
  | _, some _ => .error (.unexpectedValue argument)

/-- An option written with one hyphen and one letter. The path may follow at once, also after an
equals sign. Help and version settle the matter, whatever else the argument holds. -/
def shortItem (argument : String) (letter : Char) (more : List Char) : Except UsageFault Item :=
  match letter, more with
  | 'h', _ => .ok .help
  | 'V', _ => .ok .version
  | 'f', [] => .ok (.file none)
  | 'f', '=' :: path => .ok (.file (some (String.ofList path)))
  | 'f', path => .ok (.file (some (String.ofList path)))
  | _, _ => .error (.unknownOption argument)

/-- What an argument is by its first characters. One hyphen alone is a statement. -/
def item (argument : String) : Except UsageFault Item :=
  match argument.toList with
  | ['-', '-'] => .ok .separator
  | '-' :: '-' :: long =>
    let value := match long.dropWhile (· != '=') with
      | [] => none
      | _ :: value => some (String.ofList value)
    longItem argument (String.ofList (long.takeWhile (· != '='))) value
  | '-' :: letter :: more => shortItem argument letter more
  | _ => .ok (.statement argument)

/-- An argument that cannot be the path of the option before it. -/
def isOption (argument : String) : Bool :=
  match argument.toList with
  | '-' :: _ :: _ => true
  | _ => false

/-! ## All arguments -/

/-- What the arguments so far have settled. -/
structure Settings where
  path : Option String := none
  statement : Option String := none
  tokens : Bool := false
  tree : Bool := false
  deriving DecidableEq, Repr

namespace Settings

/-- Takes a path, which must not be empty and of which there can be only one. -/
def setPath (s : Settings) (path : String) : Except UsageFault Settings :=
  if path = "" then .error .missingPath
  else if s.path.isSome then .error (.repeated "--file")
  else .ok { s with path := some path }

/-- Takes a statement, of which there can be only one. -/
def setStatement (s : Settings) (statement : String) : Except UsageFault Settings :=
  if s.statement.isSome then .error (.secondStatement statement)
  else .ok { s with statement := some statement }

/-- Asks for the tokens, once. -/
def setTokens (s : Settings) : Except UsageFault Settings :=
  if s.tokens then .error (.repeated "--tokens") else .ok { s with tokens := true }

/-- Asks for the tree, once. -/
def setTree (s : Settings) : Except UsageFault Settings :=
  if s.tree then .error (.repeated "--ast") else .ok { s with tree := true }

/-- The mode, if the two listings are not both asked for. -/
def mode (s : Settings) : Except UsageFault Mode :=
  match s.tokens, s.tree with
  | false, false => .ok .value
  | true, false => .ok .tokens
  | false, true => .ok .tree
  | true, true => .error (.conflict "--tokens" "--ast")

/-- The source, if a file and a statement are not both given. -/
def source (s : Settings) : Except UsageFault Source :=
  match s.path, s.statement with
  | none, none => .ok .input
  | some path, none => .ok (.file path)
  | none, some statement => .ok (.argument statement)
  | some _, some _ => .error (.conflict "--file" "a statement")

/-- What is asked for when no argument is left. -/
def request (s : Settings) : Except UsageFault Request := do
  return .process (← s.mode) (← s.source)

end Settings

/-- Reads the arguments behind the separator, which are statements whatever they look like. -/
def readStatements (s : Settings) : List String → Except UsageFault Request
  | [] => s.request
  | argument :: rest =>
    match s.setStatement argument with
    | .ok s => readStatements s rest
    | .error f => .error f

/-- Reads arguments on top of what is settled. -/
def readFrom (s : Settings) : List String → Except UsageFault Request
  | [] => s.request
  | argument :: rest =>
    match item argument with
    | .error f => .error f
    | .ok .help => .ok .help
    | .ok .version => .ok .version
    | .ok .separator => readStatements s rest
    | .ok (.statement text) =>
      match s.setStatement text with
      | .ok s => readFrom s rest
      | .error f => .error f
    | .ok .tokens =>
      match s.setTokens with
      | .ok s => readFrom s rest
      | .error f => .error f
    | .ok .tree =>
      match s.setTree with
      | .ok s => readFrom s rest
      | .error f => .error f
    | .ok (.file (some path)) =>
      match s.setPath path with
      | .ok s => readFrom s rest
      | .error f => .error f
    | .ok (.file none) =>
      match rest with
      | [] => .error .missingPath
      | path :: rest =>
        if isOption path then .error .missingPath
        else
          match s.setPath path with
          | .ok s => readFrom s rest
          | .error f => .error f

/-- Reads the arguments of a run. -/
def read (arguments : List String) : Except UsageFault Request := readFrom {} arguments

/-- An argument behind the separator is the statement, be it spelt like an option or like a
request for help. -/
theorem readFrom_separator {s : Settings} (h : s.statement = none) (argument : String) :
    readFrom s ["--", argument] = { s with statement := some argument }.request := by
  simp [readFrom, item, readStatements, Settings.setStatement, h]

end CommandLine

end Reckon
