/-!
# Command line options

The words of a command line are read into settings, and the settings, one after the other, into
`Options`.  A switch may be given once, `--tree` excludes `--verbose`, and `--color` excludes
`--no-color`.

A long option may carry its value behind an equals sign.  Short options may share one dash; one
that takes a value has it in the rest of the word, after an equals sign or directly, or in the next
word.  A value in a word of its own does not start with a dash, unless it is the dash alone.

The first setting that is wrong ends the reading, and so does the first that asks for the help text
or the version: what stands behind it is not looked at, and options that exclude each other are
found only when nothing has ended the reading.
-/

namespace RoutePolicy.Command

inductive Switch where
  | strict
  | tree
  | verbose
  | color
  | noColor
  | pretty
deriving DecidableEq, Repr

/-- Why a command line is refused. -/
inductive UsageError where
  | unknownOption (option : String)
  | unexpectedArgument (word : String)
  | missingValue (option : String)
  | unexpectedValue (option : String)
  | repeated
  | conflict
deriving DecidableEq, Repr

/-- The message for a refused command line. -/
def UsageError.message : UsageError → String
  | .unknownOption option => "unexpected argument '" ++ option ++ "' found"
  | .unexpectedArgument word => "unexpected argument '" ++ word ++ "' found"
  | .missingValue option => "a value is required for '" ++ option ++ "' but none was supplied"
  | .unexpectedValue option => "unexpected value for '" ++ option ++ "' found"
  | .repeated => "an argument cannot be used multiple times"
  | .conflict => "two arguments cannot be used together"

/-- What one option asks for, or what is wrong with it. -/
inductive Setting where
  | switch (s : Switch)
  | input (name : String)
  | help
  | version
  | wrong (e : UsageError)
deriving DecidableEq, Repr

/-! ## Words -/

/-- The option with a long name, if it takes no value. -/
def longSetting? : String → Option Setting
  | "strict" => some (.switch .strict)
  | "tree" => some (.switch .tree)
  | "verbose" => some (.switch .verbose)
  | "color" => some (.switch .color)
  | "no-color" => some (.switch .noColor)
  | "pretty" => some (.switch .pretty)
  | "help" => some .help
  | "version" => some .version
  | _ => none

/-- The option with a short name, if it takes no value. -/
def shortSetting? : Char → Option Setting
  | 'v' => some (.switch .verbose)
  | 'p' => some (.switch .pretty)
  | 'h' => some .help
  | 'V' => some .version
  | _ => none

/-- Whether a word can be the value of the option before it. -/
def isValue (word : String) : Bool :=
  word = "-" || (word ≠ "" && word.toList.head? ≠ some '-')

/-- What an option word says; the input name may be still to come, in the next word. -/
structure Reading where
  settings : List Setting := []
  awaitsInput : Bool := false
deriving DecidableEq, Repr

/-- An option word that is wrong. -/
def Reading.wrong (e : UsageError) : Reading :=
  { settings := [.wrong e] }

/-- An input name that is part of an option word. -/
def Reading.ofInput (name : List Char) : Reading :=
  if name = [] then .wrong (.missingValue "--input")
  else { settings := [.input (String.ofList name)] }

/-- Reads a long option, without its dashes. -/
def readLong (body : List Char) : Reading :=
  let name := String.ofList (body.takeWhile (· ≠ '='))
  match name, body.dropWhile (· ≠ '=') with
  | "input", [] => { awaitsInput := true }
  | "input", _ :: value => .ofInput value
  | _, value =>
    match longSetting? name, value with
    | some s, [] => { settings := [s] }
    | some _, _ :: _ => .wrong (.unexpectedValue ("--" ++ name))
    | none, _ => .wrong (.unknownOption ("--" ++ name))

/-- Reads short options that share one dash. -/
def readShort : List Char → Reading
  | [] => {}
  | c :: cs =>
    if c = 'i' then
      match cs with
      | [] => { awaitsInput := true }
      | '=' :: value => .ofInput value
      | value => .ofInput value
    else
      match shortSetting? c with
      | none => .wrong (.unknownOption (String.ofList ['-', c]))
      | some s =>
        let more := readShort cs
        { more with settings := s :: more.settings }

/-- Reads one word that is not the value of an option. -/
def readWord (word : String) : Reading :=
  match word.toList with
  | '-' :: '-' :: body => readLong body
  | ['-'] => .wrong (.unexpectedArgument word)
  | '-' :: cs => readShort cs
  | _ => .wrong (.unexpectedArgument word)

/-- Reads the words of a command line.  Behind a word of two dashes no option follows. -/
def readWords : List String → List Setting
  | [] => []
  | word :: rest =>
    if word = "--" then
      match rest with
      | [] => []
      | other :: _ => [.wrong (.unexpectedArgument other)]
    else
      let reading := readWord word
      if reading.awaitsInput then
        match rest with
        | [] => reading.settings ++ [.wrong (.missingValue word)]
        | value :: rest =>
          if isValue value then reading.settings ++ .input value :: readWords rest
          else reading.settings ++ [.wrong (.missingValue word)]
      else reading.settings ++ readWords rest

/-! ## Options -/

/-- What a command line asks for.  Without an input name, or with a dash for one, the standard input
is read. -/
structure Options where
  input : Option String := none
  strict : Bool := false
  tree : Bool := false
  verbose : Bool := false
  color : Bool := false
  noColor : Bool := false
  pretty : Bool := false
deriving DecidableEq, Repr

/-- Whether a switch is on. -/
def Options.isOn (o : Options) : Switch → Bool
  | .strict => o.strict
  | .tree => o.tree
  | .verbose => o.verbose
  | .color => o.color
  | .noColor => o.noColor
  | .pretty => o.pretty

/-- Turns a switch on. -/
def Options.turnOn (o : Options) : Switch → Options
  | .strict => { o with strict := true }
  | .tree => { o with tree := true }
  | .verbose => { o with verbose := true }
  | .color => { o with color := true }
  | .noColor => { o with noColor := true }
  | .pretty => { o with pretty := true }

/-- Why a command line has no options: it is refused, or it asks for a text only. -/
inductive Ending where
  | refused (e : UsageError)
  | help
  | version
deriving DecidableEq, Repr

/-- Adds a setting; each may be given once. -/
def Options.add (o : Options) : Setting → Except Ending Options
  | .switch s => if o.isOn s then .error (.refused .repeated) else .ok (o.turnOn s)
  | .input name =>
    if o.input.isSome then .error (.refused .repeated) else .ok { o with input := some name }
  | .help => .error .help
  | .version => .error .version
  | .wrong e => .error (.refused e)

/-- Whether no two options exclude each other. -/
def Options.isConsistent (o : Options) : Bool :=
  !(o.tree && o.verbose) && !(o.color && o.noColor)

/-- The options of a command line. -/
def Options.ofWords (words : List String) : Except Ending Options := do
  let options ← (readWords words).foldlM Options.add {}
  if options.isConsistent then .ok options else .error (.refused .conflict)

end RoutePolicy.Command
