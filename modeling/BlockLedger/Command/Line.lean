import BlockLedger.Number.Natural

/-
# Command lines

A command line is a list of arguments, some of which are options.  An option is given by its long
name after two dashes or by its letter after one, and may have a value, which follows an equals
sign, or the letter at once, or is the next argument; several letters may share one dash.  After
two dashes alone there are no more options.  Nothing may be given twice, unless it is there to be
counted.

Arguments are dealt with from left to right, so the first mistake decides.  The value of an option
is looked at only when the next option comes up or the line ends.
-/

namespace BlockLedger

/-- What can be wrong with a command line. -/
inductive UsageError where
  | unknown
  | invalid
  /-- A value is missing or empty. -/
  | missing
  | repeated
  /-- A value is given to an option that takes none. -/
  | unwanted
  deriving DecidableEq, Inhabited, Repr

namespace UsageError

/-- The mistake in words. -/
def message : UsageError → String
  | unknown => "unexpected argument found"
  | invalid => "invalid value for one of the arguments"
  | missing => "one of the values isn't valid for an argument"
  | repeated =>
    "an argument cannot be used with one or more of the other specified arguments"
  | unwanted => "unexpected value for an argument found"

end UsageError

/-- An option, or an argument that stands for itself. -/
structure CommandOption where
  /-- The long name. -/
  name : String
  letter : Option Char := none
  /-- What the value is called, if there is one. -/
  value : Option String := none
  /-- How often it is given counts. -/
  counted : Bool := false
  /-- What is wrong with a value, if anything. -/
  check : String → Option UsageError := fun _ => none
  help : String
  /-- The value that is taken if none is given. -/
  otherwise : Option String := none

/-- A program, as far as its command line is concerned. -/
structure CommandSpec where
  program : String
  about : String
  /-- The version, if the program tells it. -/
  version : Option String := none
  /-- The argument that is no option, if there is one. -/
  argument : Option CommandOption := none
  options : List CommandOption

/-- What a command line gives: options and arguments by name, with their values. -/
abbrev Given := List (String × String)

/-- What a command line asks for. -/
inductive Invocation where
  | run (given : Given)
  | help
  | version
  | mistake (error : UsageError)

namespace CommandSpec

/-- What has been read of a command line. -/
structure Progress where
  given : Given := []
  /-- An option that was given, and its value if that has come. -/
  pending : Option (CommandOption × Option String) := none

/-- Takes an option with its value. -/
def accept (o : CommandOption) (value : String) (given : Given) : Except UsageError Given :=
  if !o.counted && given.any fun g => g.1 == o.name then .error .repeated
  else
    match o.check value with
    | some e => .error e
    | none => .ok (given ++ [(o.name, value)])

/-- Takes the option that is pending. -/
def settle (p : Progress) : Except UsageError Given :=
  match p.pending with
  | none => .ok p.given
  | some (_, none) => .error .missing
  | some (o, some value) => accept o value p.given

/-- Takes an option, whose value follows in the next argument if it has one and it is not given
here. -/
def take (p : Progress) (o : CommandOption) (value : Option String) :
    Except UsageError Progress := do
  match o.value, value with
  | some _, some value => return { given := ← accept o value (← settle p) }
  | some _, none => return { given := ← settle p, pending := some (o, none) }
  | none, some _ => throw .unwanted
  | none, none => return { given := ← accept o "" (← settle p) }

/-- Why reading a command line stops. -/
inductive Stop where
  | help
  | version
  | mistake (error : UsageError)

/-- An option that only asks about the program. -/
def enquiry (s : CommandSpec) (name : String) : Option Stop :=
  if name = "help" || name = "h" then some .help
  else if (name = "version" || name = "V") && s.version.isSome then some .version
  else none

/-- Goes on if nothing was wrong. -/
def orStop {α : Type} : Except UsageError α → Except Stop α
  | .ok a => .ok a
  | .error e => .error (.mistake e)

/-- Takes an option that is given by its long name. -/
def takeLong (s : CommandSpec) (p : Progress) (body : String) : Except Stop Progress :=
  let (name, value) :=
    match body.splitOn "=" with
    | [name] => (name, none)
    | name :: rest => (name, some ("=".intercalate rest))
    | [] => (body, none)
  match s.options.find? fun o => o.name == name with
  | some o => orStop (take p o value)
  | none =>
    match if name.length = 1 then none else s.enquiry name with
    | none => .error (.mistake .unknown)
    | some stop =>
      if value.isSome then .error (.mistake .unwanted)
      else
        match settle p with
        | .ok _ => .error stop
        | .error e => .error (.mistake e)

/-- Takes options that are given by their letters. -/
def takeLetters (s : CommandSpec) (p : Progress) : List Char → Except Stop Progress
  | [] => .ok p
  | c :: rest =>
    match s.options.find? fun o => o.letter == some c with
    | some o =>
      match o.value, rest with
      | none, _ =>
        match take p o none with
        | .ok p => takeLetters s p rest
        | .error e => .error (.mistake e)
      | some _, [] => orStop (take p o none)
      | some _, '=' :: value => orStop (take p o (some (String.ofList value)))
      | some _, value => orStop (take p o (some (String.ofList value)))
    | none =>
      match s.enquiry (String.singleton c) with
      | none => .error (.mistake .unknown)
      | some stop =>
        match settle p with
        | .ok _ => .error stop
        | .error e => .error (.mistake e)

/-- Takes an argument that is no option. -/
def takePlain (s : CommandSpec) (p : Progress) (arg : String) : Except Stop Progress :=
  match p.pending with
  | some (o, none) => .ok { p with pending := some (o, some arg) }
  | _ =>
    match s.argument with
    | none => .error (.mistake .unknown)
    | some a =>
      if p.given.any fun g => g.1 == a.name then .error (.mistake .unknown)
      else orStop do return { given := ← accept a arg (← settle p) }

/-- Takes arguments after which there are no more options. -/
def takeRest (s : CommandSpec) (p : Progress) : List String → Except Stop Progress
  | [] => .ok p
  | arg :: rest =>
    match s.argument with
    | none => .error (.mistake .unknown)
    | some a =>
      if p.given.any fun g => g.1 == a.name then .error (.mistake .unknown)
      else
        match settle p with
        | .error e => .error (.mistake e)
        | .ok given =>
          match accept a arg given with
          | .error e => .error (.mistake e)
          | .ok given => takeRest s { given } rest

/-- Takes arguments from left to right. -/
def takeAll (s : CommandSpec) (p : Progress) : List String → Except Stop Progress
  | [] => .ok p
  | arg :: rest =>
    if arg = "--" then s.takeRest p rest
    else
      let next :=
        match arg.toList with
        | '-' :: '-' :: body => s.takeLong p (String.ofList body)
        | '-' :: c :: letters => s.takeLetters p (c :: letters)
        | _ => s.takePlain p arg
      match next with
      | .ok p => takeAll s p rest
      | .error stop => .error stop

/-- What a command line asks for. -/
def parse (s : CommandSpec) (args : List String) : Invocation :=
  match s.takeAll {} args with
  | .error .help => .help
  | .error .version => .version
  | .error (.mistake e) => .mistake e
  | .ok p =>
    match settle p with
    | .ok given => .run given
    | .error e => .mistake e

/-! ## Help -/

/-- A number of blanks. -/
def blanks (n : Nat) : String := String.ofList (List.replicate n ' ')

/-- An option without its letter, with its value. -/
def longText (o : CommandOption) : String :=
  "--" ++ o.name
    ++ (match o.value with
        | some v => " <" ++ v ++ ">"
        | none => if o.counted then "..." else "")

/-- An option with its letter, and a gap in the place of a letter that it does not have. -/
def fullText (o : CommandOption) : String :=
  (match o.letter with
    | some c => "-" ++ String.singleton c ++ ", "
    | none => blanks 4)
    ++ longText o

/-- What an option does, with the value that is taken if none is given. -/
def helpText (o : CommandOption) : String :=
  o.help
    ++ (match o.otherwise with
        | some v => " [default: " ++ v ++ "]"
        | none => "")

/-- The width that help is written for. -/
def width : Nat := 100

/-- All options, with those that ask about the program. -/
def allOptions (s : CommandSpec) : List CommandOption :=
  s.options ++ [{ name := "help", letter := some 'h', help := "Print help" }]
    ++ if s.version.isSome then
      [{ name := "version", letter := some 'V', help := "Print version" }]
    else []

/-- Whether what options do is written below them: when they are wide and it would not fit beside
one of them. -/
def below (options : List CommandOption) (longest : Nat) : Bool :=
  let taken := longest + 8
  2 * width < 5 * taken && options.any fun o => width - taken < (helpText o).length

/-- The part of the help that lists options. -/
def optionsText (options : List CommandOption) : String :=
  let longest := (options.map fun o => (longText o).length).foldl max 2
  let line (o : CommandOption) : String :=
    if below options longest then
      "  " ++ fullText o ++ "\n" ++ blanks 10 ++ helpText o ++ "\n"
    else
      "  " ++ fullText o ++ blanks (longest + 2 - (longText o).length) ++ helpText o ++ "\n"
  "Options:\n" ++ String.join (options.map line)

/-- The help. -/
def help (s : CommandSpec) : String :=
  let argument :=
    match s.argument with
    | some a => some (a.value.getD a.name, a.help)
    | none => none
  s.about ++ "\n\nUsage: " ++ s.program ++ " [OPTIONS]"
    ++ (match argument with
        | some (name, _) => " [" ++ name ++ "]"
        | none => "")
    ++ "\n\n"
    ++ (match argument with
        | some (name, text) => "Arguments:\n  [" ++ name ++ "]  " ++ text ++ "\n\n"
        | none => "")
    ++ optionsText s.allOptions

/-- The line that tells the version. -/
def versionLine (s : CommandSpec) : String := s.program ++ " " ++ s.version.getD "" ++ "\n"

end CommandSpec

/-! ## Values -/

namespace CommandOption

/-- The natural number that a text stands for: decimal digits, after a plus sign perhaps. -/
def natural? (text : String) : Option Nat :=
  let ds := match text.toList with
    | '+' :: rest => rest
    | cs => cs
  if ds.isEmpty || !ds.all Char.isDigit then none
  else some (ds.foldl (fun n c => 10 * n + (c.toNat - '0'.toNat)) 0)

/-- The number below `2 ^ 32` that a text stands for; zero may also have a minus sign. -/
def word32? (text : String) : Option Nat :=
  match text.toList with
  | '-' :: ds =>
    match natural? ("+" ++ String.ofList ds) with
    | some 0 => if ds.head? = some '+' then none else some 0
    | _ => none
  | _ => (natural? text).filter (· < 2 ^ 32)

/-- The number below `2 ^ 64` that a text stands for. -/
def word64? (text : String) : Option Nat := (natural? text).filter (· < 2 ^ 64)

/-- Refuses values that stand for nothing. -/
def checkBy {α : Type} (read : String → Option α) (text : String) : Option UsageError :=
  if (read text).isSome then none else some .invalid

/-- Refuses an empty path. -/
def checkPath (text : String) : Option UsageError := if text.isEmpty then some .missing else none

end CommandOption

namespace Given

/-- The value of an option, if it was given. -/
def get? (g : Given) (name : String) : Option String := (g.find? fun p => p.1 == name).map Prod.snd

/-- How often an option was given. -/
def count (g : Given) (name : String) : Nat := g.countP fun p => p.1 == name

end Given

end BlockLedger
