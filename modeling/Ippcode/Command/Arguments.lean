import Ippcode.Source.Line

/-!
# The command line

The words of the command line are byte strings; the first is the name of the program.  The only
option is `--help`, and it stands alone; it asks for `helpText`.

A word with two dashes in front is an option: its name is what stands between its dashes, however
many there are, and the first `=`.  A word with one dash in front is a group of short options, of
which there are none.  The word `--` ends the options, and every other word is an operand, of
which there are none either; so is a single dash.  Words are looked at from the left, and the
first one that is not expected decides.
-/

namespace Ippcode

inductive Command where
  | analyze
  | help
deriving DecidableEq, Repr

namespace Command

/-- what the words so far have said -/
structure Scan where
  /-- how often help was asked for -/
  helps : Nat
  /-- no option is looked for any more -/
  operandsOnly : Bool
deriving DecidableEq, Repr

/-- Only the first line of a longer message is passed on. -/
def firstLine (message : Text) : Text :=
  Source.chomp (message.takeWhile (· ≠ '\n') ++ ['\n'])

def unexpected (word : Text) : Fault :=
  .parameters (firstLine ("Found argument '".toList ++ word
    ++ "' which wasn't expected, or isn't valid in this context".toList))

def repeatedHelp : Fault :=
  .parameters ("The argument '--help' was provided more than once, ".toList
    ++ "but cannot be used multiple times".toList)

def accompaniedHelp : Fault :=
  .parameters "--help may not be combined with other parameters".toList

/-- the name of an option, from a word with its dashes -/
def optionName (word : Text) : Text :=
  (word.dropWhile (· = '-')).takeWhile (· ≠ '=')

def scanWord (s : Scan) (word : Text) : Except Fault Scan :=
  if s.operandsOnly then .error (unexpected word)
  else if word = ['-', '-'] then .ok { s with operandsOnly := true }
  else
    match word with
    | '-' :: '-' :: _ =>
      if optionName word = "help".toList then .ok { s with helps := s.helps + 1 }
      else .error (unexpected ('-' :: '-' :: optionName word))
    | '-' :: c :: _ => .error (unexpected ['-', c])
    | _ => .error (unexpected word)

/-- what the words of a command line ask for -/
def ofWords (words : List Text) : Except Fault Command :=
  match words.tail.foldlM scanWord ⟨0, false⟩ with
  | .error f => .error f
  | .ok s =>
    if s.helps > 1 then .error repeatedHelp
    else if s.helps = 0 then .ok .analyze
    else if words.length = 2 then .ok .help
    else .error accompaniedHelp

/-- What a command line asks for.  Words that are no text are read with replacements. -/
def ofArguments (arguments : List Bytes) : Except Fault Command :=
  ofWords (arguments.map Utf8.decodeLossy)

theorem ofArguments_nil : ofArguments [] = .ok .analyze := rfl
theorem ofArguments_singleton (name : Bytes) : ofArguments [name] = .ok .analyze := rfl

end Command

/-! ## the help text -/

/-- the lines of the help text, which is the same however the program was called -/
def helpLines : List String :=
  ["ippcode-parse 0.1.0",
   "Nicolas 'Montessquio' Suarez <nsuarez@kernelstack.net>",
   "Reads IPPcode22 source from standard input, checks its lexical and syntactic validity and writes the XML representation",
   "of the program to standard output.",
   "",
   "USAGE:",
   "    ippcode-parse",
   "",
   "FLAGS:",
   "        --help    Prints this help text. May not be combined with other parameters",
   "",
   "EXIT CODES:",
   "     0  success",
   "    10  missing parameter or forbidden combination of parameters",
   "    11  unable to open or read the input",
   "    12  unable to open or write the output",
   "    21  missing or invalid header in the IPPcode22 source",
   "    22  unknown or invalid opcode in the IPPcode22 source",
   "    23  other lexical or syntax error in the IPPcode22 source",
   "    99  internal error (not caused by the input or the parameters)"]

def helpText : Text := helpLines.flatMap fun l => l.toList ++ ['\n']

end Ippcode
