import Ycsb.Counter
import Ycsb.Lib.Bytes
import Ycsb.Lib.OrdMap

/-!
# Properties and the command line

`ParseCommandLine` goes through the arguments from left to right and sets each
property as it meets it. A property file is loaded where its option stands.
-/

namespace Ycsb

open Lib

def ascii (s : String) : Bytes := s.toList.map fun c => Fin.ofNat 256 c.toNat

namespace utils

def isspace (b : Byte) : Bool := decide (b.val = 32 ∨ 9 ≤ b.val ∧ b.val ≤ 13)

def trim (str : Bytes) : Bytes := ((str.dropWhile isspace).reverse.dropWhile isspace).reverse

end utils

abbrev Properties := OrdMap Bytes Bytes

def splitAssignment (s : Bytes) : Option (Bytes × Bytes) :=
  (s.idxOf? 61).map fun pos => (utils.trim (s.take pos), utils.trim (s.drop (pos + 1)))

namespace Properties

def setProperty (props : Properties) (key value : Bytes) : Properties := props.put key value

/-- What `getline` yields until the end of the input; `line` is what it has read of the current line. -/
def lines : Bytes → Bytes → List Bytes
  | line, [] => [line]
  | line, b :: input => if b = 10 then line :: lines [] input else lines (line ++ [b]) input

/-- A line that starts with `#`, or has no `=`, is skipped. -/
def parseLine (line : Bytes) : Option (Bytes × Bytes) :=
  if line.head? = some 35 then none else splitAssignment line

def load (input : Bytes) (props : Properties) : Properties :=
  (lines [] input).foldl (fun props line =>
    match parseLine line with
    | none => props
    | some (key, value) => setProperty props key value) props

end Properties

/-- How a command line is rejected: with the usage and a message, or by an exception that nobody catches. -/
inductive ParseExit where
  | exit (usage : Bool) (message : Option Bytes)
  | throws (e : Exception)

def missingValue (option : String) : ParseExit := .exit true (some (ascii "Missing argument value for " ++ ascii option))

open Properties in
/-- The loop of `ParseCommandLine`, and the arguments it leaves. A file is `none` if it does not open. -/
def parseArgs (files : Bytes → Option Bytes) : List Bytes → Properties → Except ParseExit (Properties × List Bytes)
  | [], props => .ok (props, [])
  | arg :: rest, props =>
    if arg.head? = some 45 then
      if arg = ascii "-load" then parseArgs files rest (setProperty props (ascii "doload") (ascii "true"))
      else if arg = ascii "-run" ∨ arg = ascii "-t" then
        parseArgs files rest (setProperty props (ascii "dotransaction") (ascii "true"))
      else if arg = ascii "-threads" then
        match rest with
        | [] => .error (missingValue "-threads")
        | value :: rest => parseArgs files rest (setProperty props (ascii "threadcount") value)
      else if arg = ascii "-db" then
        match rest with
        | [] => .error (missingValue "-db")
        | value :: rest => parseArgs files rest (setProperty props (ascii "dbname") value)
      else if arg = ascii "-P" then
        match rest with
        | [] => .error (missingValue "-P")
        | filename :: rest =>
          match files filename with
          | none => .error (.throws ⟨"File not open!"⟩)
          | some input => parseArgs files rest (load input props)
      else if arg = ascii "-p" then
        match rest with
        | [] => .error (missingValue "-p")
        | prop :: rest =>
          match splitAssignment prop with
          | none => .error (.exit false (some (ascii
              "Argument '-p' expected to be in key=value format (e.g., -p operationcount=99999)")))
          | some (key, value) => parseArgs files rest (setProperty props key value)
      else if arg = ascii "-s" then parseArgs files rest (setProperty props (ascii "status") (ascii "true"))
      else .error (.exit true (some (ascii "Unknown option '" ++ arg ++ ascii "'")))
    else .ok (props, arg :: rest)

/-- `args` are the arguments behind the program's name. -/
def parseCommandLine (files : Bytes → Option Bytes) (args : List Bytes) (props : Properties) :
    Except ParseExit Properties := do
  let (props, rest) ← parseArgs files args props
  if args = rest ∨ rest ≠ [] then throw (.exit true none)
  return props

end Ycsb
