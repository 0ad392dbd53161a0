import WeakHead.Machine
import WeakHead.Source

/-!
# Sessions of the command line

What the arguments ask for, where the program text comes from, the machine that
runs it, and the exit code.
-/

namespace WeakHead

/-!
## Reading a file

Why a source file cannot be read, and a directory of plain files that a
relative path is looked up in.
-/

inductive ReadError where
  | system (text : String) (code : Nat)
  | malformedText
  deriving DecidableEq, Repr

namespace ReadError

def notFound : ReadError := .system "No such file or directory" 2
def notDirectory : ReadError := .system "Not a directory" 20
def isDirectory : ReadError := .system "Is a directory" 21
def nameTooLong : ReadError := .system "File name too long" 36

def message : ReadError → String
  | .system text code => text ++ " (os error " ++ code.repr ++ ")"
  | .malformedText => "stream did not contain valid UTF-8"

end ReadError

def decodeText (bytes : ByteArray) : Except ReadError String :=
  match String.fromUTF8? bytes with
  | some text => .ok text
  | none => .error .malformedText

structure Directory where
  files : List (String × ByteArray)

namespace Directory

def longestName : Nat := 255

def longestPath : Nat := 4095

def absent (name : String) : ReadError :=
  if name.utf8ByteSize ≤ longestName then .notFound else .nameTooLong

/-- What is wrong with a path that leads out of the directory: it ends at a directory above it, or
at a name that is not there. -/
def outside : List String → ReadError
  | [] => .isDirectory
  | name :: rest => if ["", ".", ".."].contains name then outside rest else absent name

/-- Looks up a path, taken apart at its slashes. The first name that fails decides. -/
def lookup (d : Directory) : List String → Except ReadError ByteArray
  | [] => .error .isDirectory
  | "" :: rest => d.lookup rest
  | "." :: rest => d.lookup rest
  | ".." :: rest => .error (outside rest)
  | name :: rest =>
    match d.files.lookup name, rest with
    | none, _ => .error (absent name)
    | some bytes, [] => .ok bytes
    | some _, _ :: _ => .error .notDirectory

def readText (d : Directory) (path : String) : Except ReadError String := do
  if longestPath < path.utf8ByteSize then .error .nameTooLong
  else match path.splitOn "/" with
    | "" :: rest => .error (outside rest)
    | parts => decodeText (← d.lookup parts)

end Directory

/-!
## Options of the command line

    [--trace] [--max-steps N] [--] FILE

Options stand in any order before `--`, each at most once; the number may
also be given as `--max-steps=N`. A lone `-` is a file.
-/

structure Options where
  file : String
  settings : Settings
  deriving DecidableEq, Repr

namespace Options

structure Draft where
  file : Option String
  trace : Bool
  maxSteps : Option Nat
  deriving DecidableEq, Repr

/-- Reads a number below `2 ^ 64` in decimal digits, with or without a plus sign. -/
def count? (text : String) : Option Nat :=
  let digits := match text.toList with
    | '+' :: digits => digits
    | digits => digits
  if digits.isEmpty || !digits.all Char.isDigit then none
  else
    let n := digits.foldl (fun n c => 10 * n + (c.toNat - '0'.toNat)) 0
    if n < UInt64.size then some n else none

namespace Draft

def addFile (d : Draft) (file : String) : Option Draft :=
  if d.file.isNone && !file.isEmpty then some { d with file := some file } else none

def addTrace (d : Draft) : Option Draft :=
  if d.trace then none else some { d with trace := true }

def addMaxSteps (d : Draft) (text : String) : Option Draft := do
  let n ← count? text
  if d.maxSteps.isNone then some { d with maxSteps := some n } else none

def attachedCount? (arg : String) : Option String :=
  let sign := "--max-steps=".toList
  if sign.isPrefixOf arg.toList then some (String.ofList (arg.toList.drop sign.length)) else none

def read : Draft → List String → Option Draft
  | d, [] => some d
  | d, "--" :: files => files.foldlM addFile d
  | d, "--trace" :: rest => do read (← d.addTrace) rest
  | d, "--max-steps" :: text :: rest => do read (← d.addMaxSteps text) rest
  | d, arg :: rest => do
    match attachedCount? arg with
    | some text => read (← d.addMaxSteps text) rest
    | none =>
      if "-".toList.isPrefixOf arg.toList && arg != "-" then none
      else read (← d.addFile arg) rest

end Draft

def ofArgs? (args : List String) : Option Options := do
  let d ← Draft.read ⟨none, false, none⟩ args
  return { file := ← d.file, settings := ⟨d.trace, d.maxSteps⟩ }

end Options

/-!
## A session of the command line

From the text of the file to the machine that runs it, and from the end of
the run to the exit code.
-/

structure Verdict where
  exitCode : UInt8
  complaint : Option String
  deriving DecidableEq, Repr

namespace Verdict

def success : Verdict := ⟨0, none⟩
def outOfSteps : Verdict := ⟨2, none⟩
def misused : Verdict := ⟨2, none⟩
def aborted : Verdict := ⟨101, none⟩
def failure (message : String) : Verdict := ⟨1, some (message ++ "\n")⟩

def ofEnding : Ending → Verdict
  | .halted _ _ => success
  | .stuck _ => success
  | .outOfSteps => outOfSteps
  | .failed cause => failure cause.message

end Verdict

def Options.launch (options : Options) (source : Except ReadError String) (input : Input) :
    Except Verdict Machine :=
  match source with
  | .error e => .error (.failure ("Failed to open file " ++ options.file ++ ": " ++ e.message))
  | .ok source =>
    match parse options.file source with
    | .error _ => .error .aborted
    | .ok (.error report) => .error (.failure report.render)
    | .ok (.ok program) => .ok (.start options.settings program input (.limited none none))

end WeakHead
