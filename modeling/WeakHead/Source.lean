import WeakHead.Term

/-!
# Source texts

From the characters of a text to tokens, from the tokens to a program or to a
report of all that is wrong with the text.
-/

namespace WeakHead

/-!
## Positions in a source text

Lines are counted from one. So are columns, which count bytes and not
characters.
-/

structure Position where
  line : Nat
  column : Nat
  deriving DecidableEq, Repr

namespace Position

def start : Position := ⟨1, 1⟩

def after (p : Position) (c : Char) : Position :=
  if c = '\n' then ⟨p.line + 1, 1⟩ else ⟨p.line, p.column + c.utf8Size⟩

end Position

structure Located (α : Type) where
  position : Position
  value : α
  deriving DecidableEq, Repr

/-!
## Tokens

A source text falls into names, lambdas, parentheses and separators. A name
is a longest run of characters that have no other meaning. A control
character that is no blank is invalid; it separates tokens like a blank.
-/

inductive Token where
  | name (text : String)
  | lambda (sign : Char)
  | opening
  | closing
  | separator (sign : Char)
  deriving DecidableEq, Repr

namespace Token

def text : Token → String
  | .name text => text
  | .lambda sign => sign.toString
  | .opening => "("
  | .closing => ")"
  | .separator sign => sign.toString

def ofChar? : Char → Option Token
  | '\\' => some (.lambda '\\')
  | 'λ' => some (.lambda 'λ')
  | '(' => some .opening
  | ')' => some .closing
  | '.' => some (.separator '.')
  | ',' => some (.separator ',')
  | _ => none

end Token

def isBlank (c : Char) : Bool := c == ' ' || c == '\t' || c == '\r' || c == '\n'

def isNameChar (c : Char) : Bool := ' '.val < c.val && (Token.ofChar? c).isNone

/-! ### Scanning -/

/-- `position` is where the rest of the text begins, and `pending` a name that the next character
may continue. -/
structure Scan where
  position : Position
  pending : Option (Located String)
  tokens : Array (Located Token)
  invalid : Array Position
  deriving DecidableEq, Repr

namespace Scan

def start : Scan := ⟨.start, none, #[], #[]⟩

def endName (s : Scan) : Scan :=
  match s.pending with
  | none => s
  | some name =>
    { s with pending := none, tokens := s.tokens.push ⟨name.position, .name name.value⟩ }

def step (s : Scan) (c : Char) : Scan :=
  if isNameChar c then
    let name := s.pending.getD ⟨s.position, ""⟩
    { s with
      position := s.position.after c
      pending := some ⟨name.position, name.value.push c⟩ }
  else
    let s := s.endName
    let here := s.position
    let s := { s with position := here.after c }
    match Token.ofChar? c with
    | some token => { s with tokens := s.tokens.push ⟨here, token⟩ }
    | none => if isBlank c then s else { s with invalid := s.invalid.push here }

def ofString (source : String) : Scan := (source.toList.foldl step start).endName

end Scan

/-!
## Problems of a source text

What can be wrong with a source text, how it is said, and the report that a
reader of the text gets: the first hundred problems with the name of the file
and the number of the others.
-/

inductive Stop where
  | closing
  | endOfText
  deriving DecidableEq, Repr

inductive Problem where
  | invalidCharacter
  | unknownName (name : String)
  | strayToken (token : Token)
  | brokenBinders (found : Option Token)
  | missingTerm (found : Stop)
  | unmatchedClosing
  | unclosedGroup
  deriving DecidableEq, Repr

namespace Problem

def message : Problem → String
  | .invalidCharacter => "Invalid character"
  | .unknownName name => "Unknown identifier '" ++ name ++ "'"
  | .strayToken token => "Unexpected token '" ++ token.text ++ "'"
  | .brokenBinders (some token) =>
    "Unexpected token '" ++ token.text ++ "', expected identifier or '.'"
  | .brokenBinders none => "Unexpected end of file, expected identifier or '.'"
  | .missingTerm .closing => "Unexpected ')', expected expression"
  | .missingTerm .endOfText => "Unexpected end of file, expected expression"
  | .unmatchedClosing => "Unexpected ')', there is no corresponding '('"
  | .unclosedGroup => "Unclosed parenthesis"

end Problem

/-! ### Reports -/

structure Diagnostic where
  file : String
  position : Position
  message : String
  deriving DecidableEq, Repr

namespace Diagnostic

def ofProblem (file : String) (problem : Located Problem) : Diagnostic :=
  ⟨file, problem.position, problem.value.message⟩

def render (d : Diagnostic) : String :=
  s!"{d.file}:{d.position.line.repr}:{d.position.column.repr}: error: {d.message}"

end Diagnostic

structure Report where
  diagnostics : List Diagnostic
  omitted : Nat
  deriving DecidableEq, Repr

namespace Report

def limit : Nat := 100

def ofProblems (file : String) (problems : List (Located Problem)) : Report where
  diagnostics := (problems.take limit).map (.ofProblem file)
  omitted := problems.length - limit

def render (r : Report) : String :=
  let shown := r.diagnostics.map Diagnostic.render
  let rest := if r.omitted = 0 then [] else [r.omitted.repr ++ " more errors not shown"]
  "\n".intercalate (shown ++ rest)

end Report

/-!
## Parsing

    term        := operand* (operand | abstraction)
    abstraction := lambda name* separator term
    operand     := name | '(' term ')'

Application associates to the left and an abstraction reaches as far to the
right as its group. Every name has to be bound by an abstraction around it.
Reading goes on after a problem, so that one pass finds them all.
-/

inductive Opening where
  | group
  | abstraction (binders : UInt32)
  deriving DecidableEq, Repr

namespace Opening

def binders : Opening → UInt32
  | .group => 0
  | .abstraction binders => binders

def isAbstraction : Opening → Bool
  | .group => false
  | .abstraction _ => true

end Opening

/-- An open construct, with the application that it will be the next argument of. -/
structure Enclosure where
  opening : Opening
  before : Option Term
  deriving DecidableEq, Repr

/-- `current` is the application read so far in the innermost open construct. Constructs and names
are listed from the innermost out, and `heading` counts the names of a list of binders while it is
read. -/
structure Reading where
  current : Option Term
  enclosures : List Enclosure
  scope : List String
  heading : Option UInt32
  problems : Array (Located Problem)
  deriving DecidableEq, Repr

namespace Reading

def start : Reading := ⟨none, [], [], none, #[]⟩

def report (r : Reading) (position : Position) (problem : Problem) : Reading :=
  { r with problems := r.problems.push ⟨position, problem⟩ }

def add (r : Reading) (t : Term) : Reading :=
  match r.current with
  | none => { r with current := some t }
  | some func => { r with current := some (func.apply t) }

def addName (r : Reading) (position : Position) (name : String) : Reading :=
  match r.scope.idxOf? name with
  | some index => r.add (.var 0 index.toUInt32)
  | none => (r.report position (.unknownName name)).add .nil

def enter (r : Reading) (opening : Opening) : Reading :=
  { r with current := none, enclosures := ⟨opening, r.current⟩ :: r.enclosures, heading := none }

/-! ### Ends of constructs -/

/-- Ends the construct that has just been taken off the enclosures. -/
def leave (stop : Located Stop) (r : Reading) (e : Enclosure) : Checked Reading := do
  let n := e.opening.binders
  let outer := { r with current := e.before, scope := r.scope.drop n.toNat }
  match r.current with
  | none => return outer.report stop.position (.missingTerm stop.value)
  | some body => return outer.add (← body.addBinders n)

def leaveAbstractions (r : Reading) (stop : Located Stop) : Checked Reading :=
  let isInner (e : Enclosure) := e.opening.isAbstraction
  let outer := { r with enclosures := r.enclosures.dropWhile isInner }
  (r.enclosures.takeWhile isInner).foldlM (leave stop) outer

def close (r : Reading) (position : Position) : Checked Reading := do
  let stop : Located Stop := ⟨position, .closing⟩
  let r ← r.leaveAbstractions stop
  match r.enclosures with
  | group :: outer => leave stop { r with enclosures := outer } group
  | [] =>
    let r := if r.current.isNone then r.report position (.missingTerm .closing) else r
    return r.report position .unmatchedClosing

/-- Takes the end of the text. That groups are open is said once. -/
def finish (r : Reading) (position : Position) : Checked Reading := do
  let stop : Located Stop := ⟨position, .endOfText⟩
  let r := match r.heading with
    | none => r
    | some n => (r.report position (.brokenBinders none)).enter (.abstraction n)
  let r ← r.leaveAbstractions stop
  let r ← match r.enclosures with
    | [] => pure r
    | group :: outer => do
      let r ← leave stop { r with enclosures := [] } group
      outer.foldlM (leave stop) (r.report position .unclosedGroup)
  return if r.current.isNone then r.report position (.missingTerm .endOfText) else r

/-! ### Tokens -/

def stepHeading (r : Reading) (n : UInt32) (t : Located Token) : Checked Reading :=
  match t.value with
  | .name text =>
    return { r with scope := text :: r.scope, heading := some (← Word.add .tooManyBinders n 1) }
  | .separator _ => return r.enter (.abstraction n)
  | token => return (r.report t.position (.brokenBinders (some token))).enter (.abstraction n)

def step (r : Reading) (t : Located Token) : Checked Reading :=
  match r.heading with
  | some n => r.stepHeading n t
  | none =>
    match t.value with
    | .name text => return r.addName t.position text
    | .lambda _ => return { r with heading := some 0 }
    | .opening => return r.enter .group
    | .closing => r.close t.position
    | token@(.separator _) => return r.report t.position (.strayToken token)

end Reading

def parse (file source : String) : Checked (Except Report Term) := do
  let scan := Scan.ofString source
  let reading ← scan.tokens.toList.foldlM Reading.step .start
  let reading ← reading.finish scan.position
  let problems :=
    scan.invalid.toList.map (⟨·, .invalidCharacter⟩) ++ reading.problems.toList
  match problems, reading.current with
  | [], some program => return .ok program
  | problems, _ => return .error (.ofProblems file problems)

end WeakHead
