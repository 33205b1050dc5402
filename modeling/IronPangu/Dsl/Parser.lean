-- SUMMARY: The parser of the DSL: expressions, declarations and documents, with the place of every member.
import IronPangu.Dsl.Lexer
import IronPangu.Lib.Descent

open Rust Method Descent

/-!
# Parser

A recursive descent over the tokens. Expressions hold declarations (the body of a fold)
and declarations hold expressions; each level counts towards a limit of 64. Recursion
takes a unit of fuel for a level, and so does a loop for a round: without fuel the
parser would not come to an end, which counts as a panic.
-/

namespace Inferfabric.Dsl

/-! `F` is what the literals of tensors are read to. -/

mutual

inductive Expr (F : Type) where
  | name (n : String)
  | string (s : String)
  | number (n : String)
  | list (values : List (Expr F))
  | call (callee : String) (args : List (Option String × Expr F))
  | fold (index : String) (start stop : Expr F) (carry : String) (initial : Expr F) (body : List (SpannedMember F))

inductive Member (F : Type) where
  | field (key : String) (value : Expr F)
  | input (n : String) (shape : List Nat)
  | constant (n : String) (shape : List Nat) (values : List F)
  | state (n : String) (shape : List Nat) (values : List F)
  | «let» (n : String) (value : Expr F)
  | yield (n : String)
  | update (n value : String)

inductive SpannedMember (F : Type) where
  | mk (start stop : Nat) (member : Member F)

end

structure Module (F : Type) where
  name : String
  parameters : List String
  body : List (SpannedMember F)

structure Document (F : Type) where
  modules : List (Module F)
  name : String
  model : List (SpannedMember F)
  planName : String
  plan : List (SpannedMember F)

/-- How the text of a literal is read. -/
structure Literals (F : Type) where
  /-- A JSON string. -/
  string : String → Option String
  /-- `parse::<f32>` -/
  float : String → Option F

/-- `parse::<usize>` -/
def parseUsize (text : String) : Option Nat :=
  let digits := if text.startsWith "+" then text.toList.tail else text.toList
  if digits = [] ∨ ¬digits.all Char.isDigit then none
  else tryFrom u64Max (digits.foldl (fun n c => n * 10 + (c.toNat - 0x30)) 0)

abbrev Parser (α : Type) : Type := Descent.Parser Token String α

namespace Parser

variable {F α : Type}

/-! ## Tokens -/

/-- The byte an error is reported at. -/
def place (c : Cursor Token) : Nat :=
  match c.tokens[c.position]? with
  | some t => t.start
  | none => (c.tokens.getLast?.map Token.stop).getD 0

def error (message : String) : Parser α := fun c => (.err s!"byte {place c}: {message}", c)

def textAt (i : Nat) (c : Cursor Token) : Option String := c.tokens[i]?.map Token.text

def peek (c : Cursor Token) : String := (textAt c.position c).getD ""

def advance : Parser Unit := modify fun c => { c with position := c.position + 1 }

def take : Parser String := do
  let value ← look fun c => textAt c.position c
  match value with
  | none => error "unexpected end of source"
  | some value => do
    advance
    Pure.pure value

def expect (text : String) : Parser Unit := do
  let next ← look peek
  if next ≠ text then error s!"expected '{text}'" else advance

def firstByte (text : String) : Option UInt8 := (Dsl.bytes text).head?

def name : Parser String := do
  let value ← take
  if (firstByte value).any isNameStart && (Dsl.bytes value).all isNameByte then Pure.pure value
  else error "expected identifier"

/-- The rounds a loop may need. -/
def rounds : Parser Nat := look fun c => c.tokens.length + 1

/-- Items between commas up to a closing token. -/
def commas (close : String) (item : Parser α) : Parser (List α) := do
  let n ← rounds
  separated (fun c => peek c == close) (fun c => peek c == ",") (do let _ ← take) item n

/-! ## Expressions -/

/-- What a part is parsed with: expressions and declarations of a depth. -/
structure Parts (F : Type) where
  expr : Nat → Parser (Expr F)
  members : Bool → Nat → Parser (List (SpannedMember F))

def fold (parts : Parts F) (depth : Nat) : Parser (Expr F) := do
  let _ ← take
  let index ← name
  expect "in"
  expect "range"
  expect "("
  let start ← parts.expr (depth + 1)
  expect ","
  let stop ← parts.expr (depth + 1)
  expect ")"
  expect "carry"
  expect "("
  let carry ← name
  expect "="
  let initial ← parts.expr (depth + 1)
  expect ")"
  let body ← parts.members true (depth + 1)
  Pure.pure (.fold index start stop carry initial body)

def list (parts : Parts F) (depth : Nat) : Parser (Expr F) := do
  let _ ← take
  let values ← commas "]" (parts.expr (depth + 1))
  expect "]"
  Pure.pure (.list values)

/-- A named argument has an equals sign behind its name. -/
def argument (parts : Parts F) (depth : Nat) : Parser (Option String × Expr F) := do
  let named ← look fun c => textAt (c.position + 1) c == some "="
  if named then do
    let key ← name
    expect "="
    let value ← parts.expr (depth + 1)
    Pure.pure (some key, value)
  else do
    let value ← parts.expr (depth + 1)
    Pure.pure (none, value)

/-- A literal, a name, or a call. -/
def atom (literals : Literals F) (parts : Parts F) (depth : Nat) : Parser (Expr F) := do
  let value ← take
  if firstByte value = some quote then
    match literals.string value with
    | some s => Pure.pure (.string s)
    | none => error "invalid string literal"
  else do
    -- `value.as_bytes()[0]`
    let first ← lift (Outcome.unwrap (firstByte value))
    if isNumberStart first then Pure.pure (.number value)
    else if !isNameStart first then error "expected expression"
    else do
      let next ← look peek
      if next ≠ "(" then Pure.pure (.name value)
      else do
        let _ ← take
        let args ← commas ")" (argument parts depth)
        expect ")"
        Pure.pure (.call value args)

def exprWith (literals : Literals F) (parts : Parts F) (depth : Nat) : Parser (Expr F) :=
  if depth > 64 then error "expression nesting limit"
  else do
    let next ← look peek
    if next = "fold" then fold parts depth
    else if next = "[" then list parts depth
    else atom literals parts depth

/-! ## Declarations -/

/-- Read the numbers of a list. -/
def numbers (read : String → Option α) (unreadable unexpected : String) : List (Expr F) → Parser (List α)
  | [] => Pure.pure []
  | .number n :: values =>
    match read n with
    | none => error unreadable
    | some a => do
      let rest ← numbers read unreadable unexpected values
      Pure.pure (a :: rest)
  | _ :: _ => error unexpected

/-- An expression that must be a list. -/
def listOf (expr : Parser (Expr F)) (message : String) : Parser (List (Expr F)) := do
  let e ← expr
  match e with
  | .list values => Pure.pure values
  | _ => error message

def shape (parts : Parts F) (depth : Nat) : Parser (List Nat) := do
  expect ":"
  expect "tensor"
  expect "<"
  expect "f32"
  expect ">"
  let values ← listOf (parts.expr (depth + 1)) "expected shape list"
  numbers parseUsize "invalid dimension" "dimension must be integer" values

/-- The name, shape and values of a constant or a state. -/
def initialized (literals : Literals F) (parts : Parts F) (depth : Nat) : Parser (String × List Nat × List F) := do
  let n ← name
  let dims ← shape parts (depth + 1)
  expect "="
  let values ← listOf (parts.expr (depth + 1)) "expected initializer list"
  let values ← numbers literals.float "invalid float" "initializer must be numeric" values
  Pure.pure (n, dims, values)

def member (literals : Literals F) (parts : Parts F) (graphAllowed : Bool) (depth : Nat) : Parser (Member F) := do
  let key ← name
  if key = "input" ∧ graphAllowed then do
    let n ← name
    let dims ← shape parts (depth + 1)
    Pure.pure (.input n dims)
  else if key = "const" ∧ graphAllowed then do
    let (n, dims, values) ← initialized literals parts depth
    Pure.pure (.constant n dims values)
  else if key = "state" ∧ graphAllowed then do
    let (n, dims, values) ← initialized literals parts depth
    Pure.pure (.state n dims values)
  else if key = "let" ∧ graphAllowed then do
    let n ← name
    expect "="
    let value ← parts.expr (depth + 1)
    Pure.pure (.let n value)
  else if key = "yield" ∧ graphAllowed then do
    let n ← name
    Pure.pure (.yield n)
  else if key = "update" ∧ graphAllowed then do
    let n ← name
    expect "="
    let value ← name
    Pure.pure (.update n value)
  else do
    expect "="
    let value ← parts.expr (depth + 1)
    Pure.pure (.field key value)

/-- `tokens[position - 1].end` -/
def lastStop : Parser Nat := read fun c => do
  let i ← Outcome.sub c.position 1
  let t ← Outcome.unwrap c.tokens[i]?
  .ok t.stop

/-- A member with its semicolon, and the bytes from its first token to there. -/
def spanned (literals : Literals F) (parts : Parts F) (graphAllowed : Bool) (depth : Nat) :
    Parser (SpannedMember F) := do
  let first ← look fun c => c.tokens[c.position]?
  match first with
  | none => error "unclosed declaration"
  | some t => do
    let m ← member literals parts graphAllowed depth
    expect ";"
    let stop ← lastStop
    Pure.pure (.mk t.start stop m)

def memberLoop (item : Parser (SpannedMember F)) : Nat → Parser (List (SpannedMember F))
  | 0 => lift .panic
  | fuel + 1 => do
    let next ← look peek
    if next = "\x7d" then Pure.pure []
    else do
      let m ← item
      let rest ← memberLoop item fuel
      Pure.pure (m :: rest)

def membersWith (literals : Literals F) (parts : Parts F) (graphAllowed : Bool) (depth : Nat) :
    Parser (List (SpannedMember F)) :=
  if depth > 64 then error "declaration nesting limit"
  else do
    expect "\x7b"
    let n ← rounds
    let members ← memberLoop (spanned literals parts graphAllowed depth) n
    expect "\x7d"
    Pure.pure members

/-- The parts for so many levels of recursion. -/
def parts (literals : Literals F) : Nat → Parts F
  | 0 => { expr := fun _ => lift .panic, members := fun _ _ => lift .panic }
  | fuel + 1 => { expr := exprWith literals (parts literals fuel), members := membersWith literals (parts literals fuel) }

/-! ## Documents -/

def module (members : Parser (List (SpannedMember F))) : Parser (Module F) := do
  let _ ← take
  let n ← name
  expect "("
  let parameters ← commas ")" name
  expect ")"
  let body ← members
  Pure.pure { name := n, parameters, body }

def moduleLoop (members : Parser (List (SpannedMember F))) : Nat → List (Module F) → Parser (List (Module F))
  | 0, _ => lift .panic
  | fuel + 1, modules => do
    let next ← look peek
    if next ≠ "module" then Pure.pure modules
    else do
      let m ← module members
      let modules := modules ++ [m]
      if modules.length > 256 then error "module count limit" else moduleLoop members fuel modules

def document (parts : Parts F) : Parser (Document F) := do
  let next ← look peek
  if next ≠ "language" then
    fail "legacy DSL removed: use 'language inferfabric 1;' and model/plan declarations"
  else do
    expect "language"
    expect "inferfabric"
    expect "1"
    expect ";"
    let n ← rounds
    let modules ← moduleLoop (parts.members true 0) n []
    expect "model"
    let modelName ← name
    let model ← parts.members true 0
    expect "plan"
    let planName ← name
    expect "for"
    let target ← name
    if target ≠ modelName then error "plan references a different model"
    else do
      let plan ← parts.members false 0
      let next ← look peek
      if next ≠ "" then error "unexpected declaration; imports are not supported by this v1 subset"
      else Pure.pure { modules, name := modelName, model, planName, plan }

end Parser

/-- The levels of recursion a document may need: up to the limit, and the one over it that is refused. -/
def levels : Nat := 66

def parse {F : Type} (literals : Literals F) (source : String) : Outcome String (Document F) := do
  let tokens ← lex source
  (Parser.document (Parser.parts literals levels) ⟨tokens, 0⟩).1

end Inferfabric.Dsl
