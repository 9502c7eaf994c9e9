import Marginalia.Source.Characters
import Marginalia.Source.Dialect

/-!
The context of a place in a script: what may come next and what is still open. It decides whether
a slash divides or opens a regular expression, whether `<` compares or opens markup, and where the
markup-style comments are comments. An operator is expected where an operand has ended, a head after
the keyword of a control statement, and a member after a dot.
-/

namespace Marginalia.Source

inductive Role where
  | statement
  | value
  deriving DecidableEq, Repr

inductive Expect where
  | statement
  | operand
  | operator
  | member
  | head
  | arrow
  | functionHead (role : Role)
  | classHead (role : Role)
  | body (role : Role)
  deriving DecidableEq, Repr

namespace Expect

/-- Where an operand may start, a slash opens a regular expression. -/
def startsOperand : Expect → Bool
  | statement | operand | head | arrow => true
  | _ => false

def isHeritage : Expect → Bool
  | functionHead _ | classHead _ => true
  | _ => false

end Expect

def Role.next : Role → Expect
  | .statement => .statement
  | .value => .operator

inductive Frame where
  | braces (role : Role) (isObject : Bool)
  | parens (next : Expect)
  | brackets
  | template
  /-- Code inside a template literal or inside markup. -/
  | hole
  | tag (closing : Bool)
  | element
  deriving DecidableEq, Repr

structure Context where
  frames : List Frame := []
  expect : Expect := .statement
  /-- A row has ended since the last token. -/
  rowStart : Bool := false
  atStart : Bool := false
  deriving DecidableEq, Repr

namespace Context

def initial : Context := { atStart := true }

def token (c : Context) (e : Expect) : Context := { frames := c.frames, expect := e }

def push (c : Context) (f : Frame) (e : Expect) : Context :=
  { frames := f :: c.frames, expect := e }

def gap (c : Context) (t : Text) : Context := { c with rowStart := c.rowStart || t.any isRowEnd }

def inStatements (c : Context) : Bool :=
  match c.frames with
  | [] => true
  | .braces _ isObject :: _ => !isObject
  | _ => false

/-- A statement without semicolon ends here if the next token cannot continue it. -/
def mayEndStatement (c : Context) : Bool := c.rowStart && c.inStatements

def expectAnew (c : Context) : Expect :=
  if c.expect = .operator && c.mayEndStatement then .statement else c.expect

def openBrace (c : Context) : Context :=
  match c.expect with
  | .statement | .head => c.push (.braces .statement false) .statement
  | .operand => c.push (.braces .value true) .operand
  | .arrow => c.push (.braces .value false) .statement
  | .functionHead r | .classHead r | .body r => c.push (.braces r false) .statement
  | .operator | .member =>
    c.push (.braces (if c.inStatements then .statement else .value) false) .statement

def openParen (c : Context) : Context :=
  match c.expect with
  | .head => c.push (.parens .statement) .operand
  | .functionHead r => c.push (.parens (.body r)) .operand
  | .classHead r => c.push (.parens (.classHead r)) .operand
  | _ => c.push (.parens .operator) .operand

/-- The innermost braces or hole, with what encloses it. Parentheses and brackets left open inside
are given up. -/
def innermostBraces? : List Frame → Option (Frame × List Frame)
  | [] => none
  | f :: fs =>
    match f with
    | .braces .. | .hole => some (f, fs)
    | .parens _ | .brackets => innermostBraces? fs
    | _ => none

def innermost? (p : Frame → Bool) : List Frame → Option (Frame × List Frame)
  | [] => none
  | f :: fs =>
    match f with
    | .parens _ | .brackets => if p f then some (f, fs) else innermost? p fs
    | _ => none

def closeBrace (c : Context) : Context :=
  match innermostBraces? c.frames with
  | some (.braces r _, fs) => { frames := fs, expect := r.next }
  | some (_, fs) => { frames := fs, expect := .operator }
  | none => c.token .statement

def closeParen (c : Context) : Context :=
  match innermost? (fun f => f ≠ .brackets) c.frames with
  | some (.parens e, fs) => { frames := fs, expect := e }
  | _ => c.token .operator

def closeBracket (c : Context) : Context :=
  match innermost? (· = .brackets) c.frames with
  | some (_, fs) => { frames := fs, expect := .operator }
  | none => c.token .operator

def pop (c : Context) : Context := { frames := c.frames.tail, expect := .operator }

def turn (c : Context) (f : Frame) : Context :=
  { frames := f :: c.frames.tail, expect := .operator }

def word (c : Context) (w : Text) : Context :=
  match c.expectAnew with
  | .member => c.token .operator
  | .functionHead r => c.token (.functionHead r)
  | .classHead r => c.token (.classHead r)
  | e =>
    match String.ofList w with
    | "if" | "while" | "for" | "with" | "switch" | "catch" => c.token .head
    | "function" => c.token (.functionHead (if e = .statement then .statement else .value))
    | "class" => c.token (.classHead (if e = .statement then .statement else .value))
    | "return" | "throw" | "typeof" | "instanceof" | "in" | "new" | "delete" | "void" | "case" =>
      c.token .operand
    | "of" => c.token (if e = .operator then .operand else .operator)
    | "await" => c.token (if e = .head || e = .operator then e else .operand)
    | "yield" => c.token (if e = .operator then .operator else .operand)
    | "else" | "do" | "try" | "finally" | "default" | "export" => c.token .statement
    | "async" => c.token (if e = .statement then .statement else .operator)
    | _ => c.token .operator

end Context

end Marginalia.Source
