import Marginalia.Source.Context
import Marginalia.Source.Mark

/-!
Scripts as sequences of lexemes. Every character of a script belongs to exactly one lexeme; what
kind of lexeme starts at a place and how far it goes is decided by `Context.step`.
-/

namespace Marginalia.Source

inductive LexemeKind where
  | gap
  | code
  | lineComment
  | blockComment
  | markupComment
  deriving DecidableEq, Repr

namespace LexemeKind

def isComment : LexemeKind → Bool
  | lineComment | blockComment | markupComment => true
  | _ => false

end LexemeKind

structure Lexeme where
  kind : LexemeKind
  text : Text
  start : Mark
  stop : Mark
  depth : Nat
  deriving DecidableEq, Repr

/-- What starts at a place: a lexeme with `extra` characters after its first, and the context that
follows it. -/
structure Step where
  kind : LexemeKind
  extra : Nat
  next : Context
  deriving DecidableEq, Repr

namespace Context

def code (extra : Nat) (next : Context) : Step := ⟨.code, extra, next⟩

def gapStep (c : Context) (ch : Char) (cs : List Char) : Step :=
  let n := runLength isGap cs
  ⟨.gap, n, c.gap (ch :: cs.take n)⟩

/-- The comment that a slash opens. A block comment that is never closed is no comment, and it
takes the rest of the script with it. -/
def commentStep? (c : Context) (cs : List Char) : Option Step :=
  match cs with
  | '/' :: rest => some ⟨.lineComment, 1 + runLength (fun x => !isLineEnd x) rest, c⟩
  | '*' :: rest =>
    match blockExtent? rest with
    | some n => some ⟨.blockComment, 1 + n, c⟩
    | none => some (code cs.length c)
  | _ => none

/-- The markup-style comment that starts with `ch`: `<!--` where an operand may start, `-->` also
where a row has ended a statement. -/
def markupCommentStep? (c : Context) (ch : Char) (cs : List Char) : Option Step :=
  let toRowEnd (n : Nat) : Step :=
    ⟨.markupComment, n + runLength (fun x => !isRowEnd x) (cs.drop n), c⟩
  match ch, cs with
  | '<', '!' :: '-' :: '-' :: _ => if c.expect.startsOperand then some (toRowEnd 3) else none
  | '-', '-' :: '>' :: _ =>
    if c.expect.startsOperand || c.mayEndStatement then some (toRowEnd 2) else none
  | _, _ => none

def slashStep (c : Context) (cs : List Char) : Step :=
  if c.expect.startsOperand then
    match regexExtent? false cs with
    | some n => code n (c.token .operator)
    | none => code 0 (c.token .operand)
  else code 0 (c.token .operand)

/-- After `<` and a name, type parameters go on with a comma or a constraint, or are closed before
a parameter list with no closing tag of that name to come. -/
def opensTypeParameters (cs : List Char) : Bool :=
  let name := cs.takeWhile isWordChar
  match (cs.dropWhile isWordChar).dropWhile isGap with
  | ',' :: _ => true
  | '>' :: rest =>
    (rest.dropWhile isGap).head? = some '(' && !Text.holds (Text.lit "</" ++ name) rest
  | rest => rest.takeWhile isWordChar == Text.lit "extends"

def opensMarkup (d : Dialect) (cs : List Char) : Bool :=
  match cs.dropWhile isGap with
  | [] => false
  | c :: rest =>
    c = '>' || (isNameStart c && !(d = .tsx && opensTypeParameters (c :: rest)))

def punctuationStep (d : Dialect) (c : Context) (ch : Char) (cs : List Char) : Step :=
  match ch, cs with
  | ';', _ => code 0 (c.token .statement)
  | ':', _ => code 0 (c.token (if c.inStatements then .statement else .operand))
  | '=', '>' :: _ => code 1 (c.token .arrow)
  | '.', '.' :: '.' :: _ => code 2 (c.token .operand)
  | '+', '+' :: _ | '-', '-' :: _ => code 1 (c.token c.expectAnew)
  | '@', _ => code 0 (c.token .member)
  | '?', '.' :: rest =>
    if (rest.head?.map Char.isDigit).getD false then code 0 (c.token .operand)
    else code 1 (c.token .member)
  | _, _ =>
    if c.expect.isHeritage && [',', '.', '<', '>', '*', '&', '|', '='].contains ch then
      code 0 (c.token c.expect)
    else if ch = '.' then code 0 (c.token .member)
    else if ch = '!' && d.hasTypes && c.expectAnew = .operator && cs.head? ≠ some '=' then
      code 0 (c.token .operator)
    else code 0 (c.token .operand)

def opensInterpreterLine (c : Context) (ch : Char) (cs : List Char) : Bool :=
  c.atStart && ch = '#' && cs.head? = some '!'

def codeStep (d : Dialect) (c : Context) (ch : Char) (cs : List Char) : Step :=
  if isGap ch then c.gapStep ch cs
  else if c.opensInterpreterLine ch cs then
    code (runLength (· ≠ '\n') cs) (c.token .statement)
  else if ch = '/' then (c.commentStep? cs).getD (c.slashStep cs)
  else
    match c.markupCommentStep? ch cs with
    | some step => step
    | none =>
      if isWordChar ch then
        let n := runLength isWordChar cs
        code n (c.word (ch :: cs.take n))
      else if ch = '"' || ch = '\'' then code (quotedExtent ch cs) (c.token .operator)
      else if ch = '\x60' then code 0 (c.push .template .operator)
      else if ch = '\x7b' then code 0 c.openBrace
      else if ch = '\x7d' then code 0 c.closeBrace
      else if ch = '(' then code 0 c.openParen
      else if ch = ')' then code 0 c.closeParen
      else if ch = '[' then code 0 (c.push .brackets .operand)
      else if ch = ']' then code 0 c.closeBracket
      else if ch = '<' && d.hasMarkup && c.expect.startsOperand && opensMarkup d cs then
        code 0 (c.push (.tag false) .operator)
      else c.punctuationStep d ch cs

def templateStep (c : Context) (ch : Char) (cs : List Char) : Step :=
  if ch = '\x60' then code 0 c.pop
  else if ch = '$' && cs.head? = some '\x7b' then code 1 (c.push .hole .operand)
  else code (templateExtent (ch :: cs) - 1) c

def tagStep (c : Context) (closing : Bool) (ch : Char) (cs : List Char) : Step :=
  if isGap ch then c.gapStep ch cs
  else if ch = '/' then
    match c.commentStep? cs with
    | some step => step
    | none => if cs.head? = some '>' then code 1 c.pop else code 0 c
  else if ch = '>' then code 0 (if closing then c.pop else c.turn .element)
  else if ch = '\x7b' then code 0 (c.push .hole .operand)
  else if ch = '"' || ch = '\'' then
    let n := runLength (· ≠ ch) cs
    code (n + 1) (c.token .operator)
  else if ch = '=' then code 0 (c.token .operand)
  else if ch = '<' then
    if c.expect = .operand then code 0 (c.push (.tag false) .operator)
    else code (typeArgumentsExtent 1 cs) (c.token .operator)
  else code (runLength isWordChar cs) (c.token .operator)

def elementStep (d : Dialect) (c : Context) (ch : Char) (cs : List Char) : Step :=
  if ch = '\x7b' then code 0 (c.push .hole .operand)
  else if ch = '<' then
    if (cs.dropWhile isGap).head? = some '/' then
      code (runLength isGap cs + 1) (c.turn (.tag true))
    else if opensMarkup d cs then code 0 (c.push (.tag false) .operator)
    else code 0 c
  else code (runLength (fun x => x ≠ '<' && x ≠ '\x7b') cs) c

def step (d : Dialect) (c : Context) (ch : Char) (cs : List Char) : Step :=
  match c.frames with
  | .template :: _ => c.templateStep ch cs
  | .tag closing :: _ => c.tagStep closing ch cs
  | .element :: _ => c.elementStep d ch cs
  | _ => c.codeStep d ch cs

end Context

namespace Lexeme

def ofStep (s : Step) (m : Mark) (ch : Char) (cs : List Char) : Lexeme :=
  let text := ch :: cs.take s.extra
  ⟨s.kind, text, m, m.advance text, s.next.frames.length⟩

def scanFrom (d : Dialect) (c : Context) (m : Mark) (found : List Lexeme) :
    List Char → List Lexeme
  | [] => found.reverse
  | ch :: cs =>
    let s := c.step d ch cs
    let lexeme := ofStep s m ch cs
    scanFrom d s.next lexeme.stop (lexeme :: found) (cs.drop s.extra)
termination_by cs => cs.length
decreasing_by simp only [List.length_drop, List.length_cons]; omega

def scan (d : Dialect) (source : Text) : List Lexeme := scanFrom d .initial {} [] source

end Lexeme

end Marginalia.Source
