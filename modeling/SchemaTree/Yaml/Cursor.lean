/-!
A place in a text that is being read: what is left of it, and the line and column it is at.
-/

namespace SchemaTree.Yaml

structure Cursor where
  rest : List Char
  line : Nat := 0
  column : Nat := 0

def normalizeBreaks : List Char → List Char
  | '\r' :: '\n' :: cs => '\n' :: normalizeBreaks cs
  | '\r' :: cs => '\n' :: normalizeBreaks cs
  | '\x85' :: cs => '\n' :: normalizeBreaks cs
  | c :: cs => c :: normalizeBreaks cs
  | [] => []

def isBreak (c : Char) : Bool := c == '\n' || c == '\u2028' || c == '\u2029'

/-- Whether a word ends before `c`: at a blank, at the end of a line or of the text. -/
def endsWord : Option Char → Bool
  | none => true
  | some c => c == ' ' || c == '\t' || isBreak c

def isAllowed (c : Char) : Bool :=
  let n := c.toNat
  n == 0x9 || n == 0xa || n == 0xd || (0x20 ≤ n && n ≤ 0x7e) || n == 0x85 ||
    (0xa0 ≤ n && n ≤ 0xd7ff) || (0xe000 ≤ n && n ≤ 0xfffd) || 0x10000 ≤ n

def atMark (a : Char) (cs : List Char) : Bool :=
  cs.take 3 == [a, a, a] && endsWord (cs.drop 3).head?

def atAnyMark (cs : List Char) : Bool := atMark '-' cs || atMark '.' cs

namespace Cursor

def next? (c : Cursor) : Option Char := c.rest.head?

def step (c : Cursor) : Cursor :=
  match c.rest with
  | [] => c
  | d :: rest =>
    if isBreak d then { rest, line := c.line + 1, column := 0 }
    else if d == '\ufeff' then { c with rest }
    else { c with rest, column := c.column + 1 }

def skip (c : Cursor) : Nat → Cursor
  | 0 => c
  | n + 1 => c.step.skip n

def takeWhile (c : Cursor) (p : Char → Bool) : List Char × Cursor :=
  let taken := c.rest.takeWhile p
  (taken, c.skip taken.length)

end Cursor

end SchemaTree.Yaml
