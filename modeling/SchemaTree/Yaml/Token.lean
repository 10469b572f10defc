import SchemaTree.Yaml.Scalar

/-!
The tokens of a YAML text. Indentation opens and closes blocks; a scalar turns out to be a key when
the colon after it is found, and its key token then goes in front of it.
-/

namespace SchemaTree.Yaml

inductive Token where
  | documentStart
  | documentEnd
  | blockSequence
  | blockMapping
  | blockEnd
  | flowSequence
  | flowSequenceEnd
  | flowMapping
  | flowMappingEnd
  | item
  | comma
  | key
  | value
  | anchor (name : List Char)
  | alias (name : List Char)
  | plain (text : List Char)
  | quoted (text : List Char)
  deriving DecidableEq, Repr

/-- A place where a key may have begun: before which token, and where in the text. A required one
begins a line of a block mapping. -/
structure Candidate where
  token : Nat
  line : Nat
  column : Nat
  left : Nat
  required : Bool

/-- The state of reading tokens. `indent` is the column of the innermost block, plus one. -/
structure Layout where
  cursor : Cursor
  tokens : List Token := []
  indent : Nat := 0
  outer : List Nat := []
  /-- For each open bracket, innermost first, the key that may have begun before it. -/
  brackets : List (Option Candidate) := []
  candidate : Option Candidate := none
  allowKey : Bool := true

namespace Layout

variable (l : Layout)

def inFlow : Bool := !l.brackets.isEmpty

def push (ts : List Token) : Layout := { l with tokens := l.tokens ++ ts }

def closeBlocks (indent : Nat) : Layout :=
  let rec close (current : Nat) : List Nat → Nat × List Nat × List Token
    | [] => (current, [], [])
    | o :: outer =>
      if indent < current then
        let (i, rest, ts) := close o outer
        (i, rest, .blockEnd :: ts)
      else (current, o :: outer, [])
  if l.inFlow then l
  else
    let (indent, outer, ts) := close l.indent l.outer
    { l.push ts with indent, outer }

def openBlock (column : Nat) (t : Token) : Layout × List Token :=
  if l.indent < column + 1 then
    ({ l with indent := column + 1, outer := l.indent :: l.outer }, [t])
  else (l, [])

def dropCandidate : Option Layout :=
  match l.candidate with
  | some k => if k.required then none else some { l with candidate := none }
  | none => some l

def noteCandidate : Option Layout :=
  if l.allowKey then do
    let l ← l.dropCandidate
    return { l with candidate := some {
      token := l.tokens.length
      line := l.cursor.line
      column := l.cursor.column
      left := l.cursor.rest.length
      required := !l.inFlow && l.indent == l.cursor.column + 1 } }
  else some l

/-- A key stands on one line and is not long; one that is required cannot be given up. -/
def dropStale : Option Layout :=
  let stale (k : Candidate) : Bool :=
    k.line != l.cursor.line || 1024 + l.cursor.rest.length < k.left
  let outer := l.brackets.map fun k => k.filter fun k => !stale k
  if l.brackets.any fun k => k.any fun k => stale k && k.required then none
  else
    let l := { l with brackets := outer }
    if l.candidate.any stale then l.dropCandidate else some l

def insert (place : Nat) (ts : List Token) : Layout :=
  { l with tokens := l.tokens.take place ++ ts ++ l.tokens.drop place }

def toNext : (fuel : Nat) → Layout → Layout
  | 0, l => l
  | fuel + 1, l =>
    let (_, c) := l.cursor.takeWhile (· == ' ')
    let c := if c.next? == some '#' then (c.takeWhile fun d => !isBreak d).2 else c
    match c.next? with
    | some d =>
      if isBreak d then
        toNext fuel { l with cursor := c.step, allowKey := l.allowKey || !l.inFlow }
      else { l with cursor := c }
    | none => { l with cursor := c }

def beginsPlain (c : Char) (after : Option Char) : Bool :=
  !("-?:,[]\x7b\x7d#&*!|>'\"%@".toList.contains c || c.toNat == 0x60 || endsWord (some c)) ||
    (!endsWord after && (c == '-' || (!l.inFlow && (c == '?' || c == ':'))))

def mark (t : Token) : Option Layout := do
  let l ← (l.closeBlocks 0).dropCandidate
  return { l.push [t] with cursor := l.cursor.skip 3, allowKey := false }

def openFlow (t : Token) : Option Layout := do
  let l ← l.noteCandidate
  return { l.push [t] with
    brackets := l.candidate :: l.brackets
    candidate := none
    allowKey := true
    cursor := l.cursor.step }

def closeFlow (t : Token) : Option Layout := do
  let l ← l.dropCandidate
  match l.brackets with
  | [] => none
  | outer :: brackets =>
    return { l.push [t] with
      brackets, candidate := outer, allowKey := false, cursor := l.cursor.step }

def comma : Option Layout := do
  let l ← l.dropCandidate
  return { l.push [.comma] with allowKey := true, cursor := l.cursor.step }

/-- A dash, or the mark of a key, that stands for itself: it may open a block. -/
def blockMark (block t : Token) (allowKey : Bool) : Option Layout := do
  let mut l := l
  if !l.inFlow then
    if !l.allowKey then none
    let (opened, ts) := l.openBlock l.cursor.column block
    l := opened.push ts
  l ← l.dropCandidate
  return { l.push [t] with allowKey, cursor := l.cursor.step }

def colon : Option Layout :=
  match l.candidate with
  | some k =>
    let (l, ts) := if l.inFlow then (l, []) else l.openBlock k.column .blockMapping
    let l := l.insert k.token (ts ++ [.key])
    some { l.push [.value] with candidate := none, allowKey := false, cursor := l.cursor.step }
  | none => l.blockMark .blockMapping .value (!l.inFlow)

def name (t : List Char → Token) : Option Layout := do
  let l ← l.noteCandidate
  let (chars, c) := l.cursor.step.takeWhile fun d => d.isAlphanum || d == '-' || d == '_'
  let ended := endsWord c.next? || c.next?.any fun d =>
    "?:,]\x7d%@".toList.contains d || d.toNat == 0x60
  if chars.isEmpty || !ended then none
  return { l.push [t chars] with allowKey := false, cursor := c }

def quotedToken (double : Bool) : Option Layout := do
  let l ← l.noteCandidate
  let (text, c) ← quotedScalar double l.cursor
  return { l.push [.quoted text] with allowKey := false, cursor := c }

def plainToken : Option Layout := do
  let l ← l.noteCandidate
  let (text, c, fresh) := plainScalar l.inFlow l.indent l.cursor
  return { l.push [.plain text] with allowKey := fresh, cursor := c }

def token (c : Char) : Option Layout :=
  let after := (l.cursor.rest.drop 1).head?
  if l.cursor.column == 0 && atMark '-' l.cursor.rest then l.mark .documentStart
  else if l.cursor.column == 0 && atMark '.' l.cursor.rest then l.mark .documentEnd
  else if c == '[' then l.openFlow .flowSequence
  else if c == '\x7b' then l.openFlow .flowMapping
  else if c == ']' then l.closeFlow .flowSequenceEnd
  else if c == '\x7d' then l.closeFlow .flowMappingEnd
  else if c == ',' then l.comma
  else if c == '-' && endsWord after then l.blockMark .blockSequence .item true
  else if c == '?' && (l.inFlow || endsWord after) then
    l.blockMark .blockMapping .key (!l.inFlow)
  else if c == ':' && (l.inFlow || endsWord after) then l.colon
  else if c == '*' then l.name .alias
  else if c == '&' then l.name .anchor
  else if c == '\'' then l.quotedToken false
  else if c == '"' then l.quotedToken true
  else if l.beginsPlain c after then l.plainToken
  else none

/-- Reads all tokens. Each one takes at least one character. -/
def run : (fuel : Nat) → Layout → Option (List Token)
  | 0, _ => none
  | fuel + 1, l => do
    let l ← (toNext (l.cursor.rest.length + 1) l).dropStale
    match l.cursor.next? with
    | none =>
      let l ← (l.closeBlocks 0).dropCandidate
      return l.tokens
    | some c => run fuel (← (l.closeBlocks (l.cursor.column + 1)).token c)

end Layout

/-- The tokens of a text, or nothing if it is malformed. Tags, directives and block scalars are not
read. -/
def Token.scan (text : String) : Option (List Token) :=
  let cs := match text.toList with
    | '\ufeff' :: cs => cs
    | cs => cs
  if cs.all isAllowed then
    let cs := normalizeBreaks cs
    Layout.run (cs.length + 1) { cursor := { rest := cs } }
  else none

end SchemaTree.Yaml
