import SchemaTree.Yaml.Cursor
import SchemaTree.Value.Basic

/-!
Scalars of a YAML text. A quoted scalar is text; a plain one is read by its form, as nothing, a
truth value, an integer or text. A line break inside a scalar is folded: one is a space, of several
the first is dropped.
-/

namespace SchemaTree.Yaml

/-- The breaks between two lines of a scalar, after the first break: blanks are dropped. A mark
between documents cannot stand here. -/
def foldedBreaks : (fuel : Nat) → Cursor → List Char → Option (List Char × Cursor)
  | 0, _, _ => none
  | fuel + 1, c, breaks =>
    if atAnyMark c.rest then none
    else
      let (_, c) := c.takeWhile fun d => d == ' ' || d == '\t'
      match c.next? with
      | some d => if isBreak d then foldedBreaks fuel c.step (breaks ++ [d]) else some (breaks, c)
      | none => some (breaks, c)

def folded (first : Char) (breaks : List Char) : List Char :=
  (if first != '\n' then [first] else if breaks.isEmpty then [' '] else []) ++ breaks

def escaped? : Char → Option Char
  | '0' => some '\x00'
  | 'a' => some '\x07'
  | 'b' => some '\x08'
  | 't' | '\t' => some '\t'
  | 'n' => some '\n'
  | 'v' => some '\x0b'
  | 'f' => some '\x0c'
  | 'r' => some '\r'
  | 'e' => some '\x1b'
  | ' ' => some ' '
  | '"' => some '"'
  | '\\' => some '\\'
  | '/' => some '/'
  | 'N' => some '\x85'
  | '_' => some '\xa0'
  | 'L' => some '\u2028'
  | 'P' => some '\u2029'
  | _ => none

def escapeWidth? : Char → Option Nat
  | 'x' => some 2
  | 'u' => some 4
  | 'U' => some 8
  | _ => none

def digit? (c : Char) : Option Nat :=
  if '0' ≤ c && c ≤ '9' then some (c.toNat - '0'.toNat)
  else if 'a' ≤ c && c ≤ 'f' then some (c.toNat - 'a'.toNat + 10)
  else if 'A' ≤ c && c ≤ 'F' then some (c.toNat - 'A'.toNat + 10)
  else none

def number? (base : Nat) (cs : List Char) : Option Nat :=
  if cs.isEmpty then none
  else cs.foldlM (fun n c => do
    let d ← digit? c
    if d < base then some (n * base + d) else none) 0

def quotedRest (double : Bool) :
    (fuel : Nat) → Cursor → List Char → Option (List Char × Cursor)
  | 0, _, _ => none
  | fuel + 1, c, text =>
    match c.rest with
    | [] => none
    | '\'' :: rest =>
      if double then quotedRest double fuel c.step (text ++ ['\''])
      else if rest.head? == some '\'' then quotedRest double fuel (c.skip 2) (text ++ ['\''])
      else some (text, c.step)
    | '"' :: _ =>
      if double then some (text, c.step) else quotedRest double fuel c.step (text ++ ['"'])
    | '\\' :: rest =>
      if !double then quotedRest double fuel c.step (text ++ ['\\'])
      else match rest.head? with
        | none => none
        | some d =>
          match escaped? d, escapeWidth? d with
          | some e, _ => quotedRest double fuel (c.skip 2) (text ++ [e])
          | none, some width => do
            let digits := (rest.drop 1).take width
            let code ← number? 16 digits
            if digits.length = width ∧ code.isValidChar then
              quotedRest double fuel (c.skip (2 + width)) (text ++ [Char.ofNat code])
            else none
          | none, none =>
            if isBreak d then do
              let (breaks, c) ← foldedBreaks (rest.length + 1) (c.skip 2) []
              quotedRest double fuel c (text ++ breaks)
            else none
    | d :: _ =>
      if d == ' ' || d == '\t' || isBreak d then
        let (blanks, after) := c.takeWhile fun d => d == ' ' || d == '\t'
        match after.next? with
        | none => none
        | some d =>
          if isBreak d then do
            let (breaks, c) ← foldedBreaks (after.rest.length + 1) after.step []
            quotedRest double fuel c (text ++ folded d breaks)
          else quotedRest double fuel after (text ++ blanks)
      else quotedRest double fuel c.step (text ++ [d])

def quotedScalar (double : Bool) (c : Cursor) : Option (List Char × Cursor) :=
  quotedRest double (c.rest.length + 1) c.step []

/-- The part of a plain scalar up to a blank or a character that ends the scalar. Inside brackets
more characters do. -/
def plainRun (flow : Bool) : List Char → List Char
  | [] => []
  | c :: cs =>
    let closes (d : Char) : Bool := flow && [',', '[', ']', '\x7b', '\x7d'].contains d
    let ends := endsWord (some c) || closes c || (flow && c == '?') ||
      (c == ':' && (endsWord cs.head? || (match cs.head? with
        | some d => closes d
        | none => false)))
    if ends then [] else c :: plainRun flow cs

/-- The breaks between two lines of a plain scalar, after the first break. Before a mark between
documents there is nothing. -/
def plainBreaks : (fuel : Nat) → Cursor → List Char → Option (List Char) × Cursor
  | 0, c, _ => (none, c)
  | fuel + 1, c, breaks =>
    match c.next? with
    | some d =>
      if d == ' ' then plainBreaks fuel c.step breaks
      else if isBreak d then
        let c := c.step
        if atAnyMark c.rest then (none, c) else plainBreaks fuel c (breaks ++ [d])
      else (some breaks, c)
    | none => (some breaks, c)

def plainSpaces (c : Cursor) : List Char × Cursor × Bool :=
  let (blanks, c) := c.takeWhile (· == ' ')
  match c.next? with
  | some d =>
    if isBreak d then
      let c := c.step
      if atAnyMark c.rest then ([], c, true)
      else match plainBreaks (c.rest.length + 1) c [] with
        | (some breaks, c) => (folded d breaks, c, true)
        | (none, c) => ([], c, true)
    else (blanks, c, false)
  | none => (blanks, c, false)

/-- The rest of a plain scalar, the place after it, and whether that is on a new line. Below the
column `indent` the scalar does not go on, unless it stands inside brackets. -/
def plainRest (flow : Bool) (indent : Nat) :
    (fuel : Nat) → Cursor → (spaces text : List Char) → Bool → List Char × Cursor × Bool
  | 0, c, _, text, fresh => (text, c, fresh)
  | fuel + 1, c, spaces, text, fresh =>
    let part := plainRun flow c.rest
    if part.isEmpty then (text, c, fresh)
    else
      let text := text ++ spaces ++ part
      let (spaces, c, fresh) := plainSpaces (c.skip part.length)
      if spaces.isEmpty || c.next? == some '#' || (!flow && c.column < indent) then
        (text, c, fresh)
      else plainRest flow indent fuel c spaces text fresh

def plainScalar (flow : Bool) (indent : Nat) (c : Cursor) : List Char × Cursor × Bool :=
  plainRest flow indent (c.rest.length + 1) c [] [] false

/-- A number with a sign, in the decimal, octal, hexadecimal, binary or sixty-based form. -/
def integer? (text : List Char) : Option Int := do
  let (negative, cs) := match text with
    | '-' :: cs => (true, cs)
    | '+' :: cs => (false, cs)
    | cs => (false, cs)
  if !(cs.head?.any Char.isDigit) then none
  let digits := cs.filter (· != '_')
  let n ← match digits with
    | '0' :: 'b' :: ds => number? 2 ds
    | '0' :: 'x' :: ds => number? 16 ds
    | ['0'] => some 0
    | '0' :: ds => number? 8 ds
    | ds =>
      match ds.splitBy fun a b => a != ':' && b != ':' with
      | [_] => number? 10 ds
      | parts =>
        let parts := parts.filter (· != [':'])
        if ds.getLast? == some ':' then none
        else
          let first ← number? 10 (parts.headD [])
          parts.tail.foldlM (fun n p => do
            let d ← number? 10 p
            if p.length ≤ 2 ∧ d < 60 then some (n * 60 + d) else none) first
  return if negative then -(n : Int) else n

/-- The value of a plain scalar. A lone `=` has none. -/
def plainValue? {κ : Type} (text : String) : Option (Value κ) :=
  if ["", "~", "null", "Null", "NULL"].contains text then some .null
  else if ["yes", "Yes", "YES", "true", "True", "TRUE", "on", "On", "ON"].contains text then
    some (.bool true)
  else if ["no", "No", "NO", "false", "False", "FALSE", "off", "Off", "OFF"].contains text then
    some (.bool false)
  else if text = "=" ∨ text = "<<" then none
  else match integer? text.toList with
    | some n => some (.int n)
    | none => some (.str text)

end SchemaTree.Yaml
